/-
# Narrowing parameters once

A parameter that is wrapped is the argument of `String`, which converts nothing and is no method.
What stands in front of it and what stands behind it is consumed by what it was consumed by before
(`unnarrowedAt_of_wrap`): what consumes a parameter never holds the letter that `String` starts
with, and no parameter goes on with a parenthesis.  So wrapping all the parameters that are consumed
as they are, one in front of the other, leaves none (`not_unnarrowedAt_wrappedText`).

Wrapping moves everything behind it, so the induction goes from the last parameter to the first: a
parameter is wrapped in a text whose part behind is finished already, and the places in front of it
stay what they are.  `bareText` and `wrappedText` write a text as pieces, each a stretch that is
left alone and a parameter, so that the text before and the text after can be compared piece by
piece; `settles_narrowParameters` is the statement about a whole run of the repair.
-/
import ServiceGate.Proofs.Rule.Unnarrowed
import ServiceGate.Repair.Statements

namespace ServiceGate

open Pattern
open Text (size)

variable {t u p w q x y z front arg back : Text} {n : Nat} {a : Nat × Nat}

/-! ## What consumes a parameter ends in front of the next one -/

theorem notMem_of_isSpace {c : Char} (hc : CharClass.isSpace c = false)
    (h : ∀ d ∈ w, CharClass.isSpace d = true) : c ∉ w := fun hmem => by
  rw [h c hmem] at hc
  cases hc

theorem EndsArgument.inFront (h : EndsArgument (z ++ 'S' :: x)) (y : Text) :
    EndsArgument (z ++ y) := by
  obtain ⟨blanks, hblanks, sign, hsign, back, hcut⟩ := h
  refine ⟨blanks, hblanks, sign, hsign, ?_⟩
  refine (Text.prefix_of_notMem hcut fun hmem => ?_).trans (List.prefix_append z y)
  rcases List.mem_append.mp hmem with hmem | hmem
  · exact notMem_of_isSpace (by decide) hblanks hmem
  · rw [← List.mem_singleton.mp hmem] at hsign
    exact absurd hsign (by decide)

theorem CallsMethod.inFront (h : CallsMethod (z ++ 'S' :: x)) (y : Text) :
    CallsMethod (z ++ y) := by
  obtain ⟨k, hk, back, hcut⟩ := h
  have hletters : ∀ k ∈ stringMethods, 'S' ∉ '.' :: k ++ ['('] := by decide
  exact ⟨k, hk, (Text.prefix_of_notMem hcut (hletters k hk)).trans (List.prefix_append z y)⟩

theorem Consumed.inFront (h : Consumed p (z ++ 'S' :: x)) (y : Text) : Consumed p (z ++ y) := by
  cases h with
  | converted hp hfront hcall hq => exact .converted hp hfront hcall (hq.inFront y)
  | called hp hq => exact .called hp (hq.inFront y)

theorem Consumed.exists_head (h : Consumed p q) :
    ∃ c rest, q = c :: rest ∧ isNameChar c = false ∧ c ≠ '(' := by
  cases h with
  | converted _ _ _ hq =>
      obtain ⟨blanks, hblanks, sign, hsign, back, rfl⟩ := hq
      have hhead := head_of_conversion hblanks hsign
      cases blanks with
      | nil => exact ⟨sign, back, rfl, (hhead sign (by simp)).1, (hhead sign (by simp)).2.2⟩
      | cons c blanks => exact ⟨c, _, rfl, (hhead c (by simp)).1, (hhead c (by simp)).2.2⟩
  | called _ hq =>
      obtain ⟨k, -, back, rfl⟩ := hq
      exact ⟨'.', _, rfl, by decide, by decide⟩

/-! ## One parameter -/

theorem notPrefix_wrapper : ∀ r ∈ "String(".toList.tails, r ≠ [] →
    ¬ (r <+: "req.".toList ∨ "req.".toList <+: r) := by
  decide

theorem notSuffix_wrapper : ∀ k ∈ converters, ¬
    (k <:+ "String".toList ∨ "String".toList <:+ k) := by
  decide

theorem not_consumed_wrapped : ¬ Consumed (front ++ "String(".toList) (')' :: back) := by
  intro h
  cases h with
  | @converted front' call hp _ hcall _ =>
      obtain ⟨k, hk, blanks, rfl, hblanks⟩ := hcall
      have hwrapper : "String(".toList = "String".toList ++ ['('] := by decide
      rw [hwrapper, ← List.append_assoc] at hp
      rcases List.eq_nil_or_concat blanks with rfl | ⟨blanks, c, rfl⟩
      · rw [← List.append_assoc] at hp
        have hnames := (List.append_singleton_inj.mp hp).1
        refine notSuffix_wrapper k hk (List.suffix_or_suffix_of_suffix
          (List.suffix_append front' k) ⟨front, hnames⟩)
      · rw [List.concat_eq_append, ← List.cons_append, ← List.append_assoc, ← List.append_assoc]
          at hp
        have hspace := hblanks c (by simp)
        rw [← (List.append_singleton_inj.mp hp).2] at hspace
        exact absurd hspace (by decide)
  | called _ hq =>
      obtain ⟨k, -, rest, hrest⟩ := hq
      exact absurd (List.cons.inj hrest).1 (by decide)

theorem unnarrowed_of_front (hx : x ≠ [])
    (h : Unnarrowed (p ++ x ++ ("String(".toList ++ (arg ++ ')' :: back))) p w q) :
    ∃ q', Unnarrowed (p ++ x ++ (arg ++ back)) p w q' := by
  have hcut := h.cut
  rw [List.append_assoc] at hcut
  have hcut := List.append_cancel_left hcut
  have hletter : "String(".toList = 'S' :: "tring(".toList := by decide
  rcases List.append_eq_append_iff.mp hcut with ⟨y, rfl, hy⟩ | ⟨z, rfl, rfl⟩
  · -- the parameter would go on into the name, and so to its end, to the parenthesis
    obtain ⟨c, rest, rfl, hname, hparen⟩ := h.consumed.exists_head
    have hchars := parameter_chars (isParameter_of_spells h.parameter)
    have hfree : '(' ∉ y := fun hmem =>
      (hchars '(' (List.mem_append_right x hmem)).elim (absurd · (by decide)) (absurd · (by decide))
    have hwrapper : "String(".toList = "String".toList ++ ['('] := by decide
    rw [hwrapper, List.append_assoc] at hy
    obtain ⟨y', hy'⟩ := Text.prefix_of_notMem hy.symm hfree
    rw [← hy', List.append_assoc] at hy
    have hrest := List.append_cancel_left hy
    cases y' with
    | nil => exact absurd (List.cons.inj hrest).1.symm hparen
    | cons d y' =>
        obtain ⟨rfl, -⟩ := List.cons.inj hrest
        have hletters : ∀ c ∈ "String".toList, isNameChar c = true := by decide
        rw [hletters d (hy' ▸ List.mem_append_right y List.mem_cons_self)] at hname
        cases hname
  · refine ⟨z ++ (arg ++ back), ⟨by simp, h.parameter, ?_⟩⟩
    have hconsumed := h.consumed
    rw [hletter, List.cons_append] at hconsumed
    exact hconsumed.inFront _

theorem Consumed.behind (hback : EndsParameter (z ++ (w ++ q))) (hw : Spells Forbidden.parameter w)
    (h : Consumed (x ++ ')' :: z) q) (y : Text) : Consumed (y ++ z) q := by
  have hnotName : ∀ {c rest}, z ++ (w ++ q) = c :: rest → isNameChar c = false := fun hcut =>
    hback.name _ (by rw [hcut]; rfl)
  cases h with
  | @converted front call hp hfront hcall hq =>
      have hclose : ')' ∉ call := by
        obtain ⟨k, hk, blanks, rfl, hblanks⟩ := hcall
        have hnames : ∀ k ∈ converters, ')' ∉ k := by decide
        simp only [List.mem_append, List.mem_cons, not_or]
        exact ⟨hnames k hk, by decide, notMem_of_isSpace (by decide) hblanks⟩
      obtain ⟨z', rfl⟩ := Text.suffix_of_notMem hp.symm hclose
      have hsame : front = x ++ ')' :: z' := by
        have hcut : front ++ call = x ++ ')' :: z' ++ call := by
          rw [← hp]
          simp
        exact List.append_cancel_right hcut
      have hcut : y ++ (z' ++ call) = y ++ z' ++ call := (List.append_assoc ..).symm
      refine .converted hcut ?_ hcall hq
      cases z' with
      | nil =>
          obtain ⟨c, rest, rfl, hname, -⟩ := hcall.exists_cons
          rw [hnotName rfl] at hname
          cases hname
      | cons d z' =>
          rw [hsame, List.append_cons, wordStart_append (List.cons_ne_nil d z')] at hfront
          exact (wordStart_append (List.cons_ne_nil d z')).mpr hfront
  | called hp hq =>
      refine .called ?_ hq
      cases z with
      | nil =>
          obtain ⟨rest, rfl⟩ := head_of_parameter hw
          exact absurd (hnotName rfl) (by decide)
      | cons d z =>
          rw [List.append_cons, wordStart_append (List.cons_ne_nil d z)] at hp
          exact (wordStart_append (List.cons_ne_nil d z)).mpr hp

theorem endsParameter_close (back : Text) : EndsParameter (')' :: back) where
  name c hc := by
    rw [← Option.some.inj hc]
    decide
  member q' hq' := absurd (List.cons.inj hq').1 (by decide)

theorem exists_behind (harg : Spells Forbidden.parameter arg)
    (hz : arg ++ ')' :: back = z ++ (w ++ q))
    (h : Unnarrowed t (front ++ ("String(".toList ++ z)) w q) : ∃ z', z = arg ++ ')' :: z' := by
  have houter : Whole (arg ++ ')' :: back) 0 (size arg) :=
    ⟨[], arg, ')' :: back, rfl, rfl, (Nat.zero_add _).symm, isParameter_of_spells harg,
      endsParameter_close back⟩
  have hinner : Whole (arg ++ ')' :: back) (size z) (size z + size w) :=
    ⟨z, w, q, by rw [hz, List.append_assoc], rfl, rfl, isParameter_of_spells h.parameter,
      h.consumed.endsParameter⟩
  rcases eq_or_le_of_whole houter hinner (Nat.zero_le _) with ⟨hstart, hstop⟩ | hle
  · obtain rfl : z = [] := Text.eq_nil_of_size hstart.symm
    rw [List.nil_append] at hz
    have hnil : size ([] : Text) = 0 := rfl
    obtain ⟨rfl, rfl⟩ := Text.append_inj_of_size hz (by omega)
    have hconsumed := h.consumed
    rw [List.append_nil] at hconsumed
    exact absurd hconsumed not_consumed_wrapped
  · obtain ⟨z', rfl, hz'⟩ := Text.exists_middle hz hle
    cases z' with
    | nil =>
        obtain ⟨rest, rfl⟩ := head_of_parameter h.parameter
        exact absurd (List.cons.inj hz').1 (by decide)
    | cons d z' =>
        obtain ⟨rfl, -⟩ := List.cons.inj hz'
        exact ⟨z', rfl⟩

theorem size_wrapped (w : Text) : size ("String(".toList ++ (w ++ [')'])) = size w + 8 := by
  have hsize : size "String(".toList = 7 ∧ size [')'] = 1 := by decide
  rw [Text.size_append, Text.size_append]
  omega

/-- Behind a parameter that is wrapped, code is code. -/
theorem isCodeAt_wrap (harg : IsOrdinary arg)
    (hcode : (Scan.Source.of (front ++ (arg ++ back))).isCodeAt (size front) = true) (n : Nat) :
    (Scan.Source.of (front ++ ("String(".toList ++ (arg ++ ')' :: back)))).isCodeAt
      (size (front ++ arg) + 8 + n) = (Scan.Source.of (front ++ (arg ++ back))).isCodeAt
        (size (front ++ arg) + n) := by
  have hnew := (replaces_wrapped harg).new_flat
  have hsize := size_wrapped arg
  have htext : front ++ ("String(".toList ++ (arg ++ ')' :: back)) =
      front ++ 'S' :: ("tring(".toList ++ (arg ++ [')'])) ++ back := by simp
  have hplace :
      size (front ++ arg) + 8 = size (front ++ 'S' :: ("tring(".toList ++ (arg ++ [')']))) := by
    rw [Text.size_append, Text.size_append, Nat.add_assoc]
    exact congrArg (size front + ·) hsize.symm
  obtain ⟨c, arg, rfl⟩ := List.exists_cons_of_ne_nil harg.ne_nil
  rw [htext, hplace]
  have hword := Scan.inCode_of_isCodeAt hcode
  refine (hword.isCodeAt_flat (q := back) harg.flat ?_ (by decide) n).symm.trans ?_
  · intro x hx
    exact hnew x (by simpa using hx)
  · rw [List.append_assoc]

/-- Wrapping a parameter in code that is consumed leaves what is in front of it and what is behind
it. -/
theorem unnarrowedAt_of_wrap (harg : Spells Forbidden.parameter arg) (hback : EndsParameter back)
    (hcode : (Scan.Source.of (front ++ (arg ++ back))).isCodeAt (size front) = true)
    (h : UnnarrowedAt (front ++ ("String(".toList ++ (arg ++ ')' :: back))) n) :
    (n < size front ∧ UnnarrowedAt (front ++ (arg ++ back)) n) ∨
      ∃ k, n = k + 8 ∧ size (front ++ arg) ≤ k ∧ UnnarrowedAt (front ++ (arg ++ back)) k := by
  obtain ⟨p, w, q, hun, rfl, hplace⟩ := h
  have hcut := hun.cut
  obtain ⟨rest, hw⟩ := head_of_parameter hun.parameter
  have hreq : "req.".toList = 'r' :: "eq.".toList := by decide
  rcases Nat.lt_or_ge (size p) (size front) with hlt | hge
  · obtain ⟨x, rfl, -⟩ := Text.exists_middle hcut.symm (Nat.le_of_lt hlt)
    have hx : x ≠ [] := by
      rintro rfl
      rw [List.append_nil] at hlt
      exact absurd hlt (Nat.lt_irrefl _)
    obtain ⟨q', hq'⟩ := unnarrowed_of_front hx hun
    refine .inl ⟨hlt, p, w, q', hq', rfl, ?_⟩
    rw [hcut, hw, hreq] at hplace
    rw [hq'.cut, hw, hreq]
    exact Scan.isCodeAt_front hplace (by decide) (by decide) _
  · obtain ⟨x, rfl, hx⟩ := Text.exists_middle hcut hge
    by_cases hshort : size "String(".toList ≤ size x
    · obtain ⟨z, rfl, hz⟩ := Text.exists_middle hx hshort
      obtain ⟨z', rfl⟩ := exists_behind harg hz hun
      rw [List.append_assoc, List.cons_append] at hz
      obtain ⟨-, rfl⟩ := List.cons.inj (List.append_cancel_left hz)
      have hconsumed : Consumed (front ++ arg ++ z') q := by
        refine Consumed.behind hback hun.parameter (x := front ++ ("String(".toList ++ arg)) ?_ _
        have h := hun.consumed
        simpa only [List.append_assoc] using h
      refine .inr ⟨size (front ++ arg ++ z'), ?_, ?_, front ++ arg ++ z', w, q,
        ⟨by simp, hun.parameter, hconsumed⟩, rfl, ?_⟩
      · have hsize : size "String(".toList = 7 ∧ ')'.utf8Size = 1 := by decide
        simp only [Text.size_append, size]
        omega
      · rw [Text.size_append _ z']
        omega
      · have hkept := isCodeAt_wrap (isParameter_of_spells harg).ordinary hcode (size z')
        rw [← Text.size_append] at hkept
        rw [← hkept]
        refine Eq.trans (congrArg _ ?_) hplace
        have hwrapped := size_wrapped arg
        simp only [Text.size_append, size] at hwrapped ⊢
        omega
    · -- the parameter would start in the name that is put in front
      obtain ⟨y, hy, hrest⟩ := Text.exists_middle hx.symm (Nat.le_of_not_le hshort)
      have hne : y ≠ [] := by
        rintro rfl
        rw [hy, List.append_nil] at hshort
        exact hshort (Nat.le_refl _)
      refine absurd ?_ (notPrefix_wrapper y ((List.mem_tails _ _).mpr ⟨x, hy.symm⟩) hne)
      have hwhole : y <+: w ++ q := hrest ▸ List.prefix_append _ _
      refine List.prefix_or_prefix_of_prefix hwhole ?_
      rw [hw, List.append_assoc]
      exact List.prefix_append _ _

/-! ## One parameter after the other -/

/-- Pieces of a text, each with what follows it up to the next one, as they are. -/
def bareText (pieces : List (Text × Text)) (rest : Text) : Text :=
  pieces.flatMap (fun x => x.1 ++ x.2) ++ rest

/-- The same pieces, the second part of each wrapped. -/
def wrappedText (pieces : List (Text × Text)) (rest : Text) : Text :=
  pieces.flatMap (fun x => x.1 ++ ("String(".toList ++ x.2 ++ ")".toList)) ++ rest

/-- Where the second parts stand in the text behind an offset. -/
def pieceSpans : Nat → List (Text × Text) → List (Nat × Nat)
  | _, [] => []
  | n, (x, w) :: pieces =>
    (n + size x, n + size x + size w) :: pieceSpans (n + size x + size w) pieces

variable {pieces : List (Text × Text)} {rest : Text} {spans : List (Nat × Nat)}

theorem bareText_cons (x w : Text) (pieces : List (Text × Text)) (rest : Text) :
    bareText ((x, w) :: pieces) rest = x ++ (w ++ bareText pieces rest) := by
  simp [bareText]

theorem wrappedText_cons (x w : Text) (pieces : List (Text × Text)) (rest : Text) :
    wrappedText ((x, w) :: pieces) rest = x ++
    ("String(".toList ++ (w ++ ')' :: wrappedText pieces rest)) := by
  simp [wrappedText]

/-- Spans in order cut a text into pieces. -/
theorem exists_pieces : ∀ (spans : List (Nat × Nat)) (front : Text) {back : Text},
    (∀ a ∈ spans, Text.Bounds (front ++ back) a.1 a.2) → (∀ a ∈ spans, size front ≤ a.1) →
      spans.Pairwise (fun a b => a.2 ≤ b.1) →
        ∃ pieces rest, back = bareText pieces rest ∧ pieceSpans (size front) pieces = spans
  | [], _, back, _, _, _ => ⟨[], back, rfl, rfl⟩
  | a :: spans, front, back, hbounds, hbehind, horder => by
      obtain ⟨ha, hbounds⟩ := List.forall_mem_cons.mp hbounds
      obtain ⟨hfirst, horder⟩ := List.pairwise_cons.mp horder
      obtain ⟨p, w, q, hcut, hstart, hstop⟩ := Text.bounds_iff.mp ha
      rw [List.append_assoc] at hcut
      obtain ⟨x, rfl, rfl⟩ := Text.exists_middle hcut (hstart ▸ hbehind a List.mem_cons_self)
      have hfront : size (front ++ x ++ w) = a.2 := by rw [hstop, Text.size_append _ w]
      obtain ⟨pieces, rest, rfl, hspans⟩ := exists_pieces spans (front ++ x ++ w)
        (fun b hb => by simpa using hbounds b hb) (fun b hb => hfront ▸ hfirst b hb) horder
      refine ⟨(x, w) :: pieces, rest, (bareText_cons x w pieces rest).symm, ?_⟩
      rw [Text.size_append, Text.size_append] at hspans
      rw [pieceSpans, hspans]
      refine congrArg (· :: spans) (Prod.ext ?_ ?_)
      · rw [hstart, Text.size_append]
      · rw [hstop, Text.size_append]

/-- Wrapping the spans of pieces wraps the pieces. -/
theorem foldr_wrapSpan : ∀ (pieces : List (Text × Text)) (front rest : Text),
    (pieceSpans (size front) pieces).foldr (fun a out => Repair.wrapSpan out a)
      (front ++ bareText pieces rest) = front ++ wrappedText pieces rest
  | [], _, _ => rfl
  | (x, w) :: pieces, front, rest => by
      have hrest := foldr_wrapSpan pieces (front ++ x ++ w) rest
      have htext : front ++ x ++ w ++ bareText pieces rest = front ++
          bareText ((x, w) :: pieces) rest := by
        rw [bareText_cons]
        simp only [List.append_assoc]
      rw [htext, Text.size_append, Text.size_append] at hrest
      rw [pieceSpans, List.foldr_cons, hrest, Repair.wrapSpan, ← Text.size_append,
        Text.between_append, splice_append, wrappedText_cons]
      simp

theorem endsParameter_wrappedText (hpieces : ∀ x ∈ pieces.head?, Spells Forbidden.parameter x.2)
    (h : EndsParameter (bareText pieces rest)) : EndsParameter (wrappedText pieces rest) := by
  cases pieces with
  | nil => exact h
  | cons piece pieces =>
      obtain ⟨x, w⟩ := piece
      obtain ⟨tail, hw⟩ := head_of_parameter (hpieces _ rfl)
      have hw : w = "req.".toList ++ tail := hw
      rw [bareText_cons, hw] at h
      rw [wrappedText_cons]
      cases x with
      | nil => exact absurd (h.name 'r' rfl) (by decide)
      | cons c x =>
          refine ⟨h.name, fun q' hq' kind hkind hstarts => ?_⟩
          obtain ⟨rfl, rfl⟩ := List.cons.inj hq'
          obtain ⟨back, hback⟩ := hstarts
          have hletters : ∀ kind ∈ parameterKinds, 'S' ∉ kind := by decide
          refine h.member _ rfl kind hkind ?_
          exact (Text.prefix_of_notMem (t := x) hback (hletters kind hkind)).trans
            (List.prefix_append _ _)

theorem unnarrowed_of_mem_parameterSpans
    (h : (size front, size front + size arg) ∈ Repair.parameterSpans
      (.of (front ++ (arg ++ back)))) :
    Unnarrowed (front ++ (arg ++ back)) front arg back ∧
      (Scan.Source.of (front ++ (arg ++ back))).isCodeAt (size front) = true := by
  obtain ⟨p, w, q, hun, hcode, heq⟩ := mem_parameterSpans_iff.mp h
  obtain ⟨hstart, hstop⟩ := Prod.mk.inj heq
  obtain ⟨rfl, hrest⟩ := Text.append_inj_of_size hun.cut hstart
  obtain ⟨rfl, rfl⟩ := Text.append_inj_of_size hrest (by omega)
  exact ⟨hun, hcode⟩

/-- The pieces behind a part of the text are spans to wrap. -/
def SpansOf (front : Text) (pieces : List (Text × Text)) (rest : Text) : Prop :=
  ∀ a ∈ pieceSpans (size front) pieces,
  a ∈ Repair.parameterSpans (.of (front ++ bareText pieces rest))

theorem SpansOf.cons (h : SpansOf front ((x, arg) :: pieces) rest) :
    (Unnarrowed (front ++ x ++ (arg ++ bareText pieces rest)) (front ++ x) arg
      (bareText pieces rest) ∧
      (Scan.Source.of (front ++ x ++ (arg ++ bareText pieces rest))).isCodeAt (size (front ++ x)) =
      true) ∧ SpansOf (front ++ x ++ arg) pieces rest := by
  have htext : front ++ bareText ((x, arg) :: pieces) rest =
      front ++ x ++ (arg ++ bareText pieces rest) := by
    rw [bareText_cons, List.append_assoc]
  rw [SpansOf, pieceSpans, List.forall_mem_cons, htext, ← Text.size_append] at h
  refine ⟨unnarrowed_of_mem_parameterSpans h.1, fun a ha => ?_⟩
  rw [List.append_assoc]
  exact h.2 a (by rwa [Text.size_append] at ha)

/-- What is consumed with the pieces wrapped is consumed in the text as it is, and is none of the
pieces. -/
theorem exists_unnarrowedAt_bareText : ∀ (pieces : List (Text × Text)) (front : Text) {rest :
    Text} {n : Nat}, SpansOf front pieces rest → UnnarrowedAt (front ++ wrappedText pieces rest) n →
      ∃ k, UnnarrowedAt (front ++ bareText pieces rest) k ∧
        (∀ a ∈ pieceSpans (size front) pieces, k ≠ a.1) ∧ (n < size front → k = n) ∧
          (size front ≤ n → size front ≤ k)
  | [], _, _, n, _, h => ⟨n, h, by simp [pieceSpans], fun _ => rfl, id⟩
  | (x, arg) :: pieces, front, rest, n, hspans, h => by
      obtain ⟨⟨hun, hcode⟩, htail⟩ := hspans.cons
      have hpieces : ∀ y ∈ pieces.head?, Spells Forbidden.parameter y.2 := by
        cases pieces with
        | nil => simp
        | cons y pieces =>
            obtain ⟨⟨hun', -⟩, -⟩ := htail.cons
            exact fun z hz => Option.some.inj hz ▸ hun'.parameter
      have hback := endsParameter_wrappedText hpieces hun.consumed.endsParameter
      obtain ⟨tail, harg⟩ := head_of_parameter hun.parameter
      have hreq : "req.".toList = 'r' :: "eq.".toList := by decide
      have hplace : (Scan.Source.of (front ++ x ++ (arg ++ wrappedText pieces rest))).isCodeAt
          (size (front ++ x)) = true := by
        rw [harg, hreq] at hcode ⊢
        exact Scan.isCodeAt_front hcode (by decide) (by decide) _
      rw [wrappedText_cons, ← List.append_assoc] at h
      -- the pieces behind are wrapped first, then this one
      obtain ⟨k, hk, hn⟩ : ∃ k, UnnarrowedAt (front ++ x ++ (arg ++ wrappedText pieces rest)) k ∧
          (n = k ∧ k < size (front ++ x) ∨ n = k + 8 ∧ size (front ++ x ++ arg) ≤ k) := by
        rcases unnarrowedAt_of_wrap hun.parameter hback hplace h with ⟨hlt, h⟩ | ⟨k, hk, hle, h⟩
        · exact ⟨n, h, .inl ⟨rfl, hlt⟩⟩
        · exact ⟨k, h, .inr ⟨hk, hle⟩⟩
      rw [← List.append_assoc] at hk
      obtain ⟨k', hk', hne, hfront, hbehind⟩ := exists_unnarrowedAt_bareText pieces _ htail hk
      have hlt := hun.whole.start_lt
      rw [Text.size_append _ arg] at hfront hbehind hn
      refine ⟨k', by rwa [bareText_cons, ← List.append_assoc, ← List.append_assoc], ?_, ?_, ?_⟩
      · rw [pieceSpans, List.forall_mem_cons, ← Text.size_append, ← Text.size_append]
        refine ⟨?_, hne⟩
        dsimp only
        omega
      · rw [Text.size_append] at hn hfront hbehind
        omega
      · rw [Text.size_append] at hn hfront hbehind
        omega

/-! ## Narrowing -/

theorem exists_span_of_unnarrowedAt (h : UnnarrowedAt t n) : ∃ a ∈ Repair.parameterSpans (.of t),
    a.1 = n := by
  obtain ⟨p, w, q, hun, rfl, hcode⟩ := h
  exact ⟨_, mem_parameterSpans_iff.mpr ⟨p, w, q, hun, hcode, rfl⟩, rfl⟩

theorem parameterSpans_eq_nil_iff : Repair.parameterSpans (.of t) = [] ↔ ∀ n,
    ¬ UnnarrowedAt t n := by
  rw [List.eq_nil_iff_forall_not_mem]
  refine ⟨fun h n hn => ?_, fun h a ha => ?_⟩
  · obtain ⟨a, ha, -⟩ := exists_span_of_unnarrowedAt hn
    exact h a ha
  · obtain ⟨p, w, q, hun, hcode, -⟩ := mem_parameterSpans_iff.mp ha
    exact h _ ⟨p, w, q, hun, rfl, hcode⟩

theorem exists_bareText (t : Text) : ∃ pieces rest, t = bareText pieces rest ∧
    pieceSpans 0 pieces = Repair.parameterSpans (.of t) :=
  exists_pieces _ [] (fun _ ha => (whole_of_mem_parameterSpans ha).bounds)
    (fun a _ => Nat.zero_le a.1) (pairwise_parameterSpans t)

/-- With all the parameters wrapped that are consumed as they are, none is. -/
theorem not_unnarrowedAt_wrappedText
    (hspans : pieceSpans 0 pieces = Repair.parameterSpans (.of (bareText pieces rest)))
    (n : Nat) : ¬ UnnarrowedAt (wrappedText pieces rest) n := by
  intro h
  obtain ⟨k, hk, hne, -⟩ := exists_unnarrowedAt_bareText pieces []
    (fun a ha => hspans ▸ ha) h
  obtain ⟨a, ha, rfl⟩ := exists_span_of_unnarrowedAt hk
  exact hne a (hspans.symm ▸ ha) rfl

theorem narrowParameters_eq (t : Text) : Repair.narrowParameters t =
    if Repair.parameterSpans (.of t) = [] then none
    else some ((Repair.parameterSpans (.of t)).foldr (fun span out =>
      Repair.wrapSpan out span) t) := by
  rw [Repair.narrowParameters]
  cases Repair.parameterSpans (.of t) with
  | nil => rfl
  | cons a spans => rw [if_neg (List.cons_ne_nil a spans)]

/-- Narrowing wraps the parameters and does nothing else; none is left to wrap. -/
theorem exists_wrappedText (hu : Repair.narrowParameters t = some u) : ∃ pieces rest,
    t = bareText pieces rest ∧
    u = wrappedText pieces rest ∧ pieceSpans 0 pieces = Repair.parameterSpans (.of t) ∧
      ∀ n, ¬ UnnarrowedAt u n := by
  obtain ⟨pieces, rest, rfl, hspans⟩ := exists_bareText t
  have hwrapped : u = wrappedText pieces rest := by
    have hfold := foldr_wrapSpan pieces [] rest
    rw [show size ([] : Text) = 0 from rfl, hspans, List.nil_append, List.nil_append] at hfold
    rw [narrowParameters_eq] at hu
    split_ifs at hu
    rw [← Option.some.inj hu, hfold]
  have hnone := not_unnarrowedAt_wrappedText hspans
  rw [← hwrapped] at hnone
  exact ⟨pieces, rest, rfl, hwrapped, hspans, hnone⟩

/-- Narrowing clears what the rule reports, in one pass, and does nothing but wrap the parameters.
-/
theorem settles_narrowParameters {rule : Rule} (hrule : rule ∈ Rule.all)
    (hcode : rule.code = "UNNARROWED_PARAM") (t : Text) :
    match Repair.narrowParameters t with
    | none => ∀ ctx : Context, ctx.source = .of t → rule.detector.findings ctx = .ok []
    | some u => (∀ ctx : Context, ctx.source = .of u → rule.detector.findings ctx = .ok []) ∧
        Repair.narrowParameters u = none ∧ Scan.balanced u = Scan.balanced t ∧
          ∃ pieces rest, t = bareText pieces rest ∧ u = wrappedText pieces rest ∧
            pieceSpans 0 pieces = Repair.parameterSpans (.of t) := by
  cases hu : Repair.narrowParameters t with
  | none =>
      rw [narrowParameters_eq] at hu
      have hnone : Repair.parameterSpans (.of t) = [] := by
        by_contra hne
        rw [if_neg hne] at hu
        cases hu
      exact fun ctx hctx =>
        findings_eq_nil_of_narrowed hrule hcode hctx (parameterSpans_eq_nil_iff.mp hnone)
  | some u =>
      obtain ⟨pieces, rest, ht, hwrapped, hspans, hnone⟩ := exists_wrappedText hu
      refine ⟨fun ctx hctx => findings_eq_nil_of_narrowed hrule hcode hctx hnone, ?_,
        Repair.balanced_narrowParameters hu, pieces, rest, ht, hwrapped, hspans⟩
      rw [narrowParameters_eq, if_pos (parameterSpans_eq_nil_iff.mpr hnone)]

def bothForms : Text := "const n = parseInt( req.query.n, 10) + req.params.id.trim();\n".toList

theorem settles_narrowParameters_forms : ∃ rule ∈ Rule.all, rule.code = "UNNARROWED_PARAM" ∧
    ∃ u, Repair.narrowParameters bothForms = some u ∧ Repair.narrowParameters u = none ∧
      ∀ ctx : Context, ctx.source = .of u → rule.detector.findings ctx = .ok [] := by
  obtain ⟨rule, hrule, hcode⟩ : ∃ rule ∈ Rule.all, rule.code = "UNNARROWED_PARAM" := by decide
  have hspan :
      ∃ m ∈ Forbidden.convertedParameter.all bothForms ++ Forbidden.parameterMethod.all bothForms,
      ∃ g ∈ m.group? 1, (Scan.Source.of bothForms).isCodeAt g.start = true := by decide
  obtain ⟨m, hm, g, hg, hplace⟩ := hspan
  have hmem := mem_parameterSpans.mpr ⟨m, hm, g, hg, hplace, rfl⟩
  have h := settles_narrowParameters hrule hcode bothForms
  rw [narrowParameters_eq, if_neg (List.ne_nil_of_mem hmem)] at h ⊢
  exact ⟨rule, hrule, hcode, _, rfl, h.2.1, h.1⟩

end ServiceGate
