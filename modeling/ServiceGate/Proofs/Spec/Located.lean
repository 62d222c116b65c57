/-
# A specification that is found again

A specification is `Located` in a text if the declarations of objects in front of it close in front
of it as well.  Then what stands behind its brace is of no account for them, and no match reaches
over the brace (`apart_brace`).  So another literal in the place of its own, with the entry that
tells a specification, is found under the same name at the same place (`Located.replaced`).

The specification is the first declaration of an object with one of two entries, so to find another
one in its place two things must be kept: the declarations in front of it must be rejected as
before, and its own must be found again.  The first is why declarations in front have to close there
(`Foremost`): one that runs on over the specification could be read otherwise once that is changed.
`Front` is a text cut behind the brace, with what was found in it, and the rest is a statement about
cut texts.
-/
import ServiceGate.Proofs.ObjectLiteral.Edited
import ServiceGate.Proofs.Pattern.Stretches
import ServiceGate.Proofs.Spec.Named

namespace ServiceGate

open Scan Pattern ObjectLiteral
open Text (size)

variable {t p q u v w front back pre blanks rest : Text} {n : Nat} {m : Match} {spec : Spec}
  {o : ObjectLiteral}

namespace Spec

/-! ## Declarations and the brace of one of them -/

theorem eq_of_blanks {u w : Text} (hu : ∀ c ∈ u, CharClass.isSpace c = true)
    (hw : ∀ c ∈ w, CharClass.isSpace c = true) (h : u ++ '\x7b' :: p = w ++ '\x7b' :: q) :
    u = w := by
  have htake : ∀ {u : Text} (p : Text), (∀ c ∈ u, CharClass.isSpace c = true) →
      (u ++ '\x7b' :: p).takeWhile CharClass.isSpace = u := fun p hu => by
    rw [List.takeWhile_append_of_pos hu, List.takeWhile_cons_of_neg (by decide), List.append_nil]
  rw [← htake p hu, h, htake q hw]

/-- A declaration of an object: words that start with a character of a name, the sign of equality
and a brace. -/
structure Assigns (t : Text) (m : Match) (front head blanks back : Text) : Prop where
  cut : t = front ++ (head ++ '=' :: (blanks ++ '\x7b' :: back))
  start : m.start = size front
  stop : m.stop = size (front ++ (head ++ '=' :: (blanks ++ ['\x7b'])))
  opens : ∃ c w, head = c :: w ∧ isNameChar c = true
  equals : '=' ∉ head
  blanks : ∀ c ∈ blanks, CharClass.isSpace c = true

theorem exists_assigns (hm : m ∈ declaration.all t) :
    ∃ front head blanks back, Assigns t m front head blanks back := by
  obtain ⟨front, keyword, gap, name, ascription, blanks, back, hcut, hstart, hstop, htext, -, -,
      hwords⟩ := exists_words hm
  have hparts : m.text = (keyword ++ (gap ++ (name ++ ascription))) ++
      '=' :: (blanks ++ ['\x7b']) := by
    rw [htext]
    simp
  refine ⟨front, keyword ++ (gap ++ (name ++ ascription)), blanks, back, ?_, hstart, ?_, ?_, ?_,
    hwords.blanks⟩
  · rw [hcut, hparts]
    simp
  · rw [hstop, hparts]
  · obtain ⟨hne, hchars⟩ := declarers_chars keyword hwords.keyword
    obtain ⟨c, w, rfl⟩ := List.exists_cons_of_ne_nil hne
    exact ⟨c, _, rfl, hchars c List.mem_cons_self⟩
  · have hname : ∀ w ∈ declarers, '=' ∉ w := by decide
    rw [List.mem_append, List.mem_append, List.mem_append]
    rintro (hmem | hmem | hmem | hmem)
    · exact hname keyword hwords.keyword hmem
    · exact (ne_of_isSpace _ (hwords.gap.2 _ hmem)).1 rfl
    · exact absurd (hwords.name.chars _ hmem) (by decide)
    · exact (hwords.unended _ hmem).1 rfl

theorem notMem_blanks (hblanks : ∀ c ∈ blanks, CharClass.isSpace c = true) :
    '=' ∉ blanks ++ ['\x7b'] := by
  rw [List.mem_append]
  rintro (hmem | hmem)
  · exact (ne_of_isSpace _ (hblanks _ hmem)).1 rfl
  · exact absurd hmem (by decide)

/-- No declaration starts between a sign of equality and the brace behind it. -/
theorem Assigns.not_between {front head blanks' back : Text}
    (h : Assigns (pre ++ '=' :: (blanks ++ '\x7b' :: rest)) m front head blanks' back)
    (hblanks : ∀ c ∈ blanks, CharClass.isSpace c = true)
    (hlt : m.start < size (pre ++ '=' :: (blanks ++ ['\x7b']))) : ¬ pre ++ ['='] <+: front := by
  rintro ⟨z, rfl⟩
  obtain ⟨c, w, rfl, hc⟩ := h.opens
  have hbehind : z ++ (c :: w ++ '=' :: (blanks' ++ '\x7b' :: back)) =
      (blanks ++ ['\x7b']) ++ rest := by
    have hcut := h.cut
    simp only [List.append_assoc, List.cons_append] at hcut ⊢
    exact (List.cons.inj (List.append_cancel_left hcut)).2.symm
  rw [h.start] at hlt
  simp only [Text.size_append, Text.size] at hlt
  obtain ⟨x, hx, hrest⟩ := Text.exists_middle hbehind (by
    simp only [Text.size_append, Text.size]
    omega)
  obtain ⟨d, x, rfl⟩ : ∃ d y, x = d :: y := List.exists_cons_of_ne_nil (by
    rintro rfl
    have hsize := congrArg size hx
    simp only [Text.size_append, Text.size] at hsize
    omega)
  obtain rfl : c = d := (List.cons.inj hrest).1
  rcases List.mem_append.mp (hx ▸ List.mem_append_right z List.mem_cons_self) with hmem | hmem
  · rw [ImportStatement.isNameChar_of_isSpace (hblanks _ hmem)] at hc
    cases hc
  · rw [List.mem_singleton.mp hmem] at hc
    cases hc

/-- No declaration reaches over the brace of an object that is assigned. -/
theorem apart_brace (pre rest : Text) (hblanks : ∀ c ∈ blanks, CharClass.isSpace c = true) :
    declaration.Apart (pre ++ '=' :: (blanks ++ '\x7b' :: rest))
    (size (pre ++ '=' :: (blanks ++ ['\x7b']))) := by
  intro m hm hlt
  obtain ⟨front, head, blanks', back, h⟩ := exists_assigns hm
  rw [h.stop]
  have hcut : (front ++ head) ++ '=' :: (blanks' ++ '\x7b' :: back) =
      pre ++ '=' :: (blanks ++ '\x7b' :: rest) := by
    rw [h.cut, List.append_assoc]
  rcases List.append_eq_append_iff.mp hcut with ⟨z, rfl, hz⟩ | ⟨z, hfront, hz⟩
  · cases z with
    | nil =>
        obtain rfl := eq_of_blanks h.blanks hblanks (List.cons.inj hz).2
        simp [Text.size_append]
    | cons c z =>
        -- the match ends in front of the sign of equality
        obtain ⟨rfl, hz'⟩ := List.cons.inj hz
        have hbrace : (blanks' ++ ['\x7b']) ++ back = z ++ '=' :: (blanks ++ '\x7b' :: rest) := by
          rw [List.append_assoc]
          exact hz'
        obtain ⟨z', rfl⟩ := Text.prefix_of_notMem hbrace (notMem_blanks h.blanks)
        simp only [Text.size_append, Text.size]
        omega
  · cases z with
    | nil =>
        obtain rfl := eq_of_blanks h.blanks hblanks (List.cons.inj hz).2.symm
        rw [List.append_nil] at hfront
        rw [← hfront]
        simp [Text.size_append]
    | cons c z =>
        -- the match would start behind the sign
        obtain ⟨rfl, -⟩ := List.cons.inj hz
        obtain ⟨z', rfl⟩ := Text.suffix_of_notMem hfront h.equals
        have hbehind : front = pre ++ ['='] ++ z' :=
          List.append_cancel_right (hfront.trans (by simp))
        exact absurd ⟨z', hbehind.symm⟩ (h.not_between hblanks hlt)

theorem exists_brace (hm : m ∈ declaration.all t) : ∃ pre blanks rest,
    t = pre ++ '=' :: (blanks ++ '\x7b' :: rest) ∧
    (∀ c ∈ blanks, CharClass.isSpace c = true) ∧
    m.stop = size (pre ++ '=' :: (blanks ++ ['\x7b'])) := by
  obtain ⟨front, head, blanks, back, h⟩ := exists_assigns hm
  refine ⟨front ++ head, blanks, back, ?_, h.blanks, ?_⟩
  · rw [h.cut, List.append_assoc]
  · rw [h.stop, List.append_assoc]

/-! ## Finding the specification again -/

/-- What a declaration that is found says of the text: the declarations in front of it are of
nothing that is a specification. -/
theorem exists_declaration (h : find? (.of t) = some spec) : ∃ ms m ms',
    declaration.all t = ms ++ m :: ms' ∧
    (∀ x ∈ ms, ofMatch? (.of t) x = none) ∧ (Source.of t).isCodeAt m.start = true ∧
    readAt? t (m.stop - 1) = some spec.literal ∧
    (spec.literal.hasKey "openapi".toList || spec.literal.hasKey "swagger".toList) = true ∧
    spec.name = m.groupText 1 ∧ spec.declaredAt = m.start := by
  obtain ⟨ms, m, ms', hall, hm, hnone⟩ := List.findSome?_eq_some_iff.mp h
  refine ⟨ms, m, ms', hall, hnone, ?_⟩
  unfold ofMatch? at hm
  split_ifs at hm with hcode
  refine ⟨hcode, ?_⟩
  split at hm
  · cases hm
  · next o ho =>
      split_ifs at hm with hkey
      obtain rfl := Option.some.inj hm
      exact ⟨ho, hkey, rfl, rfl⟩

/-- The declarations of objects in front of the specification close in front of it. -/
def Foremost (t : Text) (spec : Spec) : Prop :=
  ∀ m ∈ declaration.all t, m.start < spec.declaredAt → (Source.of t).isCodeAt m.start = true →
    (matchingClose? t (m.stop - 1)).any (· < spec.declaredAt) = true

instance (t : Text) (spec : Spec) : Decidable (Foremost t spec) :=
  inferInstanceAs (Decidable (∀ m ∈ _, _ → _ → _))

/-- The specification is found, and nothing in front of it depends on it. -/
structure Located (t : Text) (spec : Spec) : Prop where
  found : find? (.of t) = some spec
  foremost : Foremost t spec

theorem Located.exists_readAt? (h : Located t spec) : ∃ n, readAt? t n = some spec.literal := by
  obtain ⟨-, m, -, -, -, -, hread, -⟩ := exists_declaration h.found
  exact ⟨_, hread⟩

theorem exists_all_append (pre : Text) (hblanks : ∀ c ∈ blanks, CharClass.isSpace c = true)
    (hp : p = pre ++ '=' :: (blanks ++ ['\x7b'])) (q : Text) :
    ∃ ms, declaration.all (p ++ q) = declaration.all p ++ ms ∧ ∀ m ∈ ms, size p ≤ m.start := by
  have hapart : declaration.Apart (p ++ q) (size p) := by
    have happ := apart_brace pre q hblanks
    rw [← hp] at happ
    rwa [show pre ++ '=' :: (blanks ++ '\x7b' :: q) = p ++ q by rw [hp]; simp] at happ
  refine ⟨_, all_append rfl rfl hapart, fun m hm => ?_⟩
  exact (in_of_mem_allFrom q hm).2.2

theorem ofMatch?_front (hp : Settled p) (hm : m ∈ declaration.all p)
    (hclose : (Source.of p).isCodeAt m.start = true → (matchingClose? p (m.stop - 1)).isSome = true)
    (q : Text) :
    ofMatch? (.of (p ++ q)) m = ofMatch? (.of p) m := by
  unfold ofMatch?
  rw [hp.isCodeAt_append_left q ((in_of_mem_all hm).start_lt rfl)]
  split_ifs with hcode
  · rw [show (Source.of (p ++ q)).text = p ++ q from rfl,
      readAt?_append_of_closes hp (hclose hcode)]
    rfl
  · rfl

theorem matchingClose?_front (hp : Settled p) (hm : m ∈ declaration.all p) {close : Nat}
    (h : matchingClose? (p ++ q) (m.stop - 1) = some close) (hlt : close < size p) :
    matchingClose? p (m.stop - 1) = some close := by
  refine hp.matchingClose?_of_append ?_ h hlt
  obtain ⟨pre, blanks, rest, rfl, -, hstop⟩ := exists_brace hm
  have hplace : m.stop - 1 = size (pre ++ '=' :: blanks) := by
    have hbrace : '\x7b'.utf8Size = 1 := rfl
    rw [hstop]
    simp only [Text.size_append, Text.size, hbrace]
    omega
  have hcut : pre ++ '=' :: (blanks ++ '\x7b' :: rest) = (pre ++ '=' :: blanks) ++ '\x7b' ::
      rest := by simp
  rw [hplace, hcut, Text.after_append]
  rfl

/-- A text up to the brace of a specification whose declaration is `m`, behind the declarations
`ms`. -/
structure Front (p : Text) (ms : List Match) (m : Match) : Prop where
  brace : ∃ pre blanks, (∀ c ∈ blanks, CharClass.isSpace c = true) ∧
    p = pre ++ '=' :: (blanks ++ ['\x7b'])
  all : ∃ ms', declaration.all p = ms ++ m :: ms'
  closes : ∀ x ∈ ms, (Source.of p).isCodeAt x.start = true →
    (matchingClose? p (x.stop - 1)).any (· < m.start) = true
  other : ∀ x ∈ ms, ofMatch? (.of p) x = none
  code : (Source.of p).isCodeAt m.start = true
  stop : m.stop = size p

namespace Front

variable {ms : List Match}

theorem settled (h : Front p ms m) : Settled p := by
  obtain ⟨pre, blanks, -, rfl⟩ := h.brace
  intro c hc
  rw [show pre ++ '=' :: (blanks ++ ['\x7b']) = (pre ++ '=' :: blanks) ++ ['\x7b'] by
    simp, List.getLast?_concat] at hc
  exact Option.some.inj hc ▸ rfl

theorem mem (h : Front p ms m) {x : Match} (hx : x ∈ ms) : x ∈ declaration.all p := by
  obtain ⟨ms', hall⟩ := h.all
  rw [hall]
  exact List.mem_append_left _ hx

theorem located (h : Front p ms m) (q : Text) (hread : readAt? (p ++ q) (size p - 1) = some o)
    (hkey : (o.hasKey "openapi".toList || o.hasKey "swagger".toList) = true) :
    Located (p ++ q) ⟨m.groupText 1, m.start, o⟩ := by
  obtain ⟨pre, blanks, hblanks, hp⟩ := h.brace
  obtain ⟨ws, hws, hle⟩ := exists_all_append pre hblanks hp q
  obtain ⟨ms', hall⟩ := h.all
  rw [hall, List.append_assoc, List.cons_append] at hws
  have hsettled := h.settled
  have hlt : m.start < size p :=
    (in_of_mem_all (hall ▸ List.mem_append_right ms List.mem_cons_self)).start_lt rfl
  refine ⟨List.findSome?_eq_some_iff.mpr ⟨ms, m, ms' ++ ws, hws, ?_, fun x hx => ?_⟩,
    fun x hx hstart hcode => ?_⟩
  · unfold ofMatch?
    rw [hsettled.isCodeAt_append_left q hlt, if_pos h.code, h.stop,
      show (Source.of (p ++ q)).text = p ++ q from rfl, hread]
    simp only [hkey, if_true]
  · rw [ofMatch?_front hsettled (h.mem hx) (fun hcode => ?_), h.other x hx]
    obtain ⟨close, hclose, -⟩ := (Option.any_eq_true _ _).mp (h.closes x hx hcode)
    rw [hclose]
    rfl
  · dsimp only at hstart
    -- what starts in front of the declaration of the specification is one of those in front of it
    have hmem : x ∈ ms := by
      have horder := pairwise_all declaration (p ++ q)
      rw [hws] at hx horder
      rcases List.mem_append.mp hx with hx | hx
      · exact hx
      rcases List.mem_cons.mp hx with rfl | hx
      · exact absurd hstart (Nat.lt_irrefl _)
      · have hstop := (List.pairwise_cons.mp (List.pairwise_append.mp horder).2.1).1 x hx
        rw [h.stop] at hstop
        omega
    rw [hsettled.isCodeAt_append_left q (hstart.trans hlt)] at hcode
    obtain ⟨close, hclose, hltClose⟩ := (Option.any_eq_true _ _).mp (h.closes x hmem hcode)
    rw [hsettled.matchingClose?_append_left hclose q]
    exact hltClose

end Front

theorem Located.exists_front (h : Located t spec) : ∃ p q ms m, t = p ++ q ∧ Front p ms m ∧
    spec.name = m.groupText 1 ∧ spec.declaredAt = m.start ∧
    readAt? t (size p - 1) = some spec.literal ∧
      (spec.literal.hasKey "openapi".toList || spec.literal.hasKey "swagger".toList) = true := by
  obtain ⟨ms, m, ms', hall, hnone, hcode, hread, hkey, hname, hdeclared⟩ :=
    exists_declaration h.found
  have hm : m ∈ declaration.all t := hall ▸ List.mem_append_right ms List.mem_cons_self
  obtain ⟨pre, blanks, rest, hcut, hblanks, hstop⟩ := exists_brace hm
  obtain ⟨p, hp⟩ : ∃ p, p = pre ++ '=' :: (blanks ++ ['\x7b']) := ⟨_, rfl⟩
  obtain rfl : t = p ++ rest := by
    rw [hcut, hp]
    simp
  rw [← hp] at hstop
  obtain ⟨ws, hws, hle⟩ := exists_all_append pre hblanks hp rest
  have hlt : m.start < size p := hstop ▸ start_lt_stop (in_of_mem_all hm) rfl
  have hfront : ∃ ms', declaration.all p = ms ++ m :: ms' := by
    rw [hall] at hws
    have hbehind : m ∉ ws := fun hmem => absurd (hle m hmem) (Nat.not_le_of_lt hlt)
    rcases List.append_eq_append_iff.mp hws with ⟨l, hl, hrest⟩ | ⟨l, -, hrest⟩
    · cases l with
      | nil =>
          rw [List.nil_append] at hrest
          exact absurd (hrest ▸ List.mem_cons_self) hbehind
      | cons x l => exact ⟨l, by rw [hl, (List.cons.inj hrest).1]⟩
    · exact absurd (hrest ▸ List.mem_append_right l List.mem_cons_self) hbehind
  obtain ⟨ms₂, hall'⟩ := hfront
  have hsettled : Settled p := by
    rw [hp, show pre ++ '=' :: (blanks ++ ['\x7b']) = (pre ++ '=' :: blanks) ++ ['\x7b'] by simp]
    intro c hc
    rw [List.getLast?_concat] at hc
    exact Option.some.inj hc ▸ rfl
  have hcloses : ∀ x ∈ ms, (Source.of p).isCodeAt x.start = true →
      (matchingClose? p (x.stop - 1)).any (· < m.start) = true := fun x hx hcode => by
    have hmem : x ∈ declaration.all p := hall' ▸ List.mem_append_left _ hx
    have hmem' : x ∈ declaration.all (p ++ rest) := hall ▸ List.mem_append_left _ hx
    have hstart : x.start < m.start := by
      have horder := pairwise_all declaration p
      rw [hall'] at horder
      exact (start_lt_stop (in_of_mem_all hmem) rfl).trans_le
        ((List.pairwise_append.mp horder).2.2 x hx m List.mem_cons_self)
    rw [← hsettled.isCodeAt_append_left rest (hstart.trans hlt)] at hcode
    obtain ⟨close, hclose, hltClose⟩ :=
      (Option.any_eq_true _ _).mp (h.foremost x hmem' (hdeclared ▸ hstart) hcode)
    rw [hdeclared, decide_eq_true_eq] at hltClose
    rw [matchingClose?_front hsettled hmem hclose (hltClose.trans hlt)]
    simpa using hltClose
  refine ⟨p, rest, ms, m, rfl, ⟨⟨pre, blanks, hblanks, hp⟩, ⟨ms₂, hall'⟩, hcloses, fun x hx =>
    ?_, ?_, hstop⟩, hname, hdeclared, hstop ▸ hread, hkey⟩
  · rw [← ofMatch?_front hsettled (hall' ▸ List.mem_append_left _ hx) (fun hcode => ?_) rest,
      hnone x hx]
    obtain ⟨close, hclose, -⟩ := (Option.any_eq_true _ _).mp (hcloses x hx hcode)
    rw [hclose]
    rfl
  · rwa [← hsettled.isCodeAt_append_left rest hlt]

/-- A specification with this name, place and source is located in the text. -/
def LocatedAs (t name : Text) (place : Nat) (v : Text) : Prop :=
  ∃ o, Located t ⟨name, place, o⟩ ∧ o.source t = v

/-- Another literal in the place of that of the specification is found under the same name at the
same place. -/
theorem Located.replaced (h : Located t spec) (hv : Composed v)
    (hkey : (hasField v "openapi".toList || hasField v "swagger".toList) = true) :
    LocatedAs (spec.literal.replaced t v) spec.name spec.declaredAt v := by
  obtain ⟨p, q, ms, m, rfl, hfront, hname, hdeclared, hread, -⟩ := h.exists_front
  obtain ⟨x, y, ht, hplace, hreplaced⟩ := replaced_within hread rfl
  obtain ⟨-, -, -, -, -, -, w, hw⟩ := exists_source hread
  obtain ⟨w', rfl, -⟩ := id hv.braced
  have hx : p = x ++ ['\x7b'] := by
    obtain ⟨pre, blanks, -, hp⟩ := hfront.brace
    rw [hw] at ht
    have hcut : (pre ++ '=' :: blanks) ++ ('\x7b' :: q) = x ++
        ('\x7b' :: (w ++ ['\x7d']) ++ y) := by
      rw [← List.append_assoc, ← ht, hp]
      simp
    have hbrace : '\x7b'.utf8Size = 1 := rfl
    obtain ⟨rfl, -⟩ := Text.append_inj_of_size hcut (by
      rw [← hplace, hp]
      simp only [Text.size_append, Text.size, hbrace]
      omega)
    rw [hp]
    simp
  obtain ⟨o, ho, hsource, -⟩ := IsLiteral.exists_readAt? hv x y
  rw [hreplaced, hname, hdeclared]
  refine ⟨o, ?_, hsource⟩
  rw [show x ++ '\x7b' :: (w' ++ ['\x7d']) ++ y = p ++ (w' ++ ['\x7d'] ++ y) by rw [hx]; simp]
    at ho hsource ⊢
  rw [← hplace] at ho
  refine hfront.located _ ho ?_
  rwa [← hasField_source ho, ← hasField_source ho, hsource]

theorem Located.hasField (h : Located t spec) :
    (hasField (spec.literal.source t) "openapi".toList ||
    hasField (spec.literal.source t) "swagger".toList) = true := by
  obtain ⟨-, m, -, -, -, -, hread, hkey, -⟩ := exists_declaration h.found
  rwa [hasField_source hread, hasField_source hread]

theorem Located.replaced_of_names (h : Located t spec) (hv : Composed v)
    (hnames : ∀ key ∈ names (spec.literal.source t), key ∈ names v) :
    LocatedAs (spec.literal.replaced t v) spec.name spec.declaredAt v := by
  refine h.replaced hv ?_
  have hkeep : ∀ key, ObjectLiteral.hasField (spec.literal.source t) key = true →
      ObjectLiteral.hasField v key = true := fun key hkey => by
    obtain ⟨k, hk, heq⟩ := List.any_eq_true.mp hkey
    exact List.any_eq_true.mpr ⟨k, hnames k hk, heq⟩
  rw [Bool.or_eq_true]
  exact ((Bool.or_eq_true _ _).mp h.hasField).imp (hkeep _) (hkeep _)

end Spec

end ServiceGate
