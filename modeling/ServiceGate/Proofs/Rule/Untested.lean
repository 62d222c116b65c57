/-
# Parsed members that nothing tests

No call that parses a member of a row starts inside of another one, so each such call in code comes
under the test (`parseAt_iff`).  The test looks at the line of the call and the three in front of it
(`isWindow_window`) for the forms in which an expression is tested, each with the member put in as
it is written.

The forms are looked for as mere text.  Where a form follows the expression, the expression may be
the end of a longer one; where it stands in front, the beginning of a longer name.  These are the
only ways in which a test of another expression keeps the rule silent (`untested_iff`), and both do
(`not_only_whole`).
-/
import ServiceGate.Proofs.Checked.Rules
import ServiceGate.Proofs.Import.Written
import ServiceGate.Proofs.Rule.Unawaited
import ServiceGate.Proofs.Text.Kept
import ServiceGate.Rule.Storage

namespace ServiceGate

variable {b p q w e x y call front back lead : Text} {n k stop : Nat} {ctx : Context} {m : Match}
  {c d : Char} {r : Reading}

namespace Text

/-! ## Places of a text -/

theorem exists_behind_lastWhere? {f : Char → Bool} {t : Text} (h : t.lastWhere? f = some n) :
    ∃ p c q, t = p ++ c :: q ∧ n = size p ∧ f c = true ∧ ∀ d ∈ q, f d = false := by
  obtain ⟨p, c, q, rfl, rfl, hc⟩ := exists_of_lastWhere? h
  refine ⟨p, c, q, rfl, rfl, hc, fun d hd => Bool.eq_false_iff.mpr fun hf => ?_⟩
  obtain ⟨u, v, rfl⟩ := List.append_of_mem hd
  obtain ⟨i, hi, hle⟩ := exists_lastWhere? (p := p ++ c :: u) (q := v) hf
  rw [List.append_assoc, List.cons_append] at hi
  obtain rfl := Option.some.inj (h.symm.trans hi)
  have hpos := c.utf8Size_pos
  rw [size_append, size] at hle
  omega

theorem eq_false_of_lastWhere? {f : Char → Bool} {t : Text} (h : t.lastWhere? f = none) :
    ∀ c ∈ t, f c = false := by
  intro c hc
  refine Bool.eq_false_iff.mpr fun hf => ?_
  obtain ⟨u, v, rfl⟩ := List.append_of_mem hc
  obtain ⟨i, hi, -⟩ := exists_lastWhere? (p := u) (q := v) hf
  rw [h] at hi
  cases hi

theorem exists_of_findFrom?_char {t : Text} (h : findFrom? [c] n t = some k) :
    ∃ p q, t = p ++ c :: q ∧ k = n + size p ∧ c ∉ p := by
  obtain ⟨p, q, rfl, rfl, ⟨q, rfl⟩, hfirst⟩ := exists_of_findFrom? h
  refine ⟨p, q, rfl, rfl, fun hc => ?_⟩
  obtain ⟨u, v, rfl⟩ := List.append_of_mem hc
  refine hfirst u (c :: (v ++ ([c] ++ q))) (by simp) ?_ (List.prefix_append [c] _)
  rw [List.length_append]
  exact Nat.lt_add_of_pos_right (Nat.succ_pos _)

end Text

namespace Rule

open Pattern
open Text (size)

/-! ## Member expressions -/

/-- Members behind an expression, each behind a dot. -/
inductive Links : Text → Prop
  | nil : Links []
  | member {x y : Text} : Spells name x → Links y → Links ('.' :: (x ++ y))
  | optional {x y : Text} : Spells name x → Links y → Links ('?' :: '.' :: (x ++ y))

/-- A name with at least one member. -/
def IsMember (e : Text) : Prop := ∃ x y, Spells name x ∧ Links y ∧ y ≠ [] ∧ e = x ++ y

abbrev link : Pattern := inOrder [optional (word "?"), word ".", name]

theorem spells_link (h : Spells link w) : ∃ x, Spells name x ∧
    (w = '.' :: x ∨ w = '?' :: '.' :: x) := by
  obtain ⟨u, _, rfl, hu, h⟩ := spells_seq h
  obtain ⟨dot, x, rfl, hdot, hx⟩ := spells_seq h
  obtain rfl : dot = ['.'] := spells_literal hdot
  cases hu with
  | altFirst hu =>
      obtain rfl : u = ['?'] := spells_literal hu
      exact ⟨x, hx, .inr rfl⟩
  | altSecond hu =>
      cases hu
      exact ⟨x, hx, .inl rfl⟩

theorem links_of_spells {greedy : Bool} (h : Spells (many greedy link) w) : Links w := by
  generalize hp : many greedy link = p at h
  induction h with
  | manyNone => exact .nil
  | manyMore hfirst _ _ ih =>
      obtain ⟨-, rfl⟩ := Pattern.many.inj hp
      obtain ⟨x, hx, rfl | rfl⟩ := spells_link hfirst
      · exact .member hx (ih hp)
      · exact .optional hx (ih hp)
  | _ => cases hp

theorem Links.spells (h : Links w) (greedy : Bool) : Spells (many greedy link) w := by
  induction h with
  | nil => exact .manyNone
  | @member x y hx _ ih =>
      exact .manyMore (u := '.' :: x) (.seq (u := []) (.altSecond .empty)
        (.seq (u := ['.']) (spells_literal_self ['.']) hx)) ih
  | @optional x y hx _ ih =>
      exact .manyMore (u := '?' :: '.' :: x)
        (.seq (u := ['?']) (.altFirst (spells_literal_self ['?']))
          (.seq (u := ['.']) (spells_literal_self ['.']) hx)) ih

abbrev memberExpression : Pattern := inOrder [name, plus link]

theorem spells_memberExpression_iff : Spells memberExpression w ↔ IsMember w := by
  constructor
  · intro h
    obtain ⟨x, _, rfl, hx, h⟩ := spells_seq h
    obtain ⟨u, v, rfl, hu, hv⟩ := spells_seq h
    refine ⟨x, u ++ v, hx, links_of_spells (Spells.manyMore hu hv : Spells (many true link) _), ?_,
      rfl⟩
    obtain ⟨z, -, rfl | rfl⟩ := spells_link hu
    · exact List.cons_ne_nil _ _
    · exact List.cons_ne_nil _ _
  · rintro ⟨x, y, hx, hy, hne, rfl⟩
    refine .seq hx ?_
    cases hy.spells true with
    | manyNone => exact absurd rfl hne
    | manyMore hu hv => exact .seq hu hv

def isMemberChar (c : Char) : Bool := isNameChar c || c == '.' || c == '?'

theorem Links.chars (h : Links w) : ∀ c ∈ w, isMemberChar c = true := by
  have hname : ∀ {x : Text}, Spells name x → ∀ c ∈ x, isMemberChar c = true := fun hx c hc => by
    rw [isMemberChar, (spells_name hx).2 c hc]
    rfl
  induction h with
  | nil => exact fun _ hc => absurd hc List.not_mem_nil
  | member hx _ ih =>
      exact List.forall_mem_cons.mpr ⟨rfl, List.forall_mem_append.mpr ⟨hname hx, ih⟩⟩
  | optional hx _ ih =>
      exact List.forall_mem_cons.mpr ⟨rfl, List.forall_mem_cons.mpr ⟨rfl,
        List.forall_mem_append.mpr ⟨hname hx, ih⟩⟩⟩

theorem IsMember.chars (h : IsMember e) : e ≠ [] ∧ ∀ c ∈ e, isMemberChar c = true := by
  obtain ⟨x, y, hx, hy, hne, rfl⟩ := h
  refine ⟨fun hnil => hne (List.append_eq_nil_iff.mp hnil).2,
    List.forall_mem_append.mpr ⟨fun c hc => ?_, hy.chars⟩⟩
  rw [isMemberChar, (spells_name hx).2 c hc]
  rfl

theorem isMemberChar_of_isSpace (h : CharClass.isSpace c = true) : isMemberChar c = false := by
  have hsigns : c ≠ '.' ∧ c ≠ '?' := by
    constructor <;> rintro rfl <;> exact absurd h (by decide)
  rw [isMemberChar, ImportStatement.isNameChar_of_isSpace h, beq_eq_false_iff_ne.mpr hsigns.1,
    beq_eq_false_iff_ne.mpr hsigns.2]
  rfl

/-! ## Calls that parse a member -/

/-- A call up to its argument. -/
def OpensParse (lead : Text) : Prop :=
  ∃ u v w x : Text,
  lead = "JSON".toList ++ (u ++ '.' :: (v ++ ("parse".toList ++ (w ++ '(' :: x)))) ∧
    ∀ c ∈ u ++ (v ++ (w ++ x)), CharClass.isSpace c = true

/-- A call that parses a member. -/
def IsParse (call e : Text) : Prop :=
  ∃ lead blanks : Text, call = lead ++ (e ++ (blanks ++ [')'])) ∧ OpensParse lead ∧ IsMember e ∧
    ∀ c ∈ blanks, CharClass.isSpace c = true

/-- A call that parses a member starts at a place. -/
def ParseAt (b : Text) (n : Nat) (call e : Text) : Prop :=
  ∃ front back, b = front ++ (call ++ back) ∧ n = size front ∧ WordStart front ∧ IsParse call e

theorem ne_of_isSpace_parse (h : CharClass.isSpace c = true) : c ∉ "J()".toList := by
  have hsigns : ∀ c ∈ "J()".toList, CharClass.isSpace c = false := by decide
  exact fun hc => Bool.false_ne_true ((hsigns c hc).symm.trans h)

theorem OpensParse.exists_cut (h : OpensParse lead) : ∃ (s x : Text), lead = 'J' :: s ++ '(' :: x ∧
    (∀ c ∈ s, c ∉ "J()".toList) ∧ ∀ c ∈ x, CharClass.isSpace c = true := by
  obtain ⟨u, v, w, x, rfl, hspace⟩ := h
  simp only [List.forall_mem_append] at hspace
  obtain ⟨hu, hv, hw, hx⟩ := hspace
  refine ⟨"SON".toList ++ (u ++ '.' :: (v ++ ("parse".toList ++ w))), x, by simp, ?_, hx⟩
  have hblank : ∀ {z : Text}, (∀ c ∈ z, CharClass.isSpace c = true) → ∀ c ∈ z, c ∉ "J()".toList :=
    fun hz c hc => ne_of_isSpace_parse (hz c hc)
  simp only [List.forall_mem_append, List.forall_mem_cons]
  exact ⟨by decide, hblank hu, by decide, hblank hv, by decide, hblank hw⟩

theorem notMem_argument {x blanks : Text} (hx : ∀ c ∈ x, CharClass.isSpace c = true)
    (he : IsMember e) (hblanks : ∀ c ∈ blanks, CharClass.isSpace c = true) :
    ∀ c ∈ x ++ (e ++ blanks), c ∉ "()".toList := by
  have hspace : ∀ c, CharClass.isSpace c = true → c ∉ "()".toList := fun c hc hmem =>
    ne_of_isSpace_parse hc (List.mem_cons_of_mem 'J' hmem)
  have hmember : ∀ c, isMemberChar c = true → c ∉ "()".toList := fun c hc hmem => by
    have hsigns : ∀ c ∈ "()".toList, isMemberChar c = false := by decide
    exact Bool.false_ne_true ((hsigns c hmem).symm.trans hc)
  simp only [List.forall_mem_append]
  exact ⟨fun c hc => hspace c (hx c hc), fun c hc => hmember c (he.chars.2 c hc),
    fun c hc => hspace c (hblanks c hc)⟩

theorem IsParse.exists_cut (h : IsParse call e) : ∃ s arg : Text,
    call = 'J' :: s ++ '(' :: (arg ++ [')']) ∧
    (∀ c ∈ s, c ∉ "J()".toList) ∧ (∀ c ∈ arg, c ∉ "()".toList) ∧ ∃ x blanks : Text,
    arg = x ++ (e ++ blanks) ∧
      (∀ c ∈ x ++ blanks, CharClass.isSpace c = true) ∧ IsMember e := by
  obtain ⟨lead, blanks, rfl, hlead, he, hblanks⟩ := h
  obtain ⟨s, x, rfl, hs, hx⟩ := hlead.exists_cut
  exact ⟨s, x ++ (e ++ blanks), by simp, hs, notMem_argument hx he hblanks, x, blanks, rfl,
    List.forall_mem_append.mpr ⟨hx, hblanks⟩, he⟩

theorem IsParse.eq {call' e' : Text} (h : IsParse call e) (h' : IsParse call' e')
    (hcut : call ++ back = call' ++ q) : call = call' ∧ e = e' := by
  obtain ⟨s, arg, rfl, hs, harg, x, blanks, rfl, hspace, he⟩ := h.exists_cut
  obtain ⟨s', arg', rfl, hs', harg', x', blanks', rfl, hspace', he'⟩ := h'.exists_cut
  simp only [List.cons_append, List.append_assoc, List.cons.injEq, true_and, List.nil_append]
    at hcut
  have hopen : '(' ∉ s := fun hmem => hs _ hmem (by decide)
  have hopen' : '(' ∉ s' := fun hmem => hs' _ hmem (by decide)
  obtain rfl := Text.eq_of_notMem hopen hopen' hcut
  have hargs := (List.cons.inj (List.append_cancel_left hcut)).2
  have hclose : ')' ∉ x ++ (e ++ blanks) := fun hmem => harg _ hmem (by decide)
  have hclose' : ')' ∉ x' ++ (e' ++ blanks') := fun hmem => harg' _ hmem (by decide)
  have hsame : x ++ (e ++ blanks) = x' ++ (e' ++ blanks') :=
    Text.eq_of_notMem hclose hclose' (by simpa using hargs)
  refine ⟨by rw [hsame], ?_⟩
  -- blanks in front of the member, and what is none of its characters behind it
  have hhead : ∀ {e z : Text}, IsMember e → ∀ c ∈ (e ++ z).head?, CharClass.isSpace c = false := by
    intro e z he c hc
    obtain ⟨hne, hchars⟩ := he.chars
    obtain ⟨d, e, rfl⟩ := List.exists_cons_of_ne_nil hne
    obtain rfl := Option.some.inj hc
    refine Bool.eq_false_iff.mpr fun hspace => ?_
    exact Bool.false_ne_true
      ((isMemberChar_of_isSpace hspace).symm.trans (hchars d List.mem_cons_self))
  have hend : ∀ {z : Text}, (∀ c ∈ z, CharClass.isSpace c = true) → ∀ c ∈ z.head?,
      isMemberChar c = false :=
    fun hz c hc => isMemberChar_of_isSpace (hz c (List.mem_of_mem_head? hc))
  rw [List.forall_mem_append] at hspace hspace'
  obtain rfl := class_unique hsame hspace.1 hspace'.1 (hhead he) (hhead he')
  exact class_unique (List.append_cancel_left hsame) he.chars.2 he'.chars.2 (hend hspace.2)
    (hend hspace'.2)

theorem ParseAt.eq {call' e' : Text} (h : ParseAt b n call e) (h' : ParseAt b n call' e') :
    call = call' ∧ e = e' := by
  obtain ⟨front, back, rfl, rfl, -, hcall⟩ := h
  obtain ⟨front', back', hcut, hsize, -, hcall'⟩ := h'
  obtain ⟨-, htail⟩ := Text.append_inj_of_size hcut hsize
  exact hcall.eq hcall' htail

/-! ## What the pattern finds -/

abbrev parseWords : Pattern :=
  inOrder [word "JSON", spaces, word ".", spaces, word "parse", spaces, word "(", spaces,
    capture 1 memberExpression, spaces, word ")"]

theorem spells_parseWords_iff : Spells parseWords w ↔ ∃ e, IsParse w e := by
  constructor
  · intro h
    obtain ⟨json, _, rfl, hjson, h⟩ := spells_seq h
    obtain ⟨u, _, rfl, hu, h⟩ := spells_seq h
    obtain ⟨dot, _, rfl, hdot, h⟩ := spells_seq h
    obtain ⟨v, _, rfl, hv, h⟩ := spells_seq h
    obtain ⟨parse, _, rfl, hparse, h⟩ := spells_seq h
    obtain ⟨w, _, rfl, hw, h⟩ := spells_seq h
    obtain ⟨paren, _, rfl, hparen, h⟩ := spells_seq h
    obtain ⟨x, _, rfl, hx, h⟩ := spells_seq h
    obtain ⟨e, _, rfl, he, h⟩ := spells_seq h
    obtain ⟨blanks, close, rfl, hblanks, hclose⟩ := spells_seq h
    rw [spells_literal hjson, spells_literal hdot, spells_literal hparse, spells_literal hparen,
      spells_literal hclose]
    refine ⟨e, _, blanks, ?_, ⟨u, v, w, x, rfl, ?_⟩,
      spells_memberExpression_iff.mp (spells_capture he), spells_many_char hblanks⟩
    · simp
    · simp only [List.forall_mem_append]
      exact ⟨spells_many_char hu, spells_many_char hv, spells_many_char hw, spells_many_char hx⟩
  · rintro ⟨e, _, blanks, rfl, ⟨u, v, w, x, rfl, hspace⟩, he, hblanks⟩
    simp only [List.forall_mem_append] at hspace
    obtain ⟨hu, hv, hw, hx⟩ := hspace
    have htext : "JSON".toList ++ (u ++ '.' :: (v ++ ("parse".toList ++ (w ++ '(' :: x)))) ++
        (e ++ (blanks ++ [')'])) = "JSON".toList ++
        (u ++ (".".toList ++ (v ++ ("parse".toList ++ (w ++
          ("(".toList ++ (x ++ (e ++ (blanks ++ ")".toList))))))))) := by simp
    rw [htext]
    exact .seq (spells_literal_self _) <| .seq (spells_many_of_forall hu) <|
      .seq (spells_literal_self _) <|
      .seq (spells_many_of_forall hv) <| .seq (spells_literal_self _) <|
      .seq (spells_many_of_forall hw) <|
      .seq (spells_literal_self _) <| .seq (spells_many_of_forall hx) <|
      .seq (.capture (spells_memberExpression_iff.mpr he)) <|
      .seq (spells_many_of_forall hblanks) <|
      spells_literal_self _

theorem spells_parsedField (h : Spells parsedField w) : ∃ e, IsParse w e := by
  obtain ⟨edge, w, rfl, hedge, h⟩ := spells_seq h
  rw [spells_wordEdge hedge]
  exact spells_parseWords_iff.mp h

/-- What a reading of the pattern has come past, and the group that it keeps. -/
theorem exists_of_parse (h : Leads parsedField (.past front p []) r) : ∃ lead e blanks q : Text,
    p = lead ++ (e ++ (blanks ++ ')' :: q)) ∧ WordStart front ∧ OpensParse lead ∧ IsMember e ∧
      (∀ c ∈ blanks, CharClass.isSpace c = true) ∧ r.cursor.rest = q ∧
        r.captures = [.past 1 (front ++ lead) e] := by
  obtain ⟨edge, _, cs₁, rfl, hedge, h₁, h⟩ := leads_past_seq h
  obtain rfl := spells_wordEdge hedge
  obtain ⟨json, _, cs₂, rfl, hjson, h₂, h⟩ := leads_past_seq h
  obtain ⟨u, _, cs₃, rfl, hu, h₃, h⟩ := leads_past_seq h
  obtain ⟨dot, _, cs₄, rfl, hdot, h₄, h⟩ := leads_past_seq h
  obtain ⟨v, _, cs₅, rfl, hv, h₅, h⟩ := leads_past_seq h
  obtain ⟨parse, _, cs₆, rfl, hparse, h₆, h⟩ := leads_past_seq h
  obtain ⟨w, _, cs₇, rfl, hw, h₇, h⟩ := leads_past_seq h
  obtain ⟨paren, _, cs₈, rfl, hparen, h₈, h⟩ := leads_past_seq h
  obtain ⟨x, _, cs₉, rfl, hx, h₉, h⟩ := leads_past_seq h
  obtain rfl : cs₉ = [] := by
    rw [show cs₉ = cs₈ from h₉.captures_eq rfl, show cs₈ = cs₇ from h₈.captures_eq rfl,
      show cs₇ = cs₆ from h₇.captures_eq rfl, show cs₆ = cs₅ from h₆.captures_eq rfl,
      show cs₅ = cs₄ from h₅.captures_eq rfl, show cs₄ = cs₃ from h₄.captures_eq rfl,
      show cs₃ = cs₂ from h₃.captures_eq rfl, show cs₂ = cs₁ from h₂.captures_eq rfl,
      show cs₁ = [] from h₁.captures_eq rfl]
  rw [spells_literal hjson, spells_literal hdot, spells_literal hparse, spells_literal hparen]
    at h ⊢
  cases h with
  | seq hmember hend =>
      obtain ⟨e, _, rfl, he, rfl⟩ := leads_past_capture hmember rfl
      obtain ⟨tail, q, cs, rfl, rfl, htail⟩ := hend.past rfl
      obtain ⟨blanks, close, rfl, hblanks, hclose⟩ := spells_seq htail
      have hcs : cs = _ := hend.captures_eq rfl
      rw [spells_literal hclose]
      refine ⟨_, e, blanks, q, ?_, ?_, ⟨u, v, w, x, rfl, ?_⟩, spells_memberExpression_iff.mp he,
        spells_many_char hblanks, rfl, ?_⟩
      · simp
      · rw [spells_literal hjson] at h₁
        exact wordStart_of_edge (k := "JSON".toList) (leads_past_wordEdge h₁) (by decide)
      · simp only [List.forall_mem_append]
        exact ⟨spells_many_char hu, spells_many_char hv, spells_many_char hw, spells_many_char hx⟩
      · rw [Reading.past, hcs]
        simp [Reading.past]

/-- No call starts inside of another one: up to its parenthesis it has none of the character that a
call starts with, and behind that no other parenthesis that opens. -/
theorem start_eq_of_parse (hm : m ∈ parsedField.all b) (hmatch : parsedField.MatchesAt b n)
    (hle : m.start ≤ n) (hlt : n < m.stop) : m.start = n := by
  refine (Nat.eq_or_lt_of_le hle).resolve_right fun hbefore => ?_
  obtain ⟨front, c, w, d, v, back, u, back', -, -, -, hspells, hu, hv⟩ :=
    exists_overlap hm hmatch hbefore hlt
  obtain ⟨e, hcall⟩ := spells_parsedField hspells
  obtain ⟨e', hcall'⟩ := spells_parsedField hu
  obtain ⟨s, arg, hcut, hs, harg, -⟩ := hcall.exists_cut
  obtain ⟨s', arg', rfl, hs', -⟩ := hcall'.exists_cut
  obtain ⟨rfl, hv⟩ := List.cons.inj hv
  obtain ⟨-, hcut⟩ := List.cons.inj hcut
  rcases List.append_eq_append_iff.mp hcut with ⟨z, rfl, hz⟩ | ⟨z, rfl, hz⟩
  · cases z with
    | nil => exact absurd (List.cons.inj hz).1 (by decide)
    | cons x z =>
        obtain ⟨rfl, -⟩ := List.cons.inj hz
        exact hs 'J' (by simp) (by decide)
  · cases z with
    | nil => exact absurd (List.cons.inj hz).1 (by decide)
    | cons x z =>
        obtain ⟨-, hz⟩ := List.cons.inj hz
        have hopen : '(' ∉ v := fun hmem => by
          have harg' : '(' ∈ arg ++ [')'] :=
            hz ▸ List.mem_append_right z (List.mem_cons_of_mem _ hmem)
          rcases List.mem_append.mp harg' with hmem | hmem
          · exact harg '(' hmem (by decide)
          · exact absurd hmem (by decide)
        have hclose : ')' ∈ v := by
          have hlast := congrArg List.getLast? hz
          rw [List.getLast?_concat] at hlast
          cases v with
          | nil => exact absurd (hlast.trans (List.getLast?_concat ..)) (by decide)
          | cons x v =>
              have hback : (z ++ 'J' :: x :: v).getLast? = (x :: v).getLast? := by
                rw [List.append_cons, List.getLast?_append_of_ne_nil _ (List.cons_ne_nil x v)]
              exact List.mem_of_getLast? (hlast.trans hback).symm
        have htail : v ++ back = s' ++ '(' :: (arg' ++ ')' :: back') := by simpa using hv
        rcases List.append_eq_append_iff.mp htail with ⟨y, rfl, -⟩ | ⟨y, rfl, hy⟩
        · exact hs' ')' (by simp [hclose]) (by decide)
        · cases y with
          | nil => exact hs' ')' (by simpa using hclose) (by decide)
          | cons x y =>
              obtain ⟨rfl, -⟩ := List.cons.inj hy
              exact hopen (by simp)

/-- The search finds every call that parses a member. -/
theorem parseAt_iff : (∃ m ∈ parsedField.all b, m.start = n ∧ m.stop = n + size call ∧
    m.text = call ∧ m.groupText 1 = e) ↔ ParseAt b n call e := by
  have hfound : ∀ {m : Match}, m ∈ parsedField.all b →
      ParseAt b m.start m.text (m.groupText 1) := by
    intro m hm
    obtain ⟨front, back, hcut, hstart, -, hleads⟩ := exists_leads_of_mem_all hm
    obtain ⟨lead, e, blanks, q, hcall, hfront, hlead, he, hblanks, hrest, hcaptures⟩ :=
      exists_of_parse hleads
    obtain rfl : back = q := hrest
    have htext : m.text = lead ++ (e ++ (blanks ++ [')'])) :=
      List.append_cancel_right (hcall.trans (by simp))
    have hcaptures : m.captures = [.past 1 (front ++ lead) e] := hcaptures
    have hgroup : m.groupText 1 = e := by
      rw [Match.groupText, group?_of_captures hcaptures rfl]
      rfl
    rw [hgroup]
    exact ⟨front, back, hcut, hstart, hfront, lead, blanks, htext, hlead, he, hblanks⟩
  constructor
  · rintro ⟨m, hm, rfl, -, rfl, rfl⟩
    exact hfound hm
  · intro h
    have hmatch : parsedField.MatchesAt b n := by
      obtain ⟨front, back, rfl, rfl, hfront, hcall⟩ := h
      have hcut : front ++ (call ++ back) = front ++ (call ++ back) := rfl
      refine (readsAt_of_word rfl (by decide) hfront ?_ (spells_parseWords_iff.mpr ⟨e, hcall⟩)
        hcut).matchesAt
        (by decide)
      obtain ⟨s, arg, rfl, -⟩ := hcall.exists_cut
      exact (by decide : CharClass.isWord 'J' = true)
    obtain ⟨m, hm, hle, hlt⟩ := exists_covering (fun u hu => spells_ne_nil hu rfl) hmatch
    obtain rfl := start_eq_of_parse hm hmatch hle hlt
    obtain ⟨htext, hgroup⟩ := (hfound hm).eq h
    exact ⟨m, hm, rfl, by rw [(in_of_mem_all hm).stop, htext], htext, hgroup⟩

/-! ## The lines that are looked at -/

/-- The lines from a call back to the third one in front of it: up to the end of the line in which
the call ends, from the line feed in front of the third line, or from the start of the text. -/
def IsWindow (b : Text) (n stop : Nat) (w : Text) : Prop :=
  ∃ front lead call tail back, b = front ++ (lead ++ (call ++ tail)) ++ back ∧
  w = lead ++ (call ++ tail) ∧
    n = size (front ++ lead) ∧ stop = size (front ++ lead ++ call) ∧
    (front = [] ∧ lead.count '\n' < 4 ∨ lead.head? = some '\n' ∧ lead.count '\n' = 4) ∧
    '\n' ∉ tail ∧ ∀ c ∈ back.head?, c = '\n'

def window (b : Text) (n stop : Nat) : Text := b.between (linesBefore b 4 n) (lineStop b stop)

/-- Going back over some line feeds stops at the last of them, or at the start of the text. -/
theorem exists_linesBefore (q : Text) : ∀ (lines : Nat) (p : Text), ∃ front lead,
    p = front ++ lead ∧ linesBefore (p ++ q) lines (size p) = size front ∧
      (front = [] ∧ lead.count '\n' < lines ∨ (∀ c ∈ lead.head?, c = '\n') ∧
        lead.count '\n' = lines)
  | 0, p => ⟨p, [], (List.append_nil p).symm, rfl, .inr ⟨fun _ hc => (nomatch hc), rfl⟩⟩
  | lines + 1, p => by
      rw [linesBefore, Text.before_append]
      cases hlast : p.lastWhere? (· == '\n') with
      | none =>
          have hnone : p.count '\n' = 0 := List.count_eq_zero.mpr fun hmem => by
            have hfeed := Text.eq_false_of_lastWhere? hlast _ hmem
            cases hfeed
          exact ⟨[], p, rfl, rfl, .inl ⟨rfl, by omega⟩⟩
      | some i =>
          obtain ⟨u, c, v, rfl, rfl, hc, hv⟩ := Text.exists_behind_lastWhere? hlast
          obtain rfl := beq_iff_eq.mp hc
          obtain ⟨front, lead, rfl, hstart, hlead⟩ := exists_linesBefore ('\n' :: v ++ q) lines u
          have hcount : (lead ++ '\n' :: v).count '\n' = lead.count '\n' + 1 := by
            have hnone : v.count '\n' = 0 := List.count_eq_zero.mpr fun hmem => by
              have hfeed := hv _ hmem
              cases hfeed
            rw [List.count_append, List.count_cons_self, hnone]
          refine ⟨front, lead ++ '\n' :: v, by simp, ?_, ?_⟩
          · show linesBefore _ lines _ = _
            rw [← hstart]
            simp
          · rw [hcount]
            refine hlead.imp (And.imp_right fun h => by omega) (And.imp (fun h c hc => ?_) fun h =>
              by omega)
            cases lead with
            | nil => exact (Option.some.inj hc).symm
            | cons d lead => exact h c hc

theorem exists_lineStop (p q : Text) : ∃ tail back, q = tail ++ back ∧
    lineStop (p ++ q) (size p) = size (p ++ tail) ∧ '\n' ∉ tail ∧ ∀ c ∈ back.head?, c = '\n' := by
  rw [lineStop, Text.after_append]
  cases hfind : Text.find? q ['\n'] with
  | none =>
      have hnone : '\n' ∉ q := fun hmem => by
        have hsome := Text.contains_iff.mpr ((List.singleton_infix_iff '\n' q).mpr hmem)
        rw [Text.contains, hfind] at hsome
        cases hsome
      exact ⟨q, [], (List.append_nil q).symm, rfl, hnone, fun c hc => by cases hc⟩
  | some i =>
      obtain ⟨tail, back, rfl, rfl, htail⟩ := Text.exists_of_findFrom?_char hfind
      refine ⟨tail, '\n' :: back, rfl, ?_, htail, fun c hc => (Option.some.inj hc).symm⟩
      show size p + (0 + size tail) = _
      rw [Text.size_append, Nat.zero_add]

/-- The rule looks at the lines of the call. -/
theorem isWindow_window (p call q : Text) : IsWindow (p ++ (call ++ q)) (size p)
    (size p + size call) (window (p ++ (call ++ q)) (size p) (size p + size call)) := by
  obtain ⟨front, lead, rfl, hstart, hlead⟩ := exists_linesBefore (call ++ q) 4 p
  obtain ⟨tail, back, rfl, hstop, htail, hback⟩ := exists_lineStop (front ++ lead ++ call) q
  have hcall : size (front ++ lead) + size call = size (front ++ lead ++ call) :=
    (Text.size_append _ _).symm
  have htext : front ++ lead ++ (call ++ (tail ++ back)) = front ++ (lead ++ (call ++ tail)) ++
      back := by simp
  have hwindow : window (front ++ lead ++ (call ++ (tail ++ back))) (size (front ++ lead))
      (size (front ++ lead) + size call) = lead ++ (call ++ tail) := by
    rw [List.append_assoc _ call] at hstop
    rw [window, hstart, hcall, hstop, htext, show front ++ lead ++ call ++ tail = front ++
      (lead ++ (call ++ tail)) by
      simp, Text.size_append, Text.between_append]
  refine ⟨front, lead, call, tail, back, htext, hwindow, rfl, hcall, hlead.imp_right fun h =>
    ⟨?_, h.2⟩, htail, hback⟩
  cases lead with
  | nil => cases h.2
  | cons c lead => exact congrArg some (h.1 c rfl)

theorem ParseAt.isWindow (h : ParseAt b n call e) :
    IsWindow b n (n + size call) (window b n (n + size call)) := by
  obtain ⟨front, back, rfl, rfl, -, -⟩ := h
  exact isWindow_window front call back

theorem IsWindow.eq {w' : Text} (h : IsWindow b n stop w) (h' : IsWindow b n stop w') : w = w' := by
  obtain ⟨front, lead, call, tail, back, rfl, rfl, rfl, rfl, hlead, htail, hback⟩ := h
  obtain ⟨front', lead', call', tail', back', hcut, rfl, hstart, hstop, hlead', htail', hback'⟩ :=
    h'
  obtain ⟨hfront, hrest⟩ := Text.append_inj_of_size (p := front ++ lead)
    (q := call ++ (tail ++ back)) (u := front' ++ lead') (v := call' ++ (tail' ++ back'))
    (by simpa using hcut) hstart
  obtain ⟨rfl, hrest⟩ := Text.append_inj_of_size hrest (by
    rw [Text.size_append _ call, Text.size_append _ call'] at hstop
    omega)
  have hfeed : ∀ {back : Text}, (∀ c ∈ back.head?, c = '\n') → ∀ c ∈ back.head?,
      (c != '\n') = false :=
    fun hback c hc => by rw [hback c hc]; rfl
  have hline : ∀ {tail : Text}, '\n' ∉ tail → ∀ c ∈ tail, (c != '\n') = true := fun htail c hc =>
    bne_iff_ne.mpr fun hcn => htail (hcn ▸ hc)
  obtain rfl := class_unique (List.append_cancel_left hrest) (hline htail) (hline htail')
    (hfeed hback) (hfeed hback')
  -- the longer lead would have a line feed more, the one that it starts with
  have hlonger : ∀ {front lead front' lead' z : Text}, front' = front ++ z → lead = z ++ lead' →
      (front = [] ∧ lead.count '\n' < 4 ∨ lead.head? = some '\n' ∧ lead.count '\n' = 4) →
      (front' = [] ∧ lead'.count '\n' < 4 ∨ lead'.head? = some '\n' ∧ lead'.count '\n' = 4) →
      z = [] := by
    rintro front _ _ lead' z rfl rfl hlead hlead'
    rw [List.count_append] at hlead
    rcases hlead' with ⟨hnil, -⟩ | ⟨-, hcount⟩
    · exact (List.append_eq_nil_iff.mp hnil).2
    · rcases hlead with ⟨-, hless⟩ | ⟨hhead, hsame⟩
      · omega
      · cases z with
        | nil => rfl
        | cons c z =>
            obtain rfl := Option.some.inj hhead
            rw [List.count_cons_self] at hsame
            omega
  rcases List.append_eq_append_iff.mp hfront with ⟨z, hfront', hz⟩ | ⟨z, hfront', hz⟩
  · obtain rfl := hlonger hfront' hz hlead hlead'
    rw [hz, List.nil_append]
  · obtain rfl := hlonger hfront' hz hlead' hlead
    rw [hz, List.nil_append]

/-! ## What tests an expression -/

/-- An expression stands in a text, with this in front of it and behind it. -/
def Stands (w e : Text) (around : Text → Text → Prop) : Prop := ∃ x y, w = x ++ (e ++ y) ∧
  around x y

theorem stands_iff {around : Text → Text → Prop} : (∃ i ∈ List.range (w.length + 1),
    w = w.take i ++ (e ++ w.drop (i + e.length)) ∧ around (w.take i) (w.drop (i + e.length))) ↔
      Stands w e around := by
  constructor
  · rintro ⟨i, -, hcut, haround⟩
    exact ⟨_, _, hcut, haround⟩
  · rintro ⟨x, y, rfl, haround⟩
    have hdrop : (x ++ (e ++ y)).drop (x.length + e.length) = y := by
      rw [← List.drop_drop, List.drop_left, List.drop_left]
    refine ⟨x.length, List.mem_range.mpr ?_, ?_⟩
    · rw [List.length_append]
      omega
    · rw [hdrop, List.take_left]
      exact ⟨rfl, haround⟩

instance {around : Text → Text → Prop} [∀ x y, Decidable (around x y)] :
    Decidable (Stands w e around) :=
  decidable_of_iff _ stands_iff

def testsBehind : List Text :=
  [" ?", " &&", " != null", " !== null", " !== undefined"].map String.toList

def testsFront : List Text := ["typeof ", "if (", "if (!"].map String.toList

/-- An expression is tested as it stands. -/
def IsTest (x y : Text) : Prop := (∃ s ∈ testsBehind, s <+: y) ∨ ∃ s ∈ testsFront, s <:+ x

/-- The ends of an expression are the ends of a chain of names. -/
def IsWhole (x y : Text) : Prop :=
  (∀ c ∈ x.getLast?, isNameChar c = false ∧ c ≠ '.') ∧ ∀ c ∈ y.head?, isNameChar c = false

/-- A test behind an expression that is the end of a longer one, or in front of one that is the
beginning of a longer name. -/
def IsStray (x y : Text) : Prop :=
  (∃ s ∈ testsBehind, s <+: y) ∧ (∃ c ∈ x.getLast?, isNameChar c = true ∨ c = '.') ∨
    (∃ s ∈ testsFront, s <:+ x) ∧ ∃ c ∈ y.head?, isNameChar c = true

/-- A test of the expression itself. -/
abbrev TestedWhole (w e : Text) : Prop := Stands w e fun x y => IsTest x y ∧ IsWhole x y

/-- A test of some other expression, which this one is a part of. -/
abbrev TestedLonger (w e : Text) : Prop := Stands w e IsStray

instance (x y : Text) : Decidable (IsTest x y) := inferInstanceAs (Decidable (_ ∨ _))

instance (x y : Text) : Decidable (IsWhole x y) := inferInstanceAs (Decidable (_ ∧ _))

theorem any_guardForms_iff : (guardForms e).any (Text.contains w) = true ↔ Stands w e IsTest := by
  have hbehind : ∀ s : Text, e ++ s <:+: w ↔ Stands w e fun _ y => s <+: y := fun s => by
    constructor
    · rintro ⟨x, y, rfl⟩
      exact ⟨x, s ++ y, by simp, y, rfl⟩
    · rintro ⟨x, _, rfl, y, rfl⟩
      exact ⟨x, y, by simp⟩
  have hfront : ∀ s : Text, s ++ e <:+: w ↔ Stands w e fun x _ => s <:+ x := fun s => by
    constructor
    · rintro ⟨x, y, rfl⟩
      exact ⟨x ++ s, y, by simp, x, rfl⟩
    · rintro ⟨_, y, rfl, x, rfl⟩
      exact ⟨x, y, by simp⟩
  have hforms : guardForms e = testsBehind.map (e ++ ·) ++ testsFront.map (· ++ e) := by
    rw [guardForms, testsBehind, testsFront, List.map_map, List.map_map]
    rfl
  simp only [hforms, List.any_append, Bool.or_eq_true, List.any_map, List.any_eq_true,
    Function.comp_apply, Text.contains_iff, hbehind, hfront]
  constructor
  · rintro (⟨s, hs, x, y, hcut, hy⟩ | ⟨s, hs, x, y, hcut, hx⟩)
    · exact ⟨x, y, hcut, .inl ⟨s, hs, hy⟩⟩
    · exact ⟨x, y, hcut, .inr ⟨s, hs, hx⟩⟩
  · rintro ⟨x, y, hcut, ⟨s, hs, hy⟩ | ⟨s, hs, hx⟩⟩
    · exact .inl ⟨s, hs, x, y, hcut, hy⟩
    · exact .inr ⟨s, hs, x, y, hcut, hx⟩

theorem isTest_iff : IsTest x y ↔ IsTest x y ∧ IsWhole x y ∨ IsStray x y := by
  have hback : (∃ s ∈ testsBehind, s <+: y) → ∀ c ∈ y.head?, isNameChar c = false := by
    have hsigns : ∀ s ∈ testsBehind, s.head? = some ' ' := by decide
    rintro ⟨s, hs, z, rfl⟩ c hc
    obtain ⟨s, rfl⟩ := List.head?_eq_some_iff.mp (hsigns s hs)
    obtain rfl := Option.some.inj hc
    rfl
  have hfront : (∃ s ∈ testsFront, s <:+ x) → ∀ c ∈ x.getLast?, isNameChar c = false ∧ c ≠ '.' := by
    have hsigns : ∀ s ∈ testsFront, s.getLast? = some ' ' ∨ s.getLast? = some '(' ∨
        s.getLast? = some '!' := by
      decide
    rintro ⟨s, hs, z, rfl⟩ c hc
    have hne : s ≠ [] := by
      rintro rfl
      exact absurd (hsigns _ hs) (by decide)
    rw [List.getLast?_append_of_ne_nil _ hne] at hc
    rcases hsigns s hs with hlast | hlast | hlast
    all_goals
      obtain rfl := Option.some.inj (hlast.symm.trans hc)
      exact ⟨rfl, by decide⟩
  refine ⟨fun h => ?_, fun h => ?_⟩
  · rcases h with h | h
    · by_cases hwhole : ∀ c ∈ x.getLast?, isNameChar c = false ∧ c ≠ '.'
      · exact .inl ⟨.inl h, hwhole, hback h⟩
      · push Not at hwhole
        obtain ⟨c, hc, hlonger⟩ := hwhole
        refine .inr (.inl ⟨h, c, hc, ?_⟩)
        cases hname : isNameChar c with
        | true => exact .inl rfl
        | false => exact .inr (hlonger hname)
    · by_cases hwhole : ∀ c ∈ y.head?, isNameChar c = false
      · exact .inl ⟨.inr h, hfront h, hwhole⟩
      · push Not at hwhole
        obtain ⟨c, hc, hlonger⟩ := hwhole
        exact .inr (.inr ⟨h, c, hc, by simpa using hlonger⟩)
  · rcases h with ⟨h, -⟩ | ⟨h, -⟩ | ⟨h, -⟩
    · exact h
    · exact .inl h
    · exact .inr h

theorem any_guardForms_cases :
    (guardForms e).any (Text.contains w) = true ↔ TestedWhole w e ∨ TestedLonger w e := by
  rw [any_guardForms_iff]
  constructor
  · rintro ⟨x, y, hcut, htest⟩
    exact (isTest_iff.mp htest).imp (fun h => ⟨x, y, hcut, h⟩) fun h => ⟨x, y, hcut, h⟩
  · rintro (⟨x, y, hcut, h⟩ | ⟨x, y, hcut, h⟩)
    · exact ⟨x, y, hcut, h.1⟩
    · exact ⟨x, y, hcut, isTest_iff.mpr (.inr h)⟩

/-! ## What is reported -/

/-- A call that parses a member is reported, each at its place, unless its lines test the member, or
a longer expression or name that the member is a part of. -/
theorem untested_iff {f : Finding} : f ∈ untestedParses ctx ↔ ∃ n call e w,
    ParseAt ctx.source.blanked n call e ∧
    IsWindow ctx.source.blanked n (n + size call) w ∧ ¬ TestedWhole w e ∧ ¬ TestedLonger w e ∧
      f = .found n call none := by
  have htested : ∀ {m : Match}, m ∈ parsedField.all ctx.source.blanked →
      (isTested ctx.source.blanked m (m.groupText 1) = true ↔
        TestedWhole (window ctx.source.blanked m.start (m.start + size m.text)) (m.groupText 1) ∨
          TestedLonger (window ctx.source.blanked m.start (m.start + size m.text))
          (m.groupText 1)) := fun hm => by
    rw [← any_guardForms_cases, ← (in_of_mem_all hm).stop]
    rfl
  rw [untestedParses, List.mem_map]
  constructor
  · rintro ⟨m, hm, rfl⟩
    obtain ⟨hm, hkept⟩ := List.mem_filter.mp hm
    have hparse := parseAt_iff.mp ⟨m, hm, rfl, (in_of_mem_all hm).stop, rfl, rfl⟩
    rw [Bool.not_eq_true', ← Bool.not_eq_true, htested hm, not_or] at hkept
    exact ⟨_, _, _, _, hparse, hparse.isWindow, hkept.1, hkept.2, rfl⟩
  · rintro ⟨n, call, e, w, hparse, hwindow, hwhole, hlonger, rfl⟩
    obtain rfl := hwindow.eq hparse.isWindow
    obtain ⟨m, hm, rfl, -, rfl, rfl⟩ := parseAt_iff.mpr hparse
    refine ⟨m, List.mem_filter.mpr ⟨hm, ?_⟩, rfl⟩
    rw [Bool.not_eq_true', ← Bool.not_eq_true, htested hm, not_or]
    exact ⟨hwhole, hlonger⟩

/-- A test of a column whose name begins with that of the parsed one keeps the rule silent. -/
theorem not_only_whole : ¬ ∀ (ctx : Context) (n : Nat) (call e w : Text),
    ParseAt ctx.source.blanked n call e →
    IsWindow ctx.source.blanked n (n + size call) w →
    (∀ f ∈ untestedParses ctx, f ≠ .found n call none) →
      TestedWhole w e := by
  intro h
  have hparse :
      ParseAt (contextOf "if (row.dataset) use(JSON.parse(row.data));\n".toList).source.blanked 21
      "JSON.parse(row.data)".toList "row.data".toList := parseAt_iff.mp (by decide)
  have hnone : untestedParses (contextOf "if (row.dataset) use(JSON.parse(row.data));\n".toList) =
      [] := by decide
  have hwhole := h _ _ _ _ _ hparse hparse.isWindow (by rw [hnone]; exact fun f hf => nomatch hf)
  exact absurd hwhole (by decide)

end Rule

end ServiceGate
