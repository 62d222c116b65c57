/-
# Parameters that are not narrowed

A parameter is consumed as it is where it is the argument of a conversion, or where a method of
strings is called on it (`Unnarrowed`).  The rule looks for one of the two, from left to right, and
reports what starts in code; the repair looks for each by itself, and takes the parameters that
stand in code.  No conversion starts inside of another, and no call of a method does
(`start_eq_of_converted`, `start_eq_of_called`), so what is wrapped are all the unnarrowed
parameters in code (`mem_parameterSpans_iff`), and where there are none the rule finds nothing
(`findings_eq_nil_of_narrowed`).
-/
import ServiceGate.Proofs.Balanced.Replaced
import ServiceGate.Proofs.Pattern.Extended
import ServiceGate.Proofs.Rule.Forbidden
import ServiceGate.Proofs.Scan.Cuts
import ServiceGate.Proofs.Text.Pieces
import ServiceGate.Proofs.Verdict.ByRule

namespace ServiceGate

open Pattern
open Text (size)

variable {t p q w u front rest : Text} {r : Reading} {m : Match} {n stop stop' : Nat}
  {a : Nat × Nat}

/-! ## What consumes a parameter -/

def stringMethods : List Text :=
  ["toLowerCase", "toUpperCase", "trim", "split", "startsWith", "includes"].map String.toList

/-- A conversion up to its argument. -/
def IsCall (u : Text) : Prop :=
  ∃ k ∈ converters, ∃ blanks : Text, u = k ++ '(' :: blanks ∧ ∀ c ∈ blanks,
  CharClass.isSpace c = true

/-- White space and a sign that ends an argument. -/
def EndsArgument (q : Text) : Prop :=
  ∃ blanks : Text, (∀ c ∈ blanks, CharClass.isSpace c = true) ∧ ∃ sign ∈ [',', ')'],
  blanks ++ [sign] <+: q

/-- The call of a method of strings. -/
def CallsMethod (q : Text) : Prop := ∃ k ∈ stringMethods, '.' :: k ++ ['('] <+: q

/-- No word goes on behind the text. -/
def WordStart (p : Text) : Prop := p.getLast?.any CharClass.isWord = false

/-- What stands in front of a parameter and behind it consumes it as it is. -/
inductive Consumed (p q : Text) : Prop
  | converted {front call : Text} : p = front ++ call → WordStart front → IsCall call →
      EndsArgument q → Consumed p q
  | called : WordStart p → CallsMethod q → Consumed p q

/-- A parameter of the text that is consumed as it is. -/
structure Unnarrowed (t p w q : Text) : Prop where
  cut : t = p ++ (w ++ q)
  parameter : Spells Forbidden.parameter w
  consumed : Consumed p q

/-- Such a parameter starts at a place in code. -/
def UnnarrowedAt (t : Text) (n : Nat) : Prop :=
  ∃ p w q, Unnarrowed t p w q ∧ n = size p ∧ (Scan.Source.of t).isCodeAt n = true

theorem wordStart_append (hq : q ≠ []) : WordStart (p ++ q) ↔ WordStart q := by
  rw [WordStart, WordStart, List.getLast?_append_of_ne_nil _ hq]

/-! ## Readings of the patterns -/

theorem wordStart_of_edge {k z : Text} (h : front.getLast?.any CharClass.isWord ≠
    (k ++ z).head?.any CharClass.isWord) (hk : k.head?.any CharClass.isWord = true) :
    WordStart front := by
  cases k with
  | nil => cases hk
  | cons c k =>
      rw [List.cons_append, List.head?_cons] at h
      rw [List.head?_cons] at hk
      rw [hk] at h
      exact Bool.eq_false_iff.mpr h

theorem head_of_converters : ∀ k ∈ converters, k.head?.any CharClass.isWord = true := by
  decide

theorem head_of_parameter (h : Spells Forbidden.parameter w) : ∃ rest,
    w = "req.".toList ++ rest := by
  obtain ⟨head, rest, rfl, hhead, -⟩ := spells_seq h
  exact ⟨rest, by rw [spells_literal hhead]⟩

theorem exists_of_converted (h : Leads Forbidden.convertedParameter (.past front rest []) r) :
    ∃ call w q, rest = call ++ (w ++ q) ∧ WordStart front ∧ IsCall call ∧
      Spells Forbidden.parameter w ∧ EndsArgument q ∧ r.captures = [.past 1 (front ++ call) w] := by
  obtain ⟨e, rest₁, cs₁, rfl, he, hedge, h₁⟩ := leads_past_seq h
  obtain ⟨k, rest₂, cs₂, rfl, hk, hword, h₂⟩ := leads_past_seq h₁
  obtain ⟨paren, rest₃, cs₃, rfl, hparen, hopen, h₃⟩ := leads_past_seq h₂
  obtain ⟨blanks, rest₄, cs₄, rfl, hblanks, hspaces, h₄⟩ := leads_past_seq h₃
  obtain rfl : cs₄ = [] := by
    rw [show cs₄ = cs₃ from hspaces.captures_eq rfl, show cs₃ = cs₂ from hopen.captures_eq rfl,
      show cs₂ = cs₁ from hword.captures_eq rfl, show cs₁ = [] from hedge.captures_eq rfl]
  obtain rfl := spells_wordEdge he
  obtain rfl : paren = ['('] := spells_literal hparen
  have hfront := leads_past_wordEdge hedge
  cases h₄ with
  | seq hparam hend =>
      obtain ⟨w, rest₅, rfl, hw, rfl⟩ := leads_past_capture hparam rfl
      obtain ⟨v, q, -, rfl, -, hv⟩ := hend.past rfl
      have hkmem : k ∈ converters := spells_anyWord hk
      refine ⟨k ++ '(' :: blanks, w, v ++ q, by simp,
        wordStart_of_edge (k := k) hfront (head_of_converters k hkmem),
        ⟨k, hkmem, blanks, rfl, spells_many_char hblanks⟩, hw, ?_, ?_⟩
      · obtain ⟨blanks', sign, rfl, hblanks', hsign⟩ := spells_seq hv
        cases hsign with
        | @char _ c hc =>
            exact ⟨blanks', spells_many_char hblanks', c, List.contains_iff_mem.mp hc,
              List.prefix_append _ _⟩
      · rw [show r.captures = _ from hend.captures_eq rfl]
        simp [Reading.past]

theorem exists_of_called (h : Leads Forbidden.parameterMethod (.past front rest []) r) :
    ∃ w q, rest = w ++ q ∧ WordStart front ∧ Spells Forbidden.parameter w ∧ CallsMethod q ∧
      r.captures = [.past 1 front w] := by
  obtain ⟨e, rest₁, cs₁, rfl, he, hedge, h₁⟩ := leads_past_seq h
  obtain rfl : cs₁ = [] := hedge.captures_eq rfl
  obtain rfl := spells_wordEdge he
  have hfront := leads_past_wordEdge hedge
  cases h₁ with
  | seq hparam hend =>
      obtain ⟨w, rest₂, rfl, hw, rfl⟩ := leads_past_capture hparam rfl
      obtain ⟨v, q, -, rfl, -, hv⟩ := hend.past rfl
      obtain ⟨head, hhead⟩ := head_of_parameter hw
      refine ⟨w, v ++ q, rfl, wordStart_of_edge (k := w) hfront (by rw [hhead]; rfl), hw, ?_, ?_⟩
      · obtain ⟨dot, v, rfl, hdot, hv⟩ := spells_seq hv
        obtain ⟨k, paren, rfl, hk, hparen⟩ := spells_seq hv
        rw [spells_literal hdot, spells_literal hparen]
        exact ⟨k, spells_anyWord hk, q, by simp⟩
      · rw [show r.captures = _ from hend.captures_eq rfl]
        simp [Reading.past]

theorem readsAt_of_word {p q : Pattern} {back : Text} (hp : p = seq wordEdge q)
    (hq : q.blind = true) (hfront : WordStart front) (hu : u.head?.any CharClass.isWord = true)
    (h : Spells q u) (ht : t = front ++ (u ++ back)) : p.ReadsAt t (size front) := by
  subst hp
  obtain ⟨cs, hleads⟩ := h.leads hq front back []
  refine ⟨front, u ++ back, _, ht, rfl, .seq (leads_wordEdge ?_) hleads⟩
  obtain ⟨c, u, rfl⟩ := List.exists_cons_of_ne_nil (l := u) (by rintro rfl; cases hu)
  rw [List.head?_cons] at hu
  rw [List.cons_append, List.head?_cons, hu, show front.getLast?.any CharClass.isWord =
    false from hfront]
  decide

theorem head?_append_of_any {k z : Text} (h : k.head?.any CharClass.isWord = true) :
    (k ++ z).head?.any CharClass.isWord = true := by
  cases k with
  | nil => cases h
  | cons c k => exact h

theorem readsAt_converted {call q : Text} (hfront : WordStart front) (hcall : IsCall call)
    (hw : Spells Forbidden.parameter w) (hq : EndsArgument q) :
    Forbidden.convertedParameter.ReadsAt (front ++ (call ++ (w ++ q))) (size front) := by
  obtain ⟨k, hk, blanks, rfl, hblanks⟩ := hcall
  obtain ⟨blanks', hblanks', sign, hsign, back, rfl⟩ := hq
  have hsign : Spells (oneOf ",)") [sign] := .char (List.contains_iff_mem.mpr hsign)
  have hcut : front ++ (k ++ '(' :: blanks ++ (w ++ (blanks' ++ [sign] ++ back))) =
      front ++ (k ++ (['('] ++ (blanks ++ (w ++ (blanks' ++ [sign])))) ++ back) := by simp
  refine readsAt_of_word rfl (by decide) hfront (head?_append_of_any (head_of_converters k hk)) ?_
    hcut
  exact .seq (spells_anyWord_of_mem hk)
    (.seq (spells_literal_self _) (.seq (spells_many_of_forall hblanks)
    (.seq (.capture hw) (.seq (spells_many_of_forall hblanks') hsign))))

theorem readsAt_called {q : Text} (hp : WordStart p) (hw : Spells Forbidden.parameter w)
    (hq : CallsMethod q) : Forbidden.parameterMethod.ReadsAt (p ++ (w ++ q)) (size p) := by
  obtain ⟨k, hk, back, rfl⟩ := hq
  have hhead : w.head?.any CharClass.isWord = true := by
    obtain ⟨head, rfl⟩ := head_of_parameter hw
    rfl
  have hcut : p ++ (w ++ ('.' :: k ++ ['('] ++ back)) = p ++
      (w ++ (['.'] ++ (k ++ ['('])) ++ back) := by
    simp
  refine readsAt_of_word rfl (by decide) hp (head?_append_of_any hhead) ?_ hcut
  exact .seq (.capture hw) (.seq (spells_literal_self _) (.seq (spells_anyWord_of_mem hk)
    (spells_literal_self _)))

/-! ## Nothing starts inside -/

theorem Consumed.endsParameter {q : Text} (h : Consumed p q) : EndsParameter q := by
  cases h with
  | converted _ _ _ hq =>
      obtain ⟨blanks, hblanks, sign, hsign, back, rfl⟩ := hq
      have hsign : Spells (oneOf ",)") [sign] := .char (List.contains_iff_mem.mpr hsign)
      exact endsParameter_of_converted (.seq (spells_many_of_forall hblanks) hsign)
  | called _ hq =>
      obtain ⟨k, hk, back, rfl⟩ := hq
      have hcall : Spells (seq (word ".") (seq (anyWord _) (word "("))) (['.'] ++ (k ++ ['('])) :=
        .seq (spells_literal_self ['.'])
        (.seq (spells_anyWord_of_mem hk) (spells_literal_self ['(']))
      exact endsParameter_of_method (by decide) hcall

theorem Unnarrowed.whole {q : Text} (h : Unnarrowed t p w q) : Whole t (size p) (size p + size w) :=
  ⟨p, w, q, by rw [h.cut, List.append_assoc], rfl, rfl, isParameter_of_spells h.parameter,
    h.consumed.endsParameter⟩

theorem Whole.start_lt (h : Whole t n stop) : n < stop := by
  obtain ⟨p, w, q, -, rfl, rfl, ⟨kind, -, name, rfl, -⟩, -⟩ := h
  have hhead : 0 < size (parameterHead kind ++ name) :=
    Nat.lt_of_lt_of_le (Char.utf8Size_pos 'r') (Nat.le_add_right _ _)
  omega

theorem Whole.stop_eq (h : Whole t n stop) (h' : Whole t n stop') : stop = stop' := by
  rcases eq_or_le_of_whole h h' (Nat.le_refl n) with ⟨-, hstop⟩ | hle
  · exact hstop
  · exact absurd h.start_lt (Nat.not_lt.mpr hle)

theorem notPrefix_converters : ∀ k ∈ converters, ∀ r ∈ (k ++ ['(']).tails, r ≠ [] → r ≠ k ++ ['('] →
    ∀ k' ∈ converters, ¬ (r <+: k' ++ ['('] ∨ k' ++ ['('] <+: r) := by
  decide

theorem notPrefix_stringMethods : ∀ k ∈ stringMethods, ∀ r ∈ ('.' :: k ++ ['(']).tails, r ≠ [] →
    ¬ (r <+: "req.".toList ∨ "req.".toList <+: r) := by
  decide

/-- No conversion starts inside of another one. -/
theorem start_eq_of_converted (hm : m ∈ Forbidden.convertedParameter.all t)
    (hmatch : Forbidden.convertedParameter.MatchesAt t n) (hle : m.start ≤ n) (hlt : n < m.stop) :
    m.start = n := by
  refine (Nat.eq_or_lt_of_le hle).resolve_right fun hbefore => ?_
  obtain ⟨front, c, w, d, v, back, u, back', -, -, -, hspells, hu, hv⟩ :=
    exists_overlap hm hmatch hbefore hlt
  obtain ⟨k, hk, r, rest, hr, hcall, hdv⟩ := starts_in_call hspells (.altFirst hu) hv
  obtain ⟨k', hk', blanks, -, param, tail, rfl, -⟩ := spells_convertedParameter hu
  refine notPrefix_converters k hk r ((List.mem_tails _ _).mpr ⟨c :: w, hcall.symm⟩) hr (fun heq =>
    ?_)
    k' hk' ?_
  · have hlength := congrArg List.length hcall
    simp only [heq, List.length_append, List.length_cons] at hlength
    omega
  · have hfront : r <+: d :: v ++ back := by
      rw [hdv, List.append_assoc]
      exact List.prefix_append _ _
    refine List.prefix_or_prefix_of_prefix hfront ?_
    · rw [hv, List.append_assoc]
      exact List.prefix_append _ _

theorem spells_called (h : Spells Forbidden.parameterMethod u) : ∃ w, ∃ k ∈ stringMethods,
    u = w ++ ('.' :: k ++ ['(']) ∧ Spells Forbidden.parameter w := by
  obtain ⟨e, _, rfl, hedge, h⟩ := spells_seq h
  obtain ⟨w, _, rfl, hparam, h⟩ := spells_seq h
  obtain ⟨dot, _, rfl, hdot, h⟩ := spells_seq h
  obtain ⟨k, paren, rfl, hk, hparen⟩ := spells_seq h
  rw [spells_wordEdge hedge, spells_literal hdot, spells_literal hparen]
  exact ⟨w, k, spells_anyWord hk, by simp, spells_capture hparam⟩

/-- No call of a method on a parameter starts inside of another one. -/
theorem start_eq_of_called (hm : m ∈ Forbidden.parameterMethod.all t)
    (hmatch : Forbidden.parameterMethod.MatchesAt t n) (hle : m.start ≤ n) (hlt : n < m.stop) :
    m.start = n := by
  refine (Nat.eq_or_lt_of_le hle).resolve_right fun hbefore => ?_
  obtain ⟨front, c, x, d, v, back, u, back', -, -, -, hspells, hu, hv⟩ :=
    exists_overlap hm hmatch hbefore hlt
  obtain ⟨w, k, hk, hcut, hw⟩ := spells_called hspells
  obtain ⟨w', k', hk', rfl, hw'⟩ := spells_called hu
  have hconsumed : ∀ {k : Text}, k ∈ stringMethods → ∀ z, Consumed [] ('.' :: k ++ ['('] ++ z) :=
    fun hk z => .called rfl ⟨_, hk, List.prefix_append _ _⟩
  have houter : Unnarrowed (c :: x ++ d :: v ++ back) [] w ('.' :: k ++ ['('] ++ back) :=
    ⟨by rw [hcut]; simp, hw, hconsumed hk back⟩
  have hinner : Whole (c :: x ++ d :: v ++ back) (size (c :: x)) (size (c :: x) + size w') :=
    ⟨c :: x, w', '.' :: k' ++ ['('] ++ back', by rw [List.append_assoc, hv]; simp, rfl, rfl,
      isParameter_of_spells hw', (hconsumed hk' back').endsParameter⟩
  have hpos : 0 < size (c :: x) := Nat.lt_of_lt_of_le c.utf8Size_pos (Nat.le_add_right _ _)
  have hbehind : size w ≤ size (c :: x) := by
    rcases eq_or_le_of_whole houter.whole hinner (Nat.zero_le _) with ⟨hstart, -⟩ | hle
    · have : size ([] : Text) = 0 := rfl
      omega
    · simpa [size] using hle
  obtain ⟨z, -, hz⟩ := Text.exists_middle hcut.symm hbehind
  obtain ⟨rest, hhead⟩ := head_of_parameter hw'
  refine notPrefix_stringMethods k hk (d :: v) ((List.mem_tails _ _).mpr ⟨z, hz.symm⟩)
    (List.cons_ne_nil d v) ?_
  refine List.prefix_or_prefix_of_prefix (List.prefix_append (d :: v) back) ?_
  rw [hv, hhead, List.append_assoc, List.append_assoc]
  exact List.prefix_append _ _

/-! ## The spans to wrap -/

theorem mem_parameterSpans : a ∈ Repair.parameterSpans (.of t) ↔
    ∃ m ∈ Forbidden.convertedParameter.all t ++ Forbidden.parameterMethod.all t, ∃ g,
    m.group? 1 = some g ∧
      (Scan.Source.of t).isCodeAt g.start = true ∧ (g.start, g.stop) = a := by
  rw [Repair.parameterSpans, List.mem_eraseDups, List.mem_mergeSort, List.mem_map]
  constructor
  · rintro ⟨g, hg, ha⟩
    obtain ⟨hg, hcode⟩ := List.mem_filter.mp hg
    obtain ⟨m, hm, hg⟩ := List.mem_filterMap.mp hg
    exact ⟨m, hm, g, hg, hcode, ha⟩
  · rintro ⟨m, hm, g, hg, hcode, ha⟩
    exact ⟨g, List.mem_filter.mpr ⟨List.mem_filterMap.mpr ⟨m, hm, hg⟩, hcode⟩, ha⟩

theorem group?_of_captures {g : Capture} (h : m.captures = [g]) (hg : g.group = 1) :
    m.group? 1 = some g := by
  rw [Match.group?, h]
  simp [hg]

theorem isCall_unique {call call' z z' : Text} (hcall : IsCall call) (hcall' : IsCall call')
    (h : call ++ z = call' ++ z') (hz : ∀ c ∈ z.head?, CharClass.isSpace c = false)
    (hz' : ∀ c ∈ z'.head?, CharClass.isSpace c = false) : call = call' := by
  obtain ⟨k, hk, blanks, rfl, hblanks⟩ := hcall
  obtain ⟨k', hk', blanks', rfl, hblanks'⟩ := hcall'
  have hparen : ∀ k ∈ converters, '(' ∉ k := by decide
  rw [List.append_assoc, List.append_assoc, List.cons_append, List.cons_append] at h
  obtain rfl := Text.eq_of_notMem (hparen k hk) (hparen k' hk') h
  obtain ⟨-, h⟩ := List.cons.inj (List.append_cancel_left h)
  rw [class_unique h hblanks hblanks' hz hz']

theorem isSpace_head_parameter (h : Spells Forbidden.parameter w) (q : Text) :
    ∀ c ∈ (w ++ q).head?, CharClass.isSpace c = false := by
  obtain ⟨rest, rfl⟩ := head_of_parameter h
  intro c hc
  rw [← Option.some.inj hc]
  decide

/-- The spans to wrap are the parameters in code that are consumed as they are. -/
theorem mem_parameterSpans_iff : a ∈ Repair.parameterSpans (.of t) ↔
    ∃ p w q, Unnarrowed t p w q ∧ (Scan.Source.of t).isCodeAt (size p) = true ∧
      a = (size p, size p + size w) := by
  rw [mem_parameterSpans]
  constructor
  · rintro ⟨m, hm, g, hg, hcode, rfl⟩
    rcases List.mem_append.mp hm with hm | hm
    · obtain ⟨front, back, hcut, -, -, hleads⟩ := exists_leads_of_mem_all hm
      obtain ⟨call, w, q, hrest, hfront, hcall, hw, hq, hcaptures⟩ := exists_of_converted hleads
      obtain rfl := Option.some.inj (hg.symm.trans (group?_of_captures hcaptures rfl))
      exact ⟨front ++ call, w, q, ⟨by rw [hcut, hrest, List.append_assoc], hw,
        .converted rfl hfront hcall hq⟩, hcode, rfl⟩
    · obtain ⟨front, back, hcut, -, -, hleads⟩ := exists_leads_of_mem_all hm
      obtain ⟨w, q, hrest, hfront, hw, hq, hcaptures⟩ := exists_of_called hleads
      obtain rfl := Option.some.inj (hg.symm.trans (group?_of_captures hcaptures rfl))
      exact ⟨front, w, q, ⟨by rw [hcut, hrest], hw, .called hfront hq⟩, hcode, rfl⟩
  · rintro ⟨p, w, q, h, hcode, rfl⟩
    have hwhole := h.whole
    obtain ⟨hcut, hw, hconsumed⟩ := h
    cases hconsumed with
    | @converted front call hp hfront hcall hq =>
        subst hp
        rw [List.append_assoc] at hcut
        have hmatch := (readsAt_converted hfront hcall hw hq).matchesAt rfl
        rw [← hcut] at hmatch
        obtain ⟨m, hm, hle, hlt⟩ := exists_covering (fun u hu => spells_ne_nil hu rfl) hmatch
        have hstart := start_eq_of_converted hm hmatch hle hlt
        obtain ⟨front', back, hcut', hstart', -, hleads⟩ := exists_leads_of_mem_all hm
        obtain ⟨call', w', q', hrest, hfront', hcall', hw', hq', hcaptures⟩ :=
          exists_of_converted hleads
        obtain ⟨rfl, hsame⟩ := Text.append_inj_of_size (hcut'.symm.trans hcut)
          (hstart'.symm.trans hstart)
        rw [hsame] at hrest
        obtain rfl := isCall_unique hcall hcall' hrest (isSpace_head_parameter hw q)
          (isSpace_head_parameter hw' q')
        have hwhole' : Whole t (size (front' ++ call)) (size (front' ++ call) + size w') :=
          Unnarrowed.whole
          ⟨by rw [hcut, hrest, List.append_assoc], hw', .converted rfl hfront' hcall' hq'⟩
        refine ⟨m, List.mem_append_left _ hm, _, group?_of_captures hcaptures rfl, hcode, ?_⟩
        exact Prod.ext rfl (hwhole'.stop_eq hwhole)
    | called hp hq =>
        have hmatch := (readsAt_called hp hw hq).matchesAt rfl
        rw [← hcut] at hmatch
        obtain ⟨m, hm, hle, hlt⟩ := exists_covering (fun u hu => spells_ne_nil hu rfl) hmatch
        have hstart := start_eq_of_called hm hmatch hle hlt
        obtain ⟨front, back, hcut', hstart', -, hleads⟩ := exists_leads_of_mem_all hm
        obtain ⟨w', q', hrest, hfront', hw', hq', hcaptures⟩ := exists_of_called hleads
        obtain ⟨rfl, hsame⟩ := Text.append_inj_of_size (hcut'.symm.trans hcut)
          (hstart'.symm.trans hstart)
        rw [hsame] at hrest
        have hwhole' : Whole t (size front) (size front + size w') :=
          Unnarrowed.whole ⟨by rw [hcut, hrest], hw', .called hfront' hq'⟩
        refine ⟨m, List.mem_append_right _ hm, _, group?_of_captures hcaptures rfl, hcode, ?_⟩
        exact Prod.ext rfl (hwhole'.stop_eq hwhole)

/-! ## What the rule finds -/

theorem IsCall.exists_cons {call : Text} (h : IsCall call) :
    ∃ c rest, call = c :: rest ∧ isNameChar c = true ∧ ∀ x ∈ c :: rest, Scan.isFlat x = true := by
  obtain ⟨k, hk, blanks, rfl, hblanks⟩ := h
  have hname : ∀ k ∈ converters, ∀ x ∈ k ++ ['('], Scan.isFlat x = true := by decide
  obtain ⟨hne, hchars⟩ := converter_chars k hk
  have hflat := hname k hk
  obtain ⟨c, k, rfl⟩ := List.exists_cons_of_ne_nil hne
  refine ⟨c, k ++ '(' :: blanks, rfl, hchars c List.mem_cons_self, fun x hx => ?_⟩
  have hcut : c :: (k ++ '(' :: blanks) = c :: k ++ ['('] ++ blanks := by simp
  rw [hcut, List.mem_append] at hx
  rcases hx with hx | hx
  · exact hflat x hx
  · exact (ordinary_of_isSpace hblanks x hx).1

theorem detector_unnarrowed : ∀ rule ∈ Rule.all, rule.code = "UNNARROWED_PARAM" →
    rule.detector = .forbidden (alt Forbidden.convertedParameter Forbidden.parameterMethod) :=
  fun _ hrule hcode => detector_of_find? rfl hrule hcode

theorem exists_unnarrowedAt
    (hm : m ∈ (alt Forbidden.convertedParameter Forbidden.parameterMethod).all t)
    (hcode : (Scan.Source.of t).isCodeAt m.start = true) : ∃ n, UnnarrowedAt t n := by
  obtain ⟨front, back, hcut, hstart, -, hleads⟩ := exists_leads_of_mem_all hm
  rw [hstart] at hcode
  cases hleads with
  | altFirst hleads =>
      obtain ⟨call, w, q, hrest, hfront, hcall, hw, hq, -⟩ := exists_of_converted hleads
      rw [hrest] at hcut
      refine ⟨_, front ++ call, w, q, ⟨by rw [hcut, List.append_assoc], hw,
        .converted rfl hfront hcall hq⟩, rfl, ?_⟩
      -- the conversion starts in code and has no quotes, so its argument does, too
      obtain ⟨c, rest, hcons, -, hflat⟩ := hcall.exists_cons
      obtain ⟨rest', hw⟩ := head_of_parameter hw
      have hreq : "req.".toList = 'r' :: "eq.".toList := by decide
      rw [hcut, hcons, hw, hreq] at hcode ⊢
      simp only [List.cons_append] at hcode ⊢
      have hin := (Scan.inCode_of_isCodeAt hcode).append hflat 'r'
      have hplace := hin.isCodeAt (by decide) (by decide) ("eq.".toList ++ (rest' ++ q))
      rwa [List.append_assoc, List.cons_append] at hplace
  | altSecond hleads =>
      obtain ⟨w, q, hrest, hfront, hw, hq, -⟩ := exists_of_called hleads
      exact ⟨_, front, w, q, ⟨by rw [hcut, hrest], hw, .called hfront hq⟩, rfl, hcode⟩

/-- Where no parameter is left to narrow, the rule finds nothing. -/
theorem findings_eq_nil_of_narrowed {rule : Rule} {ctx : Context} (hrule : rule ∈ Rule.all)
    (hcode : rule.code = "UNNARROWED_PARAM") (hsource : ctx.source = .of t)
    (h : ∀ n, ¬ UnnarrowedAt t n) : rule.detector.findings ctx = .ok [] := by
  have hnone : ((alt Forbidden.convertedParameter Forbidden.parameterMethod).all
      (Scan.Source.of t).text).filter (fun m => (Scan.Source.of t).isCodeAt m.start) = [] :=
    List.filter_eq_nil_iff.mpr fun m hm hstart => by
      obtain ⟨n, hn⟩ := exists_unnarrowedAt hm hstart
      exact h n hn
  rw [detector_unnarrowed rule hrule hcode, Detector.findings, hsource]
  rw [hnone, List.map_nil]

end ServiceGate
