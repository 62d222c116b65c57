/-
# What a rule on a forbidden pattern finds

Such a rule takes the matches of its pattern from left to right and reports those that start in
code. A match that starts in a comment or a string and runs on into code is not reported, and it
takes the places it reaches over from the matches that start there (`Hidden`).  That is all that is
missed:

    a finding reaches over a match that starts in code ↔ it is not hidden   -- `forbidden_found`

and only the patterns that go over comments, quotes and lines can be hidden.  The matches of the
others hold quiet characters only (`Scan.isCodeAt_of_quiet`), or none starts inside of another.
-/
import ServiceGate.Proofs.Checked.Parameters
import ServiceGate.Proofs.Pattern.Search
import ServiceGate.Proofs.Scan.Quiet
import ServiceGate.Rule.Registry

namespace ServiceGate

open Pattern

variable {p q : Pattern} {t u v w back back' : Text} {n : Nat} {m : Match} {s : Scan.Source}
  {ctx : Context} {rule : Rule} {c d : Char}

/-- The stretch of a finding reaches over a place. -/
def Finding.Covers (f : Finding) (n : Nat) : Prop :=
  ∃ k, f.offset = some k ∧ k ≤ n ∧ n < k + Text.size f.matched

/-- A match that starts in front of a place, in no code, reaches over the place. -/
def Hidden (p : Pattern) (s : Scan.Source) (n : Nat) : Prop :=
  ∃ m ∈ p.all s.text, m.start < n ∧ n < m.stop ∧ s.isCodeAt m.start = false

instance (p : Pattern) (s : Scan.Source) (n : Nat) : Decidable (Hidden p s n) :=
  inferInstanceAs (Decidable (∃ m ∈ p.all s.text, m.start < n ∧ n < m.stop ∧
    s.isCodeAt m.start = false))

/-- The codes of the rules whose matches may be hidden. -/
def hidingCodes : List String :=
  ["UNSAFE_BODY_CAST", "UNVALIDATED_BODY_DESTRUCTURE", "FORBIDDEN_UUID_DEPENDENCY"]

/-! ## What is found -/

theorem findings_forbidden : ∃ fs, (Detector.forbidden p).findings ctx = .ok fs ∧ ∀ n,
    (∃ f ∈ fs, f.Covers n) ↔
      ∃ m ∈ p.all ctx.source.text, ctx.source.isCodeAt m.start = true ∧ m.start ≤ n ∧
      n < m.stop := by
  refine ⟨_, rfl, fun n => ⟨?_, ?_⟩⟩
  · rintro ⟨f, hf, k, hk, hle, hlt⟩
    obtain ⟨m, hm, rfl⟩ := List.mem_map.mp hf
    obtain ⟨hm, hcode⟩ := List.mem_filter.mp hm
    obtain rfl := Option.some.inj hk
    exact ⟨m, hm, hcode, hle, by rw [(in_of_mem_all hm).stop]; exact hlt⟩
  · rintro ⟨m, hm, hcode, hle, hlt⟩
    refine ⟨_, List.mem_map_of_mem (List.mem_filter.mpr ⟨hm, hcode⟩), m.start, rfl, hle, ?_⟩
    rwa [(in_of_mem_all hm).stop] at hlt

/-- A place in code at which the pattern matches is found, or it is hidden. -/
theorem covers_iff (hp : p.takes = true) (hmatch : p.MatchesAt s.text n)
    (hcode : s.isCodeAt n = true) :
    (∃ m ∈ p.all s.text, s.isCodeAt m.start = true ∧ m.start ≤ n ∧ n < m.stop) ↔
      ¬ Hidden p s n := by
  constructor
  · rintro ⟨m, hm, hstart, hle, hlt⟩ ⟨m', hm', hlt', hstop', hstart'⟩
    obtain rfl := eq_of_covering hm hm' ⟨hle, hlt⟩ ⟨Nat.le_of_lt hlt', hstop'⟩
    rw [hstart'] at hstart
    cases hstart
  · intro hhidden
    obtain ⟨m, hm, hle, hlt⟩ := exists_covering (fun u hu => spells_ne_nil hu hp) hmatch
    refine ⟨m, hm, ?_, hle, hlt⟩
    rcases Nat.eq_or_lt_of_le hle with heq | hbefore
    · rw [heq]
      exact hcode
    · by_contra hstart
      exact hhidden ⟨m, hm, hbefore, hlt, by simpa using hstart⟩

/-! ## Matches inside of others -/

/-- Where a match starts inside of another, the text that both read. -/
theorem exists_overlap (hm : m ∈ p.all t) (hmatch : p.MatchesAt t n) (hlt : m.start < n)
    (hstop : n < m.stop) : ∃ front c w d v back u back', t = front ++ (c :: w ++ d :: v ++ back) ∧
      m.start = Text.size front ∧ n = Text.size (front ++ c :: w) ∧
      Spells p (c :: w ++ d :: v) ∧ Spells p u ∧ d :: v ++ back = u ++ back' := by
  obtain ⟨front, back, ht, hstart⟩ := (in_of_mem_all hm).cut
  obtain ⟨front', u, back', ht', rfl, hu⟩ := hmatch.exists_spells
  have hsize := (in_of_mem_all hm).stop
  rw [List.append_assoc] at ht
  obtain ⟨w, rfl, hw⟩ := Text.exists_middle (ht.symm.trans ht') (by omega)
  rw [Text.size_append] at hlt hstop
  obtain ⟨v, hmw, hv⟩ := Text.exists_middle hw.symm (by omega)
  cases w with
  | nil => exact absurd hlt (by rw [hstart]; exact Nat.lt_irrefl _)
  | cons c w =>
      cases v with
      | nil =>
          rw [hmw, List.append_nil] at hsize
          omega
      | cons d v =>
          refine ⟨front, c, w, d, v, back, u, back', ?_, hstart, rfl, ?_, hu, hv.symm⟩
          · rw [ht, hmw]
          · rw [← hmw]
            exact (in_of_mem_all hm).spells

/-- Of the matches of the pattern, one that starts in no code holds no other one that starts in
code. -/
def Steady (p : Pattern) : Prop :=
  ∀ {s : Scan.Source} {n : Nat} {m : Match}, m ∈ p.all s.text → p.MatchesAt s.text n →
    m.start < n → n < m.stop → s.isCodeAt n = true → s.isCodeAt m.start = true

theorem Steady.not_hidden (hp : Steady p) (hmatch : p.MatchesAt s.text n)
    (hcode : s.isCodeAt n = true) : ¬ Hidden p s n := by
  rintro ⟨m, hm, hlt, hstop, hstart⟩
  rw [hp hm hmatch hlt hstop hcode] at hstart
  cases hstart

/-- A match is steady if the part of it in front of the other one is quiet, with the first character
of that one. -/
theorem steady_of_quiet (hp : ∀ {c w d v u back back'}, Spells p (c :: w ++ d :: v) → Spells p u →
    d :: v ++ back = u ++ back' → ∀ x ∈ c :: w ++ [d], Scan.isQuiet x = true) : Steady p := by
  intro s n m hm hmatch hlt hstop hcode
  obtain ⟨front, c, w, d, v, back, u, back', ht, hstart, rfl, hspells, hu, hv⟩ :=
    exists_overlap hm hmatch hlt hstop
  obtain ⟨t, blanked, rfl⟩ := s
  obtain rfl : t = front ++ (c :: w ++ d :: (v ++ back)) := ht.trans (by simp)
  rw [hstart]
  exact Scan.isCodeAt_of_quiet (hp hspells hu hv) hcode

theorem Pattern.Only.front (hp : p.Only Scan.isQuiet) (h : Spells p (c :: w ++ d :: v)) :
    ∀ x ∈ c :: w ++ [d], Scan.isQuiet x = true := fun x hx => hp.of_spells h x (by
  rcases List.mem_append.mp hx with hx | hx
  · exact List.mem_append_left _ hx
  · rw [List.mem_singleton.mp hx]
    exact List.mem_append_right _ List.mem_cons_self)

theorem Pattern.Only.steady (hp : p.Only Scan.isQuiet) : Steady p :=
  steady_of_quiet fun h _ _ => hp.front h

/-! ## Patterns of quiet characters -/

theorem isQuiet_of_isNameChar (h : isNameChar c = true) : Scan.isQuiet c = true := by
  rw [isNameChar, Bool.or_eq_true, beq_iff_eq] at h
  rcases h with h | rfl
  · have hsigns := CharClass.notMem_signs_of_isWord h
    have hspace : CharClass.isAsciiSpace c = false := by
      rw [← Bool.not_eq_true]
      intro hs
      have hspaces : ∀ d ∈ [' ', '\t', '\n', '\x0c', '\r'], CharClass.isWord d = false := by decide
      rw [hspaces c (by simpa [CharClass.isAsciiSpace, or_assoc] using hs)] at h
      cases h
    simp only [CharClass.signs, List.mem_cons, not_or] at hsigns
    simp [Scan.isQuiet, Scan.isFlat, Scan.isQuote, hsigns, hspace]
  · decide

theorem only_name : Pattern.name.Only Scan.isQuiet :=
  ⟨fun _ hc => isQuiet_of_isNameChar (isNameChar_of_start hc), fun _ hc => isQuiet_of_isNameChar hc⟩

theorem only_parameter : Forbidden.parameter.Only Scan.isQuiet :=
  ⟨only_literal (by decide), only_anyWord (by decide), only_literal (by decide), only_name⟩

theorem only_parameterMethod : Forbidden.parameterMethod.Only Scan.isQuiet :=
  ⟨trivial, only_parameter, only_literal (by decide), only_anyWord (by decide),
    only_literal (by decide)⟩

theorem only_qualifiedType : Forbidden.qualifiedType.Only Scan.isQuiet :=
  ⟨trivial, only_literal (by decide), only_anyWord (by decide), trivial⟩

theorem only_consoleLog : Forbidden.consoleLog.Only Scan.isQuiet :=
  ⟨trivial, only_literal (by decide)⟩

theorem only_nullableTimestamp : Forbidden.nullableTimestamp.Only Scan.isQuiet := by
  refine ⟨trivial, only_name, only_literal (by decide), fun c hc => ?_, only_anyWord (by decide),
    only_literal (by decide), only_anyWord (by decide), only_literal (by decide)⟩
  refine isQuiet_of_isNameChar (isNameChar_of_start ?_)
  rcases Bool.or_eq_true _ _ ▸ hc with hc | hc
  · simp [CharClass.isAsciiLetter, hc]
  · simp [hc]

/-! ## Types that switch checking off -/

theorem cut_in_or_behind {a b x y : Text} (h : a ++ b = x ++ y) :
    (∃ r, r ≠ [] ∧ x = a ++ r ∧ b = r ++ y) ∨ ∃ r, a = x ++ r ∧ y = r ++ b := by
  rcases List.append_eq_append_iff.mp h with ⟨r, hx, hb⟩ | ⟨r, ha, hy⟩
  · by_cases hr : r = []
    · subst hr
      exact .inr ⟨[], by simp [hx], by simp [hb]⟩
    · exact .inl ⟨r, hr, hx, hb⟩
  · exact .inr ⟨r, ha, hy⟩

/-- How a type that switches checking off may begin, in front of any white space. -/
def anyHeads : List Text := [[':'], ['a', 's'], ['<']]

def anyTails : List Text := [['a', 'n', 'y'], ['a', 'n', 'y', '>']]

theorem spells_explicitAny (h : Spells Forbidden.explicitAny u) : ∃ head ∈ anyHeads, ∃ blanks,
    (∀ x ∈ blanks, CharClass.isSpace x = true) ∧ ∃ tail ∈ anyTails,
    u = head ++ (blanks ++ tail) := by
  cases h with
  | altFirst h =>
      obtain ⟨colon, _, rfl, hcolon, h⟩ := spells_seq h
      obtain ⟨blanks, _, rfl, hblanks, h⟩ := spells_seq h
      obtain ⟨any, e, rfl, hany, hedge⟩ := spells_seq h
      refine ⟨[':'], by decide, blanks, spells_many_char hblanks, ['a', 'n', 'y'], by decide, ?_⟩
      rw [spells_literal hcolon, spells_literal hany, spells_wordEdge hedge, List.append_nil]
      rfl
  | altSecond h =>
      cases h with
      | altFirst h =>
          obtain ⟨e, _, rfl, hedge, h⟩ := spells_seq h
          obtain ⟨as, _, rfl, has, h⟩ := spells_seq h
          obtain ⟨blanks, _, rfl, hblanks, h⟩ := spells_seq h
          obtain ⟨any, e', rfl, hany, hedge'⟩ := spells_seq h
          obtain ⟨blank, more, rfl, hblank, hmore⟩ := spells_seq hblanks
          refine ⟨['a', 's'], by decide, blank ++ more, ?_, ['a', 'n', 'y'], by decide, ?_⟩
          · cases hblank with
            | char hc => exact List.forall_mem_cons.mpr ⟨hc, spells_many_char hmore⟩
          · rw [spells_wordEdge hedge, spells_literal has, spells_literal hany,
              spells_wordEdge hedge', List.append_nil]
            rfl
      | altSecond h =>
          exact ⟨['<'], by decide, [], fun _ hx => absurd hx List.not_mem_nil, ['a', 'n', 'y', '>'],
            by decide, spells_literal h⟩

theorem notPrefix_anyHeads : ∀ word ∈ anyHeads ++ anyTails, ∀ y ∈ word.tails, y ≠ [] →
    (word ∈ anyHeads → y ≠ word) → ∀ head ∈ anyHeads, ¬ (y <+: head ∨ head <+: y) := by
  decide

theorem isSpace_head_anyHeads : ∀ head ∈ anyHeads, ∀ c ∈ head.head?,
    CharClass.isSpace c = false := by
  decide

theorem steady_explicitAny : Steady Forbidden.explicitAny := by
  refine steady_of_quiet fun {c w d v u back back'} h hu hv => ?_
  exfalso
  obtain ⟨head, hhead, blanks, hblanks, tail, htail, hcut⟩ := spells_explicitAny h
  obtain ⟨head', hhead', blanks', -, tail', -, rfl⟩ := spells_explicitAny hu
  -- a part of the signs that the cut goes through is the start of the inner type, or the other way
  -- round
  have hpart : ∀ {word y z : Text}, word ∈ anyHeads ++ anyTails → y <:+ word → y ≠ [] →
      (word ∈ anyHeads → y ≠ word) → d :: v = y ++ z → False := by
    intro word y z hword hy hne hproper hdv
    refine notPrefix_anyHeads word hword y ((List.mem_tails _ _).mpr hy) hne hproper head' hhead' ?_
    refine List.prefix_or_prefix_of_prefix (List.prefix_append y (z ++ back)) ?_
    rw [← List.append_assoc, ← hdv, hv, List.append_assoc]
    exact List.prefix_append _ _
  rcases cut_in_or_behind hcut with ⟨y, hne, hword, hdv⟩ | ⟨w', -, hbehind⟩
  · refine hpart (List.mem_append_left _ hhead) ⟨c :: w, hword.symm⟩ hne (fun _ heq => ?_) hdv
    have hlength := congrArg List.length hword
    rw [heq, List.length_append, List.length_cons] at hlength
    omega
  rcases cut_in_or_behind hbehind.symm with ⟨y, hne, hword, hdv⟩ | ⟨w'', -, hbehind⟩
  · -- the inner type would start with white space
    cases y with
    | nil => exact hne rfl
    | cons x y =>
        obtain ⟨rfl, -⟩ := List.cons.inj hdv
        have hspace := hblanks d (hword ▸ List.mem_append_right _ List.mem_cons_self)
        obtain ⟨x, rest, rfl⟩ : ∃ x rest, head' = x :: rest := by
          cases head' with
          | nil => exact absurd hhead' (by decide)
          | cons x rest => exact ⟨x, rest, rfl⟩
        obtain ⟨rfl, -⟩ := List.cons.inj hv
        rw [isSpace_head_anyHeads _ hhead' d rfl] at hspace
        cases hspace
  · refine hpart (z := []) (List.mem_append_right _ htail) ⟨w'', hbehind.symm⟩
      (List.cons_ne_nil d v)
      (fun hmem _ => ?_) (List.append_nil _).symm
    exact absurd htail ((by decide : ∀ word ∈ anyHeads, word ∉ anyTails) tail hmem)

/-! ## Parameters that are not narrowed -/

def converters : List Text :=
  ["parseInt", "parseFloat", "Number", "decodeURIComponent"].map String.toList

theorem spells_convertedParameter (h : Spells Forbidden.convertedParameter u) :
    ∃ converter ∈ converters, ∃ blanks, (∀ x ∈ blanks, CharClass.isSpace x = true) ∧
      ∃ param tail, u = (converter ++ ['(']) ++ (blanks ++ (param ++ tail)) ∧ IsParameter param ∧
        ∃ blanks', (∀ x ∈ blanks', CharClass.isSpace x = true) ∧ ∃ sign ∈ [',', ')'],
          tail = blanks' ++ [sign] := by
  obtain ⟨e, _, rfl, hedge, h⟩ := spells_seq h
  obtain ⟨converter, _, rfl, hconverter, h⟩ := spells_seq h
  obtain ⟨paren, _, rfl, hparen, h⟩ := spells_seq h
  obtain ⟨blanks, _, rfl, hblanks, h⟩ := spells_seq h
  obtain ⟨param, _, rfl, hparam, h⟩ := spells_seq h
  obtain ⟨blanks', _, rfl, hblanks', h⟩ := spells_seq h
  cases h with
  | @char _ sign hsign =>
      refine ⟨converter, spells_anyWord hconverter, blanks, spells_many_char hblanks, param, _, ?_,
        isParameter_of_spells (spells_capture hparam), blanks', spells_many_char hblanks', sign,
        List.contains_iff_mem.mp hsign, rfl⟩
      rw [spells_wordEdge hedge, spells_literal hparen]
      simp

theorem spells_parameterMethod (h : Spells Forbidden.parameterMethod u) : ∃ param tail,
    u = param ++ '.' :: tail ∧ IsParameter param ∧ ∀ back, EndsParameter ('.' :: tail ++ back) := by
  obtain ⟨e, _, rfl, hedge, h⟩ := spells_seq h
  obtain ⟨param, _, rfl, hparam, h⟩ := spells_seq h
  obtain ⟨dot, tail, rfl, hdot, hmethod⟩ := spells_seq h
  rw [spells_wordEdge hedge, spells_literal hdot]
  refine ⟨param, tail, rfl, isParameter_of_spells (spells_capture hparam), fun back => ?_⟩
  have hends := endsParameter_of_method (q := back) (by decide) h
  rwa [spells_literal hdot] at hends

/-- What stands behind a converted parameter ends it, and starts with none of the signs that an
inner match has behind a name. -/
theorem head_of_conversion {blanks' : Text} {sign : Char}
    (hblanks : ∀ x ∈ blanks', CharClass.isSpace x = true) (hsign : sign ∈ [',', ')']) :
    ∀ x ∈ blanks' ++ [sign], isNameChar x = false ∧ x ≠ '.' ∧ x ≠ '(' := by
  intro x hx
  rcases List.mem_append.mp hx with hx | hx
  · have hsigns := CharClass.notMem_signs_of_isSpace (hblanks x hx)
    refine ⟨?_, ?_, ?_⟩
    · rw [isNameChar, CharClass.isWord_of_isSpace (hblanks x hx), Bool.false_or]
      refine beq_eq_false_iff_ne.mpr ?_
      rintro rfl
      exact absurd (hblanks '$' hx) (by decide)
    · rintro rfl
      exact hsigns (by decide)
    · rintro rfl
      exact hsigns (by decide)
  · rw [List.mem_singleton.mp hx]
    exact (by decide : ∀ x ∈ [',', ')'], isNameChar x = false ∧ x ≠ '.' ∧ x ≠ '(') sign hsign

theorem parameter_chars (h : IsParameter u) : ∀ x ∈ u, isNameChar x = true ∨ x = '.' := by
  obtain ⟨kind, hkind, name, rfl, hname, -⟩ := h
  have hhead : ∀ kind ∈ parameterKinds, ∀ x ∈ parameterHead kind, isNameChar x = true ∨
      x = '.' := by
    decide
  intro x hx
  rcases List.mem_append.mp hx with hx | hx
  · exact hhead kind hkind x hx
  · exact .inl (hname x hx)

/-- The name of a function ends with its parenthesis, so it cannot end inside of a parameter. -/
theorem ne_call {r k x y tail : Text} (hr : ∀ c ∈ r, isNameChar c = true ∨ c = '.')
    (hk : ∀ c ∈ k, isNameChar c = true) (htail : ∀ c ∈ tail, isNameChar c = false ∧ c ≠ '.' ∧
      c ≠ '(')
    (hne : tail ≠ []) : r ++ (tail ++ x) ≠ k ++ '(' :: y := by
  intro h
  rcases List.append_eq_append_iff.mp h with ⟨a, hka, htaila⟩ | ⟨a, hra, hparen⟩
  · obtain ⟨e, tail, rfl⟩ := List.exists_cons_of_ne_nil hne
    obtain ⟨hname, -, hparen⟩ := htail e List.mem_cons_self
    cases a with
    | nil => exact hparen (List.cons.inj htaila).1
    | cons z a =>
        obtain ⟨rfl, -⟩ := List.cons.inj htaila
        rw [hk e (hka ▸ List.mem_append_right _ List.mem_cons_self)] at hname
        cases hname
  · cases a with
    | nil =>
        obtain ⟨e, tail, rfl⟩ := List.exists_cons_of_ne_nil hne
        exact (htail e List.mem_cons_self).2.2 (List.cons.inj hparen).1.symm
    | cons z a =>
        obtain ⟨rfl, -⟩ := List.cons.inj hparen
        rcases hr '(' (hra ▸ List.mem_append_right _ List.mem_cons_self) with hname | hdot
        · exact absurd hname (by decide)
        · exact absurd hdot (by decide)

theorem converter_chars : ∀ k ∈ converters, k ≠ [] ∧ ∀ x ∈ k, isNameChar x = true := by
  decide

theorem unnarrowed_head
    (h : Spells (.alt Forbidden.convertedParameter Forbidden.parameterMethod) u) :
    ∃ x rest, u = x :: rest ∧ isNameChar x = true := by
  cases h with
  | altFirst h =>
      obtain ⟨converter, hconverter, _, -, _, _, rfl, -⟩ := spells_convertedParameter h
      obtain ⟨hne, hchars⟩ := converter_chars converter hconverter
      obtain ⟨x, rest, rfl⟩ := List.exists_cons_of_ne_nil hne
      exact ⟨x, _, rfl, hchars x List.mem_cons_self⟩
  | altSecond h =>
      obtain ⟨param, tail, rfl, ⟨kind, -, name, rfl, -⟩, -⟩ := spells_parameterMethod h
      exact ⟨'r', _, rfl, by decide⟩

/-- No parameter that is not narrowed starts inside of one that is converted. -/
theorem not_unnarrowed_inside {param r a tail z : Text} (hparam : IsParameter param)
    (htail : ∀ c ∈ tail, isNameChar c = false ∧ c ≠ '.' ∧ c ≠ '(') (hne : tail ≠ [])
    (hcut : param = a ++ r) (hr : r ≠ []) (hz : r ++ (tail ++ back) = u ++ z)
    (hu : Spells (.alt Forbidden.convertedParameter Forbidden.parameterMethod) u) : False := by
  cases hu with
  | altFirst hu =>
      obtain ⟨converter, hconverter, blanks, -, param', tail', rfl, -⟩ :=
        spells_convertedParameter hu
      refine ne_call (y := blanks ++ (param' ++ tail') ++ z)
        (fun c hc => parameter_chars hparam c ?_) (converter_chars converter hconverter).2 htail hne
        (hz.trans (by simp))
      rw [hcut]
      exact List.mem_append_right _ hc
  | altSecond hu =>
      obtain ⟨param', tail', rfl, hparam', hends⟩ := spells_parameterMethod hu
      obtain ⟨e, tail, rfl⟩ := List.exists_cons_of_ne_nil hne
      obtain ⟨hname, hdot, -⟩ := htail e List.mem_cons_self
      have houter : Whole (param ++ (e :: tail ++ back)) 0 (Text.size param) := by
        refine ⟨[], param, _, rfl, rfl, (Nat.zero_add _).symm, hparam,
          ⟨fun c hc => ?_, fun q' hq' => ?_⟩⟩
        · rw [← Option.some.inj hc]
          exact hname
        · exact absurd (List.cons.inj hq').1 hdot
      have hinner : Whole (param ++ (e :: tail ++ back)) (Text.size a)
          (Text.size a + Text.size param') := by
        refine ⟨a, param', '.' :: tail' ++ z, ?_, rfl, rfl, hparam', hends z⟩
        rw [hcut, List.append_assoc, hz]
        simp
      rcases eq_or_le_of_whole houter hinner (Nat.zero_le _) with ⟨hstart, hstop⟩ | hle
      · obtain rfl : a = [] := Text.eq_nil_of_size hstart.symm
        rw [List.nil_append] at hcut
        subst hcut
        have hsize : Text.size param = Text.size param' := by simpa [Text.size] using hstop
        obtain ⟨w, hw, hbehind⟩ := Text.exists_middle
          (hz.trans (List.append_assoc _ _ _)) (Nat.le_of_eq hsize)
        obtain rfl : w = [] := Text.eq_nil_of_size (by
          rw [hw, Text.size_append] at hsize
          omega)
        exact hdot (List.cons.inj hbehind).1
      · have hpos : 0 < Text.size r := Nat.pos_of_ne_zero fun h => hr (Text.eq_nil_of_size h)
        rw [hcut, Text.size_append] at hle
        omega

/-- What starts inside of a conversion starts in the name of its function or with the parenthesis.
-/
theorem starts_in_call (h : Spells Forbidden.convertedParameter (c :: w ++ d :: v))
    (hu : Spells (.alt Forbidden.convertedParameter Forbidden.parameterMethod) u)
    (hv : d :: v ++ back = u ++ back') : ∃ converter ∈ converters, ∃ r rest, r ≠ [] ∧
      converter ++ ['('] = c :: w ++ r ∧ d :: v = r ++ rest := by
  obtain ⟨x, rest, rfl, hx⟩ := unnarrowed_head hu
  obtain ⟨rfl, hvrest⟩ := List.cons.inj hv
  obtain ⟨converter, hconverter, blanks, hblanks, param, tail, hcut, hparam, blanks', hblanks',
    sign, hsign, htail⟩ := spells_convertedParameter h
  have hends := htail ▸ head_of_conversion hblanks' hsign
  rcases cut_in_or_behind hcut with ⟨r, hr, hcall, hdv⟩ | ⟨w', hw', hbehind⟩
  · exact ⟨converter, hconverter, r, _, hr, hcall, hdv⟩
  · exfalso
    rcases cut_in_or_behind hbehind.symm with ⟨r, hr, hblank, hdv⟩ | ⟨a, -, hbehind⟩
    · obtain ⟨y, r, rfl⟩ := List.exists_cons_of_ne_nil hr
      obtain ⟨rfl, -⟩ := List.cons.inj hdv
      have hspace := hblanks d (hblank ▸ List.mem_append_right _ List.mem_cons_self)
      have hno := (@head_of_conversion [d] ','
        (fun y hy => List.mem_singleton.mp hy ▸ hspace) (by decide) d (by simp)).1
      rw [hx] at hno
      cases hno
    · rcases cut_in_or_behind hbehind.symm with ⟨r, hr, hparam', hdv⟩ | ⟨a', -, htail'⟩
      · have hz : r ++ (tail ++ back) = d :: rest ++ back' := by
          rw [← List.append_assoc, ← hdv]
          exact hv
        exact not_unnarrowed_inside hparam hends (by simp [htail]) hparam' hr hz hu
      · have hno := (hends d (htail' ▸ List.mem_append_right _ List.mem_cons_self)).1
        rw [hx] at hno
        cases hno

theorem steady_unnarrowed :
    Steady (.alt Forbidden.convertedParameter Forbidden.parameterMethod) := by
  refine steady_of_quiet fun {c w d v u back back'} h hu hv => ?_
  cases h with
  | altSecond h => exact only_parameterMethod.front h
  | altFirst h =>
      obtain ⟨converter, hconverter, r, rest, hr, hcall, hdv⟩ := starts_in_call h hu hv
      have hquiet : ∀ y ∈ converter ++ ['('], Scan.isQuiet y = true := fun y hy => by
        rcases List.mem_append.mp hy with hy | hy
        · exact isQuiet_of_isNameChar ((converter_chars converter hconverter).2 y hy)
        · rw [List.mem_singleton.mp hy]
          decide
      obtain ⟨y, r, rfl⟩ := List.exists_cons_of_ne_nil hr
      obtain ⟨rfl, -⟩ := List.cons.inj hdv
      intro z hz
      refine hquiet z (hcall ▸ ?_)
      rcases List.mem_append.mp hz with hz | hz
      · exact List.mem_append_left _ hz
      · rw [List.mem_singleton.mp hz]
        exact List.mem_append_right _ List.mem_cons_self

/-! ## The rules of the catalogue -/

def Detector.forbidden? : Detector → Option Pattern
  | .forbidden p => some p
  | .required _ | .analysis _ => none

/-- The codes of the rules on forbidden patterns, with their patterns. -/
def forbiddenPatterns : List (String × Pattern) := [
  ("UNSAFE_BODY_CAST", Forbidden.bodyCast),
  ("NAMESPACED_EXPRESS_TYPE", Forbidden.qualifiedType),
  ("UNVALIDATED_BODY_DESTRUCTURE", Forbidden.bodyDestructuring),
  ("FORBIDDEN_UUID_DEPENDENCY", Forbidden.identifierPackage),
  ("UNNARROWED_PARAM", .alt Forbidden.convertedParameter Forbidden.parameterMethod),
  ("NULLABLE_TIMESTAMP_ACCESS", Forbidden.nullableTimestamp),
  ("EXPLICIT_ANY", Forbidden.explicitAny),
  ("CONSOLE_LOG", Forbidden.consoleLog)]

theorem mem_forbiddenPatterns (hrule : rule ∈ Rule.all) (hp : rule.detector = .forbidden p) :
    (rule.code, p) ∈ forbiddenPatterns := by
  have hall : Rule.all.filterMap (fun r => r.detector.forbidden?.map fun p => (r.code, p)) =
      forbiddenPatterns := rfl
  rw [← hall]
  exact List.mem_filterMap.mpr ⟨rule, hrule, by rw [hp]; rfl⟩

theorem takes_or_steady (hrule : rule ∈ Rule.all) (hp : rule.detector = .forbidden p) :
    p.takes = true ∧ (Steady p ∨ rule.code ∈ hidingCodes) := by
  have hmem := mem_forbiddenPatterns hrule hp
  simp only [forbiddenPatterns, List.mem_cons, List.not_mem_nil, or_false, Prod.mk.injEq] at hmem
  rcases hmem with ⟨hcode, rfl⟩ | ⟨-, rfl⟩ | ⟨hcode, rfl⟩ | ⟨hcode, rfl⟩ | ⟨-, rfl⟩ | ⟨-, rfl⟩ |
    ⟨-, rfl⟩ | ⟨-, rfl⟩
  · exact ⟨by decide, .inr (by rw [hcode]; decide)⟩
  · exact ⟨by decide, .inl only_qualifiedType.steady⟩
  · exact ⟨by decide, .inr (by rw [hcode]; decide)⟩
  · exact ⟨by decide, .inr (by rw [hcode]; decide)⟩
  · exact ⟨by decide, .inl steady_unnarrowed⟩
  · exact ⟨by decide, .inl only_nullableTimestamp.steady⟩
  · exact ⟨by decide, .inl steady_explicitAny⟩
  · exact ⟨by decide, .inl only_consoleLog.steady⟩

/-- A rule on a forbidden pattern reports a stretch over every place in code at which the pattern
matches, unless a match that starts in a comment or a string in front of it hides the place.  Three
rules have such matches. -/
theorem forbidden_found (hrule : rule ∈ Rule.all) (hp : rule.detector = .forbidden p)
    (hmatch : p.MatchesAt ctx.source.text n) (hcode : ctx.source.isCodeAt n = true) :
    ∃ fs, rule.detector.findings ctx = .ok fs ∧
      ((∃ f ∈ fs, f.Covers n) ↔ ¬ Hidden p ctx.source n) ∧
      (Hidden p ctx.source n → rule.code ∈ hidingCodes) := by
  obtain ⟨htakes, hsteady⟩ := takes_or_steady hrule hp
  obtain ⟨fs, hfs, hcovers⟩ := @findings_forbidden p ctx
  refine ⟨fs, hp ▸ hfs, (hcovers n).trans (covers_iff htakes hmatch hcode), fun hhidden => ?_⟩
  exact hsteady.resolve_left fun h => h.not_hidden hmatch hcode hhidden

/-! ## An import that a comment hides -/

/-- The word that starts the import stands in the comment in front of it, too. -/
def hidingComment : Text :=
  "// import it\nimport \x7b v4 \x7d from 'uuid';\n".toList

def packageRule : Rule := Rule.blocking "FORBIDDEN_UUID_DEPENDENCY" .alwaysFail
  (.forbidden Forbidden.identifierPackage)
  "The 'uuid' package is imported but the built-in generator must be used"
  "Replace the import with import \x7b randomUUID \x7d from 'crypto' and call randomUUID()"
  .always

theorem packageRule_mem : packageRule ∈ Rule.all :=
  List.mem_append_left _ (List.mem_append_left _ (List.mem_append_left _ (List.mem_append_left _
    (List.mem_append_left _ (List.mem_append_left _ (by
      exact List.mem_cons_of_mem _ (List.mem_cons_of_mem _ (List.mem_cons_of_mem _
        List.mem_cons_self))))))))

def hidingContext : Context :=
  ⟨.of hidingComment, .detect (.of hidingComment) .none, .default⟩

theorem matchesAt_hidingComment : Forbidden.identifierPackage.MatchesAt hidingComment 13 ∧
    hidingContext.source.isCodeAt 13 = true := by
  have hmatch : (Forbidden.identifierPackage.matchAt? (hidingComment.length + 1)
      ⟨(hidingComment.take 13).getLast?, 13, hidingComment.drop 13⟩).isSome = true := by
    decide
  exact ⟨⟨hidingComment.take 13, hidingComment.drop 13, (List.take_append_drop _ _).symm,
    by decide, hmatch⟩, by decide⟩

theorem hidden_hidingComment : Hidden Forbidden.identifierPackage hidingContext.source 13 := by
  have hany : (Forbidden.identifierPackage.all hidingComment).any (fun m =>
      decide (m.start < 13) && decide (13 < m.stop) &&
        !hidingContext.source.isCodeAt m.start) = true := by
    decide
  obtain ⟨m, hm, hprops⟩ := List.any_eq_true.mp hany
  simp only [Bool.and_eq_true, decide_eq_true_eq, Bool.not_eq_true'] at hprops
  exact ⟨m, hm, hprops.1.1, hprops.1.2, hprops.2⟩

theorem forbidden_found_hidden : ∃ fs, packageRule.detector.findings hidingContext = .ok fs ∧
    (¬ ∃ f ∈ fs, f.Covers 13) ∧ packageRule.code ∈ hidingCodes := by
  obtain ⟨hmatch, hcode⟩ := matchesAt_hidingComment
  obtain ⟨fs, hfs, hcovers, hhidden⟩ := forbidden_found packageRule_mem rfl hmatch hcode
  exact ⟨fs, hfs, fun h => hcovers.mp h hidden_hidingComment, hhidden hidden_hidingComment⟩

theorem not_always_found :
    ¬ ∀ (rule : Rule) (p : Pattern) (ctx : Context) (n : Nat), rule ∈ Rule.all →
      rule.detector = .forbidden p → p.MatchesAt ctx.source.text n →
        ctx.source.isCodeAt n = true →
          ∃ fs, rule.detector.findings ctx = .ok fs ∧ ∃ f ∈ fs, f.Covers n := by
  intro h
  obtain ⟨hmatch, hcode⟩ := matchesAt_hidingComment
  obtain ⟨fs, hfs, f, hf, hf13⟩ := h packageRule _ hidingContext 13 packageRule_mem rfl hmatch hcode
  obtain ⟨fs', hfs', hcovers⟩ := @findings_forbidden Forbidden.identifierPackage hidingContext
  obtain rfl : fs = fs' := Except.ok.inj (hfs.symm.trans hfs')
  exact (covers_iff (by decide) hmatch hcode).mp ((hcovers 13).mp ⟨f, hf, hf13⟩)
    hidden_hidingComment

end ServiceGate
