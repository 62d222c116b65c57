/-
# A statement in the place of another

A statement ends with a quote, a semicolon or blanks (`last_of_mem`), so a line break next to it is
none of it.  A statement that is written at the start of a line in code is read back
(`exists_written`).

Where no other statement reaches into a stretch (`Alone`), the statements of the text are those in
front of the stretch, the one in it and those behind it (`Alone.all_eq`).  With closed text in the
place of the stretch those in front stay as they are (`inCode_front`), and those behind stay the
same imports (`inCode_behind`); so the list of all imports changes in the one statement alone
(`Alone.exists_listed`).

A match of the pattern depends on one character in front of it and on none behind it, so statements
can be looked at apart.  `At` says that a match stands at a place, `readBack` what is read there of
a statement that was written, and `SameImports` compares two statements by what they import, their
places apart.
-/
import ServiceGate.Proofs.Balanced.Imports
import ServiceGate.Proofs.Import.Parts
import ServiceGate.Proofs.Import.Written
import ServiceGate.Proofs.Scan.Cuts
import ServiceGate.Proofs.Spec.Seams

namespace ServiceGate

section

open Pattern Scan

variable {t p q u v v' w w' : Text} {m m' : Match} {i j : ImportStatement} {o o' : Nat}

namespace ImportStatement

theorem mem_all_iff : j ∈ all (.of t) ↔
    ∃ m ∈ pattern.all t, ofMatch m = j ∧ (Source.of t).isCodeAt j.start = true := by
  constructor
  · intro hj
    obtain ⟨hj, hcode⟩ := List.mem_filter.mp hj
    obtain ⟨m, hm, rfl⟩ := List.mem_map.mp hj
    exact ⟨m, hm, rfl, hcode⟩
  · rintro ⟨m, hm, rfl, hcode⟩
    exact List.mem_filter.mpr ⟨List.mem_map.mpr ⟨m, hm, rfl⟩, hcode⟩

/-! ## Where a statement stands -/

theorem start_ofMatch {front indent gap clauses blanks tail back : Text} {quote : Char}
    (h : ReadFrom t m front indent gap clauses blanks tail back quote) :
    (ofMatch m).start = Text.size (front ++ indent) := by
  have htake : m.text.takeWhile Text.isIndent = indent := by
    rw [h.text, List.takeWhile_append_of_pos h.indent]
    exact List.append_nil _
  show m.start + Text.size (m.text.takeWhile Text.isIndent) = _
  rw [htake, h.start, Text.size_append]

theorem exists_keyword (hm : m ∈ pattern.all t) : ∃ front rest, t = front ++ 'i' :: rest ∧
    (ofMatch m).start = Text.size front ∧ m.start ≤ Text.size front ∧ Text.size front < m.stop := by
  obtain ⟨front, indent, gap, clauses, blanks, tail, back, quote, h⟩ := exists_parts hm
  obtain ⟨rest, hrest⟩ : ∃ rest, m.text = indent ++ 'i' :: rest := ⟨_, h.text⟩
  have hpos : 'i'.utf8Size = 1 := rfl
  refine ⟨front ++ indent, rest ++ back, ?_, start_ofMatch h, ?_, ?_⟩
  · rw [h.cut, hrest]
    simp
  · rw [h.start, Text.size_append]
    exact Nat.le_add_right _ _
  · rw [(in_of_mem_all hm).stop, h.start, hrest, Text.size_append, Text.size_append, Text.size,
      hpos]
    omega

/-- The last character of a match. -/
theorem last_of_mem (hm : m ∈ pattern.all t) : ∃ u c v, t = u ++ [c] ++ v ∧ m.stop =
    Text.size (u ++ [c]) ∧ c ∈ ['\'', '"', ' ', '\t', ';'] := by
  obtain ⟨front, indent, gap, clauses, blanks, tail, back, quote, h⟩ := exists_parts hm
  obtain ⟨u, c, htext, hc⟩ : ∃ u c, m.text = u ++ [c] ∧ c ∈ ['\'', '"', ' ', '\t', ';'] := by
    rcases List.eq_nil_or_concat' tail with htail | ⟨w, c, htail⟩
    · refine ⟨indent ++ ("import".toList ++ (gap ++ (clauses ++ ("from".toList ++ (blanks ++
        ((ofMatch m).quote :: (ofMatch m).moduleName)))))), quote, ?_, ?_⟩
      · rw [h.text, htail]
        simp only [List.append_assoc, List.cons_append]
      · rcases h.quotes quote (by simp) with rfl | rfl <;> simp
    · refine ⟨indent ++ ("import".toList ++ (gap ++ (clauses ++ ("from".toList ++ (blanks ++
        ((ofMatch m).quote :: ((ofMatch m).moduleName ++ quote :: w))))))), c, ?_, ?_⟩
      · rw [h.text, htail]
        simp only [List.append_assoc, List.cons_append]
      · have hsigns : " \t;".toList = [' ', '\t', ';'] := rfl
        have hmem := h.tail c (by rw [htail]; simp)
        rw [hsigns] at hmem
        exact List.mem_cons_of_mem _ (List.mem_cons_of_mem _ hmem)
  refine ⟨front ++ u, c, back, ?_, ?_, hc⟩
  · rw [h.cut, htext]
    simp
  · rw [(in_of_mem_all hm).stop, h.start, htext]
    simp only [Text.size_append]
    omega

/-! ## The same imports -/

/-- Two statements that import the same. -/
structure SameImports (i j : ImportStatement) : Prop where
  typeOnly : j.typeOnly = i.typeOnly
  defaultName : j.defaultName = i.defaultName
  namespaceName : j.namespaceName = i.namespaceName
  members : j.members = i.members
  moduleName : j.moduleName = i.moduleName

theorem SameImports.refl (i : ImportStatement) : SameImports i i := ⟨rfl, rfl, rfl, rfl, rfl⟩

theorem SameImports.symm (h : SameImports i j) : SameImports j i :=
  ⟨h.typeOnly.symm, h.defaultName.symm, h.namespaceName.symm, h.members.symm, h.moduleName.symm⟩

theorem sameImports_like (h : Match.Like o o' m m') : SameImports (ofMatch m) (ofMatch m') ∧
    (ofMatch m').start + o = (ofMatch m).start + o' := by
  have htexts : (fun n => (m'.group? n).map (·.text)) = fun n => (m.group? n).map (·.text) := by
    funext n
    have hgroup := h.group? n
    generalize m.group? n = g at hgroup ⊢
    generalize m'.group? n = g' at hgroup ⊢
    cases hgroup with
    | none => rfl
    | some hg => exact congrArg some hg.text
  rw [ofMatch_eq m, ofMatch_eq m', htexts, h.text]
  refine ⟨⟨rfl, rfl, rfl, rfl, rfl⟩, ?_⟩
  have hstart := h.start
  show m'.start + _ + o = m.start + _ + o'
  omega

end ImportStatement

end

open Pattern Scan ImportMember

variable {t u p q v v' front rest w indent body moduleName : Text} {m m' : Match}
  {j : ImportStatement} {ms more : List ImportMember} {d : Option Text} {quote : Char}

namespace ImportStatement

/-! ## Where a statement stands -/

/-- A match of the pattern of statements and the place of its statement: behind the indentation of a
line. -/
structure At (m : Match) (front indent body : Text) : Prop where
  line : front.getLast?.all (· == '\n') = true
  blanks : ∀ c ∈ indent, Text.isIndent c = true
  start : m.start = Text.size front
  keyword : (ofMatch m).start = Text.size (front ++ indent)
  stop : m.stop = Text.size (front ++ indent ++ body)

theorem exists_at (hm : m ∈ pattern.all t) : ∃ front indent body back,
    t = front ++ indent ++ body ++ back ∧ At m front indent body ∧ body.head? = some 'i' := by
  obtain ⟨front, indent, gap, clauses, blanks, tail, back, quote, h⟩ := exists_parts hm
  obtain ⟨body, hbody⟩ : ∃ body, m.text = indent ++ 'i' :: body := ⟨_, h.text⟩
  refine ⟨front, indent, 'i' :: body, back, ?_, ⟨h.line, h.indent, h.start, start_ofMatch h, ?_⟩,
    rfl⟩
  · rw [h.cut, hbody, ← List.append_assoc front]
  · rw [(in_of_mem_all hm).stop, h.start, hbody, List.append_assoc, Text.size_append front]

theorem last_of_stop (hm : m ∈ pattern.all (p ++ q)) (hstop : m.stop = Text.size p) :
    ∃ c ∈ ['\'', '"', ' ', '\t', ';'], p.getLast? = some c := by
  obtain ⟨u, c, v, hcut, hsize, hc⟩ := last_of_mem hm
  have hp : p = u ++ [c] := by
    rw [← Text.before_append p q, ← hstop, hcut, hsize, Text.before_append]
  exact ⟨c, hc, by rw [hp, List.getLast?_concat]⟩

theorem likeBehind_of_stop (hm : m ∈ pattern.all (p ++ q)) (hm' : m' ∈ pattern.all (u ++ v))
    (hstop : m.stop = Text.size p) (hstop' : m'.stop = Text.size u) :
    LikeBehind p.getLast? u.getLast? := by
  have hall : ∀ c ∈ ['\'', '"', ' ', '\t', ';'], CharClass.isWord c = false ∧ c ≠ '\n' := by decide
  obtain ⟨c, hc, hlast⟩ := last_of_stop hm hstop
  obtain ⟨c', hc', hlast'⟩ := last_of_stop hm' hstop'
  simp [LikeBehind, hlast, hlast', hall c hc, hall c' hc']

/-! ## Statements that are written -/

/-- The statement that is read of what is written between two offsets. -/
def readBack (start stop : Nat) (defaultName : Option Text) (ms : List ImportMember) (quote : Char)
    (moduleName : Text) : ImportStatement :=
  ⟨start, stop, false, defaultName, none, readList (braces ms), quote, moduleName⟩

/-- A text stands at the start of a line, behind its indentation. -/
def OnLine (u : Text) (start : Nat) (w : Text) : Prop :=
  ∃ front indent rest, u = front ++ indent ++ w ++ rest ∧ start = Text.size (front ++ indent) ∧
    front.getLast?.all (· == '\n') = true ∧ ∀ c ∈ indent, Text.isIndent c = true

/-- A statement that is written at the start of a line in code is read back. -/
theorem exists_written (hparts : Parts d ms quote moduleName)
    (hfront : front.getLast?.all (· == '\n') = true)
    (hindent : ∀ c ∈ indent, Text.isIndent c = true) (hcode : InCode (front ++ indent) 'i')
    (hapart : pattern.Apart (front ++ indent ++ written d ms quote moduleName ++ rest)
      (Text.size front)) :
    ∃ m ∈ pattern.all (front ++ indent ++ written d ms quote moduleName ++ rest),
      At m front indent (written d ms quote moduleName) ∧
        ofMatch m ∈ all (.of (front ++ indent ++ written d ms quote moduleName ++ rest)) ∧
          ∃ stop, ofMatch m = readBack (Text.size (front ++ indent)) stop d ms quote
          moduleName := by
  have hcut : front ++ indent ++ written d ms quote moduleName ++ rest =
      front ++ ((indent ++ written d ms quote moduleName) ++ rest) := by
    simp only [List.append_assoc]
  have hrounds : (indent ++ written d ms quote moduleName).length ≤
      (front ++ ((indent ++ written d ms quote moduleName) ++ rest)).length + 1 := by
    simp only [List.length_append]
    omega
  obtain ⟨m, hmatch, hstart, hread⟩ := matchAt?_written hparts hfront hindent hrounds rest
  rw [hcut] at hapart
  have hm := mem_all_of_matchAt? rfl hapart hmatch
  rw [← hcut] at hm
  have hkeyword : (ofMatch m).start = Text.size (front ++ indent) := by
    rw [hread]
    exact (Text.size_append _ _).symm
  have hstop : m.stop = Text.size (front ++ indent ++ written d ms quote moduleName) := by
    show (ofMatch m).stop = _
    rw [hread, List.append_assoc, Text.size_append front]
  refine ⟨m, hm, ⟨hfront, hindent, hstart, hkeyword, hstop⟩, mem_all_iff.mpr ⟨m, hm, rfl, ?_⟩, _,
    hread.trans
    (congrArg (readBack · _ d ms quote moduleName) (Text.size_append front indent).symm)⟩
  obtain ⟨more, hword⟩ : ∃ more, written d ms quote moduleName = 'i' :: more := by
    rw [written_eq]
    exact ⟨_, rfl⟩
  rw [hkeyword, hword, List.append_assoc]
  exact hcode.isCodeAt (by decide) (by decide) _

theorem of_mem_members {x : ImportMember} (hm : m ∈ pattern.all t) (hx : x ∈ (ofMatch m).members) :
    x.IsRead ∧ '\x7d' ∉ x.imported ++ x.boundAs := by
  have hmembers : (ofMatch m).members = ((m.group? 4).map fun g => readList g.text).getD [] := rfl
  rw [hmembers] at hx
  cases hg : m.group? 4 with
  | none =>
      rw [hg] at hx
      cases hx
  | some g =>
      rw [hg] at hx
      obtain ⟨hread, himported, hbound⟩ := of_mem_readList hx
      have hinner : Spells (star (noneOf "\x7d")) g.text := (in_of_mem_all hm).spells_group rfl hg
      refine ⟨hread, fun hmem => ?_⟩
      have hbrace : '\x7d' ∈ g.text :=
        (List.mem_append.mp hmem).elim (himported.subset _) (hbound.subset _)
      exact absurd (spells_many_char hinner _ hbrace) (by decide)

theorem notMem_braces {c : Char} (hc : c ∉ "type as , ".toList)
    (h : ∀ x ∈ ms, c ∉ x.imported ++ x.boundAs) :
    c ∉ braces ms := by
  have hwords : c ∉ "type as ".toList ∧ c ∉ ", ".toList ∧ c ≠ ' ' := by
    have hparts : "type as , ".toList = "type as ".toList ++ ", ".toList := rfl
    rw [hparts, List.mem_append, not_or] at hc
    exact ⟨hc.1, hc.2, fun heq => hc.2 (by rw [heq]; decide)⟩
  have hjoin : c ∉ Text.join ", ".toList (ms.map (·.render)) := by
    refine Text.notMem_join hwords.2.1 fun w hw => ?_
    obtain ⟨x, hx, rfl⟩ := List.mem_map.mp hw
    exact notMem_render hwords.1 (h x hx)
  rw [braces, List.mem_cons, List.mem_append, List.mem_singleton, not_or, not_or]
  exact ⟨hwords.2.2, hjoin, hwords.2.2⟩

theorem parts_of_mem (hm : m ∈ pattern.all t)
    (hmore : ∀ x ∈ more, '\x7d' ∉ x.imported ++ x.boundAs) :
    Parts (ofMatch m).defaultName ((ofMatch m).members ++ more)
    (ofMatch m).quote (ofMatch m).moduleName := by
  obtain ⟨_, _, _, _, _, _, _, _, hread⟩ := exists_parts hm
  refine ⟨fun name hname => ?_, notMem_braces (by decide) fun x hx => ?_, isQuote_of_ofMatch hm,
    hread.moduleName.1, notMem_moduleName hm⟩
  · obtain ⟨g, hg, rfl⟩ := Option.map_eq_some_iff.mp hname
    exact (in_of_mem_all hm).spells_group rfl hg
  · exact (List.mem_append.mp hx).elim (fun hx => (of_mem_members hm hx).2) (hmore x)

/-! ## Statements that are found -/

/-- The statements of some matches, as far as they stand in code. -/
def inCode (t : Text) (ms : List Match) : List ImportStatement :=
  (ms.map ofMatch).filter fun i => (Source.of t).isCodeAt i.start

/-- The match is found, and its statement stands in code. -/
def IsFound (t : Text) (m : Match) : Prop :=
  m ∈ pattern.all t ∧ (Source.of t).isCodeAt (ofMatch m).start = true

theorem isFound_of_mem (hm : m ∈ pattern.all t) (h : ofMatch m ∈ all (.of t)) : IsFound t m :=
  ⟨hm, (List.mem_filter.mp h).2⟩

theorem all_eq_inCode (t : Text) : all (.of t) = inCode t (pattern.all t) := rfl

theorem inCode_append (t : Text) (ms ms' : List Match) :
    inCode t (ms ++ ms') = inCode t ms ++ inCode t ms' := by
  rw [inCode, List.map_append, List.filter_append]
  rfl

theorem inCode_singleton (h : IsFound t m) : inCode t [m] = [ofMatch m] := by
  rw [inCode, List.map_singleton, List.filter_singleton, h.2]
  rfl

/-- What is code in front does not depend on what comes behind. -/
theorem inCode_front (front rest rest' : Text) :
    inCode (front ++ rest') (pattern.all front) = inCode (front ++ rest) (pattern.all front) := by
  refine List.filter_congr fun i hi => ?_
  obtain ⟨m, hm, rfl⟩ := List.mem_map.mp hi
  obtain ⟨p, q, rfl, hkeyword, -, -⟩ := exists_keyword hm
  have hmove : ∀ {x y : Text}, (Source.of (p ++ 'i' :: q ++ x)).isCodeAt (Text.size p) = true →
      (Source.of (p ++ 'i' :: q ++ y)).isCodeAt (Text.size p) = true := fun {x y} h => by
    rw [List.append_assoc, List.cons_append] at h ⊢
    exact isCodeAt_front h (by decide) (by decide) _
  rw [hkeyword]
  exact Bool.eq_iff_iff.mpr ⟨hmove, hmove⟩

/-- Behind a closed stretch in the place of another the same is imported. -/
theorem inCode_behind (hp : EndsInCode p) (hv : Closed v) (hv' : Closed v')
    (halike : LikeBehind (p ++ v).getLast? (p ++ v').getLast?) :
    List.Forall₂ SameImports
      (inCode (p ++ v ++ q) (pattern.within (p ++ v).getLast? (Text.size (p ++ v)) q))
      (inCode (p ++ v' ++ q) (pattern.within (p ++ v').getLast? (Text.size (p ++ v')) q)) := by
  have hcode : ∀ {m m' : Match}, m.Like (Text.size (p ++ v)) (Text.size (p ++ v')) m' →
      Text.size (p ++ v) ≤ m.start → (Source.of (p ++ v ++ q)).isCodeAt (ofMatch m).start =
        (Source.of (p ++ v' ++ q)).isCodeAt (ofMatch m').start := fun {m m'} hlike hle => by
    have hplace := (sameImports_like hlike).2
    have hstart : m.start ≤ (ofMatch m).start := Nat.le_add_right _ _
    obtain ⟨d, hd⟩ := Nat.exists_eq_add_of_le (hle.trans hstart)
    have hd' : (ofMatch m').start = Text.size (p ++ v') + d := by omega
    rw [hd, hd', isCodeAt_behind hp hv, isCodeAt_behind hp hv']
  have hlike := within_like (p := pattern) rfl halike (Text.size (p ++ v)) (Text.size (p ++ v')) q
  have hle : ∀ m ∈ pattern.within (p ++ v).getLast? (Text.size (p ++ v)) q,
      Text.size (p ++ v) ≤ m.start := fun m hm => (in_of_mem_allFrom q hm).2.2
  generalize pattern.within (p ++ v).getLast? (Text.size (p ++ v)) q = ms at hlike hle ⊢
  generalize pattern.within (p ++ v').getLast? (Text.size (p ++ v')) q = ms' at hlike ⊢
  rw [inCode, inCode]
  induction hlike with
  | nil => exact .nil
  | @cons m m' ms ms' hm _ ih =>
      obtain ⟨hfirst, hle⟩ := List.forall_mem_cons.mp hle
      rw [List.map_cons, List.map_cons, List.filter_cons, List.filter_cons, hcode hm hfirst]
      split_ifs
      · exact .cons (sameImports_like hm).1 (ih hle)
      · exact ih hle

/-! ## Statements next to one that is exchanged -/

/-- A stretch that no statement reaches into, but for the one that is in it. -/
structure Alone (old : Option Match) (t : Text) (start stop : Nat) : Prop where
  le : start ≤ stop
  inside : ∀ n ∈ old, start ≤ n.start ∧ n.stop ≤ stop
  outside : ∀ n ∈ pattern.all t, old = some n ∨ n.stop ≤ start ∨ stop ≤ n.start

namespace Alone

variable {old old' : Option Match} {start stop : Nat}

theorem of_at (hm : m ∈ pattern.all t) (h : At m front indent body) :
    Alone (some m) t (Text.size front) (Text.size (front ++ indent ++ body)) where
  le := by
    rw [List.append_assoc, Text.size_append]
    exact Nat.le_add_right _ _
  inside n hn := by
    rw [← Option.some.inj hn, ← h.start, ← h.stop]
    exact ⟨Nat.le_refl _, Nat.le_refl _⟩
  outside n hn := by
    rw [← h.start, ← h.stop]
    exact (eq_or_stop_le hm hn).imp (congrArg some) Or.symm

/-- Right behind a statement nothing stands. -/
theorem behind (hm : m ∈ pattern.all t) : Alone none t m.stop m.stop where
  le := Nat.le_refl _
  inside n hn := by cases hn
  outside n hn := by
    have hlt := start_lt_stop (in_of_mem_all hm) rfl
    rcases eq_or_stop_le hn hm with rfl | hle | hle
    · exact .inr (.inl (Nat.le_refl _))
    · exact .inr (.inl (by omega))
    · exact .inr (.inr hle)

/-- A statement on a line is alone with the line break behind it: no other one starts with it. -/
theorem line_break_behind (hm : m ∈ pattern.all t) : Alone (some m) t m.start (m.stop + 1) where
  le := by
    have hlt := start_lt_stop (in_of_mem_all hm) rfl
    omega
  inside n hn := by
    obtain rfl := Option.some.inj hn
    exact ⟨Nat.le_refl _, Nat.le_succ _⟩
  outside n hn := by
    have hne : n.start ≠ m.stop := fun heq => by
      obtain ⟨u, v, hcut, hsize, hline⟩ := startsLine_of_mem_all hn
      rw [hcut] at hm
      obtain ⟨c, hc, hlast⟩ := last_of_stop hm (heq.symm.trans hsize)
      rw [hlast] at hline
      exact absurd (beq_iff_eq.mp hline ▸ hc) (by decide)
    rcases eq_or_stop_le hm hn with rfl | hle | hle
    · exact .inl rfl
    · exact .inr (.inr (by omega))
    · exact .inr (.inl hle)

/-- A statement on a line is alone with the line break in front of it: no other one ends with it. -/
theorem line_break_front (hm : m ∈ pattern.all (p ++ ['\n'] ++ q))
    (hstart : m.start = Text.size (p ++ ['\n'])) :
    Alone (some m) (p ++ ['\n'] ++ q) (Text.size p) m.stop where
  le := by
    have hlt := start_lt_stop (in_of_mem_all hm) rfl
    rw [Text.size_append] at hstart
    omega
  inside n hn := by
    obtain rfl := Option.some.inj hn
    rw [hstart, Text.size_append]
    exact ⟨Nat.le_add_right _ _, Nat.le_refl _⟩
  outside n hn := by
    have hne : n.stop ≠ Text.size (p ++ ['\n']) := fun heq => by
      obtain ⟨c, hc, hlast⟩ := last_of_stop hn heq
      rw [List.getLast?_concat] at hlast
      exact absurd (Option.some.inj hlast ▸ hc) (by decide)
    have hbreak : Text.size (p ++ ['\n']) = Text.size p + 1 := by
      rw [Text.size_append]
      rfl
    rcases eq_or_stop_le hm hn with rfl | hle | hle
    · exact .inl rfl
    · exact .inr (.inr hle)
    · exact .inr (.inl (by omega))

theorem apart_start (h : Alone old t start stop) : pattern.Apart t start := by
  intro n hn hlt
  have hle := h.le
  rcases h.outside n hn with heq | hbefore | hbehind
  · exact absurd hlt (Nat.not_lt_of_le (h.inside n heq).1)
  · exact hbefore
  · omega

theorem apart_stop (h : Alone old t start stop) : pattern.Apart t stop := by
  intro n hn hlt
  have hle := h.le
  rcases h.outside n hn with heq | hbefore | hbehind
  · exact (h.inside n heq).2
  · omega
  · omega

theorem within_eq (h : Alone old (front ++ v ++ q) (Text.size front) (Text.size (front ++ v)))
    (hold : ∀ n ∈ old, n ∈ pattern.all (front ++ v ++ q)) :
    pattern.within front.getLast? (Text.size front) v = old.toList := by
  have hparts := all_parts (p := pattern) rfl rfl h.apart_start h.apart_stop
  have hinside : ∀ n ∈ pattern.within front.getLast? (Text.size front) v, old = some n := by
    intro n hn
    obtain ⟨hin, -, hle⟩ := in_of_mem_allFrom v hn
    have hlt := hin.start_lt rfl
    have hmem : n ∈ pattern.all (front ++ v ++ q) := by
      rw [hparts]
      exact List.mem_append_left _ (List.mem_append_right _ hn)
    have hstop := start_lt_stop (in_of_mem_all hmem) rfl
    exact (h.outside n hmem).resolve_right fun hor => by omega
  have hpairwise := pattern.pairwise_all (front ++ v ++ q)
  rw [hparts, List.append_assoc] at hpairwise
  have hpairwise := (List.pairwise_append.mp (List.pairwise_append.mp hpairwise).2.1).1
  match hlist : pattern.within front.getLast? (Text.size front) v with
  | [] =>
      cases old with
      | none => rfl
      | some n =>
          have hmem := hold n rfl
          obtain ⟨hstart, hstop⟩ := h.inside n rfl
          rw [hparts, hlist, List.append_nil] at hmem
          have hlt := start_lt_stop (in_of_mem_all (hold n rfl)) rfl
          rcases List.mem_append.mp hmem with hfront | hbehind
          · have := (in_of_mem_all hfront).start_lt rfl
            omega
          · have := (in_of_mem_allFrom q hbehind).2.2
            omega
  | [n] =>
      rw [hinside n (by rw [hlist]; exact List.mem_cons_self)]
      rfl
  | n :: n' :: rest =>
      have hn := hinside n (by rw [hlist]; exact List.mem_cons_self)
      have hn' := hinside n' (by rw [hlist]; exact List.mem_cons_of_mem _ List.mem_cons_self)
      obtain rfl : n = n' := Option.some.inj (hn.symm.trans hn')
      rw [hlist] at hpairwise
      have hle := (List.pairwise_cons.mp hpairwise).1 n List.mem_cons_self
      have hlt := start_lt_stop (in_of_mem_all (hold n hn)) rfl
      omega

/-- The statements in front of the stretch, the one in it and those behind it. -/
theorem all_eq (h : Alone old (front ++ v ++ q) (Text.size front) (Text.size (front ++ v)))
    (hold : ∀ n ∈ old, IsFound (front ++ v ++ q) n) :
    all (.of (front ++ v ++ q)) = inCode (front ++ v ++ q) (pattern.all front) ++
      (old.map ofMatch).toList ++ inCode (front ++ v ++ q)
        (pattern.within (front ++ v).getLast? (Text.size (front ++ v)) q) := by
  rw [all_eq_inCode, all_parts rfl rfl h.apart_start h.apart_stop,
    h.within_eq fun n hn => (hold n hn).1, inCode_append, inCode_append]
  congr 2
  cases old with
  | none => rfl
  | some n => exact inCode_singleton (hold n rfl)

/-- The statements next to the stretch stay the same imports, in their order. -/
theorem exists_listed
    (h : Alone old (front ++ w ++ v ++ q) (Text.size front) (Text.size (front ++ w ++ v)))
    (h' : Alone old' (front ++ w ++ v' ++ q) (Text.size front) (Text.size (front ++ w ++ v')))
    (hold : ∀ n ∈ old, IsFound (front ++ w ++ v ++ q) n)
    (hold' : ∀ n ∈ old', IsFound (front ++ w ++ v' ++ q) n)
    (hp : EndsInCode (front ++ w)) (hv : Closed v) (hv' : Closed v')
    (halike : LikeBehind (front ++ w ++ v).getLast? (front ++ w ++ v').getLast?) :
    ∃ before behind behind',
      all (.of (front ++ w ++ v ++ q)) = before ++ (old.map ofMatch).toList ++ behind ∧
      all (.of (front ++ w ++ v' ++ q)) = before ++ (old'.map ofMatch).toList ++ behind' ∧
      List.Forall₂ SameImports behind behind' := by
  have hcode := inCode_behind hp hv hv' halike (q := q)
  have hfront : inCode (front ++ (w ++ v') ++ q) (pattern.all front) =
      inCode (front ++ (w ++ v) ++ q) (pattern.all front) := by
    rw [List.append_assoc front, List.append_assoc front]
    exact inCode_front front _ _
  rw [List.append_assoc front w v] at h hold hcode ⊢
  rw [List.append_assoc front w v'] at h' hold' hcode ⊢
  exact ⟨_, _, _, h.all_eq hold, by rw [h'.all_eq hold', hfront], hcode⟩

end Alone

end ImportStatement

end ServiceGate
