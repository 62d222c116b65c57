/-
# What an import statement is made of

A match of the pattern of statements is read part by part (`exists_parts`): the keyword behind the
indentation of its line, the clauses, the module between its quotes and the end of the statement.
The clauses of a statement of members alone are the braces, and the members are read of what stands
between them.

The pattern is followed part by part.  The parts with no group leave the groups as they are and
spell a stretch of the text; the clauses (`ReadsClauses`) are four parts that may each be missing.
In front of the braces nothing but names, white space, commas and stars can have been read
(`ReadsClauses.exists_head`), and where no group of a type, a default or a namespace was kept
nothing was read at all (`ReadsClauses.eq_of_plain`).  The braces are read up to the first that
closes, so the members are those of the text in between (`ReadsClauses.exists_inner`).
-/
import ServiceGate.Import.Read
import ServiceGate.Proofs.Checked.Parameters
import ServiceGate.Proofs.Pattern.Stretches
import ServiceGate.Proofs.Route.Written

namespace ServiceGate

open Pattern

variable {t : Text} {m : Match} {r r' : Reading} {p q : Pattern} {n : Nat} {c : Char}

theorem Pattern.Leads.optional (h : Leads (optional p) r r') : Leads p r r' ∨ r' = r := by
  cases h with
  | altFirst h => exact .inl h
  | altSecond h =>
      cases h with
      | empty => exact .inr rfl

namespace ImportStatement

/-- A statement of members alone. -/
structure IsPlain (i : ImportStatement) : Prop where
  typeOnly : i.typeOnly = false
  defaultName : i.defaultName = none
  namespaceName : i.namespaceName = none

instance (i : ImportStatement) : Decidable i.IsPlain :=
  decidable_of_iff (i.typeOnly = false ∧ i.defaultName = none ∧ i.namespaceName = none)
    ⟨fun h => ⟨h.1, h.2.1, h.2.2⟩, fun h => ⟨h.typeOnly, h.defaultName, h.namespaceName⟩⟩

/-- The characters in front of the braces: those of names, white space, commas and the sign of a
namespace. -/
def isClauseChar (c : Char) : Bool := isNameChar c || CharClass.isSpace c || c == ',' || c == '*'

/-- The braces of a statement and the white space behind them, if it has braces. -/
def Braces (w : Text) : Prop := w = [] ∨ ∃ inner spaces, w = '\x7b' :: (inner ++ '\x7d' :: spaces) ∧
  '\x7d' ∉ inner ∧ ∀ c ∈ spaces, CharClass.isSpace c = true

/-- The parts of the text that a match of the pattern of statements has read. -/
structure ReadFrom (t : Text) (m : Match) (front indent gap clauses blanks tail back : Text)
    (quote : Char) : Prop where
  cut : t = front ++ m.text ++ back
  start : m.start = Text.size front
  text : m.text = indent ++ ("import".toList ++ (gap ++ (clauses ++ ("from".toList ++ (blanks ++
    ((ofMatch m).quote :: ((ofMatch m).moduleName ++ (quote :: tail))))))))
  line : front.getLast?.all (· == '\n') = true
  indent : ∀ c ∈ indent, Text.isIndent c = true
  gap : gap ≠ [] ∧ ∀ c ∈ gap, CharClass.isSpace c = true
  blanks : ∀ c ∈ blanks, CharClass.isSpace c = true
  quotes : ∀ q ∈ [(ofMatch m).quote, quote], q = '\'' ∨ q = '"'
  moduleName : (ofMatch m).moduleName ≠ [] ∧ ∀ q ∈ ['\'', '"'], q ∉ (ofMatch m).moduleName
  tail : ∀ c ∈ tail, c ∈ " \t;".toList
  braced : ∃ head w, clauses = head ++ w ∧ (∀ c ∈ head, isClauseChar c = true) ∧ Braces w
  members : (ofMatch m).members ≠ [] → ∃ head inner spaces, clauses = head ++ '\x7b' ::
  (inner ++ '\x7d' :: spaces) ∧
    (ofMatch m).members = ImportMember.readList inner
  clauses : (ofMatch m).IsPlain → (ofMatch m).members ≠ [] → ∃ inner spaces,
    clauses = '\x7b' :: (inner ++ '\x7d' :: spaces) ∧
    (ofMatch m).members = ImportMember.readList inner ∧
      '\x7d' ∉ inner ∧ ∀ c ∈ spaces, CharClass.isSpace c = true

/-! ## Reading the parts -/

theorem spells_quote {u : Text} (h : Spells Pattern.quote u) : ∃ q, u = [q] ∧
    (q = '\'' ∨ q = '"') := by
  cases h with
  | @char _ q hq => exact ⟨q, rfl, by simpa using hq⟩

theorem leads_braces
    (h : Leads (inOrder [word "\x7b", capture 4 (star (noneOf "\x7d")), word "\x7d",
    spaces]) r r') : ∃ inner blanks g, r.cursor.rest = '\x7b' :: (inner ++ '\x7d' :: (blanks ++
      r'.cursor.rest)) ∧ r'.captures = g :: r.captures ∧ g.group = 4 ∧ g.text = inner ∧
        '\x7d' ∉ inner ∧ ∀ c ∈ blanks, CharClass.isSpace c = true := by
  obtain ⟨r₁, hopen, h₁⟩ := h.parts
  obtain ⟨r₂, hinner, h₂⟩ := h₁.parts
  obtain ⟨r₃, hclose, hblanks⟩ := h₂.parts
  obtain ⟨u₁, hu₁, hs₁, hc₁⟩ := hopen.plain rfl
  obtain ⟨inner, g, hu₂, hs₂, hc₂, hgroup, htext⟩ := hinner.group rfl
  obtain ⟨u₃, hu₃, hs₃, hc₃⟩ := hclose.plain rfl
  obtain ⟨blanks, hu₄, hs₄, hc₄⟩ := hblanks.plain rfl
  rw [spells_literal hs₁] at hu₁
  rw [spells_literal hs₃] at hu₃
  refine ⟨inner, blanks, g, by rw [hu₁, hu₂, hu₃, hu₄]; rfl, by rw [hc₄, hc₃, hc₂, hc₁], hgroup,
    htext, fun hmem => ?_, spells_spaces hs₄⟩
  exact absurd (spells_many_char hs₂ _ hmem) (by decide)

theorem leads_module (h : Leads (inOrder [word "from", spaces, capture 5 Pattern.quote,
    capture 6 (plus (noneOf "'\"")), Pattern.quote, indent, optional (word ";")]) r r') :
    ∃ blanks q module quote tail g₅ g₆, r.cursor.rest = "from".toList ++ (blanks ++ (q :: (module ++
      (quote :: (tail ++ r'.cursor.rest))))) ∧ r'.captures = g₆ :: g₅ :: r.captures ∧
        (g₅.group = 5 ∧ g₅.text = [q]) ∧ (g₆.group = 6 ∧ g₆.text = module) ∧
          (∀ c ∈ blanks, CharClass.isSpace c = true) ∧ (∀ x ∈ [q, quote], x = '\'' ∨ x = '"') ∧
            (module ≠ [] ∧ ∀ x ∈ ['\'', '"'], x ∉ module) ∧ ∀ c ∈ tail, c ∈ " \t;".toList := by
  obtain ⟨r₁, hfrom, h₁⟩ := h.parts
  obtain ⟨r₂, hblanks, h₂⟩ := h₁.parts
  obtain ⟨r₃, hquote, h₃⟩ := h₂.parts
  obtain ⟨r₄, hmodule, h₄⟩ := h₃.parts
  obtain ⟨r₅, hclose, h₅⟩ := h₄.parts
  obtain ⟨r₆, hend, hsemicolon⟩ := h₅.parts
  obtain ⟨u₁, hu₁, hs₁, hc₁⟩ := hfrom.plain rfl
  obtain ⟨blanks, hu₂, hs₂, hc₂⟩ := hblanks.plain rfl
  obtain ⟨u₃, g₅, hu₃, hs₃, hc₃, hgroup₅, htext₅⟩ := hquote.group rfl
  obtain ⟨module, g₆, hu₄, hs₄, hc₄, hgroup₆, htext₆⟩ := hmodule.group rfl
  obtain ⟨u₅, hu₅, hs₅, hc₅⟩ := hclose.plain rfl
  obtain ⟨u₆, hu₆, hs₆, hc₆⟩ := hend.plain rfl
  obtain ⟨u₇, hu₇, hs₇, hc₇⟩ := hsemicolon.plain rfl
  obtain ⟨q, rfl, hq⟩ := spells_quote hs₃
  obtain ⟨quote, rfl, hquote⟩ := spells_quote hs₅
  rw [spells_literal hs₁] at hu₁
  have hmodule : module ≠ [] ∧ ∀ c ∈ module, (!"'\"".toList.contains c) = true := by
    obtain ⟨first, others, rfl, hfirst, hothers⟩ := spells_seq hs₄
    cases hfirst with
    | char hc => exact ⟨by simp, List.forall_mem_cons.mpr ⟨hc, spells_many_char hothers⟩⟩
  have hsemicolon : u₇ = [';'] ∨ u₇ = [] := by
    cases hs₇ with
    | altFirst h => exact .inl (spells_literal h)
    | altSecond h =>
        cases h with
        | empty => exact .inr rfl
  refine ⟨blanks, q, module, quote, u₆ ++ u₇, g₅, g₆, ?_, by rw [hc₇, hc₆, hc₅, hc₄, hc₃, hc₂, hc₁],
    ⟨hgroup₅, htext₅⟩, ⟨hgroup₆, htext₆⟩, spells_spaces hs₂, ?_, ⟨hmodule.1, fun x hx hmem => ?_⟩,
    fun c hc => ?_⟩
  · rw [hu₁, hu₂, hu₃, hu₄, hu₅, hu₆, hu₇, List.append_assoc]
    rfl
  · simp [hq, hquote]
  · have hquotes : ∀ x ∈ ['\'', '"'], (!"'\"".toList.contains x) = false := by decide
    exact absurd (hmodule.2 x hmem) (by rw [hquotes x hx]; decide)
  · have hsigns : " \t;".toList = " \t".toList ++ [';'] := rfl
    rw [hsigns]
    rcases List.mem_append.mp hc with hc | hc
    · exact List.mem_append_left _ (List.contains_iff_mem.mp (spells_many_char hs₆ c hc))
    · rcases hsemicolon with rfl | rfl
      · exact List.mem_append_right _ hc
      · cases hc

theorem group?_isSome {last : Reading} {k : Nat} (h : Leads p r r') (hkeeps : p.keeps k = true)
    (hlast : Leads q r' last) : (last.captures.find? (·.group == k)).isSome = true := by
  obtain ⟨g, hg, hgroup⟩ := h.keeps.1 hkeeps
  exact List.find?_isSome.mpr ⟨g, (hlast.keeps (n := k)).2 hg, by simpa using hgroup⟩

theorem group_of_groupIn {n k : Nat} {u : Text} {g : Capture} (hfree : ∀ x ∈ p.groups, x.1 ≠ k)
    (h : GroupIn p n u g) : (g.group == k) = false := by
  obtain ⟨body, _, _, hmem, -⟩ := h
  exact beq_eq_false_iff_ne.mpr (hfree _ hmem)

theorem only_type :
    (Pattern.optional (capture 1 (seq (word "type") Pattern.gap))).Only isClauseChar := by
  have hspace : ∀ c, CharClass.isSpace c = true → isClauseChar c = true := fun c hc => by
    simp [isClauseChar, hc]
  exact ⟨⟨only_literal (by decide), hspace, hspace⟩, trivial⟩

theorem only_nameClause : name.Only isClauseChar := by
  have hname : ∀ c, isNameChar c = true → isClauseChar c = true := fun c hc =>
    by simp [isClauseChar, hc]
  exact ⟨fun c hc => hname c (isNameChar_of_start hc), hname⟩

theorem only_default :
    (Pattern.optional (inOrder [capture 2 name, spaces, Pattern.optional (word ","),
    spaces])).Only isClauseChar := by
  have hspace : ∀ c, CharClass.isSpace c = true → isClauseChar c = true := fun c hc => by
    simp [isClauseChar, hc]
  exact ⟨⟨only_nameClause, hspace, ⟨only_literal (by decide), trivial⟩, hspace⟩, trivial⟩

theorem only_namespace : (Pattern.optional (inOrder [word "*", spaces, word "as", Pattern.gap,
    capture 3 name, spaces])).Only isClauseChar := by
  have hspace : ∀ c, CharClass.isSpace c = true → isClauseChar c = true := fun c hc => by
    simp [isClauseChar, hc]
  exact ⟨⟨only_literal (by decide), hspace, only_literal (by decide), ⟨hspace, hspace⟩,
    only_nameClause, hspace⟩, trivial⟩

/-! ## The clauses -/

/-- The readings between the keyword and the module: what stands for the type, for the default, for
the namespace and for the braces, each of which may be missing. -/
structure ReadsClauses (r r₁ r₂ r₃ r' : Reading) : Prop where
  typeOnly : Leads (Pattern.optional (capture 1 (seq (word "type") Pattern.gap))) r r₁
  defaultName : Leads (Pattern.optional (inOrder [capture 2 name, spaces,
    Pattern.optional (word ","), spaces])) r₁ r₂
  namespaceName : Leads (Pattern.optional (inOrder [word "*", spaces, word "as", Pattern.gap,
    capture 3 name, spaces])) r₂ r₃
  members : Leads (Pattern.optional (inOrder [word "\x7b", capture 4 (star (noneOf "\x7d")),
    word "\x7d", spaces])) r₃ r'

namespace ReadsClauses

variable {r₁ r₂ r₃ : Reading} {head w : Text}

theorem exists_head (h : ReadsClauses r r₁ r₂ r₃ r') : ∃ head,
    r.cursor.rest = head ++ r₃.cursor.rest ∧ (∀ c ∈ head, isClauseChar c = true) ∧
      (r.captures = [] → ∀ g ∈ r₃.captures, (g.group == 4) = false) := by
  obtain ⟨u₁, new₁, hu₁, hs₁, hc₁, hin₁⟩ := h.typeOnly.moves
  obtain ⟨u₂, new₂, hu₂, hs₂, hc₂, hin₂⟩ := h.defaultName.moves
  obtain ⟨u₃, new₃, hu₃, hs₃, hc₃, hin₃⟩ := h.namespaceName.moves
  refine ⟨u₁ ++ u₂ ++ u₃, by rw [hu₁.rest, hu₂.rest, hu₃.rest]; simp, fun c hc => ?_,
    fun hnothing g hg => ?_⟩
  · rcases List.mem_append.mp hc with hc | hc
    · exact (List.mem_append.mp hc).elim (only_type.of_spells hs₁ c) (only_default.of_spells hs₂ c)
    · exact only_namespace.of_spells hs₃ c hc
  · rw [hc₃, hc₂, hc₁, hnothing, List.append_nil, List.mem_append, List.mem_append] at hg
    rcases hg with hg | hg | hg
    · exact group_of_groupIn (by decide) (hin₃ g hg)
    · exact group_of_groupIn (by decide) (hin₂ g hg)
    · exact group_of_groupIn (by decide) (hin₁ g hg)

theorem exists_braces (h : ReadsClauses r r₁ r₂ r₃ r') :
    ∃ w, r₃.cursor.rest = w ++ r'.cursor.rest ∧ Braces w := by
  rcases h.members.optional with htaken | rfl
  · obtain ⟨inner, spaces, -, hrest, -, -, -, hfree, hspaces⟩ := leads_braces htaken
    exact ⟨'\x7b' :: (inner ++ '\x7d' :: spaces), by simpa using hrest,
      .inr ⟨inner, spaces, rfl, hfree, hspaces⟩⟩
  · exact ⟨[], rfl, .inl rfl⟩

/-- A group of members is what stands between the braces. -/
theorem exists_inner (h : ReadsClauses r r₁ r₂ r₃ r') (hnothing : r.captures = [])
    (hsome : r'.captures.find? (·.group == 4) ≠ none) : ∃ inner spaces,
      r₃.cursor.rest = '\x7b' :: (inner ++ '\x7d' :: (spaces ++ r'.cursor.rest)) ∧
      (r'.captures.find? (·.group == 4)).map (·.text) = some inner ∧ '\x7d' ∉ inner ∧
        ∀ c ∈ spaces, CharClass.isSpace c = true := by
  rcases h.members.optional with htaken | rfl
  · obtain ⟨inner, spaces, g₄, hrest, hcaptures, hgroup₄, htext₄, hfree, hspaces⟩ :=
      leads_braces htaken
    refine ⟨inner, spaces, hrest, ?_, hfree, hspaces⟩
    simp [hcaptures, hgroup₄, htext₄]
  · -- no group in front of the braces has their number
    obtain ⟨-, -, -, hfree⟩ := h.exists_head
    refine absurd (List.find?_eq_none.mpr fun g hg => ?_) hsome
    rw [hfree hnothing g hg]
    exact Bool.false_ne_true

theorem eq_of_plain (h : ReadsClauses r r₁ r₂ r₃ r')
    (hnone : ∀ k ∈ [1, 2, 3], r'.captures.find? (·.group == k) = none) : r₃ = r := by
  have hleft : ∀ {p q : Pattern} {s s' : Reading} (k : Nat), k ∈ [1, 2, 3] →
      p.keeps k = true → Leads (Pattern.optional p) s s' → Leads q s' r' → s' = s := by
    intro p q s s' k hk hkeeps hp hq
    refine hp.optional.resolve_left fun htaken => ?_
    have hsome := group?_isSome htaken hkeeps hq
    rw [hnone k hk] at hsome
    cases hsome
  have hnamespace := hleft 3 (by simp) rfl h.namespaceName h.members
  have hdefault := hleft 2 (by simp) rfl h.defaultName (.seq h.namespaceName h.members)
  have htype := hleft 1 (by simp) rfl h.typeOnly
    (.seq h.defaultName (.seq h.namespaceName h.members))
  rw [hnamespace, hdefault, htype]

end ReadsClauses

/-! ## The whole statement -/

/-- The keyword behind the indentation of a line, and the rest of what is to be read. -/
theorem leads_keyword {ps : List Pattern} (h : Leads (inOrder (lineStart :: Pattern.indent ::
    word "import" :: Pattern.gap :: p :: ps)) r r') : ∃ indent gap s,
      r.cursor.rest = indent ++ ("import".toList ++ (gap ++ s.cursor.rest)) ∧
      s.captures = r.captures ∧ r.cursor.behind.all (· == '\n') = true ∧
      (∀ c ∈ indent, Text.isIndent c = true) ∧
      (gap ≠ [] ∧ ∀ c ∈ gap, CharClass.isSpace c = true) ∧ Leads (inOrder (p :: ps)) s r' := by
  obtain ⟨r₁, hline, h₁⟩ := h.parts
  obtain ⟨r₂, hindent, h₂⟩ := h₁.parts
  obtain ⟨r₃, hkeyword, h₃⟩ := h₂.parts
  obtain ⟨r₄, hgap, h₄⟩ := h₃.parts
  obtain ⟨indent, hu₂, hs₂, hc₂⟩ := hindent.plain rfl
  obtain ⟨u₃, hu₃, hs₃, hc₃⟩ := hkeyword.plain rfl
  obtain ⟨gap, hu₄, hs₄, hc₄⟩ := hgap.plain rfl
  rw [spells_literal hs₃] at hu₃
  cases hline with
  | lineStart hstart =>
      refine ⟨indent, gap, r₄, by rw [hu₂, hu₃, hu₄], by rw [hc₄, hc₃, hc₂], hstart,
        fun c hc => by simpa [Text.isIndent] using spells_many_char hs₂ c hc, ?_, h₄⟩
      obtain ⟨first, others, rfl, hfirst, hothers⟩ := spells_seq hs₄
      cases hfirst with
      | char hc => exact ⟨by simp, List.forall_mem_cons.mpr ⟨hc, spells_many_char hothers⟩⟩

section Groups

variable {cs : List Capture} {g₅ g₆ : Capture}

theorem group?_of_captures (hm : m.captures = g₆ :: g₅ :: cs) (h₅ : g₅.group = 5)
    (h₆ : g₆.group = 6) {k : Nat} (hk : k ≤ 4) : m.group? k = cs.find? (·.group == k) := by
  have hne₅ : (g₅.group == k) = false := beq_eq_false_iff_ne.mpr (by omega)
  have hne₆ : (g₆.group == k) = false := beq_eq_false_iff_ne.mpr (by omega)
  simp [Match.group?, hm, hne₅, hne₆]

theorem quote_of_captures (hm : m.captures = g₆ :: g₅ :: cs) (h₅ : g₅.group = 5 ∧ g₅.text = [c])
    (h₆ : g₆.group = 6) : (ofMatch m).quote = c := by
  simp [ofMatch, Match.groupText, Match.group?, hm, h₅, h₆]

theorem moduleName_of_captures {w : Text} (hm : m.captures = g₆ :: g₅ :: cs)
    (h₆ : g₆.group = 6 ∧ g₆.text = w) : (ofMatch m).moduleName = w := by
  simp [ofMatch, Match.groupText, Match.group?, hm, h₆]

theorem group?_of_members (h : (ofMatch m).members ≠ []) : m.group? 4 ≠ none := fun hnone =>
  h (by simp [ofMatch, hnone])

theorem members_of_group? {w : Text} (h : (m.group? 4).map (·.text) = some w) :
    (ofMatch m).members = ImportMember.readList w := by
  obtain ⟨g, hg, rfl⟩ := Option.map_eq_some_iff.mp h
  simp [ofMatch, hg]

theorem IsPlain.group?_eq_none (h : (ofMatch m).IsPlain) : ∀ k ∈ [1, 2, 3], m.group? k = none := by
  have htype := Option.not_isSome_iff_eq_none.mp (Bool.eq_false_iff.mp h.typeOnly)
  have hdefault := Option.map_eq_none_iff.mp h.defaultName
  have hnamespace := Option.map_eq_none_iff.mp h.namespaceName
  simp only [List.mem_cons, List.not_mem_nil, or_false]
  rintro k (rfl | rfl | rfl) <;> assumption

end Groups

theorem exists_parts (hm : m ∈ pattern.all t) :
    ∃ front indent gap clauses blanks tail back quote,
      ReadFrom t m front indent gap clauses blanks tail back quote := by
  obtain ⟨front, rest, rfl, hstart, hfound⟩ := exists_cut_of_mem_all hm
  obtain ⟨last, hrun, hmatch⟩ := Option.map_eq_some_iff.mp hfound
  obtain ⟨last', hleads, hlast⟩ := exists_leads pattern hrun
  obtain rfl := Option.some.inj hlast
  obtain ⟨whole, -, hwhole, -⟩ := hleads.moves
  obtain ⟨indent, gap, r, hhead, hnothing, hline, hindent, hgap, h₁⟩ := leads_keyword hleads
  obtain ⟨r₁, htype, h₂⟩ := h₁.parts
  obtain ⟨r₂, hdefault, h₃⟩ := h₂.parts
  obtain ⟨r₃, hnamespace, h₄⟩ := h₃.parts
  obtain ⟨r₄, hbraces, hmodule⟩ := h₄.parts
  have hclauses : ReadsClauses r r₁ r₂ r₃ r₄ := ⟨htype, hdefault, hnamespace, hbraces⟩
  obtain ⟨head, hrestHead, honly, -⟩ := hclauses.exists_head
  obtain ⟨w, hrestBraces, hbraced⟩ := hclauses.exists_braces
  obtain ⟨blanks, q, module, quote, tail, g₅, g₆, hrestModule, hcaptures, h₅, h₆, hblanks, hquotes,
    hmoduleName, htail⟩ := leads_module hmodule
  have htext : m.text = whole := by
    rw [← hmatch]
    exact hwhole.textTo_eq
  have hgroups : m.captures = g₆ :: g₅ :: r₄.captures := by rw [← hmatch, hcaptures]
  have hquote := quote_of_captures hgroups h₅ h₆.1
  have hname := moduleName_of_captures hgroups h₆
  have hrest : rest = whole ++ last'.cursor.rest := hwhole.rest
  have hcut : rest = indent ++ ("import".toList ++ (gap ++ ((head ++ w) ++ ("from".toList ++
      (blanks ++ (q :: (module ++ (quote :: tail)))))))) ++ last'.cursor.rest := by
    rw [show rest = _ from hhead, hrestHead, hrestBraces, hrestModule]
    simp only [List.append_assoc, List.cons_append]
  -- the braces are those of the group of members
  have hmembers : (ofMatch m).members ≠ [] → ∃ inner spaces,
      w = '\x7b' :: (inner ++ '\x7d' :: spaces) ∧
      (ofMatch m).members = ImportMember.readList inner ∧ '\x7d' ∉ inner ∧
        ∀ c ∈ spaces, CharClass.isSpace c = true := by
    intro hsome
    have hgroup := group?_of_captures hgroups h₅.1 h₆.1 (k := 4) (Nat.le_refl _)
    obtain ⟨inner, spaces, hinner, hread, hfree, hspaces⟩ :=
      hclauses.exists_inner hnothing (hgroup ▸ group?_of_members hsome)
    refine ⟨inner, spaces, List.append_cancel_right (hrestBraces.symm.trans ?_),
      members_of_group? (hgroup ▸ hread), hfree, hspaces⟩
    simpa only [List.append_assoc, List.cons_append] using hinner
  refine ⟨front, indent, gap, head ++ w, blanks, tail, last'.cursor.rest, quote, ?_, hstart, ?_,
    hline, hindent, hgap, hblanks, by rwa [hquote], by rwa [hname], htail,
    ⟨head, w, rfl, honly, hbraced⟩, ?_, ?_⟩
  · rw [htext, hrest, List.append_assoc]
  · rw [hquote, hname, htext]
    exact List.append_cancel_right (hrest.symm.trans hcut)
  · intro hsome
    obtain ⟨inner, spaces, rfl, hread, -⟩ := hmembers hsome
    exact ⟨head, inner, spaces, rfl, hread⟩
  · intro hplain hsome
    obtain ⟨inner, spaces, rfl, hread, hfree, hspaces⟩ := hmembers hsome
    have heq := hclauses.eq_of_plain fun k hk => by
      have hle : k ≤ 4 := by
        simp only [List.mem_cons, List.not_mem_nil, or_false] at hk
        omega
      rw [← group?_of_captures hgroups h₅.1 h₆.1 hle]
      exact hplain.group?_eq_none k hk
    obtain rfl : head = [] := List.append_left_eq_self.mp (heq ▸ hrestHead).symm
    exact ⟨inner, spaces, rfl, hread, hfree, hspaces⟩

end ImportStatement

end ServiceGate
