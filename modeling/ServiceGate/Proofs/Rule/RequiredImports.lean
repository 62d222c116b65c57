/-
# Imports that the rules accept

The rules on required imports search for an import in a form of their own.  A statement of members
alone has that form (`readsAt_memberImport`), and so has one written with the name as its default
(`readsAt_defaultImport`); a type-only statement and one with another default have not.  So a rule
is content with what the repair leaves where the name is imported, or goes, in such a statement
(`accepts_import`), unless an import in a comment hides it.

There are two such rules.  `RequiredImport` has what they differ in, and `Takes` and `Importable`
say of either of them which statement its name can go into.  A default of the name counts for one of
them alone (`asDefault`), so a name that is missing may be put beside it.
-/
import ServiceGate.Proofs.Repair.Bindings
import ServiceGate.Proofs.Rule.Forbidden
import ServiceGate.Proofs.Verdict.ByRule
import ServiceGate.Repair.Basic

namespace ServiceGate

open Pattern ImportMember ImportStatement Repair

variable {t u front rest w name moduleName : Text} {m : Match} {p q module : Pattern}
  {r r' : Reading}
  {cs : List Capture} {i j : ImportStatement} {member : String} {ctx : Context} {c : Char}

/-! ## Statements that the patterns read -/

theorem leads_fromModule (hmodule : module.ReadsText name) {blanks : Text} {x y : Char}
    (hblanks : ∀ c ∈ blanks, CharClass.isSpace c = true) (hx : x = '\'' ∨ x = '"')
    (hy : y = '\'' ∨ y = '"') (front rest : Text) : Leads (Required.fromModule module)
      (Reading.past front ("from".toList ++ (blanks ++ ([x] ++ (name ++ ([y] ++ rest))))) [])
      (Reading.past (front ++ "from".toList ++ blanks ++ [x] ++ name ++ [y]) rest []) := by
  have hquote : ∀ c, c = '\'' ∨ c = '"' → "'\"".toList.contains c = true := by
    rintro c (rfl | rfl) <;> decide
  exact .seq (leads_literal _ _ _ _)
    (.seq (leads_many _ _ _ _ hblanks) (.seq (leads_single (hquote x hx) _ _ _)
    (.seq (hmodule _ _ _) (leads_single (hquote y hy) _ _ _))))

theorem isWord_of_indent (hline : front.getLast?.all (· == '\n') = true)
    (hindent : ∀ c ∈ w, Text.isIndent c = true) : (front ++ w).getLast?.any CharClass.isWord =
    false := by
  cases hlast : (front ++ w).getLast? with
  | none => rfl
  | some c =>
      have hc : CharClass.isWord c = false := by
        cases hw : w.getLast? with
        | none =>
            rw [List.getLast?_append, hw, Option.none_or] at hlast
            rw [hlast] at hline
            rw [beq_iff_eq.mp hline]
            decide
        | some d =>
            rw [List.getLast?_append, hw, Option.some_or] at hlast
            obtain rfl := Option.some.inj hlast
            exact CharClass.isWord_of_isSpace
              (isSpace_of_isIndent (hindent d (List.mem_of_getLast? hw)))
      exact hc

/-- The keyword at the start of a line. -/
theorem leads_import {indent : Text} (hline : front.getLast?.all (· == '\n') = true)
    (hindent : ∀ c ∈ indent, Text.isIndent c = true)
    (hp : Leads p (Reading.past (front ++ indent ++ "import".toList) rest []) r') :
    Leads (seq wordEdge (seq (word "import") p))
      (Reading.past (front ++ indent) ("import".toList ++ rest) []) r' := by
  have hword : CharClass.isWord 'i' = true := by decide
  refine .seq (leads_wordEdge ?_) (.seq (leads_literal _ _ _ _) hp)
  rw [isWord_of_indent hline hindent]
  exact fun heq => absurd (heq.trans hword) (by decide)

theorem isWord_of_separates (h : separates c = true) : CharClass.isWord c = false := by
  rcases Bool.or_eq_true_iff.mp h with hspace | hcomma
  · exact CharClass.isWord_of_isSpace hspace
  · rw [beq_iff_eq.mp hcomma]
    decide

/-- A word between the braces of an import is read as the member asked for. -/
theorem leads_braces_member (hword : w ≠ [] ∧ ∀ c ∈ w, CharClass.isWord c = true) {a b : Text}
    (ha : '\x7d' ∉ a) (hb : '\x7d' ∉ b) (hbefore : ∀ c ∈ a.getLast?, separates c = true)
    (hbehind : ∀ c ∈ b.head?, separates c = true) (front rest : Text) (hp :
    Leads p (Reading.past (front ++ "\x7b".toList ++ a ++ w ++ b ++ "\x7d".toList) rest []) r') :
    Leads (seq (word "\x7b")
      (seq (star (noneOf "\x7d")) (seq wordEdge (seq (literal w) (seq wordEdge
        (seq (star (noneOf "\x7d")) (seq (word "\x7d") p)))))))
      (Reading.past front ("\x7b".toList ++ (a ++ (w ++ (b ++ ("\x7d".toList ++ rest))))) [])
        r' := by
  obtain ⟨hne, hchars⟩ := hword
  have hfree : ∀ {x : Text}, '\x7d' ∉ x → ∀ c ∈ x, (!"\x7d".toList.contains c) = true :=
    fun hx c hc => by
    simpa using fun heq : c = '\x7d' => hx (heq ▸ hc)
  have hopen : (front ++ "\x7b".toList ++ a).getLast?.any CharClass.isWord = false := by
    rw [List.getLast?_append]
    cases ha : a.getLast? with
    | none => simp; decide
    | some c => exact isWord_of_separates (hbefore c ha)
  have hfirst : ∀ x : Text, (w ++ x).head?.any CharClass.isWord = true := fun x => by
    obtain ⟨c, w, rfl⟩ := List.exists_cons_of_ne_nil hne
    exact hchars c List.mem_cons_self
  have hlast : ∀ x : Text, (x ++ w).getLast?.any CharClass.isWord = true := fun x => by
    rw [List.getLast?_append_of_ne_nil _ hne, List.getLast?_eq_some_getLast hne]
    exact hchars _ (List.getLast_mem hne)
  have hclose : (b ++ ("\x7d".toList ++ rest)).head?.any CharClass.isWord = false := by
    cases hb : b with
    | nil =>
        have hbrace : CharClass.isWord '\x7d' = false := by decide
        exact hbrace
    | cons c b => exact isWord_of_separates (hbehind c (by rw [hb]; rfl))
  exact .seq (leads_literal _ _ _ _) (.seq (leads_many _ _ _ _ (hfree ha))
    (.seq (leads_wordEdge (by rw [hopen, hfirst]; decide)) (.seq (leads_literal _ _ _ _)
      (.seq (leads_wordEdge (by rw [hlast, hclose]; decide)) (.seq (leads_many _ _ _ _ (hfree hb))
        (.seq (leads_literal _ _ _ _) hp))))))

/-- A statement of members alone is read as an import of each of them. -/
theorem readsAt_memberImport (hm : m ∈ pattern.all u) (hplain : (ofMatch m).IsPlain)
    (hmember : (ofMatch m).hasMember member.toList = true)
    (hword : member.toList ≠ [] ∧ ∀ c ∈ member.toList, CharClass.isWord c = true)
    (hmodule : module.ReadsText (ofMatch m).moduleName) :
    (Required.memberImport member module).ReadsAt u (ofMatch m).start := by
  obtain ⟨front, indent, gap, clauses, blanks, tail, back, quote, hread⟩ := exists_parts hm
  obtain ⟨x, hx, hname⟩ := List.any_eq_true.mp hmember
  obtain ⟨inner, spaces, hclauses, hmembers, hfree, hspaces⟩ :=
    hread.clauses hplain (List.ne_nil_of_mem hx)
  obtain ⟨a, b, hinner, hbefore, hbehind⟩ := (of_mem_readList (hmembers ▸ hx)).2.1
  rw [beq_iff_eq.mp hname] at hinner
  rw [hinner] at hfree
  simp only [List.mem_append, not_or] at hfree
  have hcut : u = (front ++ indent) ++
      ("import".toList ++ (gap ++ ("\x7b".toList ++ (a ++ (member.toList ++
      (b ++ ("\x7d".toList ++ (spaces ++ ("from".toList ++ (blanks ++ ([(ofMatch m).quote] ++
        ((ofMatch m).moduleName ++ ([quote] ++ (tail ++ back)))))))))))))) := by
    have hopen : "\x7b".toList = ['\x7b'] := rfl
    have hclose : "\x7d".toList = ['\x7d'] := rfl
    rw [hread.cut, hread.text, hclauses, hinner, hopen, hclose]
    simp only [List.append_assoc, List.cons_append, List.nil_append]
  exact ⟨front ++ indent, _, _, hcut, start_ofMatch hread,
    leads_import hread.line hread.indent (.seq (leads_many _ _ _ _ hread.gap.2)
      (leads_braces_member hword hfree.1.1 hfree.2 hbefore hbehind _ _
        (.seq (leads_many _ _ _ _ hspaces) (leads_fromModule hmodule hread.blanks
          (hread.quotes _ (by simp)) (hread.quotes _ (by simp)) _ _))))⟩

/-- A statement that is written with a default is read as an import of it. -/
theorem readsAt_defaultImport {n : Nat} {ms : List ImportMember} {quote : Char}
    (h : OnLine u n (written (some member.toList) ms quote moduleName))
    (hword : member.toList ≠ [] ∧ ∀ c ∈ member.toList, CharClass.isWord c = true)
    (hquote : quote = '\'' ∨ quote = '"') (hms : ∀ x ∈ ms, ';' ∉ x.imported ++ x.boundAs)
    (hmodule : module.ReadsText moduleName) :
    (inOrder [wordEdge, word "import", gap, word member, wordEdge, star (noneOf ";"),
      Required.fromModule module]).ReadsAt u n := by
  obtain ⟨front, indent, rest, hcut, hstart, hline, hindent⟩ := h
  obtain ⟨hne, hchars⟩ := hword
  have hbraces : ';' ∉ braces ms := notMem_braces (by decide) hms
  have hsemicolon :
      ';' ∉ ", ".toList ++ ("\x7b".toList ++ (braces ms ++ ("\x7d".toList ++ [' ']))) := by
    simp only [List.mem_append, not_or]
    exact ⟨by decide, by decide, hbraces, by decide, by decide⟩
  have hfree : ∀ c ∈ ", ".toList ++ ("\x7b".toList ++ (braces ms ++ ("\x7d".toList ++ [' ']))),
      (!";".toList.contains c) = true := fun c hc => by
    simpa using fun heq : c = ';' => hsemicolon (heq ▸ hc)
  have hlast : ∀ x : Text, (x ++ member.toList).getLast?.any CharClass.isWord = true := fun x => by
    rw [List.getLast?_append_of_ne_nil _ hne, List.getLast?_eq_some_getLast hne]
    exact hchars _ (List.getLast_mem hne)
  have htext :
      u = (front ++ indent) ++ ("import".toList ++ ([' '] ++ (member.toList ++ ((", ".toList ++
      ("\x7b".toList ++ (braces ms ++ ("\x7d".toList ++ [' '])))) ++
      ("from".toList ++ ([' '] ++ ([quote] ++
        (moduleName ++ ([quote] ++ ([';'] ++ rest)))))))))) := by
    rw [hcut, written_eq]
    simp only [writtenDefault, Option.map_some, Option.getD_some, List.append_assoc]
  refine ⟨front ++ indent, _, _, htext, hstart, leads_import hline hindent
    (.seq (leads_gap ⟨by simp, by decide⟩ _ _ _)
      (.seq (leads_literal _ _ _ _) (.seq (leads_wordEdge ?_)
      (.seq (leads_many _ _ _ _ hfree) (leads_fromModule hmodule (by decide) hquote hquote _ _)))))⟩
  have hcomma : CharClass.isWord ',' = false := by decide
  rw [hlast]
  exact fun heq => absurd (heq.trans hcomma) (by decide)

/-! ## What the rules accept -/

/-- A name that a rule asks for, the modules that its repair imports it from, and whether the rule
takes a default of that name, too. -/
structure RequiredImport where
  code : String
  pattern : Pattern
  moduleName : String
  others : List String
  name : String
  asDefault : Bool

namespace RequiredImport

def schemaLibrary : RequiredImport :=
  ⟨"MISSING_ZOD_IMPORT", Required.schemaLibraryImport, "zod", [], "z", true⟩

def idGenerator : RequiredImport :=
  ⟨"MISSING_UUID_IMPORT", Required.idGeneratorImport, "crypto", ["node:crypto"], "randomUUID",
    false⟩

def all : List RequiredImport := [schemaLibrary, idGenerator]

variable {r : RequiredImport}

def modules (r : RequiredImport) : List Text := r.moduleName.toList :: r.others.map String.toList

def edit? (r : RequiredImport) (t : Text) : Option Edit :=
  importEdit? r.moduleName.toList (r.others.map String.toList) [r.name.toList] t

def repaired (r : RequiredImport) (t : Text) : Text :=
  ensureNamedImport r.moduleName.toList (r.others.map String.toList) [r.name.toList] t

/-- A statement that the name can be added to: one without a default, or with that name as its
default. -/
def Takes (r : RequiredImport) (i : ImportStatement) : Prop :=
  i.defaultName = none ∨ r.asDefault = true ∧ i.defaultName = some r.name.toList ∧
    ∀ x ∈ i.members, ';' ∉ x.imported ++ x.boundAs

instance (r : RequiredImport) (i : ImportStatement) : Decidable (r.Takes i) :=
  inferInstanceAs (Decidable (i.defaultName = none ∨ r.asDefault = true ∧
    i.defaultName = some r.name.toList ∧ ∀ x ∈ i.members, ';' ∉ x.imported ++ x.boundAs))

/-- The name is imported by a statement of members alone, or it is not and goes into a statement
that takes it. -/
def Importable (r : RequiredImport) (t : Text) : Prop :=
  (∃ i ∈ ImportStatement.all (.of t), i.isFrom r.modules = true ∧ i.hasMember r.name.toList = true ∧
    i.IsPlain) ∨
    ¬ IsImported t r.modules r.name.toList ∧
      ∀ i ∈ (ImportStatement.all (.of t)).find? (takesMembers r.modules), r.Takes i

theorem forall_mem_all {P : RequiredImport → Prop} (hschema : P schemaLibrary)
    (hid : P idGenerator) :
    ∀ r ∈ all, P r := by
  simp only [all, List.forall_mem_cons, List.not_mem_nil, false_implies, implies_true, and_true]
  exact ⟨hschema, hid⟩

theorem detector_eq : ∀ r ∈ all, ∀ rule ∈ Rule.all, rule.code = r.code →
    rule.detector = .required r.pattern := by
  exact forall_mem_all (fun _ hrule hcode => detector_of_find? rfl hrule hcode)
    fun _ hrule hcode => detector_of_find? rfl hrule hcode

theorem pattern_proper : ∀ r ∈ all, r.pattern.proper = true ∧ r.pattern.takes = true :=
  forall_mem_all (by decide) (by decide)

theorem names_written : ∀ r ∈ all, (r.moduleName.toList ≠ [] ∧ '\'' ∉ r.moduleName.toList ∧
    '"' ∉ r.moduleName.toList) ∧ IsIdentifier r.name.toList :=
  forall_mem_all (by decide) (by decide)

theorem readsAt_plain (hi : i ∈ ImportStatement.all (.of u)) (hplain : i.IsPlain) : ∀ r ∈ all,
    i.isFrom r.modules = true → i.hasMember r.name.toList = true → r.pattern.ReadsAt u i.start := by
  obtain ⟨m, hm, rfl, -⟩ := mem_all_iff.mp hi
  refine forall_mem_all (fun hfrom hmember => ?_) fun hfrom hmember => ?_
  · have hmodule : (ofMatch m).moduleName = "zod".toList := by
      simpa [isFrom, modules, schemaLibrary] using hfrom
    have hreads : (Required.memberImport "z" (word "zod")).ReadsAt u (ofMatch m).start :=
      readsAt_memberImport hm hplain hmember (by decide) (hmodule ▸ leads_literal _)
    obtain ⟨front, rest, r, hcut, hstart, hleads⟩ := hreads
    exact ⟨front, rest, r, hcut, hstart, .altFirst hleads⟩
  · have hmodule : (ofMatch m).moduleName = "crypto".toList ∨
        (ofMatch m).moduleName = "node:crypto".toList := by
      simpa [isFrom, modules, idGenerator] using hfrom
    have hreads : (seq (Pattern.optional (word "node:")) (word "crypto")).ReadsText
        (ofMatch m).moduleName := by
      intro front rest cs
      rcases hmodule with hmodule | hmodule <;> rw [hmodule]
      · exact .seq (.altSecond .empty) (leads_literal _ _ _ _)
      · have hnode := leads_literal "node:".toList front ("crypto".toList ++ rest) cs
        have hcrypto := leads_literal "crypto".toList (front ++ "node:".toList) rest cs
        rw [List.append_assoc] at hcrypto
        exact .seq (.altFirst hnode) hcrypto
    exact readsAt_memberImport hm hplain hmember (by decide) hreads

/-- A statement with the name as its default is, where the rule takes it. -/
theorem readsAt_asDefault {n : Nat} {ms : List ImportMember} {quote : Char}
    (hquote : quote = '\'' ∨ quote = '"') (hms : ∀ x ∈ ms, ';' ∉ x.imported ++ x.boundAs) :
    ∀ r ∈ all, r.asDefault = true → moduleName ∈ r.modules →
      OnLine u n (written (some r.name.toList) ms quote moduleName) → r.pattern.ReadsAt u n := by
  refine forall_mem_all (fun _ hmodule hline => ?_) fun h => absurd h (by decide)
  obtain rfl : moduleName = "zod".toList := by simpa [modules, schemaLibrary] using hmodule
  obtain ⟨front, rest, r, hcut, hstart, hleads⟩ :=
    readsAt_defaultImport hline (by decide) hquote hms (leads_literal "zod".toList)
  exact ⟨front, rest, r, hcut, hstart, .altSecond (.altSecond hleads)⟩

/-- What the repair leaves holds a statement that the rule asks for. -/
theorem exists_readsAt (hr : r ∈ all) (h : r.Importable t) (hstands : ∀ e ∈ r.edit? t, e.Stands t) :
    ∃ i ∈ ImportStatement.all (.of (r.repaired t)), r.pattern.ReadsAt (r.repaired t) i.start := by
  rw [repaired, ensureNamedImport_eq]
  obtain ⟨hmodule, hname⟩ := names_written r hr
  have hnames : ∀ name ∈ [r.name.toList], IsIdentifier name := by simpa using hname
  rcases h with ⟨i, hi, hfrom, hmember, hplain⟩ | ⟨hmissing, htakes⟩
  · have hnone : r.edit? t = none := by
      refine Option.eq_none_iff_forall_ne_some.mpr fun e he => ?_
      obtain ⟨missing, hmissing, hne, -⟩ := eq_of_importEdit? he
      obtain ⟨name, hname⟩ := List.exists_mem_of_ne_nil _ hne
      obtain ⟨hname, hmissing⟩ := mem_missingNames.mp (hmissing ▸ hname)
      rw [List.mem_singleton.mp hname] at hmissing
      exact hmissing ⟨i, hi, hfrom, hmember⟩
    rw [edit?] at hnone
    rw [hnone]
    exact ⟨i, hi, readsAt_plain hi hplain r hr hfrom hmember⟩
  · have hmem :
        r.name.toList ∈ missingNames (ImportStatement.all (.of t)) r.modules [r.name.toList] :=
      mem_missingNames.mpr ⟨List.mem_singleton_self _, hmissing⟩
    cases he : r.edit? t with
    | none =>
        rw [modules, missingNames_of_importEdit? he] at hmem
        cases hmem
    | some e =>
        obtain ⟨new, hexchange, hnew⟩ :=
          exists_exchange hmodule (fun name h => (hnames name h).notMem) he
          (hstands e he)
        rw [edit?] at he
        rw [he]
        refine ⟨new, hexchange.mem, ?_⟩
        have hmissing :
            ∀ name ∈ missingNames (ImportStatement.all (.of t)) r.modules [r.name.toList],
            IsIdentifier name := fun name hname => hnames name (mem_missingNames.mp hname).1
        have hread := isRead_added (t := t) (f := takesMembers r.modules) hmissing
        have hmember : new.hasMember r.name.toList = true := by
          refine List.any_eq_true.mpr ⟨.named r.name.toList, ?_, beq_self_eq_true _⟩
          rw [hnew.members]
          exact mem_readList_braces hread (List.mem_append_right _ (List.mem_map_of_mem hmem)) rfl
        have hplain : new.defaultName = none → r.pattern.ReadsAt (e.apply t) new.start :=
          fun hdefault =>
          readsAt_plain hexchange.mem ⟨hnew.typeOnly, hdefault, hnew.namespaceName⟩ r hr hnew.isFrom
            hmember
        cases hfind : (ImportStatement.all (.of t)).find? (takesMembers r.modules) with
        | none => exact hplain (hnew.defaultName.trans (by rw [← modules, hfind]; rfl))
        | some i =>
            have hdefault : new.defaultName = i.defaultName :=
              hnew.defaultName.trans (by rw [← modules, hfind]; rfl)
            rcases htakes i hfind with hnone | ⟨hdefaults, hsame, hsemicolon⟩
            · exact hplain (hdefault.trans hnone)
            · have hplaced := hnew.placed
              rw [hdefault, hsame] at hplaced
              refine readsAt_asDefault hnew.quote (fun x hx => ?_) r hr hdefaults
                (List.contains_iff_mem.mp hnew.isFrom) hplaced
              rw [← modules, hfind] at hx
              rcases List.mem_append.mp hx with hx | hx
              · exact hsemicolon x hx
              · obtain ⟨name, hname, rfl⟩ := List.mem_map.mp hx
                have hchars := (hmissing name hname).chars
                simp only [ImportMember.named, List.mem_append, or_self]
                exact fun hmem => absurd (hchars _ hmem) (by decide)

theorem findings_eq_nil (hr : r ∈ all) {rule : Rule} (hrule : rule ∈ Rule.all)
    (hcode : rule.code = r.code) (hi : i ∈ ImportStatement.all ctx.source)
    (hreads : r.pattern.ReadsAt ctx.source.text i.start)
    (hhidden : ¬ Hidden r.pattern ctx.source i.start) : rule.detector.findings ctx = .ok [] := by
  obtain ⟨hproper, htakes⟩ := pattern_proper r hr
  have hcode' : ctx.source.isCodeAt i.start = true := (List.mem_filter.mp hi).2
  obtain ⟨m, hm, hstart, -⟩ := (covers_iff htakes (hreads.matchesAt hproper) hcode').mpr hhidden
  have hany : ((r.pattern.all ctx.source.text).any fun m => ctx.source.isCodeAt m.start) = true :=
    List.any_eq_true.mpr ⟨m, hm, hstart⟩
  rw [detector_eq r hr rule hrule hcode, Detector.findings, if_pos hany]

/-- Where the name is imported by a statement of members alone, or goes into one that takes it, the
rule is content with what the repair leaves, unless an import that starts in no code hides it. -/
theorem accepts_import (hr : r ∈ all) {rule : Rule} (hrule : rule ∈ Rule.all)
    (hcode : rule.code = r.code) (himportable : r.Importable t)
    (hstands : ∀ e ∈ r.edit? t, e.Stands t)
    (hhidden : ∀ i ∈ ImportStatement.all (.of (r.repaired t)),
      ¬ Hidden r.pattern (.of (r.repaired t)) i.start)
    (hctx : ctx.source = .of (r.repaired t)) : rule.detector.findings ctx = .ok [] := by
  obtain ⟨i, hi, hreads⟩ := exists_readsAt hr himportable hstands
  refine findings_eq_nil hr hrule hcode (hctx ▸ hi) ?_ (hctx ▸ hhidden i hi)
  rw [hctx]
  exact hreads

/-- The generator is added to members on lines of their own. -/
theorem accepts_import_multiline : ∃ rule ∈ Rule.all, rule.code = idGenerator.code ∧
    rule.detector.findings (.of .default .none (idGenerator.repaired
      "import \x7b\n  createHash,\n\x7d from 'node:crypto';\nrandomUUID();\n".toList)) =
      .ok [] := by
  obtain ⟨rule, hrule, hcode⟩ : ∃ rule ∈ Rule.all, rule.code = idGenerator.code := by decide
  refine ⟨rule, hrule, hcode,
    accepts_import (List.mem_cons_of_mem _ List.mem_cons_self) hrule hcode (.inr ⟨?_, ?_⟩) ?_ ?_
    rfl⟩
  · decide +kernel
  · decide +kernel
  · decide +kernel
  · decide +kernel

def besideDefault : Text := "import zod, \x7b z \x7d from 'zod';\n".toList

/-- An import of the name with another default is not what the rule asks for. -/
theorem not_always_accepted : ¬ ∀ r ∈ all, ∀ rule ∈ Rule.all, rule.code = r.code →
    ∀ (t : Text) (ctx : Context),
    ctx.source = .of (r.repaired t) → rule.detector.findings ctx = .ok [] := by
  intro h
  obtain ⟨rule, hrule, hcode⟩ : ∃ rule ∈ Rule.all, rule.code = schemaLibrary.code := by decide
  have hr : schemaLibrary ∈ all := List.mem_cons_self
  have hfindings := h schemaLibrary hr rule hrule hcode besideDefault
    (.of .default .none (schemaLibrary.repaired besideDefault)) rfl
  have hnone : ((schemaLibrary.pattern.all (Context.of .default .none
      (schemaLibrary.repaired besideDefault)).source.text).any fun m => (Context.of .default .none
        (schemaLibrary.repaired besideDefault)).source.isCodeAt m.start) = false := by
    decide +kernel
  rw [detector_eq schemaLibrary hr rule hrule hcode, Detector.findings, hnone] at hfindings
  cases hfindings

end RequiredImport

end ServiceGate
