/-
# Import statements round-trip

A statement of names is read back from what is written for it: at the start of a text the pattern of
statements takes the whole of what was written (`Pattern.all_eq_singleton`), so there is one
statement, with the same clauses, quote and module.  The words `type`, `from` and `as` may be names,
but for the default `type` with nothing behind it and a member `type` that is bound to another name:
these are written like the word that stands for types alone.

That the words of the syntax may be names is what makes the proof more than a walk along the text:
the pattern tries the word `type` before it tries a default, and takes back what it has read if the
rest does not fit.  `Legible` names the cases in which the statement leaves it no choice, and
`goesOn_iff` shows that a statement of names is one of them.
-/
import ServiceGate.Proofs.Pattern.Extended
import ServiceGate.Proofs.Repair.Bindings

namespace ServiceGate

open Pattern ImportMember Scan

variable {p : Pattern} {t : Text} {m : Match} {rounds free : Nat} {i : ImportStatement}

/-! ## A match of the whole text -/

namespace Pattern

theorem allFrom_eq_nil (hp : p.takes = true) : ∀ (rest : Text) (behind : Option Char) (n : Nat),
    n + Text.size rest ≤ free → p.allFrom rounds free behind n rest = []
  | [], behind, n, _ => by
      rw [allFrom]
      split_ifs
      · cases hmatch : p.matchAt? rounds ⟨behind, n, []⟩ with
        | none => rfl
        | some m =>
            -- a match would take a character of the empty text
            obtain ⟨last, hrun, -⟩ := Option.map_eq_some_iff.mp hmatch
            obtain ⟨r', hleads, -⟩ := exists_leads p hrun
            exact absurd (hleads.lt hp).2 (Nat.not_lt_zero _)
      · rfl
  | c :: rest, behind, n, hle => by
      have hpos := c.utf8Size_pos
      rw [Text.size] at hle
      rw [allFrom, if_neg (by omega)]
      exact allFrom_eq_nil hp rest _ _ (by omega)

/-- A match of the whole text is the only one. -/
theorem all_eq_singleton (hp : p.takes = true) (hne : t ≠ [])
    (hmatch : p.matchAt? (t.length + 1) ⟨none, 0, t⟩ = some m) (hstop : m.stop = Text.size t) :
    p.all t = [m] := by
  obtain ⟨c, rest, rfl⟩ := List.exists_cons_of_ne_nil hne
  have hrest := @allFrom_eq_nil p ((c :: rest).length + 1) m.stop hp rest (some c) (0 + c.utf8Size)
    (by rw [hstop, Text.size]; omega)
  rw [all, allFrom, if_pos (Nat.le_refl 0), hmatch]
  exact congrArg _ hrest

end Pattern

/-! ## Statements of names -/

/-- A name that is read as a default or as a namespace: it starts with an ASCII letter, `_` or `$`.
-/
structure IsBound (name : Text) : Prop extends IsIdentifier name where
  head : ∀ c ∈ name.head?, (CharClass.isAsciiLetter c || c == '_' || c == '$') = true

instance (name : Text) : Decidable (IsBound name) :=
  decidable_of_iff (IsIdentifier name ∧
      ∀ c ∈ name.head?, (CharClass.isAsciiLetter c || c == '_' || c == '$') = true)
    ⟨fun h => ⟨h.1, h.2⟩, fun h => ⟨h.toIsIdentifier, h.head⟩⟩

theorem IsBound.spells {name : Text} (h : IsBound name) : Spells Pattern.name name := by
  obtain ⟨c, rest, rfl⟩ := List.exists_cons_of_ne_nil h.ne_nil
  exact .seq (.char (h.head c rfl))
    (spells_many_of_forall fun d hd => h.chars d (List.mem_cons_of_mem c hd))

namespace ImportStatement

/-- A statement that binds names, and is not written like another one. -/
structure IsNamed (i : ImportStatement) : Prop where
  defaultName : ∀ name ∈ i.defaultName, IsBound name
  namespaceName : ∀ name ∈ i.namespaceName, IsBound name
  members : ∀ m ∈ i.members, IsIdentifier m.imported ∧ IsIdentifier m.boundAs
  binds : i.defaultName.isSome = true ∨ i.namespaceName.isSome = true ∨ i.members ≠ []
  exclusive : i.namespaceName = none ∨ i.members = []
  notType : i.defaultName = some "type".toList → i.namespaceName.isSome = true ∨ i.members ≠ []
  plainType : ∀ m ∈ i.members, m.imported = "type".toList → m.typeOnly = true ∨
    m.imported = m.boundAs
  quote : i.quote = '\'' ∨ i.quote = '"'
  moduleName : i.moduleName ≠ [] ∧ '\'' ∉ i.moduleName ∧ '"' ∉ i.moduleName

namespace IsNamed

theorem isRead (h : i.IsNamed) : ∀ m ∈ i.members, m.IsRead := fun m hm =>
  ⟨(h.members m hm).1.isWord, (h.members m hm).2.isWord⟩

theorem goesOn_iff (i : ImportStatement) :
    i.bindings.goesOn = true ↔ i.namespaceName.isSome = true ∨ i.members ≠ [] := by
  cases hmembers : i.members <;> simp [bindings, Clauses.goesOn, hmembers]

theorem legible (h : i.IsNamed) : i.bindings.Legible where
  defaultName name hname := (h.defaultName name hname).spells
  namespaceName name hname := (h.namespaceName name hname).spells
  members ms hms := by
    have hms : ms = i.members := by
      simp only [bindings] at hms
      split_ifs at hms
      · cases hms
      · exact (Option.some.inj hms).symm
    refine hms ▸ notMem_braces (by decide) fun m hm hmem => ?_
    obtain ⟨himported, hbound⟩ := h.members m hm
    rcases List.mem_append.mp hmem with hmem | hmem
    · exact himported.notMem hmem
    · exact hbound.notMem hmem
  binds := h.binds.imp_right (goesOn_iff i).mpr
  notType _ hdefault := (goesOn_iff i).mpr (h.notType hdefault)

theorem readMembers (h : i.IsNamed) :
    (i.bindings.members.map fun ms => readList (braces ms)).getD [] = i.members := by
  simp only [bindings]
  split_ifs with hempty
  · exact (List.isEmpty_iff.mp hempty).symm
  · have hread : ∀ m ∈ i.members, read? m.render = some m := fun m hm =>
      (h.isRead m hm).read?_render (h.plainType m hm)
    have hne : i.members ≠ [] := by simpa using hempty
    rw [Option.map_some, Option.getD_some, readList_braces hne h.isRead, List.filterMap_congr hread,
      List.filterMap_some]

end IsNamed

/-- A statement of names is written as a text in which one statement is read, over the whole text
and with the same clauses, quote and module. -/
theorem all_render (i : ImportStatement) (h : i.IsNamed) : ∃ t, i.render = some t ∧
    all (.of t) = [{ i with start := 0, stop := Text.size t }] := by
  refine ⟨_, render_eq_statement h.exclusive h.binds, ?_⟩
  obtain ⟨t, ht⟩ : ∃ t, t = i.bindings.statement i.quote i.moduleName := ⟨_, rfl⟩
  obtain ⟨rest, hrest⟩ : ∃ rest, t = 'i' :: rest := ⟨_, by rw [ht, Clauses.statement]; rfl⟩
  obtain ⟨m, hmatch, hstart, hread⟩ :=
    @Clauses.exists_matchAt? (t.length + 1) [] [] i.moduleName i.quote
    i.bindings h.legible h.quote h.moduleName rfl (fun c hc => absurd hc List.not_mem_nil)
    (by rw [← ht, List.nil_append]; exact Nat.le_succ _) []
  rw [h.readMembers, ← ht] at hread
  rw [← ht, List.append_nil, List.nil_append] at hmatch
  simp only [List.nil_append, Text.size, Nat.zero_add] at hread
  have hall :=
    all_eq_singleton (p := pattern) rfl (by rw [hrest]; exact List.cons_ne_nil _ _) hmatch
    (show (ofMatch m).stop = _ by rw [hread])
  have hcode : (Source.of t).isCodeAt 0 = true := by
    have hin : InCode [] 'i' := ⟨[], .start, rfl, fun _ => .nil⟩
    rw [hrest]
    exact hin.isCodeAt (by decide) (by decide) rest
  rw [← ht, all, show (Source.of t).text = t from rfl, hall, List.map_singleton, hread,
    List.filter_cons, if_pos hcode]
  rfl

/-- A statement whose names are the words of the syntax. -/
def wordy : ImportStatement :=
  ⟨7, 9, true, some "type".toList, none, [⟨"type".toList, "as".toList, true⟩,
    ⟨"as".toList, "from".toList, false⟩, .named "type".toList], '"', "import * as $".toList⟩

theorem all_render_wordy : wordy.IsNamed ∧ wordy.render =
      some "import type type, \x7b type type as as, as as from, type \x7d from \"import * as $\";".toList ∧
    ∃ t, wordy.render = some t ∧
    all (.of t) = [{ wordy with start := 0, stop := Text.size t }] := by
  have hnamed : wordy.IsNamed :=
    ⟨by decide, by decide, by decide, by decide, by decide, by decide, by decide, by decide, by
      decide⟩
  exact ⟨hnamed, by decide, all_render wordy hnamed⟩

end ImportStatement

end ServiceGate
