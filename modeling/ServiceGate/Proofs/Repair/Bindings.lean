/-
# What importing names makes usable

Importing names decides by the names of members in their modules.  Behind the edit a name that was
missing is a member of the statement that is written, bound to itself; one that is imported already
is left as it is, so it is usable under its own name exactly if it was
(`isUsable_ensureNamedImport`).

`IsImported` is what the repair looks at and `IsUsable` is what a reader of the code needs.  They
part where a member is imported under another name: such a name is imported, so nothing is written
for it, and yet it is bound to something else (`not_always_usable`).
-/
import ServiceGate.Proofs.Repair.Imported

namespace ServiceGate

open ImportMember ImportStatement

variable {t moduleName name : Text} {modules others names : List Text} {e : Edit} {m : ImportMember}
  {ms : List ImportMember} {i j : ImportStatement}

/-- A member of this name is imported from one of the modules. -/
def IsImported (t : Text) (modules : List Text) (name : Text) : Prop :=
  ∃ i ∈ ImportStatement.all (.of t), i.isFrom modules = true ∧ i.hasMember name = true

/-- A member of this name is imported from one of the modules and bound to the same name. -/
def IsUsable (t : Text) (modules : List Text) (name : Text) : Prop :=
  ∃ i ∈ ImportStatement.all (.of t), i.isFrom modules = true ∧
    ∃ m ∈ i.members, m.imported = name ∧ m.boundAs = name

instance (t : Text) (modules : List Text) (name : Text) : Decidable (IsImported t modules name) :=
  inferInstanceAs (Decidable (∃ i ∈ ImportStatement.all (.of t), i.isFrom modules = true ∧
    i.hasMember name = true))

instance (t : Text) (modules : List Text) (name : Text) : Decidable (IsUsable t modules name) :=
  inferInstanceAs (Decidable (∃ i ∈ ImportStatement.all (.of t), i.isFrom modules = true ∧
    ∃ m ∈ i.members, m.imported = name ∧ m.boundAs = name))

/-- A name made of letters, digits, `_` and `$`. -/
structure IsIdentifier (name : Text) : Prop where
  ne_nil : name ≠ []
  chars : ∀ c ∈ name, isNameChar c = true

instance (name : Text) : Decidable (IsIdentifier name) :=
  decidable_of_iff (name ≠ [] ∧ ∀ c ∈ name, isNameChar c = true)
    ⟨fun h => ⟨h.1, h.2⟩, fun h => ⟨h.ne_nil, h.chars⟩⟩

namespace IsIdentifier

theorem isWord (h : IsIdentifier name) : IsWord name where
  ne_nil := h.ne_nil
  chars c hc := by
    have hchar := h.chars c hc
    refine Bool.or_eq_false_iff.mpr ⟨Bool.eq_false_iff.mpr fun hspace =>
      ?_, beq_eq_false_iff_ne.mpr ?_⟩
    · rw [isNameChar_of_isSpace hspace] at hchar
      cases hchar
    · rintro rfl
      exact absurd hchar (by decide)

theorem notMem (h : IsIdentifier name) : '\x7d' ∉ name := fun hmem => absurd (h.chars _ hmem)
  (by decide)

end IsIdentifier

theorem isRead_named (h : IsIdentifier name) : (ImportMember.named name).IsRead :=
  ⟨h.isWord, h.isWord⟩

namespace Repair

theorem mem_missingNames : name ∈ missingNames (ImportStatement.all (.of t)) modules names ↔
    name ∈ names ∧ ¬ IsImported t modules name := by
  rw [missingNames, List.mem_filter, Bool.not_eq_true', Bool.eq_false_iff, ne_eq, List.any_eq_true]
  simp only [IsImported, Bool.and_eq_true]

theorem mem_readList_braces (hread : ∀ m ∈ ms, m.IsRead) (hm : m ∈ ms)
    (hbound : m.boundAs = m.imported) :
    m ∈ readList (braces ms) := by
  rw [readList_braces (List.ne_nil_of_mem hm) hread]
  exact List.mem_filterMap.mpr ⟨m, hm, (hread m hm).read?_render fun _ => .inr hbound.symm⟩

theorem eq_of_read?_render {x : ImportMember} (hread : x.IsRead) (h : read? x.render = some m)
    (has : m.imported ≠ "as".toList) : m = x := by
  by_cases htype : x.imported = "type".toList → x.typeOnly = true ∨ x.imported = x.boundAs
  · rw [hread.read?_render htype] at h
    exact (Option.some.inj h).symm
  · -- the word in front of `as` is read as the mark of a type
    refine absurd ?_ has
    obtain ⟨htype, hplain⟩ := Classical.not_imp.mp htype
    obtain ⟨hplain, hbound⟩ := not_or.mp hplain
    have hword : IsWord "as".toList := ⟨by decide, by decide⟩
    have hbinding := hread.boundAs
    have hrender : x.render = "type ".toList ++ ("as".toList ++ [' '] ++ x.boundAs) := by
      rw [render_eq, renderNames, if_neg hplain, if_neg (by simpa using hbound), htype]
      rfl
    have htrim : Text.trim ("as".toList ++ [' '] ++ x.boundAs) = "as".toList ++ [' '] ++
        x.boundAs := by
      have htrimmed := Trimmed.of_ends hword.ne_nil hbinding.ne_nil (fun c hc => hword.isSpace hc)
        (fun c hc => hbinding.isSpace hc) [' ']
      simpa using htrimmed.trim_eq (u := []) (v := []) (by simp [Spaces]) (by simp [Spaces])
    have hwords : Text.words ("as".toList ++ [' '] ++ x.boundAs) = ["as".toList, x.boundAs] := by
      rw [List.append_assoc, List.singleton_append, hword.words_append, hbinding.words]
    rw [read?_eq, hrender, stripStart?_eq_some.mpr rfl] at h
    dsimp only at h
    rw [htrim, hwords] at h
    exact (congrArg ImportMember.imported (Option.some.inj h)).symm

theorem of_mem_readList_braces (hread : ∀ m ∈ ms, m.IsRead) (hm : m ∈ readList (braces ms))
    (has : m.imported ≠ "as".toList) : m ∈ ms := by
  have hne : ms ≠ [] := by
    rintro rfl
    have hnone : readList (braces []) = [] := by decide
    rw [hnone] at hm
    cases hm
  rw [readList_braces hne hread] at hm
  obtain ⟨x, hx, hxm⟩ := List.mem_filterMap.mp hm
  exact eq_of_read?_render (hread x hx) hxm has ▸ hx

/-- The members of a statement and the names that are added to it are made of words. -/
theorem isRead_added {f : ImportStatement → Bool} {missing : List Text}
    (hmissing : ∀ name ∈ missing, IsIdentifier name) :
    ∀ m ∈ (((ImportStatement.all (.of t)).find? f).map (·.members)).getD [] ++
      missing.map ImportMember.named, m.IsRead := by
  intro m hm
  rcases List.mem_append.mp hm with hm | hm
  · cases hfind : (ImportStatement.all (.of t)).find? f with
    | none =>
        rw [hfind] at hm
        cases hm
    | some i =>
        rw [hfind] at hm
        obtain ⟨n, hn, rfl, -⟩ := mem_all_iff.mp (List.mem_of_find?_eq_some hfind)
        exact (of_mem_members hn hm).1
  · obtain ⟨name, hname, rfl⟩ := List.mem_map.mp hm
    exact isRead_named (hmissing name hname)

theorem exists_of_mem_old
    (hm : m ∈ (((ImportStatement.all (.of t)).find? (takesMembers modules)).map
    (·.members)).getD []) :
    ∃ i ∈ ImportStatement.all (.of t), i.isFrom modules = true ∧ m ∈ i.members := by
  cases hfind : (ImportStatement.all (.of t)).find? (takesMembers modules) with
  | none =>
      rw [hfind] at hm
      cases hm
  | some i =>
      rw [hfind] at hm
      have htakes := List.find?_some hfind
      simp only [takesMembers, Bool.and_eq_true] at htakes
      exact ⟨i, List.mem_of_find?_eq_some hfind, htakes.1.1, hm⟩

/-- Behind the edit a name that was missing is usable, and one that was imported is as usable as it
was. -/
theorem isUsable_apply (hmodule : moduleName ≠ [] ∧ '\'' ∉ moduleName ∧ '"' ∉ moduleName)
    (hnames : ∀ name ∈ names, IsIdentifier name)
    (hedit : importEdit? moduleName others names t = some e) (h : e.Stands t) (hname : name ∈ names)
    (has : name ≠ "as".toList) :
    IsUsable (e.apply t) (moduleName :: others) name ↔
      (IsImported t (moduleName :: others) name → IsUsable t (moduleName :: others) name) := by
  obtain ⟨new, hexchange, hnew⟩ :=
    exists_exchange hmodule (fun name hname => (hnames name hname).notMem) hedit h
  have hmissing : ∀ name ∈ missingNames (ImportStatement.all (.of t)) (moduleName :: others) names,
      IsIdentifier name := fun name hname => hnames name (mem_missingNames.mp hname).1
  have hread := isRead_added (t := t) (f := takesMembers (moduleName :: others)) hmissing
  constructor
  · rintro ⟨j, hj, hfrom, m, hm, himported, hbound⟩ himport
    rcases hexchange.only hj with rfl | ⟨i, hi, hsame⟩
    · rw [hnew.members] at hm
      rcases List.mem_append.mp (of_mem_readList_braces hread hm (by rwa [himported])) with hm | hm
      · obtain ⟨i, hi, hfrom, hm⟩ := exists_of_mem_old hm
        exact ⟨i, hi, hfrom, m, hm, himported, hbound⟩
      · obtain ⟨name, hname, rfl⟩ := List.mem_map.mp hm
        exact absurd himport (himported ▸ (mem_missingNames.mp hname).2)
    · refine ⟨i, hi, ?_, m, hsame.members ▸ hm, himported, hbound⟩
      rwa [isFrom, hsame.moduleName]
  · intro husable
    by_cases himport : IsImported t (moduleName :: others) name
    · obtain ⟨i, hi, hfrom, m, hm, himported, hbound⟩ := husable himport
      by_cases heq : (ImportStatement.all (.of t)).find? (takesMembers (moduleName :: others)) =
        some i
      · refine ⟨new, hexchange.mem, hnew.isFrom, m, ?_, himported, hbound⟩
        rw [hnew.members]
        refine mem_readList_braces hread (List.mem_append_left _ ?_) (hbound.trans himported.symm)
        rw [heq]
        exact hm
      · obtain ⟨j, hj, hsame⟩ := hexchange.kept hi heq
        refine ⟨j, hj, ?_, m, hsame.members ▸ hm, himported, hbound⟩
        rwa [isFrom, hsame.moduleName]
    · refine ⟨new, hexchange.mem, hnew.isFrom, .named name, ?_, rfl, rfl⟩
      rw [hnew.members]
      refine mem_readList_braces hread (List.mem_append_right _ (List.mem_map_of_mem ?_)) rfl
      exact mem_missingNames.mpr ⟨hname, himport⟩

/-- Behind the edit every name is imported, under whatever name. -/
theorem isImported_apply (hmodule : moduleName ≠ [] ∧ '\'' ∉ moduleName ∧ '"' ∉ moduleName)
    (hnames : ∀ name ∈ names, IsIdentifier name)
    (hedit : importEdit? moduleName others names t = some e) (h : e.Stands t) (hname : name ∈ names)
    (htype : name ≠ "type".toList) :
    IsImported (e.apply t) (moduleName :: others) name := by
  obtain ⟨new, hexchange, hnew⟩ :=
    exists_exchange hmodule (fun name hname => (hnames name hname).notMem) hedit h
  have hmissing : ∀ name ∈ missingNames (ImportStatement.all (.of t)) (moduleName :: others) names,
      IsIdentifier name := fun name hname => hnames name (mem_missingNames.mp hname).1
  have hread := isRead_added (t := t) (f := takesMembers (moduleName :: others)) hmissing
  -- a member of the name that is written is a member of the name that is read
  have hwritten :
      (∃ m ∈ (((ImportStatement.all (.of t)).find? (takesMembers (moduleName :: others))).map
      (·.members)).getD [] ++
      (missingNames (ImportStatement.all (.of t)) (moduleName :: others) names).map
        ImportMember.named, m.imported = name) → new.hasMember name = true := by
    rintro ⟨m, hm, rfl⟩
    refine List.any_eq_true.mpr ⟨m, ?_, beq_self_eq_true _⟩
    rw [hnew.members, readList_braces (List.ne_nil_of_mem hm) hread]
    exact List.mem_filterMap.mpr ⟨m, hm, (hread m hm).read?_render fun heq => absurd heq htype⟩
  by_cases himport : IsImported t (moduleName :: others) name
  · obtain ⟨i, hi, hfrom, hmember⟩ := himport
    by_cases heq : (ImportStatement.all (.of t)).find? (takesMembers (moduleName :: others)) =
      some i
    · obtain ⟨m, hm, hmname⟩ := List.any_eq_true.mp hmember
      refine ⟨new, hexchange.mem, hnew.isFrom,
        hwritten ⟨m, List.mem_append_left _ ?_, beq_iff_eq.mp hmname⟩⟩
      rw [heq]
      exact hm
    · obtain ⟨j, hj, hsame⟩ := hexchange.kept hi heq
      refine ⟨j, hj, ?_, ?_⟩
      · rwa [isFrom, hsame.moduleName]
      · rwa [hasMember, hsame.members]
  · refine ⟨new, hexchange.mem, hnew.isFrom,
      hwritten ⟨.named name, List.mem_append_right _ ?_, rfl⟩⟩
    exact List.mem_map_of_mem (mem_missingNames.mpr ⟨hname, himport⟩)

/-- A name is usable behind the repair unless it was imported under another name alone. -/
theorem isUsable_ensureNamedImport
    (hmodule : moduleName ≠ [] ∧ '\'' ∉ moduleName ∧ '"' ∉ moduleName)
    (hnames : ∀ name ∈ names, IsIdentifier name)
    (hedit : ∀ e ∈ importEdit? moduleName others names t, e.Stands t) (hname : name ∈ names)
    (has : name ≠ "as".toList) :
    IsUsable (ensureNamedImport moduleName others names t) (moduleName :: others) name ↔
      (IsImported t (moduleName :: others) name → IsUsable t (moduleName :: others) name) := by
  rw [ensureNamedImport_eq]
  cases he : importEdit? moduleName others names t with
  | some e => exact isUsable_apply hmodule hnames he (hedit e he) hname has
  | none =>
      have himport : IsImported t (moduleName :: others) name := by
        by_contra hmissing
        have hmem := mem_missingNames.mpr ⟨hname, hmissing⟩
        rw [missingNames_of_importEdit? he] at hmem
        cases hmem
      exact ⟨fun h _ => h, fun h => h himport⟩

/-- The default binding is kept, and the name is added to it. -/
theorem isUsable_ensureNamedImport_default :
    IsUsable (ensureNamedImport "zod".toList [] ["z".toList]
      "import zod from 'zod';\nzod.string();\n".toList) ["zod".toList] "z".toList :=
  (isUsable_ensureNamedImport (by decide) (by decide) (by decide) (by decide) (by decide)).mpr
    (by decide)

/-- A name that is imported under another one is not usable. -/
theorem not_always_usable : ¬ ∀ (t moduleName : Text) (others names : List Text), ∀ name ∈ names,
    IsUsable (ensureNamedImport moduleName others names t) (moduleName :: others) name := by
  intro h
  have husable :=
    h "import \x7b z as zod \x7d from 'zod';\n".toList "zod".toList [] ["z".toList] "z".toList
    List.mem_cons_self
  exact absurd husable (by decide +kernel)

end Repair

end ServiceGate
