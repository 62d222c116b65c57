/-
# Imports that are written anew

A statement whose names are names is written as closed text (`Writable.closed`).  What the pattern
of statements reads itself, the default, the namespace and the quotes, can always be written; what
stands in the braces need not be a name.

Leaving out members keeps balance where each statement that loses one is loose with the indentation
of its line and is left with names alone (`ShortenedStand`).  Importing names is one edit, or none
(`ensureNamedImport_eq`): the names that are missing are added to the first statement that takes
them (`memberEdit`), or in a statement of their own (`lineEdit`).  It keeps balance where that edit
puts closed text in the place of closed text (`Edit.Fits`); the other statements of the text are of
no account.
-/
import ServiceGate.Proofs.Balanced.Statements
import ServiceGate.Proofs.Balanced.Written
import ServiceGate.Proofs.Checked.Imports

namespace ServiceGate

open Pattern Scan
open Text (Agree Bounds)

variable {α : Type} {t u w : Text} {start stop : Nat} {m : Match} {i : ImportStatement}

/-! ## Statements that can be written -/

/-- The name of a member and the one it is bound to are names. -/
structure ImportMember.IsPlain (m : ImportMember) : Prop where
  imported : IsBare m.imported
  boundAs : IsBare m.boundAs

instance (m : ImportMember) : Decidable m.IsPlain :=
  decidable_of_iff (IsBare m.imported ∧ IsBare m.boundAs)
    ⟨fun h => ⟨h.1, h.2⟩, fun h => ⟨h.imported, h.boundAs⟩⟩

theorem ImportMember.IsPlain.closed {m : ImportMember} (h : m.IsPlain) : Closed m.render := by
  have htype : Closed (if m.typeOnly then "type ".toList else []) := by
    split_ifs
    · exact closed_of_isClosed (by decide)
    · exact .nil
  refine htype.append ?_
  split_ifs
  · exact h.imported.closed
  · exact (h.imported.closed.append (closed_of_isClosed (by decide))).append h.boundAs.closed

namespace ImportStatement

/-- A statement that is closed text when it is written. -/
structure Writable (i : ImportStatement) : Prop where
  defaultName : ∀ name, i.defaultName = some name → IsBare name
  namespaceName : ∀ name, i.namespaceName = some name → IsBare name
  members : ∀ m ∈ i.members, m.IsPlain
  quote : i.quote = '\'' ∨ i.quote = '"'
  moduleName : i.quote ∉ i.moduleName ∧ '\\' ∉ i.moduleName

namespace Writable

theorem closed_clauses (h : i.Writable) : ∀ clause ∈ i.clauses, Closed clause := by
  intro clause hclause
  rcases List.mem_append.mp hclause with hclause | hmembers
  · rcases List.mem_append.mp hclause with hdefault | hnamespace
    · exact (h.defaultName clause (Option.mem_toList.mp hdefault)).closed
    · obtain ⟨name, hname, rfl⟩ := Option.map_eq_some_iff.mp (Option.mem_toList.mp hnamespace)
      exact .append (closed_of_isClosed (by decide)) (h.namespaceName name hname).closed
  · have hrendered := Option.mem_toList.mp hmembers
    rw [renderMembers] at hrendered
    split_ifs at hrendered
    rw [← Option.some.inj hrendered]
    refine closed_braced fun part hpart => ?_
    obtain ⟨m, hm, rfl⟩ := List.mem_map.mp hpart
    exact (h.members m hm).closed

/-- A statement is written as closed text. -/
theorem closed (h : i.Writable) (hline : i.render = some w) : Closed w := by
  have hword : ∀ word ∈ ["import ", "type ", " from "], Closed word.toList :=
    fun word hmem => closed_of_isClosed (by revert word; decide)
  have hend : Closed [';'] := closed_of_isClosed (by decide)
  have htype : Closed (if i.typeOnly then "type ".toList else []) := by
    split_ifs
    · exact hword "type " (by decide)
    · exact .nil
  have hmodule := closed_quoted h.quote h.moduleName.1 h.moduleName.2
  have hclosed := ((((hword "import " (by decide)).append htype).append
    (closed_join h.closed_clauses)).append (hword " from " (by decide))).append
      (hmodule.append hend)
  rw [render] at hline
  split at hline
  · cases hline
  · rw [← Option.some.inj hline]
    simpa only [List.append_assoc, List.cons_append, List.nil_append] using hclosed

end Writable

/-! ## Statements that are read -/

theorem isQuote_of_ofMatch (hm : m ∈ pattern.all t) :
    (ofMatch m).quote = '\'' ∨ (ofMatch m).quote = '"' := by
  have hspells : Spells Pattern.quote (m.groupText 5) := (in_of_mem_all hm).spells_groupText rfl rfl
  have hquote : (ofMatch m).quote = (m.groupText 5).head?.getD '\'' := rfl
  rw [hquote]
  generalize m.groupText 5 = w at hspells
  cases hspells with
  | char hc => simpa using hc

theorem notMem_moduleName (hm : m ∈ pattern.all t) :
    '\'' ∉ (ofMatch m).moduleName ∧ '"' ∉ (ofMatch m).moduleName := by
  have hspells : Spells (plus (noneOf "'\"")) (m.groupText 6) :=
    (in_of_mem_all hm).spells_groupText rfl rfl
  obtain ⟨first, others, htext, hfirst, hothers⟩ := spells_seq hspells
  have hchars : ∀ c ∈ m.groupText 6, (!"'\"".toList.contains c) = true := by
    rw [htext]
    cases hfirst with
    | char hc =>
        intro c hmem
        rcases List.mem_append.mp hmem with hmem | hmem
        · rw [List.mem_singleton.mp hmem]
          exact hc
        · exact spells_many_char hothers c hmem
  show '\'' ∉ m.groupText 6 ∧ '"' ∉ m.groupText 6
  constructor <;> exact fun hmem => absurd (hchars _ hmem) (by decide)

theorem writable_of_mem {members : List ImportMember} (h : i ∈ ImportStatement.all (.of t))
    (hmembers : ∀ m ∈ members, m.IsPlain) (hmodule : '\\' ∉ i.moduleName) :
    ({ i with members } : ImportStatement).Writable := by
  obtain ⟨m, hm, rfl⟩ := exists_of_mem_imports h
  have hquote := isQuote_of_ofMatch hm
  refine ⟨fun name hname => ?_, fun name hname => ?_, hmembers, hquote, ?_, hmodule⟩
  · obtain ⟨g, hg, rfl⟩ := Option.map_eq_some_iff.mp hname
    exact Repair.isBare_of_spells_name ((in_of_mem_all hm).spells_group rfl hg)
  · obtain ⟨g, hg, rfl⟩ := Option.map_eq_some_iff.mp hname
    exact Repair.isBare_of_spells_name ((in_of_mem_all hm).spells_group rfl hg)
  · rcases hquote with hquote | hquote <;> rw [hquote]
    · exact (notMem_moduleName hm).1
    · exact (notMem_moduleName hm).2

end ImportStatement

/-! ## Statements in place -/

theorem Loose.of_agree (h : Loose t start stop) (hu : Agree stop t u) : Loose u start stop where
  bounds := hu.bounds h.bounds
  front := by
    rw [← (hu.mono h.bounds.start h.bounds.le).before_eq]
    exact h.front
  closed := by
    rw [hu.between_eq h.bounds]
    exact h.closed

/-- A statement that is loose with the indentation of its line and has names alone in its braces. -/
structure ImportStatement.Stands (t : Text) (i : ImportStatement) : Prop where
  loose : Loose t (t.lineStart i.start) i.stop
  members : ∀ m ∈ i.members, m.IsPlain
  moduleName : '\\' ∉ i.moduleName

instance (t : Text) (i : ImportStatement) : Decidable (i.Stands t) :=
  decidable_of_iff (Loose t (t.lineStart i.start) i.stop ∧ (∀ m ∈ i.members, m.IsPlain) ∧
      '\\' ∉ i.moduleName)
    ⟨fun ⟨hloose, hmembers, hmodule⟩ => ⟨hloose, hmembers, hmodule⟩,
      fun h => ⟨h.loose, h.members, h.moduleName⟩⟩

theorem isSpace_of_indent (h : i ∈ ImportStatement.all (.of t)) :
    ∀ c ∈ t.between (t.lineStart i.start) i.start, CharClass.isSpace c = true := by
  obtain ⟨m, hm, rfl⟩ := exists_of_mem_imports h
  obtain ⟨hkeyword, -⟩ := bounds_ofMatch hm
  have hline : t.StartsLine m.start := startsLine_of_mem_all hm
  have hlead : Bounds t m.start (t.lineStart (ImportStatement.ofMatch m).start) :=
    ⟨hline.le_lineStart hkeyword.le hkeyword.stop, hkeyword.start,
      (Text.bounds_lineStart hkeyword.stop).start⟩
  obtain ⟨p, v, w, q, ht, hstart, hmiddle, hstop⟩ :=
    Repair.exists_two_stretches hlead (Text.bounds_lineStart hkeyword.stop)
  -- the match starts where a line does, and the statement behind the blanks and tabs of the match
  have hindent : v ++ w = m.text.takeWhile Text.isIndent := by
    obtain ⟨front, back, hcut, hfront⟩ := (in_of_mem_all hm).cut
    have hsplit : t = front ++ m.text.takeWhile Text.isIndent ++
        (m.text.dropWhile Text.isIndent ++ back) := by
      rw [List.append_assoc, ← List.append_assoc _ _ back, List.takeWhile_append_dropWhile,
        ← List.append_assoc]
      exact hcut
    have hmatch : t.between m.start (ImportStatement.ofMatch m).start =
        m.text.takeWhile Text.isIndent := by
      have hbetween := Text.between_append front (m.text.takeWhile Text.isIndent)
        (m.text.dropWhile Text.isIndent ++ back)
      rwa [← hsplit, ← hfront] at hbetween
    rw [← hmatch, hstop, hstart, ht, Nat.add_assoc, ← Text.size_append, List.append_assoc p v w,
      Text.between_append]
  rw [hmiddle, hstop, ht, ← Text.size_append, Text.between_append]
  intro c hc
  have hmem : c ∈ m.text.takeWhile Text.isIndent := hindent ▸ List.mem_append_right v hc
  exact Repair.isSpace_of_isIndent (List.mem_takeWhile_imp hmem)

/-- The place of a statement that is loose with the indentation of its line. -/
structure ImportStatement.Whole (t : Text) (i : ImportStatement) : Prop where
  loose : Loose t (t.lineStart i.start) i.stop
  bounds : Bounds t i.start i.stop
  indent : ∀ c ∈ t.between (t.lineStart i.start) i.start, CharClass.isSpace c = true

theorem ImportStatement.Whole.of_agree (h : i.Whole t) (hu : Agree i.stop t u) : i.Whole u := by
  have hstart := hu.mono h.bounds.start h.bounds.le
  have hline := hstart.lineStart_eq
  refine ⟨hline ▸ h.loose.of_agree hu, hu.bounds h.bounds, ?_⟩
  rw [← hline, hstart.between_eq (Text.bounds_lineStart h.bounds.start)]
  exact h.indent

theorem ImportStatement.whole_of_mem (hi : i ∈ ImportStatement.all (.of t))
    (h : Loose t (t.lineStart i.start) i.stop) : i.Whole t :=
  ⟨h, bounds_of_mem_imports (s := .of t) hi, isSpace_of_indent hi⟩

/-- Statements are edited from the back where they are loose. -/
theorem balanced_editImports (statement : α → ImportStatement) {edit : α → Text → Text} {l : List α}
    (hl : (l.map statement).Sublist (ImportStatement.all (.of t)))
    (hloose : ∀ a ∈ l, Loose t (t.lineStart (statement a).start) (statement a).stop)
    (hedit : ∀ a ∈ l, ∀ u, (statement a).Whole u →
      balanced (edit a u) = balanced u ∧ Agree (u.lineStart (statement a).start) u (edit a u)) :
    balanced (l.foldr edit t) = balanced t := by
  have hwhole : ∀ a ∈ l, (statement a).Whole t := fun a ha =>
    ImportStatement.whole_of_mem (hl.subset (List.mem_map_of_mem ha)) (hloose a ha)
  refine balanced_foldr (fun a => t.lineStart (statement a).start) (fun a => (statement a).stop)
    (fun a ha u hu => ?_) (fun a ha => (hwhole a ha).loose.bounds) ?_
  · have hplace := (hwhole a ha).bounds
    rw [(hu.mono hplace.start hplace.le).lineStart_eq]
    exact hedit a ha u ((hwhole a ha).of_agree hu)
  · exact List.pairwise_map.mp ((pairwise_imports (.of t)).sublist hl)

namespace Repair

theorem balanced_replaceImport (h : i.Whole t) (hi : i.Writable) :
    balanced (replaceImport t i) = balanced t := by
  rw [replaceImport]
  cases hrender : i.render with
  | none => exact balanced_removeSpan h.loose h.bounds h.indent
  | some line =>
      obtain ⟨⟨-, hfront, hclosed⟩, hplace, hindent⟩ := h
      obtain ⟨p, b, w, q, ht, hline, hstart, hstop⟩ :=
        exists_two_stretches (Text.bounds_lineStart hplace.start) hplace
      have hwhole : t = p ++ (b ++ w) ++ q := by simp [ht]
      have hend : i.stop = Text.size p + Text.size (b ++ w) := by
        rw [hstop, Text.size_append, Nat.add_assoc]
      rw [hline] at hindent hfront hclosed
      rw [hend, hwhole, Text.between_append] at hclosed
      rw [hwhole, List.append_assoc, Text.before_append] at hfront
      rw [hstart, ht, List.append_assoc (p ++ b), Text.between_append] at hindent
      have hsplice := splice_append (p ++ b) w q line
      have hsize : i.start + Text.size w = i.stop := by rw [hstart, hstop]
      rw [← ht, Text.size_append, ← hstart, hsize] at hsplice
      have hnew : Closed (b ++ line) := (closed_of_isSpace hindent).append (hi.closed hrender)
      have hexchange := balanced_exchange hfront (closed_of_isClosed hclosed) hnew q
      show balanced (t.splice i.start i.stop line) = _
      rw [hsplice, hwhole, hexchange, List.append_assoc p b]

/-- Every statement that loses members stands with those that are left. -/
def ShortenedStand (policy : Policy) (t : Text) : Prop :=
  ∀ i ∈ ImportStatement.all (.of t),
    (keepUsedMembers policy (blank t) (ImportStatement.all (.of t)) i).members.length ≠
    i.members.length →
      (keepUsedMembers policy (blank t) (ImportStatement.all (.of t)) i).Stands t

instance (policy : Policy) (t : Text) : Decidable (ShortenedStand policy t) :=
  inferInstanceAs (Decidable (∀ i ∈ ImportStatement.all (.of t), _ → _))

theorem balanced_removeUnusedOptionalMembers {policy : Policy} (ht : ShortenedStand policy t)
    (h : removeUnusedOptionalMembers policy t = some u) : balanced u = balanced t := by
  rw [removeUnusedOptionalMembers] at h
  dsimp only at h
  split_ifs at h
  obtain rfl := Option.some.inj h
  set kept := keepUsedMembers policy (Source.of t).blanked (ImportStatement.all (.of t)) with hkept
  have hstands : ∀ x ∈ ((ImportStatement.all (.of t)).map fun i => (i, kept i)).filter
      (fun x => x.2.members.length != x.1.members.length),
        x.1 ∈ ImportStatement.all (.of t) ∧ x.2 = kept x.1 ∧ (kept x.1).Stands t := by
    intro x hx
    obtain ⟨hx, hshort⟩ := List.mem_filter.mp hx
    obtain ⟨i, hi, rfl⟩ := List.mem_map.mp hx
    exact ⟨hi, rfl, ht i hi (bne_iff_ne.mp hshort)⟩
  refine balanced_editImports Prod.fst ?_ (fun x hx =>
    (hstands x hx).2.2.loose) fun x hx u hwhole => ?_
  · have hfst : ((ImportStatement.all (.of t)).map fun i => (i, kept i)).map Prod.fst =
        ImportStatement.all (.of t) := by
      rw [List.map_map]
      exact List.map_id _
    have hsublist :=
      (List.filter_sublist (l := (ImportStatement.all (.of t)).map fun i => (i, kept i))
      (p := fun x => x.2.members.length != x.1.members.length)).map Prod.fst
    rwa [hfst] at hsublist
  · obtain ⟨i, after⟩ := x
    obtain ⟨hi, hafter, hi'⟩ := hstands _ hx
    dsimp only at hi hafter hi' hwhole ⊢
    subst hafter
    have hplace : (kept i).Whole u := ⟨hwhole.loose, hwhole.bounds, hwhole.indent⟩
    refine ⟨balanced_replaceImport hplace ?_, (Checked.replaceImport_eq hplace.bounds).2⟩
    exact ImportStatement.writable_of_mem hi hi'.members hi'.moduleName

theorem isQuote_of_head? : ((((ImportStatement.all (.of t)).head?).map (·.quote)).getD '\'') =
    '\'' ∨
    ((((ImportStatement.all (.of t)).head?).map (·.quote)).getD '\'') = '"' := by
  cases hhead : (ImportStatement.all (.of t)).head? with
  | none => exact .inl rfl
  | some i =>
      obtain ⟨m, hm, rfl⟩ := exists_of_mem_imports (List.mem_of_head? hhead)
      exact ImportStatement.isQuote_of_ofMatch hm

theorem writable_line {quote : Char} {moduleName : Text} {members : List ImportMember}
    (hquote : quote = '\'' ∨ quote = '"') (hmodule : IsBare moduleName)
    (hmembers : ∀ m ∈ members, m.IsPlain) :
    (⟨0, 0, false, none, none, members, quote, moduleName⟩ : ImportStatement).Writable := by
  have hfree : ∀ c ∈ CharClass.signs, c ∉ moduleName := fun c hc hmem => hmodule.chars c hmem hc
  refine ⟨by simp, by simp, hmembers, hquote, ?_, hfree '\\' (by decide)⟩
  rcases hquote with rfl | rfl
  · exact hfree '\'' (by decide)
  · exact hfree '"' (by decide)

end Repair

/-! ## One edit of a text -/

/-- A stretch between two offsets and what is put in its place. -/
structure Edit where
  start : Nat
  stop : Nat
  new : Text
deriving DecidableEq, Repr

namespace Edit

def apply (e : Edit) (t : Text) : Text := t.splice e.start e.stop e.new

/-- An edit that puts closed text in the place of closed text. -/
structure Fits (e : Edit) (t : Text) : Prop where
  loose : Loose t e.start e.stop
  closed : isClosed e.new = true

instance (e : Edit) (t : Text) : Decidable (e.Fits t) :=
  decidable_of_iff (Loose t e.start e.stop ∧ isClosed e.new = true)
    ⟨fun ⟨hloose, hclosed⟩ => ⟨hloose, hclosed⟩, fun h => ⟨h.loose, h.closed⟩⟩

theorem Fits.balanced_apply {e : Edit} (h : e.Fits t) : balanced (e.apply t) = balanced t :=
  h.loose.balanced_splice (closed_of_isClosed h.closed)

end Edit

namespace Repair

section OneEdit

variable {moduleName : Text} {others names : List Text}

def memberEdit (i : ImportStatement) (members : List ImportMember) : Edit :=
  ⟨i.start, i.stop, (({ i with members := i.members ++ members } : ImportStatement).render).getD []⟩

/-- The edit that adds a statement behind the last one, or at the start. -/
def lineEdit (imports : List ImportStatement) (moduleName : Text) (members : List ImportMember) :
    Edit :=
  let quote := (imports.head?.map (·.quote)).getD '\''
  let line := (ImportStatement.render ⟨0, 0, false, none, none, members, quote, moduleName⟩).getD []
  match imports.getLast? with
  | some last => ⟨last.stop, last.stop, '\n' :: line⟩
  | none => ⟨0, 0, line ++ ['\n']⟩

/-- The edit that imports names from a module, if one is missing. -/
def importEdit? (moduleName : Text) (others names : List Text) (t : Text) : Option Edit :=
  let imports := ImportStatement.all (.of t)
  let modules := moduleName :: others
  match missingNames imports modules names with
  | [] => none
  | missing =>
    let members := missing.map ImportMember.named
    match imports.find? (takesMembers modules) with
    | some i => some (memberEdit i members)
    | none => some (lineEdit imports moduleName members)

theorem render_ne_none {i : ImportStatement} (h : i.members ≠ []) : i.render ≠ none := by
  have hclauses : i.clauses ≠ [] := by
    rw [ImportStatement.clauses, ImportStatement.renderMembers, if_neg (by simpa using h)]
    simp
  rw [ImportStatement.render, if_neg (by simpa using hclauses)]
  exact Option.some_ne_none _

theorem replaceImport_eq (i : ImportStatement) {members : List ImportMember} (h : members ≠ [])
    (t : Text) : replaceImport t { i with members := i.members ++ members } =
      (memberEdit i members).apply t := by
  obtain ⟨line, hline⟩ := Option.ne_none_iff_exists'.mp
    (render_ne_none (i := { i with members := i.members ++ members })
      fun hnil => h (List.append_eq_nil_iff.mp hnil).2)
  rw [replaceImport, memberEdit, hline]
  rfl

theorem addImportLine_eq (imports : List ImportStatement) (moduleName : Text)
    {members : List ImportMember} (h : members ≠ []) (t : Text) :
    addImportLine t imports moduleName members = (lineEdit imports moduleName members).apply t := by
  obtain ⟨line, hline⟩ := Option.ne_none_iff_exists'.mp (render_ne_none
    (i := ⟨0, 0, false, none, none, members, (imports.head?.map (·.quote)).getD '\'', moduleName⟩)
    h)
  rw [addImportLine, lineEdit, hline]
  cases imports.getLast? with
  | some last => rfl
  | none =>
      dsimp only [Option.getD_some, Edit.apply, Text.splice]
      rw [Text.before, Text.before?_zero, Text.after, Text.after?_zero]
      simp

/-- Importing names is one edit, or none. -/
theorem ensureNamedImport_eq (moduleName : Text) (others names : List Text) (t : Text) :
    ensureNamedImport moduleName others names t =
      ((importEdit? moduleName others names t).map (·.apply t)).getD t := by
  rw [ensureNamedImport, importEdit?]
  dsimp only
  cases hmissing : missingNames (ImportStatement.all (.of t)) (moduleName :: others) names with
  | nil => rfl
  | cons name missing =>
      have hne : (name :: missing).map ImportMember.named ≠ [] := List.cons_ne_nil _ _
      dsimp only
      cases (ImportStatement.all (.of t)).find? (takesMembers (moduleName :: others)) with
      | some i => exact replaceImport_eq i hne t
      | none => exact addImportLine_eq _ moduleName hne t

/-- The names that are missing are added to a statement that takes them, or in one of their own. -/
theorem eq_of_importEdit? {edit : Edit} (h : importEdit? moduleName others names t = some edit) :
    ∃ missing, missing = missingNames (ImportStatement.all (.of t)) (moduleName :: others) names ∧
      missing ≠ [] ∧
      match (ImportStatement.all (.of t)).find? (takesMembers (moduleName :: others)) with
      | some i => edit = memberEdit i (missing.map ImportMember.named)
      | none =>
          edit = lineEdit (ImportStatement.all (.of t)) moduleName
            (missing.map ImportMember.named) := by
  rw [importEdit?] at h
  dsimp only at h
  refine ⟨_, rfl, ?_⟩
  cases hmissing : missingNames (ImportStatement.all (.of t)) (moduleName :: others) names with
  | nil =>
      rw [hmissing] at h
      cases h
  | cons name missing =>
      rw [hmissing] at h
      refine ⟨List.cons_ne_nil _ _, ?_⟩
      dsimp only at h
      cases hfind : (ImportStatement.all (.of t)).find? (takesMembers (moduleName :: others)) with
      | some i =>
          rw [hfind] at h
          exact (Option.some.inj h).symm
      | none =>
          rw [hfind] at h
          exact (Option.some.inj h).symm

theorem missingNames_of_importEdit? (h : importEdit? moduleName others names t = none) :
    missingNames (ImportStatement.all (.of t)) (moduleName :: others) names = [] := by
  rw [importEdit?] at h
  dsimp only at h
  split at h
  · assumption
  · split at h <;> cases h

/-- The statement that imports names is written in a place that it fits. -/
def ImportFits (moduleName : Text) (others names : List Text) (t : Text) : Prop :=
  ∀ e ∈ importEdit? moduleName others names t, e.Fits t

instance (moduleName : Text) (others names : List Text) (t : Text) :
    Decidable (ImportFits moduleName others names t) :=
  inferInstanceAs (Decidable (∀ e ∈ importEdit? moduleName others names t, e.Fits t))

theorem balanced_ensureNamedImport (ht : ImportFits moduleName others names t) :
    balanced (ensureNamedImport moduleName others names t) = balanced t := by
  rw [ensureNamedImport_eq]
  cases hedit : importEdit? moduleName others names t with
  | none => rfl
  | some e => exact (ht e hedit).balanced_apply

end OneEdit

theorem balanced_addImport {moduleName : String} {others names : List String}
    (ht : ImportFits moduleName.toList (others.map String.toList) (names.map String.toList) t)
    (h : addImport moduleName others names t = some u) : balanced u = balanced t := by
  rw [addImport] at h
  split_ifs at h
  rw [← Option.some.inj h]
  exact balanced_ensureNamedImport ht

/-! ## The identifier package and qualified types -/

/-- The text without the imports of the identifier package, with the generator in its place. -/
def withGenerator (t : Text) : Text :=
  let imports := (ImportStatement.all (.of t)).filter (·.isFrom ["uuid".toList])
  (imports.flatMap boundCalls).foldl (fun out (_, call) =>
    replaceInCode call (fun _ => "randomUUID(".toList) out)
    (imports.foldr (fun i out => removeSpan out i.start i.stop) t)

/-- The text with the framework's types written without their namespace. -/
def withBareTypes (t : Text) : Text :=
  replaceInCode Forbidden.qualifiedType (fun m => m.groupText 1) t

/-- The types that the text names with their namespace, each once. -/
def qualifiedTypes (t : Text) : List Text :=
  ((codeMatches Forbidden.qualifiedType (.of t)).map fun m => m.groupText 1).eraseDups

/-- Every import of the identifier package stands. -/
def PackageStands (t : Text) : Prop :=
  ∀ i ∈ (ImportStatement.all (.of t)).filter (·.isFrom ["uuid".toList]), i.Stands t

instance (t : Text) : Decidable (PackageStands t) :=
  inferInstanceAs (Decidable (∀ i ∈ (ImportStatement.all (.of t)).filter _, _))

theorem isBare_of_mem_boundCalls (hi : i ∈ ImportStatement.all (.of t)) (h : i.Stands t)
    {x : Text × Pattern} (hx : x ∈ boundCalls i) :
    IsBare x.1 ∧ (x.2 = callOf x.1 ∨ x.2 = memberCallOf x.1) := by
  have hwritable := ImportStatement.writable_of_mem hi h.members h.moduleName
  rcases List.mem_append.mp hx with hx | hx
  · obtain ⟨m, hm, rfl⟩ := List.mem_map.mp hx
    exact ⟨(h.members m hm).boundAs, .inl rfl⟩
  · obtain ⟨name, hname, rfl⟩ := List.mem_map.mp hx
    refine ⟨?_, .inr rfl⟩
    rcases List.mem_append.mp hname with hname | hname
    · exact hwritable.defaultName name (Option.mem_toList.mp hname)
    · exact hwritable.namespaceName name (Option.mem_toList.mp hname)

theorem balanced_withGenerator (ht : PackageStands t) :
    balanced (withGenerator t) = balanced t := by
  have hcut : balanced (((ImportStatement.all (.of t)).filter (·.isFrom ["uuid".toList])).foldr
      (fun i out => removeSpan out i.start i.stop) t) = balanced t := by
    refine balanced_editImports id ?_ (fun i hi => (ht i hi).loose) fun i _ u hwhole => ?_
    · rw [List.map_id]
      exact List.filter_sublist
    · exact ⟨balanced_removeSpan hwhole.loose hwhole.bounds hwhole.indent,
        (Checked.removeSpan_eq hwhole.bounds.start hwhole.bounds.stop).2⟩
  rw [withGenerator, balanced_replaceCalls, hcut]
  intro x hx
  obtain ⟨i, hi, hx⟩ := List.mem_flatMap.mp hx
  exact isBare_of_mem_boundCalls (List.mem_filter.mp hi).1 (ht i hi) hx

theorem balanced_replaceIdentifierPackage (ht : PackageStands t)
    (hu : ImportFits "crypto".toList ["node:crypto".toList] ["randomUUID".toList] (withGenerator t))
    (h : replaceIdentifierPackage t = some u) : balanced u = balanced t := by
  rw [replaceIdentifierPackage] at h
  dsimp only at h
  split_ifs at h
  rw [← Option.some.inj h]
  exact (balanced_ensureNamedImport hu).trans (balanced_withGenerator ht)

theorem balanced_unqualifyTypes
    (hu : ImportFits Rule.express [] (qualifiedTypes t) (withBareTypes t))
    (h : unqualifyTypes t = some u) : balanced u = balanced t := by
  rw [unqualifyTypes] at h
  dsimp only at h
  split_ifs at h
  rw [← Option.some.inj h]
  refine (balanced_ensureNamedImport hu).trans ?_
  exact balanced_replaceMatches fun m hm => replaces_bare hm

end Repair

end ServiceGate
