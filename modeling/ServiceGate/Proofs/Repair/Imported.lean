/-
# Imports behind an edit

Importing names writes one statement, on a line that no import statement reaches into and in the
place of closed text (`Edit.Stands`).  Behind such an edit the statement is read back, and every
other statement imports what one did before (`Exchanges`), be the names added to a statement, on a
line behind the last one or on the first line (`exists_exchange`).

An edit `Stands` if it puts closed text in the place of closed text and no import statement reaches
over the start of its line.  The first makes the scan behind the edit the one in front of it, so
statements further on are found again; the second keeps the search from taking the new line for a
part of an older statement.  `Exchanges` says what follows for the list of statements, and `Added`
what is read of the statement that was written.
-/
import ServiceGate.Proofs.Import.Exchanged
import ServiceGate.Proofs.Text.Bounds
import ServiceGate.Repair.Imports

namespace ServiceGate

open Pattern Scan ImportMember

variable {t p q v v' front w moduleName : Text} {others names missing : List Text} {m m' : Match}
  {i : ImportStatement} {more : List ImportMember} {e : Edit} {quote : Char}

/-! ## Edits that stand -/

namespace Edit

open ImportStatement

/-- The start of the line of the statement that an edit writes. -/
def line (e : Edit) (t : Text) : Nat := (e.apply t).lineStart (e.start + 1)

/-- An edit that puts closed text in the place of closed text, with no import statement that reaches
over the start of its line. -/
structure Stands (e : Edit) (t : Text) : Prop where
  loose : Loose t e.start e.stop
  closed : isClosed e.new = true
  apart : ImportStatement.pattern.Apart (e.apply t) (e.line t)

instance (e : Edit) (t : Text) : Decidable (e.Stands t) :=
  decidable_of_iff (Loose t e.start e.stop ∧ isClosed e.new = true ∧
      ImportStatement.pattern.Apart (e.apply t) (e.line t))
    ⟨fun ⟨hloose, hclosed, hapart⟩ => ⟨hloose, hclosed, hapart⟩,
      fun h => ⟨h.loose, h.closed, h.apart⟩⟩

theorem Stands.of_cut (h : e.Stands (p ++ v ++ q)) (hstart : e.start = Text.size p)
    (hstop : e.stop = Text.size p + Text.size v) :
    e.apply (p ++ v ++ q) = p ++ e.new ++ q ∧ EndsInCode p ∧ Closed v ∧ Closed e.new := by
  obtain ⟨⟨-, hp, hv⟩, hnew, -⟩ := h
  rw [hstart, List.append_assoc, Text.before_append] at hp
  rw [hstart, hstop, Text.between_append] at hv
  refine ⟨?_, hp, closed_of_isClosed hv, closed_of_isClosed hnew⟩
  rw [Edit.apply, hstart, hstop, splice_append]

/-- A text and one with a statement put in: the other statements are the same imports, in their
order. -/
def Exchanges (t u : Text) (old : Option ImportStatement) (new : ImportStatement) : Prop :=
  ∃ before behind behind', all (.of t) = before ++ old.toList ++ behind ∧
    all (.of u) = before ++ new :: behind' ∧ List.Forall₂ SameImports behind behind'

namespace Exchanges

variable {u : Text} {old : Option ImportStatement} {new j : ImportStatement}

theorem mem (h : Exchanges t u old new) : new ∈ all (.of u) := by
  obtain ⟨before, behind, behind', -, hu, -⟩ := h
  rw [hu]
  exact List.mem_append_right _ List.mem_cons_self

theorem kept (h : Exchanges t u old new) (hj : j ∈ all (.of t)) (hne : old ≠ some j) :
    ∃ j' ∈ all (.of u), SameImports j j' := by
  obtain ⟨before, behind, behind', ht, hu, hbehind⟩ := h
  rw [ht, List.append_assoc] at hj
  rw [hu]
  rcases List.mem_append.mp hj with hj | hj
  · exact ⟨j, List.mem_append_left _ hj, .refl j⟩
  rcases List.mem_append.mp hj with hj | hj
  · exact absurd (Option.mem_toList.mp hj) hne
  · obtain ⟨j', hj', hsame⟩ := exists_of_mem_results hbehind.flip hj
    exact ⟨j', List.mem_append_right _ (List.mem_cons_of_mem _ hj'), hsame⟩

theorem only (h : Exchanges t u old new) (hj : j ∈ all (.of u)) :
    j = new ∨ ∃ i ∈ all (.of t), SameImports j i := by
  obtain ⟨before, behind, behind', ht, hu, hbehind⟩ := h
  rw [hu] at hj
  rw [ht]
  rcases List.mem_append.mp hj with hj | hj
  · exact .inr ⟨j, List.mem_append_left _ (List.mem_append_left _ hj), .refl j⟩
  rcases List.mem_cons.mp hj with rfl | hj
  · exact .inl rfl
  · obtain ⟨i, hi, hsame⟩ := exists_of_mem_results hbehind hj
    exact .inr ⟨i, List.mem_append_right _ hi, hsame.symm⟩

end Exchanges

theorem exchanges {old : Option Match}
    (h : Alone old (front ++ w ++ v ++ q) (Text.size front) (Text.size (front ++ w ++ v)))
    (h' : Alone (some m) (front ++ w ++ v' ++ q) (Text.size front) (Text.size (front ++ w ++ v')))
    (hold : ∀ n ∈ old, IsFound (front ++ w ++ v ++ q) n) (hm : IsFound (front ++ w ++ v' ++ q) m)
    (hp : EndsInCode (front ++ w)) (hv : Closed v) (hv' : Closed v')
    (halike : LikeBehind (front ++ w ++ v).getLast? (front ++ w ++ v').getLast?) :
    Exchanges (front ++ w ++ v ++ q) (front ++ w ++ v' ++ q) (old.map ofMatch) (ofMatch m) := by
  obtain ⟨before, behind, behind', ht, hu, hbehind⟩ := h.exists_listed h' hold
    (fun n hn => Option.some.inj hn ▸ hm) hp hv hv' halike
  rw [Option.map_some, Option.toList_some, List.append_assoc before, List.singleton_append] at hu
  exact ⟨before, behind, behind', ht, hu, hbehind⟩

end Edit

namespace Repair

open Edit ImportStatement

section Exchanges

variable (hne : more ≠ []) (hmore : ∀ x ∈ more, '\x7d' ∉ x.imported ++ x.boundAs)

include hne hmore

/-- Members that are added to a statement take the place of that statement alone. -/
theorem exchanges_memberEdit (hi : i ∈ all (.of t)) (htype : i.typeOnly = false)
    (hnamespace : i.namespaceName = none) (h : (memberEdit i more).Stands t) :
    ∃ start stop, Exchanges t ((memberEdit i more).apply t) (some i)
      (readBack start stop i.defaultName (i.members ++ more) i.quote i.moduleName) ∧
        OnLine ((memberEdit i more).apply t) start
          (written i.defaultName (i.members ++ more) i.quote i.moduleName) := by
  obtain ⟨m, hm, rfl, hcode⟩ := mem_all_iff.mp hi
  have hparts := parts_of_mem hm hmore
  obtain ⟨front, indent, body, back, rfl, hplace, hbody⟩ := exists_at hm
  have hspan : (ofMatch m).stop = Text.size (front ++ indent) + Text.size body := by
    rw [← Text.size_append]
    exact hplace.stop
  have hnew : (memberEdit (ofMatch m) more).new = written (ofMatch m).defaultName
      ((ofMatch m).members ++ more) (ofMatch m).quote (ofMatch m).moduleName := by
    have hrender :=
      render_eq_written (i := { ofMatch m with members := (ofMatch m).members ++ more })
      htype hnamespace (by simp [hne])
    rw [memberEdit, hrender]
    rfl
  obtain ⟨happly, hp, hv, hv'⟩ := h.of_cut hplace.keyword hspan
  obtain ⟨more', hhead⟩ : ∃ more', (memberEdit (ofMatch m) more).new = 'i' :: more' := by
    rw [hnew, written_eq]
    exact ⟨_, rfl⟩
  have hline : (memberEdit (ofMatch m) more).line (front ++ indent ++ body ++ back) =
      Text.size front := by
    have hblanks : '\n' ∉ indent ++ ['i'] := fun hmem => by
      rcases List.mem_append.mp hmem with hmem | hmem
      · exact absurd (hplace.blanks _ hmem) (by decide)
      · exact absurd hmem (by decide)
    have hstart : (memberEdit (ofMatch m) more).start +
        1 = Text.size (front ++ (indent ++ ['i'])) := by
      show (ofMatch m).start + 1 = _
      rw [hplace.keyword, ← List.append_assoc, Text.size_append _ ['i']]
      rfl
    have hline := Text.lineStart_append hplace.line hblanks (more' ++ back)
    rw [Edit.line, happly, hhead, hstart]
    simpa only [List.append_assoc, List.cons_append, List.nil_append] using hline
  have hcode : InCode (front ++ indent) 'i' := by
    cases body with
    | nil => cases hbody
    | cons c body =>
        rw [hplace.keyword, List.append_assoc] at hcode
        exact Option.some.inj hbody ▸ inCode_of_isCodeAt hcode
  have hapart := h.apart
  rw [hline, happly] at hapart
  rw [happly]
  rw [hnew] at hapart hv' ⊢
  obtain ⟨m', hm', hplace', hmem, stop, hread⟩ :=
    exists_written hparts hplace.line hplace.blanks hcode hapart
  have hexchange := exchanges (.of_at hm hplace) (.of_at hm' hplace')
    (fun n hn => Option.some.inj hn ▸ isFound_of_mem hm hi) (isFound_of_mem hm' hmem) hp hv hv'
    (likeBehind_of_stop hm hm' hplace.stop hplace'.stop)
  exact ⟨_, stop, hread ▸ hexchange, front, indent, back, rfl, rfl, hplace.line, hplace.blanks⟩

omit hne hmore in
/-- A line behind a statement is a statement of its own. -/
theorem exchanges_lineBehind (hparts : Parts none more quote moduleName) (hm : m ∈ pattern.all t)
    (he : e = ⟨m.stop, m.stop, '\n' :: written none more quote moduleName⟩) (h : e.Stands t) :
    ∃ start stop, Exchanges t (e.apply t) none (readBack start stop none more quote moduleName) ∧
      OnLine (e.apply t) start (written none more quote moduleName) := by
  obtain ⟨front, indent, body, back, ht, hplace, -⟩ := exists_at hm
  have hstop := hplace.stop
  generalize front ++ indent ++ body = p at ht hstop
  have hcut : t = p ++ [] ++ back := by rw [ht, List.append_nil]
  rw [hcut] at h hm ⊢
  obtain ⟨happly, hp, -, hnew⟩ := h.of_cut (by rw [he, hstop]) (by rw [he, hstop]; rfl)
  have hcode : InCode (p ++ ['\n'] ++ []) 'i' := by
    obtain ⟨hstate, hslash⟩ := hp.append (w := ['\n']) (closed_of_isClosed (by decide)) (by decide)
    rw [List.append_nil]
    exact ⟨_, _, hstate.1, fun q => reads_of_after _ 0 hstate.1 hslash _⟩
  have hresult : e.apply (p ++ [] ++ back) =
      p ++ ['\n'] ++ [] ++ written none more quote moduleName ++ back := by
    rw [happly, he]
    simp only [List.append_assoc, List.cons_append, List.nil_append]
  have hline : e.line (p ++ [] ++ back) = Text.size (p ++ ['\n']) := by
    have hline : (p ++ ['\n'] ++ [] ++ (written none more quote moduleName ++ back)).lineStart
        (Text.size (p ++ ['\n'] ++ [])) = Text.size (p ++ ['\n']) :=
      Text.lineStart_append (by simp) (by simp) _
    have hbreak : Text.size p + 1 = Text.size (p ++ ['\n']) := by
      rw [Text.size_append]
      rfl
    rw [Edit.line, hresult, he, hstop, hbreak]
    simpa only [List.append_assoc, List.append_nil] using hline
  have hapart := h.apart
  rw [hline, hresult] at hapart
  obtain ⟨m', hm', hplace', hmem, stop, hread⟩ :=
    exists_written hparts (by simp) (by simp) hcode hapart
  have hnone : Alone none (p ++ [] ++ [] ++ back) (Text.size p) (Text.size (p ++ [] ++ [])) := by
    have hbehind := Alone.behind hm
    rw [hstop] at hbehind
    simpa only [List.append_nil] using hbehind
  have hshape : p ++ ['\n'] ++ [] ++ written none more quote moduleName =
      p ++ [] ++ ('\n' :: written none more quote moduleName) := by
    simp only [List.append_assoc, List.cons_append, List.nil_append]
  have hone : Alone (some m') (p ++ [] ++ ('\n' :: written none more quote moduleName) ++ back)
      (Text.size p) (Text.size (p ++ [] ++ ('\n' :: written none more quote moduleName))) := by
    have hfront := Alone.line_break_front (q := [] ++ written none more quote moduleName ++ back)
      (by simpa only [List.append_assoc] using hm') hplace'.start
    rw [hplace'.stop, hshape] at hfront
    simpa only [List.append_assoc, List.cons_append, List.nil_append] using hfront
  have hend := hplace'.stop
  rw [hshape] at hm' hmem hresult hend
  have halike : LikeBehind (p ++ [] ++ []).getLast?
      (p ++ [] ++ ('\n' :: written none more quote moduleName)).getLast? := by
    rw [List.append_nil]
    exact likeBehind_of_stop hm hm' (by rw [hstop, List.append_nil]) hend
  rw [he] at hnew
  have hexchange := exchanges hnone hone (by simp) (isFound_of_mem hm' hmem)
    (by rwa [List.append_nil]) .nil hnew halike
  rw [List.append_nil (p ++ []), hread] at hexchange
  rw [hresult]
  exact ⟨_, stop, hexchange, p ++ ['\n'], [], back, by rw [hshape], rfl, by simp, by simp⟩

omit hne hmore in
/-- The first line is a statement of its own. -/
theorem exchanges_firstLine (hparts : Parts none more quote moduleName)
    (he : e = ⟨0, 0, written none more quote moduleName ++ ['\n']⟩) (h : e.Stands t) :
    ∃ start stop, Exchanges t (e.apply t) none (readBack start stop none more quote moduleName) ∧
      OnLine (e.apply t) start (written none more quote moduleName) := by
  obtain ⟨happly, hp, -, hnew⟩ := Stands.of_cut (p := []) (v := []) (q := t) h (by rw [he]; rfl)
    (by rw [he]; rfl)
  have hresult : e.apply t = [] ++ [] ++ written none more quote moduleName ++ ('\n' :: t) := by
    rw [List.nil_append, List.nil_append] at happly
    rw [happly, he]
    simp only [List.append_assoc, List.cons_append, List.nil_append]
  have hcode : InCode ([] ++ []) 'i' :=
    ⟨_, _, hp.1.1, fun q => reads_of_after [] 0 hp.1.1 hp.2 _⟩
  have hapart : pattern.Apart ([] ++ [] ++ written none more quote moduleName ++ ('\n' :: t))
      (Text.size []) :=
    fun n _ hlt => absurd hlt (Nat.not_lt_zero _)
  obtain ⟨m', hm', hplace', hmem, stop, hread⟩ := exists_written hparts (by rfl)
    (by simp) hcode hapart
  have hshape : [] ++ [] ++ written none more quote moduleName ++ ('\n' :: t) =
      [] ++ [] ++ (written none more quote moduleName ++ ['\n']) ++ t := by
    simp only [List.append_assoc, List.cons_append, List.nil_append]
  rw [hshape] at hm' hmem hresult
  have hone : Alone (some m') ([] ++ [] ++ (written none more quote moduleName ++ ['\n']) ++ t)
      (Text.size []) (Text.size ([] ++ [] ++ (written none more quote moduleName ++ ['\n']))) := by
    have hsize : m'.stop + 1 =
        Text.size ([] ++ [] ++ (written none more quote moduleName ++ ['\n'])) := by
      rw [hplace'.stop, ← List.append_assoc ([] ++ []), Text.size_append _ ['\n']]
      rfl
    have hbehind := Alone.line_break_behind hm'
    rwa [hplace'.start, hsize] at hbehind
  have hnone : Alone none ([] ++ [] ++ [] ++ t) (Text.size []) (Text.size ([] ++ [] ++ [])) :=
    ⟨Nat.le_refl _, by simp, fun n _ => .inr (.inr (Nat.zero_le _))⟩
  rw [he] at hnew
  rw [hresult]
  have hexchange := exchanges hnone hone (by simp) (isFound_of_mem hm' hmem) hp .nil hnew
    (by simp [LikeBehind]; decide)
  rw [hread] at hexchange
  exact ⟨_, stop, hexchange, [], [], '\n' :: t, hshape.symm, rfl, rfl, by simp⟩

end Exchanges

/-- Where a statement of its own is put, and how it is written. -/
theorem lineEdit_eq (imports : List ImportStatement) (moduleName : Text) (hne : more ≠ []) :
    lineEdit imports moduleName more =
      match imports.getLast? with
      | some last => ⟨last.stop, last.stop,
          '\n' :: written none more ((imports.head?.map (·.quote)).getD '\'') moduleName⟩
      | none => ⟨0, 0, written none more ((imports.head?.map (·.quote)).getD '\'') moduleName ++
          ['\n']⟩ := by
  have hline := render_eq_written
    (i := ⟨0, 0, false, none, none, more, (imports.head?.map (·.quote)).getD '\'', moduleName⟩) rfl
    rfl hne
  rw [lineEdit, hline]
  cases imports.getLast? <;> rfl

/-- The statement that is read where names are added to one, or in one of their own. -/
structure Added (u : Text) (modules : List Text) (old : Option ImportStatement)
    (missing : List Text) (new : ImportStatement) : Prop where
  isFrom : new.isFrom modules = true
  typeOnly : new.typeOnly = false
  namespaceName : new.namespaceName = none
  defaultName : new.defaultName = old.bind (·.defaultName)
  members : new.members =
    readList (braces ((old.map (·.members)).getD [] ++ missing.map ImportMember.named))
  quote : new.quote = '\'' ∨ new.quote = '"'
  placed : OnLine u new.start (written new.defaultName
    ((old.map (·.members)).getD [] ++ missing.map ImportMember.named) new.quote new.moduleName)

/-- Where the edit stands, the names are read back with the statement that they were added to, and
all else is imported as it was. -/
theorem exists_exchange (hmodule : moduleName ≠ [] ∧ '\'' ∉ moduleName ∧ '"' ∉ moduleName)
    (hnames : ∀ name ∈ names, '\x7d' ∉ name)
    (hedit : importEdit? moduleName others names t = some e) (h : e.Stands t) : ∃ new,
      Exchanges t (e.apply t) ((all (.of t)).find? (takesMembers (moduleName :: others))) new ∧
        Added (e.apply t)
        (moduleName :: others) ((all (.of t)).find? (takesMembers (moduleName :: others)))
          (missingNames (all (.of t)) (moduleName :: others) names) new := by
  obtain ⟨missing, hmissing, hne, hcases⟩ := eq_of_importEdit? hedit
  have hmore : ∀ x ∈ missing.map ImportMember.named, '\x7d' ∉ x.imported ++ x.boundAs := by
    intro x hx
    obtain ⟨name, hname, rfl⟩ := List.mem_map.mp hx
    rw [hmissing] at hname
    simpa [ImportMember.named] using hnames name (List.mem_filter.mp hname).1
  have hne : missing.map ImportMember.named ≠ [] := by simpa using hne
  rw [← hmissing]
  cases hfind : (all (.of t)).find? (takesMembers (moduleName :: others)) with
  | some i =>
      rw [hfind] at hcases
      dsimp only at hcases
      subst hcases
      have hi := List.mem_of_find?_eq_some hfind
      have htakes := List.find?_some hfind
      simp only [takesMembers, Bool.and_eq_true, Bool.not_eq_true', Option.isNone_iff_eq_none]
        at htakes
      obtain ⟨⟨hfrom, htype⟩, hnamespace⟩ := htakes
      obtain ⟨start, stop, hexchange, hplaced⟩ :=
        exchanges_memberEdit hne hmore hi htype hnamespace h
      obtain ⟨m, hm, rfl, -⟩ := mem_all_iff.mp hi
      exact ⟨_, hexchange, hfrom, rfl, rfl, rfl, rfl, isQuote_of_ofMatch hm, hplaced⟩
  | none =>
      rw [hfind] at hcases
      dsimp only at hcases
      have hparts : Parts none (missing.map ImportMember.named)
          ((((all (.of t)).head?).map (·.quote)).getD '\'') moduleName :=
        ⟨by simp, notMem_braces (by decide) hmore, isQuote_of_head?, hmodule⟩
      have hedit := hcases.trans (lineEdit_eq (all (.of t)) moduleName hne)
      obtain ⟨start, stop, hexchange, hplaced⟩ : ∃ start stop, Exchanges t (e.apply t) none
          (readBack start stop none (missing.map ImportMember.named)
            ((((all (.of t)).head?).map (·.quote)).getD '\'') moduleName) ∧
          OnLine (e.apply t) start (written none (missing.map ImportMember.named)
            ((((all (.of t)).head?).map (·.quote)).getD '\'') moduleName) := by
        cases hlast : (all (.of t)).getLast? with
        | none =>
            rw [hlast] at hedit
            exact exchanges_firstLine hparts hedit h
        | some last =>
            rw [hlast] at hedit
            obtain ⟨m, hm, rfl, -⟩ := mem_all_iff.mp (List.mem_of_getLast? hlast)
            exact exchanges_lineBehind hparts hm hedit h
      exact ⟨_, hexchange, by simp [isFrom, readBack], rfl, rfl, rfl, rfl, hparts.quote, hplaced⟩

end Repair

end ServiceGate
