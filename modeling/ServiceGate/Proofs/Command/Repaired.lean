/-
# The files of a target and their repairs

Repairing a target runs along two lists, the paths of the files and the repairs of their texts.
`fileRepairs` pairs them, `run_eq` says what the command makes of the pairs, and
`forall_fileRepairs` what each pair is: a path together with the repair of the text that it leads
to.  `writeRepairs` puts each text in the place its path leads to and changes nothing else
(`read?_writeRepairs`).

A file is written only if its repair moved the text and was not given up; so what a file holds then
is in every case the text of its repair (`text_of_not_isWorthWriting`, `text_of_reverted`), which is
what the command has judged.
-/
import ServiceGate.Command.Fix
import ServiceGate.Proofs.FileTree.Sources
import ServiceGate.Proofs.Outcomes
import ServiceGate.Proofs.Repair.Again

namespace ServiceGate

/-! ## The repairs of a target's files -/

variable {policy : Policy} {mode : StorageMode} {env : Environment} {tree : FileTree}
  {config : Config} {r : FixRequest} {p : Place} {t : Text}

def judgment (policy : Policy) (mode : StorageMode) (files : List SourceFile)
    (entries : List Suppression) : Except Failure Bool :=
  match validateFiles policy mode files with
  | .error fault => .error (.contradiction fault)
  | .ok verdict => .ok (errorCount (reportedIssues verdict files entries) == 0)

theorem validateFiles_of_repairFiles {files : List SourceFile} {fault : SpanFault}
    (h : repairFiles policy mode files = .error fault) :
    validateFiles policy mode files = .error fault := by
  have hjudged : files.mapM (fun f => validate policy mode f.text) = .error fault := by
    rw [repairFiles] at h
    have hrepair : repairFile policy mode = fun f => (validate policy mode f.text).map _ := rfl
    rw [hrepair, mapM_map (f := fun f : SourceFile => validate policy mode f.text)] at h
    cases hall : files.mapM (fun f => validate policy mode f.text) with
    | error e => rw [hall] at h; cases h; rfl
    | ok vs => rw [hall] at h; cases h
  rw [validateFiles, mapM_map (f := fun f : SourceFile => validate policy mode f.text), hjudged]
  rfl

theorem length_sources {paths : List Text} {files : List SourceFile}
    (h : env.sources tree paths = .ok files) : paths.length = files.length := by
  rw [Environment.sources, loadSources] at h
  split at h
  · next hload =>
      cases h
      exact (mapM_ok_iff.mp hload).length_eq
  · cases h

namespace FixRequest

def modeFor (r : FixRequest) (config : Config) : StorageMode :=
  r.storageMode.getD config.storageMode

/-- The paths of the files of the target, each with the repair of the file. -/
def fileRepairs (r : FixRequest) (env : Environment) (tree : FileTree) (config : Config) :
    Except Failure (List (Text × FileRepair)) :=
  match env.sourcePaths tree config r.target with
  | .error failure => .error failure
  | .ok paths =>
    match env.sources tree paths with
    | .error failure => .error failure
    | .ok files =>
      match repairFiles config.policy (r.modeFor config) files with
      | .error fault => .error (.contradiction fault)
      | .ok repairs => .ok (paths.zip repairs)

/-- The tree that a request leaves but for what the gate keeps. -/
def repairedTree (r : FixRequest) (tree : FileTree) (l : List (Text × FileRepair)) : FileTree :=
  if r.write then writeRepairs tree l else tree

/-- What a request makes of the repairs. -/
theorem run_eq (r : FixRequest) (env : Environment) (tree : FileTree) (config : Config) :
    r.run env tree config =
      match r.fileRepairs env tree config with
      | .error failure => ⟨tree, [], .error failure⟩
      | .ok [] => ⟨tree, r.emptyLines, .ok true⟩
      | .ok (x :: l) => r.judge env (r.repairedTree tree (x :: l)) config ((x :: l).map (·.2)) := by
  cases hpaths : env.sourcePaths tree config r.target with
  | error failure => simp only [run, fileRepairs, hpaths]
  | ok paths =>
      cases hfiles : env.sources tree paths with
      | error failure => simp only [run, fileRepairs, hpaths, hfiles]
      | ok files =>
          have hlength : paths.length = files.length := length_sources hfiles
          have hrun : r.run env tree config =
              if files.isEmpty then ⟨tree, r.emptyLines, .ok true⟩
              else r.repair env tree config paths files := by
            simp only [run, hpaths, hfiles]
          cases hrepairs : repairFiles config.policy (r.modeFor config) files with
          | error fault =>
              cases files with
              | nil => cases hrepairs
              | cons f files =>
                  have hrepair : r.repair env tree config paths (f :: files) =
                      ⟨tree, [], .error (.contradiction fault)⟩ := by
                    rw [modeFor] at hrepairs
                    simp only [repair, hrepairs]
                  simp only [fileRepairs, hpaths, hfiles, hrepairs]
                  exact hrun.trans hrepair
          | ok repairs =>
              have hlength' : files.length = repairs.length := (mapM_ok_iff.mp hrepairs).length_eq
              have hall : r.fileRepairs env tree config = .ok (paths.zip repairs) := by
                simp only [fileRepairs, hpaths, hfiles, hrepairs]
              have hrepair : r.repair env tree config paths files =
                  r.judge env (r.repairedTree tree (paths.zip repairs)) config repairs := by
                rw [modeFor] at hrepairs
                simp only [repair, hrepairs, repairedTree]
              have hsnd : (paths.zip repairs).map (·.2) = repairs :=
                List.map_snd_zip (by rw [hlength, hlength'])
              rw [hrun, hrepair, hall]
              cases files with
              | nil =>
                  obtain rfl := List.length_eq_zero_iff.mp hlength
                  rfl
              | cons f files =>
                  cases hpairs : paths.zip repairs with
                  | nil =>
                      rw [hpairs] at hsnd
                      rw [← hsnd] at hlength'
                      cases hlength'
                  | cons x l =>
                      rw [hpairs] at hsnd
                      rw [← hsnd]
                      rfl

/-- Each pair is the path of a file and the repair of its text. -/
theorem forall_fileRepairs {l : List (Text × FileRepair)}
    (h : r.fileRepairs env tree config = .ok l) :
    env.sourcePaths tree config r.target = .ok (l.map (·.1)) ∧
      ∀ x ∈ l, ∃ t, tree.readPath? x.1 = some t ∧
        repairFile config.policy (r.modeFor config) ⟨FilePath.relativeTo env.root x.1, t⟩ =
        .ok x.2 := by
  rw [fileRepairs] at h
  split at h
  · cases h
  next paths hpaths =>
  split at h
  · cases h
  next files hfiles =>
  split at h
  · cases h
  next repairs hrepairs =>
  obtain rfl := Except.ok.inj h
  rw [Environment.sources, loadSources] at hfiles
  split at hfiles
  · next loaded hload =>
      obtain rfl := Except.ok.inj hfiles
      have hread := mapM_ok_iff.mp hload
      have hrepaired := mapM_ok_iff.mp hrepairs
      have hread' := hread.length_eq
      have hlength := hread'.trans hrepaired.length_eq
      refine ⟨by rw [List.map_fst_zip (le_of_eq hlength)]; exact hpaths, ?_⟩
      intro x hx
      obtain ⟨i, hi, rfl⟩ := List.mem_iff_getElem.mp hx
      have hi' : i < paths.length ∧ i < repairs.length := by
        rw [List.length_zip] at hi
        omega
      have hfile := (List.forall₂_iff_get.mp hread).2 i hi'.1 (hread' ▸ hi'.1)
      have hresult := (List.forall₂_iff_get.mp hrepaired).2 i (hread' ▸ hi'.1) hi'.2
      rw [List.get_eq_getElem, List.get_eq_getElem] at hfile hresult
      rw [List.getElem_zip]
      split at hfile
      · next t ht =>
          refine ⟨t, ht, ?_⟩
          rw [Except.ok.inj hfile]
          exact hresult
      · cases hfile
  · cases hfiles

end FixRequest

/-! ## What a repair does to a text -/

section RepairFile
variable {f : SourceFile} {x : FileRepair}

theorem exists_apply (h : repairFile policy mode f = .ok x) :
    ∃ codes, x = ⟨f.path, Repair.apply policy codes f.text⟩ := by
  rw [Repair.repairFile_eq] at h
  cases hv : validate policy mode f.text with
  | error fault =>
      rw [Repair.repaired, hv] at h
      cases h
  | ok v =>
      rw [Repair.repaired_of_validate hv] at h
      exact ⟨v.codes, (Except.ok.inj h).symm⟩

theorem text_of_not_isWorthWriting (h : repairFile policy mode f = .ok x)
    (hworth : x.isWorthWriting = false) : x.report.text = f.text := by
  obtain ⟨codes, rfl⟩ := exists_apply h
  rw [FileRepair.isWorthWriting, Bool.and_eq_false_iff, Bool.not_eq_false', Bool.not_eq_false',
    List.isEmpty_iff] at hworth
  rcases hworth with hreverted | hnil
  · rcases Repair.apply_cases policy codes f.text with ⟨-, h'⟩ | ⟨-, -, h'⟩ | ⟨-, -, h'⟩
    · rw [h']
    · rw [h'] at hreverted
      cases hreverted
    · rw [h']
  · exact Repair.apply_of_applied_nil hnil

theorem text_of_reverted (h : repairFile policy mode f = .ok x)
    (hreverted : x.report.reverted = true) :
    x.report.text = f.text :=
  text_of_not_isWorthWriting h (by rw [FileRepair.isWorthWriting, hreverted]; rfl)

theorem text_repairFile (h : repairFile policy mode f = .ok x) :
    (x.report.text = f.text ∨ Scan.balanced x.report.text = true) ∧
      (Scan.balanced f.text = false → x.report.text = f.text) := by
  obtain ⟨codes, rfl⟩ := exists_apply h
  rcases Repair.apply_cases policy codes f.text with ⟨-, h'⟩ | ⟨ht, hout, h'⟩ | ⟨-, -, h'⟩
  · rw [h']
    exact ⟨.inl rfl, fun _ => rfl⟩
  · rw [h']
    refine ⟨.inr hout, fun hunbalanced => ?_⟩
    rw [ht] at hunbalanced
    cases hunbalanced
  · rw [h']
    exact ⟨.inl rfl, fun _ => rfl⟩

end RepairFile

/-! ## Writing the repaired texts -/

section Writing
variable {l : List (Text × FileRepair)}

theorem writeRepairs_cons {x : Text × FileRepair} (hp : tree.locate? x.1 = some p) :
    writeRepairs tree (x :: l) =
      writeRepairs (if x.2.isWorthWriting then tree.write p x.2.report.text else tree) l := by
  obtain ⟨path, r⟩ := x
  rw [writeRepairs, hp]

theorem sameShape_write {x : Text × FileRepair} (hp : tree.isFile p = true) :
    FileTree.SameShape tree
      (if x.2.isWorthWriting then tree.write p x.2.report.text else tree) := by
  split
  · exact .write hp _
  · exact .refl tree

/-- Only files of the list are written. -/
theorem writeRepairs_frame : ∀ {l : List (Text × FileRepair)} {tree : FileTree},
    (∀ x ∈ l, ∃ p, tree.locate? x.1 = some p ∧ tree.isFile p = true) →
      FileTree.SameShape tree (writeRepairs tree l) ∧
        ∀ q, (∀ x ∈ l, tree.locate? x.1 ≠ some q) → (writeRepairs tree l).read? q = tree.read? q
  | [], tree, _ => ⟨.refl tree, fun _ _ => rfl⟩
  | x :: l, tree, h => by
      obtain ⟨⟨p, hp, hfile⟩, hl⟩ := List.forall_mem_cons.mp h
      have hshape := sameShape_write (x := x) hfile
      rw [writeRepairs_cons hp]
      obtain ⟨hshape', hread⟩ := writeRepairs_frame (l := l) fun y hy => by
        obtain ⟨q, hq, hqfile⟩ := hl y hy
        exact ⟨q, (hshape.locate? _).trans hq, (hshape.isFile q).trans hqfile⟩
      refine ⟨hshape.trans hshape', fun q hq => ?_⟩
      obtain ⟨hpq, hq⟩ := List.forall_mem_cons.mp hq
      have hne : q ≠ p := fun heq => hpq (by rw [heq, hp])
      rw [hread q fun y hy => by rw [hshape.locate?]; exact hq y hy]
      split
      · exact FileTree.read?_write_of_ne _ hne _
      · rfl

/-- Each file holds its repaired text, if that is worth it. -/
theorem read?_writeRepairs : ∀ {l : List (Text × FileRepair)} {tree : FileTree},
    (∀ x ∈ l, ∃ p, tree.locate? x.1 = some p ∧ tree.isFile p = true) →
      (l.map fun x => tree.locate? x.1).Nodup → ∀ x ∈ l, ∀ p, tree.locate? x.1 = some p →
        (writeRepairs tree l).read? p =
          if x.2.isWorthWriting then some x.2.report.text else tree.read? p
  | [], _, _, _, x, hx, _, _ => absurd hx List.not_mem_nil
  | y :: l, tree, h, hnodup, x, hx, p, hp => by
      obtain ⟨⟨q, hq, hfile⟩, hl⟩ := List.forall_mem_cons.mp h
      have hshape := sameShape_write (x := y) hfile
      rw [List.map_cons, List.nodup_cons] at hnodup
      have hl' : ∀ z ∈ l, ∃ p,
          (if y.2.isWorthWriting then tree.write q y.2.report.text else tree).locate? z.1 = some p ∧
          (if y.2.isWorthWriting then tree.write q y.2.report.text else tree).isFile p = true := by
        intro z hz
        obtain ⟨p', hp', hpfile⟩ := hl z hz
        exact ⟨p', (hshape.locate? _).trans hp', (hshape.isFile p').trans hpfile⟩
      rw [writeRepairs_cons hq]
      rcases List.mem_cons.mp hx with rfl | hx
      · obtain rfl : q = p := Option.some.inj (hq.symm.trans hp)
        rw [(writeRepairs_frame hl').2 q fun z hz heq => hnodup.1 <| by
          rw [hq, ← heq, hshape.locate?]
          exact List.mem_map_of_mem (f := fun x : Text × FileRepair => tree.locate? x.1) hz]
        split
        · rw [FileTree.read?_write]
        · rfl
      · have hne : p ≠ q := fun heq => hnodup.1 <| by
          rw [hq, ← heq, ← hp]
          exact List.mem_map_of_mem (f := fun x : Text × FileRepair => tree.locate? x.1) hx
        have hmap : (l.map fun z =>
            (if y.2.isWorthWriting then tree.write q y.2.report.text else tree).locate? z.1) =
            l.map fun z => tree.locate? z.1 :=
          List.map_congr_left fun z _ => hshape.locate? z.1
        rw [read?_writeRepairs hl' (hmap ▸ hnodup.2) x hx p ((hshape.locate? _).trans hp)]
        split
        · rfl
        · split
          · exact FileTree.read?_write_of_ne _ hne _
          · rfl

end Writing

end ServiceGate
