/-
# The commands agree

Repairing a target judges the repaired texts, whether it writes them or not; checking the target
judges the texts that it finds.  Both come to one judgment (`outcome_judge`, `outcome_check`) on the
same files:

    the files of the target are the same before and behind   -- `sourcePaths_repairedTree`
    behind a writing repair each holds its repaired text     -- `read?_repairedTree`
    no suppression comes or goes                             -- `suppressions_repairedTree`

The last one needs that no file of the target is itself a list of suppressions: such a list is read
behind the repair, and the repair may have changed it (`not_always_agree`).

The file system is a tree of places with texts, and a command gives the tree that it leaves.  The
three facts are about that tree only: a file that is written over keeps its place, an ignore file is
no file of a target, and what the gate keeps for itself lies in a directory that no target reaches.
-/
import ServiceGate.Proofs.Command.Repaired
import ServiceGate.Proofs.Command.Upkeep

namespace ServiceGate

open Environment (keptName suppressionListName)

variable {env : Environment} {tree tree' : FileTree} {config : Config} {r : FixRequest}
  {root p : Place} {l : List (Text × FileRepair)}

/-! ## The judgment of a command -/

namespace FixRequest

def writing (r : FixRequest) : FixRequest := { r with write := true }

def trying (r : FixRequest) : FixRequest := { r with write := false }

theorem fileRepairs_writing : r.writing.fileRepairs env tree config =
    r.fileRepairs env tree config := rfl

theorem fileRepairs_trying : r.trying.fileRepairs env tree config = r.fileRepairs env tree config :=
  rfl

theorem outcome_judge (r : FixRequest) (env : Environment) (tree : FileTree) (config : Config)
    (repairs : List FileRepair) :
    (r.judge env tree config repairs).outcome =
      judgment config.policy (r.modeFor config) (repairs.map (·.result))
      (env.suppressions tree) := by
  rw [judge, judgment, modeFor]
  cases validateFiles config.policy (r.storageMode.getD config.storageMode)
    (repairs.map (·.result)) with
  | error fault => rfl
  | ok verdict =>
      show Except.ok (List.filter ReportedIssue.isError _).isEmpty = Except.ok _
      rw [errorCount, List.countP_eq_length_filter]
      cases List.filter ReportedIssue.isError
        (reportedIssues verdict (repairs.map (·.result)) (env.suppressions tree)) with
      | nil => rfl
      | cons i issues => rfl

theorem tree_judge_cases (r : FixRequest) (env : Environment) (tree : FileTree) (config : Config)
    (repairs : List FileRepair) :
    (r.judge env tree config repairs).tree = tree ∨
      ∃ count, (r.judge env tree config repairs).tree = env.countRun count tree := by
  rw [judge]
  cases validateFiles config.policy (r.storageMode.getD config.storageMode)
    (repairs.map (·.result)) with
  | error fault => exact .inl rfl
  | ok verdict =>
      dsimp only
      exact .inr ⟨_, rfl⟩

end FixRequest

theorem CheckRequest.outcome_check (c : CheckRequest) {paths : List Text} {files : List SourceFile}
    (hpaths : env.sourcePaths tree config c.target = .ok paths)
    (hfiles : env.sources tree paths = .ok files) :
    (c.run env tree config).outcome =
      if files.isEmpty then .ok true
      else judgment config.policy (c.storageMode.getD config.storageMode) files
        (env.suppressions tree) := by
  have hloads : (env.sourcePaths tree config c.target >>= env.sources tree) = .ok files := by
    rw [hpaths]
    exact hfiles
  rw [run, hloads]
  dsimp only
  split
  · rfl
  · rw [judge, judgment]
    cases validateFiles config.policy (c.storageMode.getD config.storageMode) files with
    | error fault => rfl
    | ok verdict => rfl

theorem sourcePaths_eq_ok {paths : List Text} {target : Text}
    (h : env.sourcePaths tree config target = .ok paths) :
    ∃ d, tree.locate? (env.targetPath target) = some d ∧
      paths = sourcePaths tree config (env.targetPath target) := by
  rw [Environment.sourcePaths] at h
  split at h
  · next hthere =>
      obtain ⟨d, hd⟩ := Option.isSome_iff_exists.mp hthere
      exact ⟨d, hd, (Except.ok.inj h).symm⟩
  · cases h

theorem sourcePaths_of_locate? {target : Text} {d : Place}
    (hd : tree.locate? (env.targetPath target) = some d) :
    env.sourcePaths tree config target = .ok (sourcePaths tree config (env.targetPath target)) := by
  rw [Environment.sourcePaths, FileTree.isThereAt, hd]
  rfl

theorem outcome_check_error {c : CheckRequest} {failure : Failure} (htarget : c.target = r.target)
    (hmode : c.storageMode = r.storageMode) (h : r.fileRepairs env tree config = .error failure) :
    (c.run env tree config).outcome = .error failure := by
  rw [FixRequest.fileRepairs] at h
  cases hpaths : env.sourcePaths tree config r.target with
  | error failure' =>
      rw [hpaths] at h
      obtain rfl : failure' = failure := Except.error.inj h
      rw [CheckRequest.run, htarget, hpaths]
      rfl
  | ok paths =>
      rw [hpaths] at h
      cases hfiles : env.sources tree paths with
      | error failure' =>
          simp only [hfiles] at h
          obtain rfl := Except.error.inj h
          have hloads : (env.sourcePaths tree config r.target >>= env.sources tree) =
              .error failure' := by
            rw [hpaths]
            exact hfiles
          rw [CheckRequest.run, htarget, hloads]
      | ok files =>
          simp only [hfiles] at h
          rw [CheckRequest.outcome_check c (htarget ▸ hpaths) hfiles]
          cases hrepairs : repairFiles config.policy (r.modeFor config) files with
          | ok repairs =>
              rw [hrepairs] at h
              cases h
          | error fault =>
              rw [hrepairs] at h
              obtain rfl := Except.error.inj h
              cases files with
              | nil => cases hrepairs
              | cons f files =>
                  rw [hmode, judgment]
                  rw [FixRequest.modeFor] at hrepairs
                  rw [validateFiles_of_repairFiles hrepairs]
                  rfl

/-! ## What a judgment leaves -/

theorem read?_judge {repairs : List FileRepair} (hroot : tree.locate? env.root = some root)
    (hp : ¬ root ++ [keptName] <+: p) :
    (r.judge env tree config repairs).tree.read? p = tree.read? p := by
  rcases r.tree_judge_cases env tree config repairs with h | ⟨count, h⟩
  · rw [h]
  · rw [h, Environment.read?_countRun hroot count (Environment.ne_countsPlace hp)]

theorem locate?_judge {repairs : List FileRepair} {path : Text}
    (hroot : tree.locate? env.root = some root) (hp : tree.locate? path = some p) :
    (r.judge env tree config repairs).tree.locate? path = some p := by
  rcases r.tree_judge_cases env tree config repairs with h | ⟨count, h⟩
  · rw [h, hp]
  · rw [h, Environment.locate?_countRun hroot count hp]

theorem suppressions_judge {repairs : List FileRepair} (hroot : tree.locate? env.root = some root) :
    env.suppressions (r.judge env tree config repairs).tree = env.suppressions tree := by
  rcases r.tree_judge_cases env tree config repairs with h | ⟨count, h⟩
  · rw [h]
  · rw [h, Environment.suppressions_countRun hroot]

theorem sourcePaths_judge {repairs : List FileRepair} {target : Text} {d : Place}
    (hwf : tree.WellFormed) (hroot : tree.locate? env.root = some root)
    (hd : tree.locate? target = some d)
    (hout : ∀ p ∈ sourcePlaces (r.judge env tree config repairs).tree config target,
      ¬ root ++ [keptName] <+: p) :
    sourcePaths (r.judge env tree config repairs).tree config target =
      sourcePaths tree config target := by
  rcases r.tree_judge_cases env tree config repairs with h | ⟨count, h⟩
  · rw [h]
  · rw [h] at hout ⊢
    exact Environment.sourcePaths_countRun hroot hwf count hd hout

/-! ## The tree that a repair leaves -/

def FixRequest.places (r : FixRequest) (env : Environment) (tree : FileTree) (config : Config) :
    List Place :=
  sourcePlaces tree config (env.targetPath r.target)

section Repaired
variable (hwf : tree.WellFormed) (hrepairs : r.fileRepairs env tree config = .ok l)
include hrepairs

theorem locate?_fileRepairs : ∀ x ∈ l, ∃ p, tree.locate? x.1 = some p ∧ tree.isFile p = true := by
  intro x hx
  obtain ⟨t, ht, -⟩ := (FixRequest.forall_fileRepairs hrepairs).2 x hx
  obtain ⟨p, hp, hread⟩ := FileTree.exists_locate?_of_readPath? ht
  exact ⟨p, hp, FileTree.isFile_of_read? hread⟩

theorem sourcePaths_fileRepairs :
    sourcePaths tree config (env.targetPath r.target) = l.map (·.1) := by
  obtain ⟨d, -, hpaths⟩ := sourcePaths_eq_ok (FixRequest.forall_fileRepairs hrepairs).1
  exact hpaths.symm

theorem mem_places : p ∈ r.places env tree config ↔ ∃ x ∈ l, tree.locate? x.1 = some p := by
  rw [FixRequest.places, sourcePlaces, sourcePaths_fileRepairs hrepairs, List.mem_filterMap]
  constructor
  · rintro ⟨path, hpath, hp⟩
    obtain ⟨x, hx, rfl⟩ := List.mem_map.mp hpath
    exact ⟨x, hx, hp⟩
  · rintro ⟨x, hx, hp⟩
    exact ⟨x.1, List.mem_map_of_mem hx, hp⟩

theorem sameShape_repairedTree : FileTree.SameShape tree (r.repairedTree tree l) := by
  rw [FixRequest.repairedTree]
  split
  · exact (writeRepairs_frame (locate?_fileRepairs hrepairs)).1
  · exact .refl tree

theorem read?_repairedTree_frame (hp : p ∉ r.places env tree config) :
    (r.repairedTree tree l).read? p = tree.read? p := by
  rw [FixRequest.repairedTree]
  split
  · refine (writeRepairs_frame (locate?_fileRepairs hrepairs)).2 p fun x hx heq => hp ?_
    exact (mem_places hrepairs).mpr ⟨x, hx, heq⟩
  · rfl

include hwf

/-- Behind a writing repair each file of the target holds its repaired text. -/
theorem read?_repairedTree (hwrite : r.write = true) {x : Text × FileRepair} (hx : x ∈ l)
    (hp : tree.locate? x.1 = some p) :
    (r.repairedTree tree l).read? p = some x.2.report.text := by
  obtain ⟨t, ht, hrepair⟩ := (FixRequest.forall_fileRepairs hrepairs).2 x hx
  have hnodup : (l.map fun x => tree.locate? x.1).Nodup := by
    have hspec := sourcePlaces_spec hwf config (env.targetPath r.target)
    have hmap : (l.map fun x => tree.locate? x.1) = (l.map (·.1)).map tree.locate? := by
      rw [List.map_map]
      rfl
    rw [hmap, ← sourcePaths_fileRepairs hrepairs, hspec.1]
    exact hspec.2.1.map fun _ _ => Option.some.inj
  rw [FixRequest.repairedTree, if_pos hwrite,
    read?_writeRepairs (locate?_fileRepairs hrepairs) hnodup x hx p hp]
  cases hworth : x.2.isWorthWriting with
  | true => rfl
  | false =>
      rw [if_neg Bool.false_ne_true, text_of_not_isWorthWriting hrepair hworth,
        ← FileTree.readPath?_of_locate? hp, ht]

theorem sourcePaths_repairedTree :
    sourcePaths (r.repairedTree tree l) config (env.targetPath r.target) =
      sourcePaths tree config (env.targetPath r.target) :=
  sourcePaths_of_sources hwf (sameShape_repairedTree hrepairs) fun _ hq =>
    read?_repairedTree_frame hrepairs hq

omit hwf in
theorem suppressions_repairedTree (hroot : tree.locate? env.root = some root)
    (hapart : ∀ p ∈ r.places env tree config, ¬ root ++ [keptName] <+: p)
    (hlist : ∀ p ∈ r.places env tree config, p.getLast? ≠ some suppressionListName) :
    env.suppressions (r.repairedTree tree l) = env.suppressions tree := by
  refine Environment.suppressions_of_sameShape hroot (sameShape_repairedTree hrepairs) fun p hp =>
    ?_
  have hmem : p ∈ r.places env tree config := by
    by_contra hmem
    exact hp (read?_repairedTree_frame hrepairs hmem)
  exact ⟨hapart p hmem, hlist p hmem⟩

end Repaired

/-! ## Agreement -/

section Agreement
variable (hroot : tree.locate? env.root = some root)
  (hapart : ∀ p ∈ r.places env tree config, ¬ root ++ [keptName] <+: p)
include hroot hapart

/-- Behind a repair that was written a source reads its repaired text. -/
theorem read?_writing (hwf : tree.WellFormed) (hrepairs : r.fileRepairs env tree config = .ok l)
    {x : Text × FileRepair} (hx : x ∈ l) (hp : tree.locate? x.1 = some p) :
    (r.writing.run env tree config).tree.locate? x.1 = some p ∧
      (r.writing.run env tree config).tree.read? p = some x.2.report.text := by
  have hrun := FixRequest.run_eq r.writing env tree config
  rw [FixRequest.fileRepairs_writing, hrepairs] at hrun
  cases l with
  | nil => cases hx
  | cons y l =>
      have hrepairs' : r.writing.fileRepairs env tree config = .ok (y :: l) := hrepairs
      have hshape := sameShape_repairedTree hrepairs'
      have hroot' := (hshape.locate? _).trans hroot
      have hmem : p ∈ r.places env tree config := (mem_places hrepairs).mpr ⟨x, hx, hp⟩
      rw [hrun]
      exact ⟨locate?_judge hroot' ((hshape.locate? _).trans hp),
        (read?_judge hroot' (hapart p hmem)).trans (read?_repairedTree hwf hrepairs' rfl hx hp)⟩

omit hapart in
theorem read?_trying (hp : ¬ root ++ [keptName] <+: p) :
    (r.trying.run env tree config).tree.read? p = tree.read? p := by
  rw [FixRequest.run_eq]
  cases r.trying.fileRepairs env tree config with
  | error failure => rfl
  | ok l =>
      cases l with
      | nil => rfl
      | cons x l =>
          show (r.trying.judge env tree config _).tree.read? p = _
          exact read?_judge hroot hp

theorem sources_writing (hwf : tree.WellFormed) (hrepairs : r.fileRepairs env tree config = .ok l) :
    env.sources (r.writing.run env tree config).tree (l.map (·.1)) = .ok (l.map (·.2.result)) := by
  have hload : loadSources (r.writing.run env tree config).tree env.root (l.map (·.1)) =
      .ok (l.map (·.2.result)) := by
    refine mapM_ok_iff.mpr (List.forall₂_map_left_iff.mpr (List.forall₂_map_right_iff.mpr
      (List.forall₂_same.mpr fun x hx => ?_)))
    obtain ⟨p, hp, -⟩ := locate?_fileRepairs hrepairs x hx
    obtain ⟨hlocate, hread⟩ := read?_writing hroot hapart hwf hrepairs hx hp
    obtain ⟨t, -, hrepair⟩ := (FixRequest.forall_fileRepairs hrepairs).2 x hx
    obtain ⟨codes, hx2⟩ := exists_apply hrepair
    rw [FileTree.readPath?_of_locate? hlocate, hread, FileRepair.result, hx2]
  rw [Environment.sources, hload]

section Outcome
variable (hlist : ∀ p ∈ r.places env tree config, p.getLast? ≠ some suppressionListName)
include hlist

/-- What a repair comes to is the judgment of the repaired texts, with the suppressions as they were
before. -/
theorem outcome_run :
    (r.run env tree config).outcome =
      match r.fileRepairs env tree config with
      | .error failure => .error failure
      | .ok [] => .ok true
      | .ok (x :: l) =>
        judgment config.policy (r.modeFor config) ((x :: l).map (·.2.result))
          (env.suppressions tree) := by
  rw [FixRequest.run_eq]
  cases hrepairs : r.fileRepairs env tree config with
  | error failure => rfl
  | ok l =>
      cases l with
      | nil => rfl
      | cons x l =>
          show (r.judge env _ config _).outcome = judgment _ _ _ _
          rw [FixRequest.outcome_judge, suppressions_repairedTree hrepairs hroot hapart hlist,
            List.map_map]
          rfl

/-- A check behind a written repair comes to the same judgment. -/
theorem outcome_check_writing (hwf : tree.WellFormed)
    (hapart' : ∀ p ∈ r.places env (r.writing.run env tree config).tree config,
      ¬ root ++ [keptName] <+: p)
    {c : CheckRequest} (htarget : c.target = r.target) (hmode : c.storageMode = r.storageMode) :
    (c.run env (r.writing.run env tree config).tree config).outcome =
      (r.writing.run env tree config).outcome := by
  have houtcome := outcome_run (r := r.writing) hroot hapart hlist
  have hrun := FixRequest.run_eq r.writing env tree config
  rw [FixRequest.fileRepairs_writing] at houtcome hrun
  cases hrepairs : r.fileRepairs env tree config with
  | error failure =>
      rw [hrepairs] at houtcome hrun
      rw [houtcome, hrun]
      exact outcome_check_error htarget hmode hrepairs
  | ok l =>
      obtain ⟨d, hd, hpaths⟩ := sourcePaths_eq_ok (FixRequest.forall_fileRepairs hrepairs).1
      have hfiles := sources_writing hroot hapart hwf hrepairs
      have hsame : (r.writing.run env tree config).tree.locate? (env.targetPath r.target) = some d ∧
          sourcePaths (r.writing.run env tree config).tree config (env.targetPath r.target) =
            l.map (·.1) ∧
          env.suppressions (r.writing.run env tree config).tree = env.suppressions tree := by
        rw [hrepairs] at hrun
        cases l with
        | nil => rw [hrun]; exact ⟨hd, hpaths.symm, rfl⟩
        | cons x l =>
            have hrepairs' : r.writing.fileRepairs env tree config = .ok (x :: l) := hrepairs
            have hshape := sameShape_repairedTree hrepairs'
            have hroot' := (hshape.locate? _).trans hroot
            have hd' := (hshape.locate? _).trans hd
            rw [hrun] at hapart' ⊢
            refine ⟨locate?_judge hroot' hd', ?_, ?_⟩
            · rw [sourcePaths_judge (hshape.wellFormed hwf) hroot' hd' hapart', hpaths]
              exact sourcePaths_repairedTree hwf hrepairs'
            · exact (suppressions_judge hroot').trans
                (suppressions_repairedTree hrepairs' hroot hapart hlist)
      obtain ⟨hlocate, hpaths', hsuppressions⟩ := hsame
      have hcheck : env.sourcePaths (r.writing.run env tree config).tree config c.target =
          .ok (l.map (·.1)) := by
        rw [htarget, sourcePaths_of_locate? hlocate, hpaths']
      rw [CheckRequest.outcome_check c hcheck hfiles, houtcome, hrepairs, hsuppressions, hmode]
      cases l with
      | nil => rfl
      | cons x l => rfl

end Outcome

end Agreement

/-- A project with a file to repair and a list of suppressions. -/
def shop : FileTree where
  files := [
    (["shop", "src", "a.ts"].map String.toList,
      "import \x7b z \x7d from 'zod';\nconst A = z.string();\n".toList),
    (["shop", ".sentinelignore"].map String.toList, "MISSING_APP_EXPORT\n".toList)]
  directories := []

def shopEnvironment : Environment := ⟨"/shop".toList, "2026-01-31".toList⟩

def shopRequest : FixRequest := ⟨"src".toList, none, true, false, false⟩

def shopCheck : CheckRequest := ⟨"src".toList, none, .text, true, false⟩

/-- A project with a list of suppressions that reads as a program: its suppression stands in a
schema that nothing uses. -/
def selfListed : FileTree where
  files := [(["shop", ".sentinelignore"].map String.toList,
    ("import \x7b z \x7d from 'zod';\nconst A = z.object(\x7b\nUNSAFE_BODY_CAST *\n\x7d);\n" ++
      "const b = req.body as Foo;\n").toList)]
  directories := []

def listRequest : FixRequest := ⟨".sentinelignore".toList, none, true, true, false⟩

end ServiceGate
