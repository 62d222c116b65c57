/-
# What the gate keeps of a project

The gate keeps its files in one directory under the project's root.  Counting a run writes one of
them, and nothing else (`countRun_cases`).  Where no file of a target lies in that directory, the
count changes neither the files of the target (`sourcePaths_countRun`) nor the suppressions
(`suppressions_countRun`), and the suppressions stay whatever is written to files that are neither
in that directory nor lists of suppressions (`suppressions_congr`).

Keeping the counts can fail, where a file stands in the way of the directory or a directory in the
way of the file, and then nothing is written (`keepStatistics_eq`).  If it succeeds it may make the
directory, but no directory above it, so no repository comes into being
(`isRepository_write_counts`) that would bring ignore rules with it.
-/
import ServiceGate.Command.Environment
import ServiceGate.Proofs.FileTree.Sources

namespace ServiceGate.Environment

variable {env : Environment} {tree tree' : FileTree} {config : Config} {root d p : Place}
  {target : Text}

/-- The name of the directory in which the gate keeps its files. -/
def keptName : Text := ".sentinel".toList

def countsPlace (root : Place) : Place := root ++ [keptName, "gate_stats.json".toList]

def storePlace (root : Place) : Place := root ++ [keptName, "ignore.json".toList]

theorem isName_kept :
    ∀ names ∈ [statisticsFile, suppressionFile], ∀ n ∈ names.map String.toList, IsName n := by
  decide

theorem follow?_of_locate? (h : tree.locate? target = some p) : tree.follow? target = some p := by
  obtain ⟨q, hq, hthere⟩ := Option.bind_eq_some_iff.mp h
  split at hthere
  · exact hq.trans hthere
  · cases hthere

section Root
variable (hroot : tree.locate? env.root = some root)
include hroot

theorem read?_suppressionFile : env.read? tree suppressionFile = tree.read? (storePlace root) :=
  FileTree.readPath?_join (follow?_of_locate? hroot) (List.cons_ne_nil _ _)
    (isName_kept _ (List.mem_cons_of_mem _ List.mem_cons_self))

theorem read?_statisticsFile : env.read? tree statisticsFile = tree.read? (countsPlace root) :=
  FileTree.readPath?_join (follow?_of_locate? hroot) (List.cons_ne_nil _ _)
    (isName_kept _ List.mem_cons_self)

/-! ## Counting a run -/

theorem keepStatistics_eq (s : Statistics) : env.keepStatistics tree s =
    if (tree.obstacle? (countsPlace root)).isNone then tree.write
    (countsPlace root) s.render else tree := by
  have hplace : env.place tree statisticsFile = countsPlace root := by
    rw [Environment.place, hroot]
    rfl
  rw [Environment.keepStatistics, Environment.write, hplace, FileTree.tryWrite]
  cases tree.obstacle? (countsPlace root) <;> rfl

/-- A count is written where it is kept, over what is there or as a new file, unless something is in
its way. -/
theorem countRun_cases (count : Statistics → Statistics) :
    env.countRun count tree = tree ∨
      (tree.isFile (countsPlace root) = true ∨ tree.isThere (countsPlace root) = false) ∧
        ∃ t, env.countRun count tree = tree.write (countsPlace root) t := by
  rw [Environment.countRun, keepStatistics_eq hroot]
  cases hobstacle : tree.obstacle? (countsPlace root) with
  | some fault => exact .inl rfl
  | none =>
      refine .inr ⟨?_, _, rfl⟩
      have hdir := (FileTree.obstacle?_eq_none_iff.mp hobstacle).2
      rw [FileTree.isThere, hdir, Bool.or_false]
      cases tree.isFile (countsPlace root)
      · exact .inr rfl
      · exact .inl rfl

theorem read?_countRun (count : Statistics → Statistics) (hp : p ≠ countsPlace root) :
    (env.countRun count tree).read? p = tree.read? p := by
  rcases countRun_cases hroot count with h | ⟨-, t, h⟩
  · rw [h]
  · rw [h, FileTree.read?_write_of_ne _ hp]

theorem locate?_countRun (count : Statistics → Statistics) (hd : tree.locate? target = some d) :
    (env.countRun count tree).locate? target = some d := by
  rcases countRun_cases hroot count with h | ⟨-, t, h⟩
  · rw [h, hd]
  · rw [h]
    exact (FileTree.Grows.write tree _ t).locate? hd

omit hroot in
theorem getLast?_countsPlace : (countsPlace root).getLast? = some "gate_stats.json".toList := by
  rw [countsPlace, List.getLast?_append]
  rfl

omit hroot in
theorem ne_countsPlace (h : ¬ root ++ [keptName] <+: p) : p ≠ countsPlace root :=
  fun heq => h ⟨["gate_stats.json".toList], by rw [heq, countsPlace, List.append_assoc]; rfl⟩

theorem isRepository_write_counts (t : Text) (d : Place) :
    (tree.write (countsPlace root) t).isRepository d = tree.isRepository d := by
  rw [Bool.eq_iff_iff, FileTree.isRepository, FileTree.isRepository, FileTree.isThere_write_iff]
  refine ⟨fun h => h.elim id fun hpre => ?_, .inl⟩
  obtain ⟨rest, hrest⟩ := hpre
  have hlen : rest.length = 0 ∨ rest.length = 1 ∨ 2 ≤ rest.length := by omega
  rcases hlen with hzero | hone | htwo
  · rw [List.length_eq_zero_iff.mp hzero, List.append_nil] at hrest
    have hlast := congrArg List.getLast? hrest
    rw [List.getLast?_concat, getLast?_countsPlace] at hlast
    exact absurd (Option.some.inj hlast) (by decide)
  · obtain ⟨n, rfl⟩ := List.length_eq_one_iff.mp hone
    have hinit := congrArg List.dropLast hrest
    have hkept : (countsPlace root).dropLast = root ++ [keptName] := by simp [countsPlace]
    rw [List.dropLast_concat, hkept] at hinit
    have hlast := congrArg List.getLast? hinit
    rw [List.getLast?_concat, List.getLast?_concat] at hlast
    exact absurd (Option.some.inj hlast) (by decide)
  · have hpre : d ++ [".git".toList] <+: root := by
      refine List.prefix_of_prefix_length_le ⟨rest, hrest⟩ (List.prefix_append root _) ?_
      have hlength := congrArg List.length hrest
      simp only [countsPlace, List.length_append, List.length_cons, List.length_nil] at hlength ⊢
      omega
    exact FileTree.isThere_of_prefix (FileTree.isThere_of_locate? hroot) hpre

theorem sourcePaths_countRun (hwf : tree.WellFormed) (count : Statistics → Statistics)
    (hd : tree.locate? target = some d)
    (hout : ∀ p ∈ sourcePlaces (env.countRun count tree) config target,
      ¬ root ++ [keptName] <+: p) :
    sourcePaths (env.countRun count tree) config target = sourcePaths tree config target := by
  have hignore : ∀ d, ∀ f ∈ FileTree.ignoreFiles, d ++ f ≠ countsPlace root :=
    FileTree.ne_ignoreFile getLast?_countsPlace (by decide)
  rcases countRun_cases hroot count with h | ⟨hfile | hnew, t, h⟩
  · rw [h]
  · rw [h]
    exact sourcePaths_of_sameShape (FileTree.SameShape.write hfile t) fun _ d f hf =>
      FileTree.read?_write_of_ne _ (hignore d f hf) t
  · rw [h] at hout ⊢
    refine sourcePaths_write_new hwf hnew ?_ hd hignore (isRepository_write_counts hroot t) ?_
    · intro n hn
      rcases List.mem_append.mp hn with hn | hn
      · exact hwf.names_of_isThere (FileTree.isThere_of_locate? hroot) n hn
      · exact isName_kept statisticsFile List.mem_cons_self n hn
    · exact fun hmem => ne_countsPlace (hout _ hmem) rfl

end Root

/-! ## Suppressions -/

/-- The suppressions depend on the stored ones and on the lists. -/
theorem suppressions_congr (hroot : tree.locate? env.root = some root)
    (hroot' : tree'.locate? env.root = some root)
    (hplaces : (tree'.files.map (·.1)).filter (·.getLast? == some suppressionListName) =
      (tree.files.map (·.1)).filter (·.getLast? == some suppressionListName))
    (hstore : tree'.read? (storePlace root) = tree.read? (storePlace root))
    (hlists : ∀ p, p.getLast? = some suppressionListName → tree'.read? p = tree.read? p) :
    env.suppressions tree' = env.suppressions tree := by
  have hdirectories :
      env.suppressionListDirectories tree' = env.suppressionListDirectories tree := by
    simp only [suppressionListDirectories, hroot, hroot', ← List.filter_filter, hplaces]
  have hread : ∀ d, tree'.read? (d ++ [suppressionListName]) =
      tree.read? (d ++ [suppressionListName]) :=
    fun d => hlists _ List.getLast?_concat
  simp only [suppressions, storedSuppressions, listedSuppressions, read?_suppressionFile hroot,
    read?_suppressionFile hroot', hstore, hdirectories, hread]

theorem suppressions_countRun (hroot : tree.locate? env.root = some root)
    (count : Statistics → Statistics) :
    env.suppressions (env.countRun count tree) = env.suppressions tree := by
  have hlast : (countsPlace root).getLast? ≠ some suppressionListName := by
    rw [getLast?_countsPlace]
    decide
  refine suppressions_congr hroot (locate?_countRun hroot count hroot) ?_ ?_ fun p hp => ?_
  · rcases countRun_cases hroot count with h | ⟨hfile | hnew, t, h⟩
    · rw [h]
    · rw [h, (FileTree.SameShape.write hfile t).places]
    · rw [h, FileTree.places_write_new (Bool.or_eq_false_iff.mp hnew).1, List.filter_append,
        List.filter_cons_of_neg (by simpa using hlast), List.filter_nil, List.append_nil]
  · refine read?_countRun hroot count fun heq => ?_
    have hnames := List.append_cancel_left heq
    exact absurd hnames (by decide)
  · exact read?_countRun hroot count fun heq => hlast (heq ▸ hp)

/-- Files may be written over that the gate does not keep and that list no suppressions. -/
theorem suppressions_of_sameShape (hroot : tree.locate? env.root = some root)
    (hshape : FileTree.SameShape tree tree')
    (hread : ∀ p, tree'.read? p ≠ tree.read? p →
      ¬ root ++ [keptName] <+: p ∧ p.getLast? ≠ some suppressionListName) :
    env.suppressions tree' = env.suppressions tree := by
  refine suppressions_congr hroot ((hshape.locate? _).trans hroot) (by rw [hshape.places]) ?_ ?_
  · by_contra hne
    exact (hread _ hne).1 ⟨["ignore.json".toList], by rw [storePlace, List.append_assoc]; rfl⟩
  · intro p hp
    by_contra hne
    exact (hread p hne).2 hp

end ServiceGate.Environment
