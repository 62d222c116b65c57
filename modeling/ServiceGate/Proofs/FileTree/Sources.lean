/-
# The files of a target when files are written

What the files of a target are depends on the places of files, on where repositories are, and on the
texts of ignore files.  No file that a directory gives as its own is an ignore file: ignore files
have no extension (`ne_ignoreFile`).  So the list of the files stays

    when files of the target are written over              -- `sourcePaths_of_sources`
    when a file is added that is none of the target's      -- `sourcePaths_write_new`

An ignore file is looked up in every directory from a file up to its repository.  A write over a
file that is there changes neither the directories nor the repositories, and the text of an ignore
file only if it is one.  A new file makes the directories that hold it (`isThere_write_iff`), so it
is asked that it makes no repository.
-/
import Mathlib.Data.List.Nodup
import ServiceGate.Proofs.FileTree.Paths

namespace ServiceGate

/-! ## Well-formed trees -/

namespace FileTree

variable {tree tree' : FileTree} {d p q : Place} {t : Text} {target : Text}

theorem SameShape.wellFormed (h : SameShape tree tree') (hwf : tree.WellFormed) :
    tree'.WellFormed where
  nodup := by rw [h.places]; exact hwf.nodup
  names := by rw [h.places]; exact hwf.names
  directoryNames := by rw [h.directories]; exact hwf.directoryNames

theorem WellFormed.write_new (hwf : tree.WellFormed) (hp : tree.isFile p = false)
    (hnames : ∀ n ∈ p, IsName n) : (tree.write p t).WellFormed where
  nodup := by
    have hmem : p ∉ tree.files.map (·.1) := fun h => by
      rw [isFile_iff.mpr h] at hp
      cases hp
    rw [places_write_new hp, List.nodup_append]
    refine ⟨hwf.nodup, List.nodup_singleton p, fun q hq r hr => ?_⟩
    rw [List.mem_singleton.mp hr]
    exact fun heq => hmem (heq ▸ hq)
  names := by
    rw [places_write_new hp]
    intro q hq
    rcases List.mem_append.mp hq with hq | hq
    · exact hwf.names q hq
    · rw [List.mem_singleton.mp hq]
      exact hnames
  directoryNames := hwf.directoryNames

theorem hasBelow_iff : tree.hasBelow p = true ↔ ∃ q, tree.isFile q = true ∧ p <+: q ∧ q ≠ p := by
  rw [hasBelow_eq, List.any_eq_true]
  constructor
  · rintro ⟨q, hq, hcond⟩
    rw [Bool.and_eq_true, List.isPrefixOf_iff_prefix, bne_iff_ne] at hcond
    exact ⟨q, isFile_iff.mpr hq, hcond⟩
  · rintro ⟨q, hq, hcond⟩
    refine ⟨q, isFile_iff.mp hq, ?_⟩
    rw [Bool.and_eq_true, List.isPrefixOf_iff_prefix, bne_iff_ne]
    exact hcond

theorem isDirectory_iff :
    tree.isDirectory p = true ↔ p = [] ∨ (∃ q ∈ tree.directories, p <+: q) ∨
      ∃ q, tree.isFile q = true ∧ p <+: q ∧ q ≠ p := by
  rw [isDirectory, Bool.or_eq_true, Bool.or_eq_true, List.isEmpty_iff, List.any_eq_true,
    hasBelow_iff, or_assoc]
  simp only [List.isPrefixOf_iff_prefix]

theorem WellFormed.names_of_isThere (hwf : tree.WellFormed) (h : tree.isThere p = true) :
    ∀ n ∈ p, IsName n := by
  intro n hn
  rw [isThere, Bool.or_eq_true, isDirectory_iff] at h
  rcases h with hfile | rfl | ⟨q, hq, hpre⟩ | ⟨q, hq, hpre, -⟩
  · exact hwf.names p (isFile_iff.mp hfile) n hn
  · cases hn
  · exact hwf.directoryNames q hq n (hpre.subset hn)
  · exact hwf.names q (isFile_iff.mp hq) n (hpre.subset hn)

theorem isThere_of_prefix (h : tree.isThere p = true) (hd : d <+: p) : tree.isThere d = true := by
  by_cases hne : p = d
  · exact hne ▸ h
  rw [isThere, Bool.or_eq_true, isDirectory_iff] at h ⊢
  refine .inr ?_
  rcases h with hfile | rfl | ⟨q, hq, hpre⟩ | ⟨q, hq, hpre, hqp⟩
  · exact .inr (.inr ⟨p, hfile, hd, hne⟩)
  · exact .inl (List.prefix_nil.mp hd)
  · exact .inr (.inl ⟨q, hq, hd.trans hpre⟩)
  · refine .inr (.inr ⟨q, hq, hd.trans hpre, fun heq => hqp ?_⟩)
    exact hpre.eq_of_length_le (heq ▸ hd.length_le) |>.symm

theorem isFileAt_eq (h : tree.locate? target = some d) : tree.isFileAt target = tree.isFile d := by
  rw [isFileAt, readPath?_of_locate? h, isFile]

theorem isFile_write_iff : (tree.write p t).isFile q = true ↔ q = p ∨ tree.isFile q = true := by
  by_cases h : q = p
  · rw [h, isFile, read?_write]
    exact ⟨fun _ => .inl rfl, fun _ => rfl⟩
  · rw [isFile, read?_write_of_ne _ h, ← isFile]
    exact ⟨.inr, fun h' => h'.resolve_left h⟩

theorem isThere_write_iff :
    (tree.write p t).isThere q = true ↔ tree.isThere q = true ∨ q <+: p := by
  rw [isThere, isThere, Bool.or_eq_true, Bool.or_eq_true, isFile_write_iff, isDirectory_iff,
    isDirectory_iff]
  have hdirs : (tree.write p t).directories = tree.directories := rfl
  rw [hdirs]
  constructor
  · rintro ((rfl | hq) | hnil | hdir | ⟨r, hr, hpre, hne⟩)
    · exact .inr (List.prefix_refl q)
    · exact .inl (.inl hq)
    · exact .inl (.inr (.inl hnil))
    · exact .inl (.inr (.inr (.inl hdir)))
    · rcases isFile_write_iff.mp hr with rfl | hr
      · exact .inr hpre
      · exact .inl (.inr (.inr (.inr ⟨r, hr, hpre, hne⟩)))
  · rintro ((hq | hnil | hdir | ⟨r, hr, hpre, hne⟩) | hpre)
    · exact .inl (.inr hq)
    · exact .inr (.inl hnil)
    · exact .inr (.inr (.inl hdir))
    · exact .inr (.inr (.inr ⟨r, isFile_write_iff.mpr (.inr hr), hpre, hne⟩))
    · by_cases hne : p = q
      · exact .inl (.inl hne.symm)
      · exact .inr (.inr (.inr ⟨p, isFile_write_iff.mpr (.inl rfl), hpre, hne⟩))

theorem isDirectory_of_write (h : (tree.write p t).isDirectory q = true)
    (hnot : ¬ (q <+: p ∧ p ≠ q)) :
    tree.isDirectory q = true := by
  refine isDirectory_iff.mpr ((isDirectory_iff.mp h).imp_right (Or.imp_right ?_))
  rintro ⟨r, hr, hpre, hne⟩
  refine ⟨r, (isFile_write_iff.mp hr).resolve_left ?_, hpre, hne⟩
  rintro rfl
  exact hnot ⟨hpre, hne⟩

theorem ne_of_mem_holders (h : q ∈ holders p) : q ≠ p := by
  rintro rfl
  obtain ⟨n, hn, heq⟩ := List.mem_map.mp h
  have hlength := congrArg List.length heq
  rw [List.length_take] at hlength
  have hlt := List.mem_range.mp hn
  omega

theorem obstacle?_eq_none_iff : tree.obstacle? p = none ↔
    (∀ q ∈ holders p, tree.isFile q = false) ∧ tree.isDirectory p = false := by
  rw [obstacle?]
  split_ifs with hholders hdir
  · obtain ⟨q, hq, hfile⟩ := List.any_eq_true.mp hholders
    exact ⟨nofun, fun h => absurd ((h.1 q hq).symm.trans hfile) Bool.false_ne_true⟩
  · exact ⟨nofun, fun h => absurd (h.2.symm.trans hdir) Bool.false_ne_true⟩
  · exact ⟨fun _ => ⟨fun q hq => Bool.eq_false_iff.mpr fun hfile =>
      hholders (List.any_eq_true.mpr ⟨q, hq, hfile⟩), Bool.eq_false_iff.mpr hdir⟩, fun _ => rfl⟩

theorem obstacle?_write (h : tree.obstacle? p = none) : (tree.write p t).obstacle? p = none := by
  obtain ⟨hholders, hdir⟩ := obstacle?_eq_none_iff.mp h
  refine obstacle?_eq_none_iff.mpr ⟨fun q hq => Bool.eq_false_iff.mpr fun hfile => ?_,
    Bool.eq_false_iff.mpr fun hdir' => ?_⟩
  · have hbefore := (isFile_write_iff.mp hfile).resolve_left (ne_of_mem_holders hq)
    exact Bool.false_ne_true ((hholders q hq).symm.trans hbefore)
  · have hbefore := isDirectory_of_write hdir' fun hself => hself.2 rfl
    exact Bool.false_ne_true (hdir.symm.trans hbefore)

/-! ## What the ignore files say -/

def ignoreFiles : List Place :=
  [[".ignore".toList], [".gitignore".toList], [".git".toList, "info".toList, "exclude".toList]]

/-- Two trees with the same ignore files and the same repositories leave out the same files. -/
theorem isIgnoredBelow_congr
    (hread : ∀ d, ∀ f ∈ ignoreFiles, tree'.read? (d ++ f) = tree.read? (d ++ f))
    (hrepository : ∀ d, tree'.isRepository d = tree.isRepository d) :
    tree'.isIgnoredBelow = tree.isIgnoredBelow := by
  have hmention : ∀ f ∈ ignoreFiles, tree'.mentionIn? f = tree.mentionIn? f := by
    intro f hf
    funext isDirectory p directory
    rw [mentionIn?, mentionIn?, hread directory f hf]
  have hholders : tree'.repositoryHolders = tree.repositoryHolders := by
    funext p
    simp only [repositoryHolders, hrepository]
  have hall : tree'.mention? = tree.mention? := by
    funext isDirectory p
    rw [mention?, mention?, hholders, hmention _ (by simp [ignoreFiles]),
      hmention _ (by simp [ignoreFiles]), hmention _ (by simp [ignoreFiles])]
  funext directory p
  rw [isIgnoredBelow, isIgnoredBelow, hall]

/-- A file with an extension is no ignore file. -/
theorem ne_ignoreFile {n : Text} (hlast : p.getLast? = some n)
    (hext : (FilePath.extensionOf? n).isSome = true) :
    ∀ d, ∀ f ∈ ignoreFiles, d ++ f ≠ p := by
  intro d f hf heq
  have hname : n ∈ [".ignore".toList, ".gitignore".toList, "exclude".toList] := by
    rw [← heq] at hlast
    rcases List.mem_cons.mp hf with rfl | hf
    · rw [List.getLast?_concat] at hlast
      obtain rfl := Option.some.inj hlast
      exact List.mem_cons_self
    rcases List.mem_cons.mp hf with rfl | hf
    · rw [List.getLast?_concat] at hlast
      obtain rfl := Option.some.inj hlast
      exact List.mem_cons_of_mem _ List.mem_cons_self
    · rw [List.mem_singleton.mp hf, List.getLast?_append] at hlast
      obtain rfl := Option.some.inj hlast
      exact List.mem_cons_of_mem _ (List.mem_cons_of_mem _ List.mem_cons_self)
  have hnone : ∀ m ∈ [".ignore".toList, ".gitignore".toList, "exclude".toList],
      (FilePath.extensionOf? m).isSome = false := by decide
  rw [hnone n hname] at hext
  cases hext

theorem mergeSort_concat_filter {l : List Place} {keep : Place → Bool} (h : keep p = false) :
    ((l ++ [p]).mergeSort fun p q => !decide (q < p)).filter keep =
      (l.mergeSort fun p q => !decide (q < p)).filter keep := by
  have htrans : ∀ a b c : Place, (!decide (b < a)) = true → (!decide (c < b)) = true →
      (!decide (c < a)) = true := by
    simp only [Bool.not_eq_true', decide_eq_false_iff_not, List.not_lt]
    exact fun a b c => List.le_trans
  have htotal : ∀ a b : Place, (!decide (b < a) || !decide (a < b)) = true := by
    simp only [Bool.or_eq_true, Bool.not_eq_true', decide_eq_false_iff_not, List.not_lt]
    exact List.le_total
  have hanti : ∀ a b : Place, (!decide (b < a)) = true → (!decide (a < b)) = true → a = b := by
    simp only [Bool.not_eq_true', decide_eq_false_iff_not, List.not_lt]
    exact fun a b => List.le_antisymm
  refine List.Perm.eq_of_pairwise (fun a b _ _ => hanti a b)
    ((List.pairwise_mergeSort htrans htotal _).filter _)
    ((List.pairwise_mergeSort htrans htotal _).filter _) ?_
  refine ((List.mergeSort_perm _ _).filter keep).trans ?_
  rw [List.filter_append, List.filter_cons_of_neg (by rw [h]; exact Bool.false_ne_true),
    List.filter_nil, List.append_nil]
  exact ((List.mergeSort_perm l _).filter keep).symm

end FileTree

/-! ## The places of a target's files -/

variable {tree tree' : FileTree} {config : Config} {target : Text} {d p : Place} {t : Text}

def sourcePlaces (tree : FileTree) (config : Config) (target : Text) : List Place :=
  (sourcePaths tree config target).filterMap tree.locate?

/-- Whether a file below a directory counts as one of the target's. -/
def isSource (tree : FileTree) (config : Config) (target : Text) (d p : Place) : Bool :=
  !tree.isIgnoredBelow d p && !config.skips (FilePath.join target (FileTree.pathBelow d p))

theorem sourcePaths_file (h : tree.isFileAt target = true) :
    sourcePaths tree config target = [target] := by
  rw [sourcePaths, if_pos h]

theorem sourcePaths_directory (h : tree.isFileAt target = false)
    (hd : tree.locate? target = some d) :
    sourcePaths tree config target =
      ((tree.filesBelow d).filter (isSource tree config target d)).map fun p =>
        FilePath.join target (FileTree.pathBelow d p) := by
  rw [sourcePaths, if_neg (by rw [h]; exact Bool.false_ne_true), hd]
  show ((((tree.filesBelow d).filter (!tree.isIgnoredBelow d ·)).map _).filter _) = _
  rw [List.filter_map, List.filter_filter]
  congr 1
  refine List.filter_congr fun p _ => ?_
  rw [isSource, Function.comp_apply, Bool.and_comm]

theorem mem_filesBelow :
    p ∈ tree.filesBelow d ↔ tree.isFile p = true ∧ d <+: p ∧ p ≠ d := by
  rw [FileTree.filesBelow, List.mem_mergeSort, List.mem_filter, ← FileTree.isFile_iff,
    Bool.and_eq_true, List.isPrefixOf_iff_prefix, bne_iff_ne]

section
variable (hwf : tree.WellFormed)
include hwf

theorem sourcePlaces_directory (h : tree.isFileAt target = false)
    (hd : tree.locate? target = some d) :
    (sourcePaths tree config target).map tree.locate? =
      ((tree.filesBelow d).filter (isSource tree config target d)).map some := by
  rw [sourcePaths_directory h hd, List.map_map]
  refine List.map_congr_left fun p hp => ?_
  obtain ⟨hfile, hpre, hne⟩ := mem_filesBelow.mp (List.mem_filter.mp hp).1
  exact FileTree.locate?_below hwf hd hfile hpre hne

theorem exists_sourcePlaces (config : Config) (target : Text) :
    ∃ places : List Place, (sourcePaths tree config target).map tree.locate? = places.map some ∧
      places.Nodup ∧ ∀ p ∈ places, tree.isFile p = true ∧
        (tree.isFileAt target = true ∨
          ∃ n, p.getLast? = some n ∧ (FilePath.extensionOf? n).isSome = true) := by
  cases hfile : tree.isFileAt target with
  | true =>
      obtain ⟨t, ht⟩ := Option.isSome_iff_exists.mp hfile
      obtain ⟨p, hp, hread⟩ := FileTree.exists_locate?_of_readPath? ht
      refine ⟨[p],
        by rw [sourcePaths_file hfile, List.map_cons, hp]; rfl, List.nodup_singleton p, ?_⟩
      intro q hq
      rw [List.mem_singleton.mp hq]
      exact ⟨FileTree.isFile_of_read? hread, .inl rfl⟩
  | false =>
      cases hd : tree.locate? target with
      | none =>
          refine ⟨[], ?_, List.nodup_nil, fun p hp => absurd hp List.not_mem_nil⟩
          rw [sourcePaths, if_neg (by rw [hfile]; exact Bool.false_ne_true), hd]
          rfl
      | some d =>
          refine ⟨_, sourcePlaces_directory hwf hfile hd, ?_, ?_⟩
          · exact (((List.mergeSort_perm _ _).nodup_iff.mpr (hwf.nodup.filter _)).filter _)
          · intro p hp
            obtain ⟨hbelow, hsource⟩ := List.mem_filter.mp hp
            obtain ⟨hpfile, hpre, hne⟩ := mem_filesBelow.mp hbelow
            refine ⟨hpfile, .inr ?_⟩
            have hname := FileTree.fileName?_below hwf hpfile hpre hne target
            rw [isSource, Bool.and_eq_true, Bool.not_eq_true', Bool.not_eq_true', Config.skips,
              Bool.or_eq_false_iff, Bool.or_eq_false_iff, Bool.not_eq_false', FilePath.extension?,
              hname] at hsource
            obtain ⟨e, he, -⟩ := Option.any_eq_true _ _ |>.mp hsource.2.1.2
            obtain ⟨n, hn, hext⟩ := Option.bind_eq_some_iff.mp he
            exact ⟨n, hn, by rw [hext]; rfl⟩

/-- Every path of a target's file leads to a file, and each to another. -/
theorem sourcePlaces_spec (config : Config) (target : Text) :
    (sourcePaths tree config target).map tree.locate? =
        (sourcePlaces tree config target).map some ∧
      (sourcePlaces tree config target).Nodup ∧
      ∀ p ∈ sourcePlaces tree config target, tree.isFile p = true ∧
        (tree.isFileAt target = true ∨
          ∃ n, p.getLast? = some n ∧ (FilePath.extensionOf? n).isSome = true) := by
  obtain ⟨places, hmap, hrest⟩ := exists_sourcePlaces hwf config target
  have hplaces : sourcePlaces tree config target = places := by
    have hid : ∀ l : List Text, l.filterMap tree.locate? = (l.map tree.locate?).filterMap id :=
      fun l => by rw [List.filterMap_map, Function.id_comp]
    rw [sourcePlaces, hid, hmap, List.filterMap_map, Function.id_comp, List.filterMap_some]
  rw [hplaces]
  exact ⟨hmap, hrest⟩

/-! ## Writing and the files of a target -/

omit hwf in
/-- Files may be written over that are no ignore files. -/
theorem sourcePaths_of_sameShape (hshape : FileTree.SameShape tree tree')
    (hread : tree.isFileAt target = false →
      ∀ d, ∀ f ∈ FileTree.ignoreFiles, tree'.read? (d ++ f) = tree.read? (d ++ f)) :
    sourcePaths tree' config target = sourcePaths tree config target := by
  have hlocate := hshape.locate? target
  cases hd : tree.locate? target with
  | none =>
      have hfile : tree.isFileAt target = false := by
        rw [FileTree.isFileAt, FileTree.readPath?, hd]; rfl
      have hfile' : tree'.isFileAt target = false := by
        rw [FileTree.isFileAt, FileTree.readPath?, hlocate, hd]; rfl
      rw [sourcePaths, sourcePaths, hfile, hfile', hlocate, hd]
  | some d =>
      have hfile : tree'.isFileAt target = tree.isFileAt target := by
        rw [FileTree.isFileAt_eq hd, FileTree.isFileAt_eq (hlocate.trans hd), hshape.isFile]
      cases htarget : tree.isFileAt target with
      | true => rw [sourcePaths_file htarget, sourcePaths_file (hfile.trans htarget)]
      | false =>
          have hignored : tree'.isIgnoredBelow = tree.isIgnoredBelow :=
            FileTree.isIgnoredBelow_congr (hread htarget) fun e => by
              rw [FileTree.isRepository, FileTree.isRepository, hshape.isThere]
          have hsource : isSource tree' config target d = isSource tree config target d := by
            funext q
            rw [isSource, isSource, hignored]
          rw [sourcePaths_directory htarget hd,
            sourcePaths_directory (hfile.trans htarget) (hlocate.trans hd), hsource,
            FileTree.filesBelow, FileTree.filesBelow, hshape.places]

/-- Files of the target may be written over. -/
theorem sourcePaths_of_sources (hshape : FileTree.SameShape tree tree')
    (hread : ∀ q, q ∉ sourcePlaces tree config target → tree'.read? q = tree.read? q) :
    sourcePaths tree' config target = sourcePaths tree config target := by
  refine sourcePaths_of_sameShape hshape fun htarget d f hf => hread _ fun hmem => ?_
  rcases ((sourcePlaces_spec hwf config target).2.2 _ hmem).2 with h | ⟨n, hn, hext⟩
  · rw [htarget] at h
    cases h
  · exact FileTree.ne_ignoreFile hn hext d f hf rfl

/-- A file may be added that is none of the target's, no ignore file, and makes no repository. -/
theorem sourcePaths_write_new (hp : tree.isThere p = false) (hnames : ∀ n ∈ p, IsName n)
    (hd : tree.locate? target = some d)
    (hignore : ∀ d, ∀ f ∈ FileTree.ignoreFiles, d ++ f ≠ p)
    (hrepository : ∀ d, (tree.write p t).isRepository d = tree.isRepository d)
    (hout : p ∉ sourcePlaces (tree.write p t) config target) :
    sourcePaths (tree.write p t) config target = sourcePaths tree config target := by
  have hnew : tree.isFile p = false := (Bool.or_eq_false_iff.mp hp).1
  have hne : d ≠ p := fun heq => by
    rw [heq] at hd
    rw [FileTree.isThere_of_locate? hd] at hp
    cases hp
  have hd' : (tree.write p t).locate? target = some d := (FileTree.Grows.write tree p t).locate? hd
  have hfile : (tree.write p t).isFileAt target = tree.isFileAt target := by
    rw [FileTree.isFileAt_eq hd, FileTree.isFileAt_eq hd', FileTree.isFile, FileTree.isFile,
      FileTree.read?_write_of_ne _ hne]
  cases htarget : tree.isFileAt target with
  | true => rw [sourcePaths_file htarget, sourcePaths_file (hfile.trans htarget)]
  | false =>
      have hignored : (tree.write p t).isIgnoredBelow = tree.isIgnoredBelow :=
        FileTree.isIgnoredBelow_congr
          (fun e f hf => FileTree.read?_write_of_ne _ (hignore e f hf) t) hrepository
      have hsource : isSource (tree.write p t) config target d = isSource tree config target d := by
        funext q
        rw [isSource, isSource, hignored]
      have hpaths : sourcePaths _ config target = _ :=
        sourcePaths_directory (hfile.trans htarget) hd'
      rw [sourcePaths_directory htarget hd, hpaths, hsource]
      congr 1
      rw [FileTree.filesBelow, FileTree.filesBelow, FileTree.places_write_new hnew,
        List.filter_append]
      by_cases hpre : d <+: p
      · -- the new file lies below the target, but does not count
        have hkept : isSource tree config target d p = false := by
          rw [Bool.eq_false_iff]
          intro hkept
          have hwf' := hwf.write_new (t := t) hnew hnames
          have hpfile : (tree.write p t).isFile p = true := FileTree.isFile_write_iff.mpr (.inl rfl)
          refine hout (List.mem_filterMap.mpr ⟨_, ?_,
            FileTree.locate?_below hwf' hd' hpfile hpre (Ne.symm hne)⟩)
          rw [hpaths, hsource]
          refine List.mem_map_of_mem (List.mem_filter.mpr ⟨mem_filesBelow.mpr ?_, hkept⟩)
          exact ⟨hpfile, hpre, Ne.symm hne⟩
        have hone : [p].filter (fun q => d.isPrefixOf q && q != d) = [p] := by
          rw [List.filter_cons_of_pos (by simpa using ⟨hpre, Ne.symm hne⟩), List.filter_nil]
        rw [hone]
        exact FileTree.mergeSort_concat_filter hkept
      · have hone : [p].filter (fun q => d.isPrefixOf q && q != d) = [] := by
          rw [List.filter_cons_of_neg (by simp [hpre]), List.filter_nil]
        rw [hone, List.append_nil]

end

end ServiceGate
