/-
# Projects in different places

What is selected below a directory is told by the paths that the walk yields and by what the
configuration says of each as a whole, from the top of the file system on.  A path below an absolute
root is the root's components and then its own (`components_join`), so a pattern covers it where the
pattern covers it at the top already, or where the pattern reaches it from the root: as a component
of the root, or by an occurrence that begins in the root (`patternCovers_join`).

So two roots with one and the same walk give the same selection exactly if no file that is kept at
the top is reached from one root and not from the other (`selection_moved`).  A project that is
checked out below a directory with the name of a pattern loses all its files
(`not_always_same_selection`).
-/
import ServiceGate.Proofs.FileTree.Sources
import ServiceGate.Proofs.Text.Bounds

namespace ServiceGate

namespace FilePath

variable {root root' t r x y part pattern : Text}

/-! ## Components below a directory -/

def innerComponents (x : Text) : List (PathComponent × Text) :=
  (x :: behindSlashes x).filterMap inner?

theorem behindSlashes_append (y : Text) : ∀ x : Text,
    behindSlashes (x ++ '/' :: y) = (behindSlashes x).map (· ++ '/' :: y) ++ y :: behindSlashes y
  | [] => rfl
  | c :: x => by
      rw [List.cons_append, behindSlashes, behindSlashes, behindSlashes_append y x]
      split <;> rfl

theorem leading?_append (part y : Text) : leading? (part ++ '/' :: y) = leading? part := by
  have htake : (part ++ '/' :: y).takeWhile (· != '/') = part.takeWhile (· != '/') := by
    induction part with
    | nil => rfl
    | cons c part ih => rw [List.cons_append, List.takeWhile_cons, List.takeWhile_cons, ih]
  rw [leading?, leading?, htake]

theorem inner?_append (part y : Text) :
    inner? (part ++ '/' :: y) = (inner? part).map fun c => (c.1, c.2 ++ '/' :: y) := by
  rw [inner?, inner?, leading?_append, Option.map_map]
  rfl

theorem innerComponents_append (x y : Text) :
    innerComponents (x ++ '/' :: y) =
      (innerComponents x).map (fun c => (c.1, c.2 ++ '/' :: y)) ++ innerComponents y := by
  have hparts : (x ++ '/' :: y) :: behindSlashes (x ++ '/' :: y) =
      (x :: behindSlashes x).map (· ++ '/' :: y) ++ y :: behindSlashes y := by
    rw [behindSlashes_append]
    rfl
  rw [innerComponents, hparts, List.filterMap_append, List.filterMap_map, innerComponents,
    innerComponents, List.map_filterMap]
  congr 2
  funext part
  exact inner?_append part y

theorem components_slash (x : Text) : components ('/' :: x) = (.root, '/' :: x) ::
    innerComponents x := rfl

theorem exists_slash (h : x.startsWith ['/'] = true) : ∃ y, x = '/' :: y := by
  obtain ⟨y, hy⟩ := List.isPrefixOf_iff_prefix.mp h
  exact ⟨y, hy.symm⟩

theorem exists_join (hroot : root.startsWith ['/'] = true) (hx : x.startsWith ['/'] = false) :
    ∃ s, join root x = s ++ '/' :: x ∧ (root = s ∨ root = s ++ ['/']) := by
  obtain ⟨y, rfl⟩ := exists_slash hroot
  rw [join, hx, if_neg Bool.false_ne_true, List.isEmpty_cons, Bool.false_or]
  by_cases hend : Text.endsWith ('/' :: y) ['/'] = true
  · obtain ⟨s, hs⟩ := List.isSuffixOf_iff_suffix.mp hend
    refine ⟨s, ?_, .inr hs.symm⟩
    rw [if_pos hend, ← hs, List.append_assoc]
    rfl
  · exact ⟨_, if_neg hend, .inl rfl⟩

/-- The components of a path below a root are the root's and then the path's own. -/
theorem components_join (hroot : root.startsWith ['/'] = true) (hx : x.startsWith ['/'] = false) :
    ∃ l, components (join root x) = l ++ innerComponents x ∧
    l.map (·.1) = (components root).map (·.1) := by
  obtain ⟨s, hjoin, hs⟩ := exists_join hroot hx
  have hnil : innerComponents [] = [] := rfl
  rw [hjoin]
  cases s with
  | nil =>
      obtain rfl : root = ['/'] := hs.resolve_left fun h => by rw [h] at hroot; cases hroot
      exact ⟨[(.root, '/' :: x)], components_slash x, rfl⟩
  | cons c s =>
      obtain rfl : c = '/' := by
        obtain ⟨y, hy⟩ := exists_slash hroot
        rcases hs with h | h
        · exact (List.cons.inj (h.symm.trans hy)).1
        · exact (List.cons.inj (h.symm.trans hy)).1
      refine ⟨(.root, '/' :: (s ++ '/' :: x)) :: (innerComponents s).map fun c =>
        (c.1, c.2 ++ '/' :: x), ?_, ?_⟩
      · rw [List.cons_append, components_slash, innerComponents_append, List.cons_append]
      · rcases hs with rfl | rfl
        · rw [components_slash, List.map_cons, List.map_cons, List.map_map]
          rfl
        · rw [List.cons_append, components_slash, innerComponents_append, hnil, List.append_nil,
            List.map_cons, List.map_cons, List.map_map, List.map_map]
          rfl

theorem behind?_append {base : List PathComponent} {l rest : List (PathComponent × Text)}
    (h : l.map (·.1) = base) : behind? base (l ++ rest) = some rest := by
  subst h
  induction l with
  | nil => cases rest <;> rfl
  | cons c l ih => rw [List.map_cons, List.cons_append, behind?, if_pos rfl, ih]

theorem relativeTo_join (hroot : root.startsWith ['/'] = true)
    (hroot' : root'.startsWith ['/'] = true) (hx : x.startsWith ['/'] = false) :
    relativeTo root (join root x) = relativeTo root' (join root' x) := by
  obtain ⟨l, hl, hbase⟩ := components_join hroot hx
  obtain ⟨l', hl', hbase'⟩ := components_join hroot' hx
  rw [relativeTo, relativeTo, behindBase?, behindBase?, hl, hl', behind?_append hbase,
    behind?_append hbase']
  rfl

theorem endsWith_slash_iff : x.endsWith ['/'] = true ↔ x.getLast? = some '/' := by
  rw [Text.endsWith, List.isSuffixOf_iff_suffix, List.getLast?_eq_some_iff]
  exact ⟨fun ⟨y, hy⟩ => ⟨y, hy.symm⟩, fun ⟨y, hy⟩ => ⟨y, hy.symm⟩⟩

theorem endsWith_append (x : Text) (ht : t ≠ []) : Text.endsWith (x ++ t) ['/'] =
    t.endsWith ['/'] := by
  rw [Bool.eq_iff_iff, endsWith_slash_iff, endsWith_slash_iff, List.getLast?_append_of_ne_nil _ ht]

def asBase (base : Text) : Text := if base.isEmpty || base.endsWith ['/'] then base else base ++
  ['/']

theorem join_eq (base : Text) (hx : x.startsWith ['/'] = false) : join base x = asBase base ++
    x := by
  rw [join, hx, if_neg Bool.false_ne_true, asBase]
  split
  · rfl
  · rw [List.append_assoc]
    rfl

theorem asBase_append (base t : Text) : asBase (asBase base ++ t) = asBase base ++ asBase t := by
  by_cases hnil : t = []
  · subst hnil
    have hempty : asBase [] = [] := rfl
    rw [hempty, List.append_nil, asBase, asBase]
    split
    · rfl
    · rw [endsWith_slash_iff.mpr List.getLast?_concat, Bool.or_true, if_pos rfl]
  · have hbelow : (asBase base ++ t).isEmpty = t.isEmpty := by
      rw [Bool.eq_iff_iff, List.isEmpty_iff, List.isEmpty_iff, List.append_eq_nil_iff]
      exact and_iff_right_of_imp fun h => absurd h hnil
    rw [asBase, hbelow, endsWith_append _ hnil, asBase.eq_1 t]
    split
    · rfl
    · rw [List.append_assoc]

theorem startsWith_join (ht : t.startsWith ['/'] = false) (hr : r.startsWith ['/'] = false) :
    (join t r).startsWith ['/'] = false := by
  rw [join_eq t hr, asBase]
  cases t with
  | nil => exact hr
  | cons c t => split <;> exact ht

theorem join_join (root : Text) (ht : t.startsWith ['/'] = false)
    (hr : r.startsWith ['/'] = false) :
    join (join root t) r = join root (join t r) := by
  rw [join_eq root (startsWith_join ht hr), join_eq t hr, join_eq (join root t) hr, join_eq root ht,
    asBase_append, List.append_assoc]

/-! ## Patterns below a directory -/

/-- A pattern covers a path below a root from the root on: it is a component of the root, or it has
a slash and occurs in the path from a place in the root. -/
def IsReached (root x pattern : Text) : Prop :=
  pattern ∈ (components root).map (·.1.text) ∨
    '/' ∈ pattern ∧ ∃ k < root.length, pattern <+: (join root x).drop k

theorem patternCovers_iff {path : Text} : Config.patternCovers path pattern = true ↔
    pattern ∈ (components path).map (·.1.text) ∨ '/' ∈ pattern ∧ pattern <:+: path := by
  rw [Config.patternCovers, Bool.or_eq_true, List.any_eq_true, Bool.and_eq_true, Text.contains_iff,
    List.any_eq_true, List.mem_map]
  simp only [beq_iff_eq, exists_eq_right]

theorem infix_join_iff (hroot : root.startsWith ['/'] = true) (hx : x.startsWith ['/'] = false) :
    pattern <:+: join root x ↔
      pattern <:+: '/' :: x ∨ ∃ k < root.length, pattern <+: (join root x).drop k := by
  obtain ⟨s, hjoin, hs⟩ := exists_join hroot hx
  have hle : s.length ≤ root.length := by
    rcases hs with rfl | rfl
    · exact Nat.le_refl _
    · exact List.length_append ▸ Nat.le_add_right _ _
  constructor
  · intro h
    obtain ⟨rest, hpattern, hrest⟩ := List.infix_iff_prefix_suffix.mp h
    rw [List.suffix_iff_eq_drop.mp hrest] at hpattern
    rcases Nat.lt_or_ge ((join root x).length - rest.length) root.length with hk | hk
    · exact .inr ⟨_, hk, hpattern⟩
    · rw [hjoin, List.drop_append, List.drop_eq_nil_of_le (hle.trans (hjoin ▸ hk)), List.nil_append]
        at hpattern
      exact .inl (hpattern.isInfix.trans (List.drop_suffix _ _).isInfix)
  · rintro (h | ⟨k, -, h⟩)
    · rw [hjoin]
      exact h.trans (List.suffix_append s _).isInfix
    · exact h.isInfix.trans (List.drop_suffix _ _).isInfix

instance (root x pattern : Text) : Decidable (IsReached root x pattern) :=
  inferInstanceAs (Decidable (_ ∨ _))

/-- What covers a path below a root covers it at the top, or reaches it from the root. -/
theorem patternCovers_join (hroot : root.startsWith ['/'] = true)
    (hx : x.startsWith ['/'] = false) :
    Config.patternCovers (join root x) pattern = true ↔
      Config.patternCovers ('/' :: x) pattern = true ∨ IsReached root x pattern := by
  obtain ⟨l, hl, hfirsts⟩ := components_join hroot hx
  have hnames : l.map (·.1.text) = (components root).map (·.1.text) := by
    have h := congrArg (List.map PathComponent.text) hfirsts
    rwa [List.map_map, List.map_map] at h
  have hslash : ['/'] ∈ (components root).map (·.1.text) := by
    obtain ⟨y, rfl⟩ := exists_slash hroot
    exact List.mem_cons_self
  have htop : pattern ∈ (components ('/' :: x)).map (·.1.text) ↔
      pattern = ['/'] ∨ pattern ∈ (innerComponents x).map (·.1.text) := List.mem_cons
  rw [patternCovers_iff, patternCovers_iff, hl, List.map_append, hnames, List.mem_append,
    infix_join_iff hroot hx, htop, IsReached]
  constructor
  · rintro ((h | h) | ⟨h, h' | h'⟩)
    · exact .inr (.inl h)
    · exact .inl (.inl (.inr h))
    · exact .inl (.inr ⟨h, h'⟩)
    · exact .inr (.inr ⟨h, h'⟩)
  · rintro (((rfl | h) | ⟨h, h'⟩) | h | ⟨h, h'⟩)
    · exact .inl (.inl hslash)
    · exact .inl (.inr h)
    · exact .inr ⟨h, .inl h'⟩
    · exact .inl (.inl h)
    · exact .inr ⟨h, .inr h'⟩

end FilePath

namespace Config

open FilePath

variable {config : Config} {root root' t r x : Text}

/-- Whether some pattern reaches a path below a root from the root. -/
def ReachesFrom (config : Config) (root x : Text) : Prop :=
  ∃ pattern ∈ config.ignorePatterns, IsReached root x pattern

instance (config : Config) (root x : Text) : Decidable (config.ReachesFrom root x) :=
  inferInstanceAs (Decidable (∃ pattern ∈ _, _))

theorem skips_join (hroot : root.startsWith ['/'] = true) (hx : x.startsWith ['/'] = false)
    (hname : fileName? (join root x) = fileName? ('/' :: x)) :
    config.skips (join root x) = true ↔ config.skips ('/' :: x) = true ∨
    config.ReachesFrom root x := by
  have hpatterns : config.ignorePatterns.any (patternCovers (join root x)) = true ↔
      config.ignorePatterns.any (patternCovers ('/' :: x)) = true ∨ config.ReachesFrom root x := by
    simp only [List.any_eq_true, patternCovers_join hroot hx, and_or_left, exists_or, ReachesFrom]
  rw [skips, skips, extension?, extension?, hname]
  simp only [Bool.or_eq_true, hpatterns, or_assoc]

end Config

/-! ## The selection below a directory -/

namespace FileTree

variable {tree : FileTree} {config : Config} {d : Place} {root t r target : Text}

/-- What the walk of a directory yields, by the paths from the directory. -/
def walked (tree : FileTree) (d : Place) : List Text :=
  ((tree.filesBelow d).filter (!tree.isIgnoredBelow d ·)).map (pathBelow d)

/-- The files of a target that are selected, by the paths from the target. -/
def selection (tree : FileTree) (config : Config) (target : Text) (d : Place) : List Text :=
  (tree.walked d).filter fun r => !config.skips (FilePath.join target r)

theorem sourcePaths_selection (hdir : tree.isFileAt target = false)
    (hd : tree.locate? target = some d) :
    sourcePaths tree config target = (tree.selection config target d).map
    (FilePath.join target) := by
  rw [sourcePaths, if_neg (by rw [hdir]; exact Bool.false_ne_true), hd, selection, walked,
    List.filter_map, List.map_map]
  exact List.filter_map

theorem mem_walked (hwf : tree.WellFormed) (hr : r ∈ tree.walked d) :
    r.startsWith ['/'] = false ∧ ∃ name, ∀ base, FilePath.fileName? (FilePath.join base r) =
    name := by
  obtain ⟨p, hp, rfl⟩ := List.mem_map.mp hr
  obtain ⟨hfile, hpre, hne⟩ := mem_filesBelow.mp (List.mem_filter.mp hp).1
  obtain ⟨-, hnil, hnames⟩ := names_below hwf hfile hpre hne
  refine ⟨startsWith_slash fun n hn => ?_, _, fileName?_below hwf hfile hpre hne⟩
  rw [pathBelow, Text.pieces_join hnil fun m hm => (hnames m hm).noSlash] at hn
  exact (hnames n (List.mem_of_mem_head? hn)).ne_nil

/-- A file of the walk is kept if it is kept at the top and no pattern reaches it from the root. -/
theorem keeps_iff (config : Config) (hwf : tree.WellFormed) (hroot : root.startsWith ['/'] = true)
    (ht : t.startsWith ['/'] = false) (hr : r ∈ tree.walked d) :
    (!config.skips (FilePath.join (FilePath.join root t) r)) = true ↔
      config.skips ('/' :: FilePath.join t r) = false ∧
      ¬ config.ReachesFrom root (FilePath.join t r) := by
  obtain ⟨hrelative, name, hname⟩ := mem_walked hwf hr
  have hbelow := FilePath.startsWith_join ht hrelative
  have hjoin := FilePath.join_join root ht hrelative
  have htop : '/' :: FilePath.join t r = FilePath.join (FilePath.join ['/'] t) r := by
    rw [FilePath.join_join _ ht hrelative, FilePath.join_eq _ hbelow]
    rfl
  have hsame : FilePath.fileName? (FilePath.join root (FilePath.join t r)) =
      FilePath.fileName? ('/' :: FilePath.join t r) := by rw [← hjoin, htop, hname, hname]
  rw [hjoin, Bool.not_eq_true', ← Bool.not_eq_true, Config.skips_join hroot hbelow hsame, not_or,
    Bool.not_eq_true]

end FileTree

open FilePath (components join relativeTo)

/-- Two projects of which the walk yields the same files below a target, wherever they lie.  Each
selects those of the files that are kept at the top and that no pattern reaches from its root; so
none where a directory above it has the name of a pattern.  Both select the same files, and show
them in the same way, exactly if no file that is kept at the top is reached from one root and not
from the other. -/
theorem selection_moved {tree tree' : FileTree} (config : Config) (root root' t : Text)
    {d d' : Place} (hwf : tree.WellFormed) (hwf' : tree'.WellFormed)
    (hroot : root.startsWith ['/'] = true) (hroot' : root'.startsWith ['/'] = true)
    (ht : t.startsWith ['/'] = false) (hdir : tree.isFileAt (join root t) = false)
    (hdir' : tree'.isFileAt (join root' t) = false) (hd : tree.locate? (join root t) = some d)
    (hd' : tree'.locate? (join root' t) = some d') (hwalk : tree.walked d = tree'.walked d') :
    let kept := tree.selection config (join root t) d
    let kept' := tree'.selection config (join root' t) d'
    sourcePaths tree config (join root t) = kept.map (join (join root t)) ∧
      sourcePaths tree' config (join root' t) = kept'.map (join (join root' t)) ∧
      (∀ r ∈ tree.walked d, relativeTo root (join (join root t) r) =
        relativeTo root' (join (join root' t) r)) ∧
      (∀ r, r ∈ kept ↔ r ∈ tree.walked d ∧ config.skips ('/' :: join t r) = false ∧
        ¬ config.ReachesFrom root (join t r)) ∧
      ((∃ pattern ∈ config.ignorePatterns, pattern ∈ (components root).map (·.1.text)) →
        kept = []) ∧
      (kept = kept' ↔ ∀ r ∈ tree.walked d, config.skips ('/' :: join t r) = false →
        (config.ReachesFrom root (join t r) ↔ config.ReachesFrom root' (join t r))) := by
  intro kept kept'
  have hkeeps := fun r (hr : r ∈ tree.walked d) => FileTree.keeps_iff config hwf hroot ht hr
  have hkeeps' := fun r (hr : r ∈ tree'.walked d') => FileTree.keeps_iff config hwf' hroot' ht hr
  have hmem : ∀ r, r ∈ kept ↔ r ∈ tree.walked d ∧ config.skips ('/' :: join t r) = false ∧
      ¬ config.ReachesFrom root (join t r) := fun r =>
    List.mem_filter.trans (and_congr_right (hkeeps r))
  have hmem' : ∀ r, r ∈ kept' ↔ r ∈ tree.walked d ∧ config.skips ('/' :: join t r) = false ∧
      ¬ config.ReachesFrom root' (join t r) := fun r =>
    hwalk ▸ List.mem_filter.trans (and_congr_right (hkeeps' r))
  refine ⟨FileTree.sourcePaths_selection hdir hd, FileTree.sourcePaths_selection hdir' hd',
    fun r hr => ?_, hmem, ?_, ?_⟩
  · obtain ⟨hrelative, -⟩ := FileTree.mem_walked hwf hr
    rw [FilePath.join_join _ ht hrelative, FilePath.join_join _ ht hrelative]
    exact FilePath.relativeTo_join hroot hroot' (FilePath.startsWith_join ht hrelative)
  · rintro ⟨pattern, hpattern, hname⟩
    refine List.eq_nil_iff_forall_not_mem.mpr fun r hr => ?_
    exact ((hmem r).mp hr).2.2 ⟨pattern, hpattern, .inl hname⟩
  · constructor
    · intro hsame r hr htop
      have hiff : r ∈ kept ↔ r ∈ kept' := by rw [hsame]
      rw [hmem, hmem'] at hiff
      simpa [hr, htop, not_iff_not] using hiff
    · intro hreach
      show (tree.walked d).filter _ = (tree'.walked d').filter _
      rw [← hwalk]
      refine List.filter_congr fun r hr => ?_
      rw [Bool.eq_iff_iff, hkeeps r hr, hkeeps' r (hwalk ▸ hr)]
      exact and_congr_right fun htop => not_congr (hreach r hr htop)

def checkouts : FileTree where
  files := [["build", "shop", "src", "server.ts"], ["home", "shop", "src", "server.ts"],
    ["work", "shop", "src", "server.ts"]].map fun names => (names.map String.toList, [])
  directories := []

/-- Two checkouts in directories that no pattern names. -/
theorem selection_moved_home :
    checkouts.selection .default "/work/shop/src".toList
    (["work", "shop", "src"].map String.toList) =
      checkouts.selection .default "/home/shop/src".toList
      (["home", "shop", "src"].map String.toList) := by
  have hwf : checkouts.WellFormed := ⟨by decide, by decide, by decide⟩
  have hwork : checkouts.locate? (join "/work/shop".toList "src".toList) =
    some (["work", "shop", "src"].map String.toList) := by decide
  have hhome : checkouts.locate? (join "/home/shop".toList "src".toList) =
    some (["home", "shop", "src"].map String.toList) := by decide
  obtain ⟨-, -, -, -, -, hiff⟩ :=
    selection_moved .default "/work/shop".toList "/home/shop".toList "src".toList
    hwf hwf (by decide) (by decide) (by decide) (by decide)
      (by decide) hwork hhome (by decide +kernel)
  exact hiff.mpr (by decide +kernel)

/-- A checkout below a directory with the name of a pattern has no files. -/
theorem not_always_same_selection :
    ¬ ∀ (tree tree' : FileTree) (config : Config) (root root' t : Text) (d d' : Place),
    tree.WellFormed → tree'.WellFormed → root.startsWith ['/'] = true →
    root'.startsWith ['/'] = true →
    t.startsWith ['/'] = false → tree.isFileAt (join root t) = false →
    tree'.isFileAt (join root' t) = false →
    tree.locate? (join root t) = some d → tree'.locate? (join root' t) = some d' →
    tree.walked d = tree'.walked d' →
    (sourcePaths tree config (join root t)).map (relativeTo root) =
      (sourcePaths tree' config (join root' t)).map (relativeTo root') := by
  intro h
  have hwf : checkouts.WellFormed := ⟨by decide, by decide, by decide⟩
  have hsame := h checkouts checkouts .default "/build/shop".toList "/work/shop".toList "src".toList
    (["build", "shop", "src"].map String.toList) (["work", "shop", "src"].map String.toList)
    hwf hwf (by decide) (by decide) (by decide) (by decide) (by decide) (by decide) (by decide)
    (by decide +kernel)
  exact absurd hsame (by decide +kernel)

end ServiceGate
