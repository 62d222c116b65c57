/-
# Paths of files below a directory

A file below a directory has a path from it: the names between the two, with slashes between them.
In a well-formed tree, whose names are what file systems take for names, that path leads back to the
file (`locate?_below`), and its last component is the file's own name (`fileName?_below`).

A tree is a list of places with texts and a list of directories, which need not fit together:
`WellFormed` says that no two files have the same place, and that the components of every place are
names.  A path leads through the tree name by name (`foldlM_names`), and a path from a directory
goes on where the directory's own path has led (`follow?_join`).

Two ways in which trees are compared recur: `SameShape`, where files were written over, and `Grows`,
where something was written.
-/
import Mathlib.Data.List.TakeWhile
import ServiceGate.FileTree.Basic
import ServiceGate.FileTree.Sources
import ServiceGate.Proofs.Text.Pieces

/-!
## What a write leaves as it was

A write changes the text at one place.  Over a file that is there already it changes nothing else
(`SameShape`): the same files and directories are there, and every path leads where it led.  A new
file adds directories, but what a path led to it leads to still (`Grows`).
-/

namespace ServiceGate.FileTree

variable {tree tree' tree'' : FileTree} {p q : Place} {t : Text} {path : Text}

/-! ## The places of files -/

theorem isFile_iff : tree.isFile p = true ↔ p ∈ tree.files.map (·.1) := by
  rw [isFile, read?, List.lookup_isSome_iff, List.mem_map]
  constructor
  · rintro ⟨f, hf, hp⟩
    exact ⟨f, hf, (beq_iff_eq.mp hp).symm⟩
  · rintro ⟨f, hf, hp⟩
    exact ⟨f, hf, beq_iff_eq.mpr hp.symm⟩

theorem isFile_of_read? (h : tree.read? p = some t) : tree.isFile p = true := by
  rw [isFile, h]
  rfl

theorem map_fst_putFile (files : List (Place × Text)) :
    (putFile p t files).map (·.1) =
      if p ∈ files.map (·.1) then files.map (·.1) else files.map (·.1) ++ [p] := by
  induction files with
  | nil => rfl
  | cons f rest ih =>
      by_cases hp : f.1 = p
      · rw [putFile, if_pos hp, List.map_cons, List.map_cons, if_pos (by simp [hp]), hp]
      · rw [putFile, if_neg hp, List.map_cons, ih, List.map_cons]
        have hne : p ≠ f.1 := fun h => hp h.symm
        by_cases hmem : p ∈ rest.map (·.1)
        · rw [if_pos hmem, if_pos (List.mem_cons_of_mem _ hmem)]
        · rw [if_neg hmem, if_neg (fun h => (List.mem_cons.mp h).elim hne hmem), List.cons_append]

theorem places_write_new (h : tree.isFile p = false) :
    (tree.write p t).files.map (·.1) = tree.files.map (·.1) ++ [p] := by
  have hp : p ∉ tree.files.map (·.1) := fun hmem => by
    rw [isFile_iff.mpr hmem] at h
    cases h
  show (putFile p t tree.files).map (·.1) = _
  rw [map_fst_putFile, if_neg hp]

theorem hasBelow_eq : tree.hasBelow p = (tree.files.map (·.1)).any fun q =>
    p.isPrefixOf q && q != p := by
  rw [hasBelow, List.any_map]
  rfl

/-! ## Trees of one shape -/

/-- Two trees with the same files, whatever their texts, and the same directories. -/
structure SameShape (tree tree' : FileTree) : Prop where
  places : tree'.files.map (·.1) = tree.files.map (·.1)
  directories : tree'.directories = tree.directories

namespace SameShape

theorem refl (tree : FileTree) : SameShape tree tree := ⟨rfl, rfl⟩

theorem trans (h : SameShape tree tree') (h' : SameShape tree' tree'') : SameShape tree tree'' :=
  ⟨h'.places.trans h.places, h'.directories.trans h.directories⟩

theorem write (h : tree.isFile p = true) (t : Text) : SameShape tree (tree.write p t) where
  places := by
    show (putFile p t tree.files).map (·.1) = _
    rw [map_fst_putFile, if_pos (isFile_iff.mp h)]
  directories := rfl

theorem isFile (h : SameShape tree tree') (p : Place) : tree'.isFile p = tree.isFile p := by
  rw [Bool.eq_iff_iff, isFile_iff, isFile_iff, h.places]

theorem isDirectory (h : SameShape tree tree') (p : Place) :
    tree'.isDirectory p = tree.isDirectory p := by
  simp only [FileTree.isDirectory, hasBelow_eq, h.places, h.directories]

theorem isThere (h : SameShape tree tree') (p : Place) : tree'.isThere p = tree.isThere p := by
  rw [FileTree.isThere, FileTree.isThere, h.isFile, h.isDirectory]

theorem locate? (h : SameShape tree tree') (path : Text) :
    tree'.locate? path = tree.locate? path := by
  have hstep : tree'.step? = tree.step? := by
    funext p name
    simp only [step?, h.isDirectory]
  simp only [FileTree.locate?, follow?, hstep, h.isThere]

end SameShape

/-! ## Trees that have grown -/

/-- A tree in which nothing is gone that another one has. -/
structure Grows (tree tree' : FileTree) : Prop where
  isFile : ∀ p, tree.isFile p = true → tree'.isFile p = true
  isDirectory : ∀ p, tree.isDirectory p = true → tree'.isDirectory p = true

namespace Grows

theorem write (tree : FileTree) (p : Place) (t : Text) : Grows tree (tree.write p t) := by
  by_cases hp : tree.isFile p = true
  · have h := SameShape.write hp t
    exact ⟨fun q hq => by rw [h.isFile, hq], fun q hq => by rw [h.isDirectory, hq]⟩
  · have hplaces := places_write_new (t := t) (Bool.not_eq_true _ ▸ hp)
    constructor
    · intro q hq
      rw [isFile_iff, hplaces]
      exact List.mem_append_left _ (isFile_iff.mp hq)
    · intro q hq
      have hdirs : (tree.write p t).directories = tree.directories := rfl
      simp only [FileTree.isDirectory, hasBelow_eq, Bool.or_eq_true] at hq ⊢
      rw [hplaces, hdirs, List.any_append, Bool.or_eq_true]
      exact hq.imp_right .inl

theorem isThere (h : Grows tree tree') (hp : tree.isThere p = true) : tree'.isThere p = true := by
  rw [FileTree.isThere, Bool.or_eq_true] at hp ⊢
  exact hp.imp (h.isFile p) (h.isDirectory p)

theorem step? (h : Grows tree tree') {name : Text} (hp : tree.step? p name = some q) :
    tree'.step? p name = some q := by
  have hdir : tree.isDirectory p = true := by
    cases hd : tree.isDirectory p with
    | true => rfl
    | false =>
        rw [FileTree.step?, hd] at hp
        cases hp
  rw [FileTree.step?, hdir] at hp
  rw [FileTree.step?, h.isDirectory p hdir]
  exact hp

theorem foldlM (h : Grows tree tree') :
    ∀ {names : List Text} {p : Place}, names.foldlM tree.step? p = some q →
      names.foldlM tree'.step? p = some q
  | [], _, hq => hq
  | name :: names, p, hq => by
      rw [List.foldlM_cons] at hq ⊢
      obtain ⟨r, hr, hq⟩ := Option.bind_eq_some_iff.mp hq
      exact Option.bind_eq_some_iff.mpr ⟨r, h.step? hr, h.foldlM hq⟩

theorem locate? (h : Grows tree tree') (hp : tree.locate? path = some p) :
    tree'.locate? path = some p := by
  obtain ⟨q, hq, hthere⟩ := Option.bind_eq_some_iff.mp hp
  split at hthere
  · next hq' =>
      obtain rfl := Option.some.inj hthere
      exact Option.bind_eq_some_iff.mpr ⟨q, h.foldlM hq, if_pos (h.isThere hq')⟩
  · cases hthere

end Grows

theorem isThere_of_locate? (h : tree.locate? path = some p) : tree.isThere p = true := by
  obtain ⟨q, -, hthere⟩ := Option.bind_eq_some_iff.mp h
  split at hthere
  · next hq =>
      obtain rfl := Option.some.inj hthere
      exact hq
  · cases hthere

theorem readPath?_of_locate? (h : tree.locate? path = some p) :
    tree.readPath? path = tree.read? p := by
  rw [readPath?, h]
  rfl

theorem exists_locate?_of_readPath? (h : tree.readPath? path = some t) :
    ∃ p, tree.locate? path = some p ∧ tree.read? p = some t :=
  Option.bind_eq_some_iff.mp h

end ServiceGate.FileTree

namespace ServiceGate

/-! ## Names -/

/-- What a file system takes for the name of a file or a directory. -/
structure IsName (n : Text) : Prop where
  ne_nil : n ≠ []
  noSlash : '/' ∉ n
  ne_here : n ≠ ['.']
  ne_parent : n ≠ ['.', '.']

theorem isName_iff {n : Text} : IsName n ↔ n ≠ [] ∧ '/' ∉ n ∧ n ≠ ['.'] ∧ n ≠ ['.', '.'] :=
  ⟨fun h => ⟨h.ne_nil, h.noSlash, h.ne_here, h.ne_parent⟩, fun ⟨h, h', h'', h'''⟩ =>
    ⟨h, h', h'', h'''⟩⟩

instance (n : Text) : Decidable (IsName n) := decidable_of_iff' _ isName_iff

namespace FileTree

/-- A tree as file systems have them: a map whose keys are rows of names. -/
structure WellFormed (tree : FileTree) : Prop where
  nodup : (tree.files.map (·.1)).Nodup
  names : ∀ p ∈ tree.files.map (·.1), ∀ n ∈ p, IsName n
  directoryNames : ∀ p ∈ tree.directories, ∀ n ∈ p, IsName n

variable {tree : FileTree} {d p : Place} {target : Text}

/-! ## Following a path further down -/

theorem isDirectory_of_prefix (hp : tree.isFile p = true) (hd : d <+: p) (hne : p ≠ d) :
    tree.isDirectory d = true := by
  have hbelow : tree.hasBelow d = true := by
    rw [hasBelow_eq, List.any_eq_true]
    refine ⟨p, isFile_iff.mp hp, ?_⟩
    rw [Bool.and_eq_true, List.isPrefixOf_iff_prefix, bne_iff_ne]
    exact ⟨hd, hne⟩
  rw [isDirectory, hbelow, Bool.or_true]

theorem step?_name {n : Text} (hd : tree.isDirectory d = true) (hn : IsName n) :
    tree.step? d n = some (d ++ [n]) := by
  rw [step?, hd]
  simp [hn.ne_nil, hn.ne_here, hn.ne_parent]

/-- Names are followed one by one down to a file. -/
theorem foldlM_names (hp : tree.isFile p = true) :
    ∀ {names : List Text} {d : Place}, p = d ++ names → (∀ n ∈ names, IsName n) →
      names.foldlM tree.step? d = some p
  | [], d, heq, _ => by rw [heq, List.append_nil]; rfl
  | n :: names, d, heq, hnames => by
      obtain ⟨hn, hrest⟩ := List.forall_mem_cons.mp hnames
      have hd : tree.isDirectory d = true :=
        isDirectory_of_prefix hp ⟨n :: names, heq.symm⟩ fun h => by
          have hlen := congrArg List.length (heq.symm.trans h)
          simp at hlen
      rw [List.foldlM_cons, step?_name hd hn]
      exact foldlM_names hp (by rw [heq, List.append_assoc]; rfl) hrest

/-- Names lead nowhere but to their own place. -/
theorem eq_append_of_foldlM {q : Place} :
    ∀ {names : List Text} {d : Place}, (∀ n ∈ names, IsName n) →
      names.foldlM tree.step? d = some q → q = d ++ names
  | [], d, _, h => by
      rw [List.append_nil]
      exact (Option.some.inj h).symm
  | n :: names, d, hnames, h => by
      obtain ⟨hn, hrest⟩ := List.forall_mem_cons.mp hnames
      rw [List.foldlM_cons] at h
      obtain ⟨r, hr, hq⟩ := Option.bind_eq_some_iff.mp h
      have hdir : tree.isDirectory d = true := by
        cases hd : tree.isDirectory d with
        | true => rfl
        | false =>
            rw [step?, hd] at hr
            cases hr
      rw [step?_name hdir hn] at hr
      obtain rfl := Option.some.inj hr
      rw [eq_append_of_foldlM hrest hq, List.append_assoc]
      rfl

theorem follow?_append (x y : Text) :
    tree.follow? (x ++ '/' :: y) =
      (tree.follow? x).bind fun q => (y.pieces '/').foldlM tree.step? q := by
  rw [follow?, Text.pieces_append, List.foldlM_append]
  rfl

theorem startsWith_slash {t : Text} (h : ∀ n ∈ (t.pieces '/').head?, n ≠ []) :
    t.startsWith ['/'] = false := by
  cases t with
  | nil => rfl
  | cons c t =>
      by_cases hc : c = '/'
      · subst hc
        exact absurd rfl (h [] rfl)
      · rw [Text.startsWith, List.isPrefixOf, beq_eq_false_iff_ne.mpr (Ne.symm hc)]
        rfl

theorem follow?_join {names : List Text} (hd : tree.follow? target = some d) (hne : names ≠ [])
    (hnames : ∀ n ∈ names, IsName n) :
    tree.follow? (FilePath.join target (Text.join ['/'] names)) = names.foldlM tree.step? d := by
  have hpieces : (Text.join ['/'] names).pieces '/' = names :=
    Text.pieces_join hne fun n hn => (hnames n hn).noSlash
  have hslash : (Text.join ['/'] names).startsWith ['/'] = false := startsWith_slash fun n hn => by
    rw [hpieces] at hn
    exact (hnames n (List.mem_of_mem_head? hn)).ne_nil
  rw [FilePath.join, hslash, if_neg Bool.false_ne_true]
  by_cases hempty : target = []
  · subst hempty
    obtain rfl : [] = d := Option.some.inj hd
    rw [List.isEmpty_nil, Bool.true_or, if_pos rfl, List.nil_append, follow?, hpieces]
  by_cases hend : target.endsWith ['/'] = true
  · obtain ⟨x, rfl⟩ := List.isSuffixOf_iff_suffix.mp hend
    rw [hend, Bool.or_true, if_pos rfl, List.append_assoc, List.singleton_append, follow?_append,
      hpieces]
    -- the empty piece behind the slash stays in the directory
    have hx := hd
    rw [follow?_append] at hx
    obtain ⟨q, hq, hlast⟩ := Option.bind_eq_some_iff.mp hx
    obtain ⟨r, hr, hrd⟩ := Option.bind_eq_some_iff.mp hlast
    obtain rfl := Option.some.inj hrd
    rw [step?] at hr
    split at hr
    · cases hr
    · obtain rfl := Option.some.inj hr
      rw [hq, Option.bind_some]
  · have hcond : (target.isEmpty || target.endsWith ['/']) = false := by
      rw [Bool.or_eq_false_iff, List.isEmpty_eq_false_iff]
      exact ⟨hempty, Bool.not_eq_true _ ▸ hend⟩
    rw [hcond, if_neg Bool.false_ne_true, follow?_append, hd, hpieces, Option.bind_some]

/-! ## The path of a file below a directory -/

section Below
variable (hwf : tree.WellFormed) (hd : tree.locate? target = some d) (hp : tree.isFile p = true)
  (hpre : d <+: p) (hne : p ≠ d)
include hwf hp hpre hne

theorem names_below :
    p = d ++ p.drop d.length ∧ p.drop d.length ≠ [] ∧ ∀ n ∈ p.drop d.length, IsName n := by
  obtain ⟨names, rfl⟩ := hpre
  rw [List.drop_left]
  refine ⟨rfl, fun h => hne (by rw [h, List.append_nil]), fun n hn => ?_⟩
  exact hwf.names _ (isFile_iff.mp hp) n (List.mem_append_right _ hn)

include hd in
theorem locate?_below : tree.locate? (FilePath.join target (pathBelow d p)) = some p := by
  obtain ⟨heq, hnil, hnames⟩ := names_below hwf hp hpre hne
  obtain ⟨q, hq, hthere⟩ := Option.bind_eq_some_iff.mp hd
  obtain rfl : q = d := by
    split at hthere
    · exact Option.some.inj hthere
    · cases hthere
  have hfollow := follow?_join hq hnil hnames
  rw [foldlM_names hp heq hnames] at hfollow
  rw [locate?, pathBelow, hfollow, Option.bind_some, isThere, hp, Bool.true_or, if_pos rfl]

end Below

theorem readPath?_join {names : List Text} (hd : tree.follow? target = some d) (hne : names ≠ [])
    (hnames : ∀ n ∈ names, IsName n) :
    tree.readPath? (FilePath.join target (Text.join ['/'] names)) = tree.read? (d ++ names) := by
  have hfollow := follow?_join hd hne hnames
  cases hread : tree.read? (d ++ names) with
  | some t =>
      have hfile := isFile_of_read? hread
      rw [foldlM_names hfile rfl hnames] at hfollow
      rw [readPath?, locate?, hfollow, Option.bind_some, isThere, hfile, Bool.true_or, if_pos rfl,
        Option.bind_some, hread]
  | none =>
      rw [Option.eq_none_iff_forall_not_mem]
      intro t ht
      obtain ⟨q, hq, hqt⟩ := exists_locate?_of_readPath? (Option.mem_def.mp ht)
      obtain ⟨q', hq', hthere⟩ := Option.bind_eq_some_iff.mp hq
      obtain rfl : q' = q := by
        split at hthere
        · exact Option.some.inj hthere
        · cases hthere
      have hplace : q' = d ++ names := eq_append_of_foldlM hnames (hfollow.symm.trans hq')
      rw [hplace, hread] at hqt
      cases hqt

end FileTree

/-! ## The last component of a path -/

namespace FilePath

variable {n : Text}

theorem behindSlashes_of_notMem : ∀ {t : Text}, '/' ∉ t → behindSlashes t = []
  | [], _ => rfl
  | c :: t, h => by
      rw [List.mem_cons, not_or] at h
      rw [behindSlashes, beq_eq_false_iff_ne.mpr (Ne.symm h.1)]
      exact behindSlashes_of_notMem h.2

theorem exists_behindSlashes (h : '/' ∉ n) :
    ∀ x : Text, ∃ l, behindSlashes (x ++ '/' :: n) = l ++ [n]
  | [] => ⟨[], by
      rw [List.nil_append, behindSlashes, beq_self_eq_true, if_pos rfl, behindSlashes_of_notMem h]
      rfl⟩
  | c :: x => by
      obtain ⟨l, hl⟩ := exists_behindSlashes h x
      rw [List.cons_append, behindSlashes, hl]
      by_cases hc : (c == '/') = true
      · rw [if_pos hc]
        exact ⟨(x ++ '/' :: n) :: l, rfl⟩
      · rw [if_neg hc]
        exact ⟨l, rfl⟩

theorem inner?_name (h : IsName n) : inner? n = some (.name n, n) := by
  have htake : n.takeWhile (· != '/') = n := by
    rw [List.takeWhile_eq_self_iff]
    intro c hc
    rw [bne_iff_ne]
    exact fun heq => h.noSlash (heq ▸ hc)
  rw [inner?, leading?, htake]
  split
  · exact absurd rfl h.ne_nil
  · exact absurd rfl h.ne_here
  · exact absurd rfl h.ne_parent
  · rfl

theorem fileName?_name (h : IsName n) : fileName? n = some n := by
  have hcomponents : components n = [(.name n, n)] := by
    unfold components
    split
    · exact absurd List.mem_cons_self h.noSlash
    · exact absurd rfl h.ne_here
    · exact absurd (List.mem_cons_of_mem _ List.mem_cons_self) h.noSlash
    · rw [behindSlashes_of_notMem h.noSlash, List.filterMap_cons, inner?_name h]
      rfl
  rw [fileName?, hcomponents]
  rfl

theorem fileName?_append (h : IsName n) (x : Text) : fileName? (x ++ '/' :: n) = some n := by
  obtain ⟨l, hl⟩ := exists_behindSlashes h.noSlash x
  have hlast : ∃ l', components (x ++ '/' :: n) = l' ++ [(.name n, n)] := by
    have hfilter : (l ++ [n]).filterMap inner? = l.filterMap inner? ++ [(.name n, n)] := by
      rw [List.filterMap_append, List.filterMap_cons, inner?_name h]
      rfl
    unfold components
    split
    · exact ⟨_ :: l.filterMap inner?, by rw [hl, hfilter]; rfl⟩
    · next hdot =>
        have hlen := congrArg List.length hdot
        have hn := List.length_pos_iff.mpr h.ne_nil
        simp only [List.length_append, List.length_cons, List.length_nil] at hlen
        omega
    · exact ⟨_ :: l.filterMap inner?, by rw [hl, hfilter]; rfl⟩
    · rw [hl, List.filterMap_cons]
      cases inner? (x ++ '/' :: n) with
      | none => exact ⟨_, hfilter⟩
      | some c => exact ⟨c :: l.filterMap inner?, by rw [hfilter]; rfl⟩
  obtain ⟨l', hl'⟩ := hlast
  rw [fileName?, hl', List.getLast?_concat]

end FilePath

namespace Text

theorem join_concat (sep : Char) (n : Text) :
    ∀ {names : List Text}, names ≠ [] → join [sep] (names ++ [n]) = join [sep] names ++ sep :: n
  | [], h => absurd rfl h
  | [m], _ => by simp [join, List.intercalate]
  | m :: k :: names, _ => by
      have h := join_concat sep n (List.cons_ne_nil k names)
      have hl : join [sep] (m :: k :: names) = m ++ sep :: join [sep] (k :: names) := rfl
      have hr : join [sep] ((m :: k :: names) ++ [n]) = m ++ sep ::
          join [sep] ((k :: names) ++ [n]) := rfl
      rw [hr, h, hl, List.append_assoc, List.cons_append]

end Text

namespace FileTree

variable {tree : FileTree} {d p : Place}

/-- The last component of a file's path from a directory is the file's name. -/
theorem fileName?_below (hwf : tree.WellFormed) (hp : tree.isFile p = true) (hpre : d <+: p)
    (hne : p ≠ d) (target : Text) :
    FilePath.fileName? (FilePath.join target (pathBelow d p)) = p.getLast? := by
  obtain ⟨heq, hnil, hnames⟩ := names_below hwf hp hpre hne
  obtain ⟨init, n, hsplit⟩ := (List.eq_nil_or_concat (p.drop d.length)).resolve_left hnil
  have hn : IsName n := hnames n (by rw [hsplit]; simp)
  have hlast : p.getLast? = some n := by
    rw [heq, hsplit, List.concat_eq_append, ← List.append_assoc, List.getLast?_concat]
  have hslash : (pathBelow d p).startsWith ['/'] = false := startsWith_slash fun m hm => by
    rw [pathBelow, Text.pieces_join hnil fun m hm => (hnames m hm).noSlash] at hm
    exact (hnames m (List.mem_of_mem_head? hm)).ne_nil
  have hbelow : pathBelow d p = n ∨ ∃ x, pathBelow d p = x ++ '/' :: n := by
    rw [pathBelow, hsplit, List.concat_eq_append]
    by_cases hinit : init = []
    · exact .inl (by rw [hinit]; simp [Text.join, List.intercalate])
    · exact .inr ⟨_, Text.join_concat '/' n hinit⟩
  rw [hlast, FilePath.join, hslash, if_neg Bool.false_ne_true]
  split
  · next hbase =>
      obtain hbelow | ⟨x, hbelow⟩ := hbelow
      · rw [hbelow]
        rcases Bool.or_eq_true _ _ ▸ hbase with hempty | hend
        · rw [List.isEmpty_iff.mp hempty, List.nil_append, FilePath.fileName?_name hn]
        · obtain ⟨x, rfl⟩ := List.isSuffixOf_iff_suffix.mp hend
          rw [List.append_assoc, List.singleton_append, FilePath.fileName?_append hn]
      · rw [hbelow, ← List.append_assoc, FilePath.fileName?_append hn]
  · obtain hbelow | ⟨x, hbelow⟩ := hbelow
    · rw [hbelow, FilePath.fileName?_append hn]
    · rw [hbelow, ← List.cons_append, ← List.append_assoc, FilePath.fileName?_append hn]

end FileTree

end ServiceGate
