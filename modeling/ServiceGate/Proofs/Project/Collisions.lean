/-
# Collisions between the files of a service

The members of a sorted set stand in strictly ascending order (`pairwise_sortedSet`), so each stands
there once, and two lists with the same members make the same sorted set (`sortedSet_congr`).

A name collides if files under two different paths export it.  The verdict on a service has one
error for each colliding name and none for any other; the error names the paths whose files export
it, each once, in the order in which they first do.  Its repairable codes are computed from the
verdicts on the files; they are those of its own errors, since a collision has no repair.

What collides depends on the files and not on their order: under a permutation of the files the
verdicts on them and the paths that are named for a collision are permuted (`collisions_exact`).

A service has a verdict at all if the `try` blocks in the handlers of its files close in front of
the ends of the handlers (`answers_validateFiles`).  One file without a verdict takes the verdict
from the whole service, whatever the others export (`not_always_judged`).
-/
import Mathlib.Data.List.Perm.Basic
import Mathlib.Data.List.Sort
import Mathlib.Data.String.Basic
import ServiceGate.Project
import ServiceGate.Proofs.Checked.Repair
import ServiceGate.Proofs.Verdict.ByRule
import ServiceGate.Sorted

namespace ServiceGate

section

variable {α : Type} [DecidableEq α] [LT α] [DecidableLT α] [IsStrictTotalOrder α (· < ·)]

theorem pairwise_insertSorted (a : α) : ∀ {as : List α}, as.Pairwise (· < ·) →
    (insertSorted a as).Pairwise (· < ·)
  | [], _ => List.pairwise_singleton _ a
  | b :: as, h => by
      obtain ⟨hb, has⟩ := List.pairwise_cons.mp h
      rw [insertSorted]
      split_ifs with heq hlt
      · exact h
      · refine List.pairwise_cons.mpr ⟨fun c hc => ?_, h⟩
        rcases List.mem_cons.mp hc with rfl | hc
        · exact hlt
        · exact Trans.trans hlt (hb c hc)
      · have hgt : b < a := ((trichotomous_of (· < ·) a b).resolve_left hlt).resolve_left heq
        refine List.pairwise_cons.mpr ⟨fun c hc => ?_, pairwise_insertSorted a has⟩
        rcases mem_insertSorted.mp hc with rfl | hc
        · exact hgt
        · exact hb c hc

theorem pairwise_sortedSet : ∀ as : List α, (sortedSet as).Pairwise (· < ·)
  | [] => .nil
  | a :: as => pairwise_insertSorted a (pairwise_sortedSet as)

theorem nodup_sortedSet (as : List α) : (sortedSet as).Nodup :=
  (pairwise_sortedSet as).imp fun {a b} (h : a < b) (heq : a = b) => irrefl b (heq ▸ h)

/-- A sorted set depends on its members alone. -/
theorem sortedSet_congr {as bs : List α} (h : ∀ a, a ∈ as ↔ a ∈ bs) : sortedSet as = sortedSet bs :=
  (pairwise_sortedSet as).eq_of_mem_iff (pairwise_sortedSet bs) fun a => by
    rw [mem_sortedSet, mem_sortedSet, h]

end

variable {policy : Policy} {mode : StorageMode} {files files' : List SourceFile} {s path : Text}
  {r : ProjectVerdict} {perFile : List (Text × Verdict)}

/-! ## First appearances -/

section FirstAppearance
variable {α : Type} [BEq α] [LawfulBEq α] {a b c : α}

theorem idxOf_lt_of_filter {keep : α → Bool} (hb : keep b = true) (hc : keep c = true) :
    ∀ {l : List α}, (l.filter keep).idxOf b < (l.filter keep).idxOf c → l.idxOf b < l.idxOf c
  | [], h => h
  | a :: l, h => by
      by_cases ha : keep a = true
      · rw [List.filter_cons_of_pos ha] at h
        by_cases hab : a = b
        · subst hab
          have hac : a ≠ c := fun hac => Nat.lt_irrefl _ (hac ▸ h)
          rw [List.idxOf_cons_self, List.idxOf_cons_ne l hac]
          exact Nat.succ_pos _
        · have hac : a ≠ c := fun hac => by
            rw [← hac, List.idxOf_cons_self] at h
            exact Nat.not_lt_zero _ h
          rw [List.idxOf_cons_ne _ hab, List.idxOf_cons_ne _ hac] at h ⊢
          exact Nat.succ_lt_succ (idxOf_lt_of_filter hb hc (Nat.lt_of_succ_lt_succ h))
      · rw [List.filter_cons_of_neg ha] at h
        have hab : a ≠ b := fun hab => ha (hab ▸ hb)
        have hac : a ≠ c := fun hac => ha (hac ▸ hc)
        rw [List.idxOf_cons_ne l hab, List.idxOf_cons_ne l hac]
        exact Nat.succ_lt_succ (idxOf_lt_of_filter hb hc h)

theorem pairwise_idxOf_eraseDups : ∀ l : List α, l.eraseDups.Pairwise fun a b =>
    l.idxOf a < l.idxOf b
  | [] => .nil
  | a :: l => by
      rw [List.eraseDups_cons]
      have ih := pairwise_idxOf_eraseDups (l.filter fun b => !b == a)
      have hne : ∀ {b}, b ∈ (l.filter fun b => !b == a).eraseDups → b ≠ a := fun hb => by
        simpa using (List.mem_filter.mp (List.mem_eraseDups.mp hb)).2
      refine List.pairwise_cons.mpr ⟨fun b hb => ?_, ?_⟩
      · rw [List.idxOf_cons_self, List.idxOf_cons_ne l (hne hb).symm]
        exact Nat.succ_pos _
      · refine ih.imp_of_mem fun {b c} hb hc h => ?_
        rw [List.idxOf_cons_ne l (hne hb).symm, List.idxOf_cons_ne l (hne hc).symm]
        exact Nat.succ_lt_succ
          (idxOf_lt_of_filter (by simpa using hne hb) (by simpa using hne hc) h)
termination_by l => l.length
decreasing_by exact Nat.lt_succ_of_le (List.length_filter_le _ _)

theorem nodup_eraseDups (l : List α) : l.eraseDups.Nodup :=
  (pairwise_idxOf_eraseDups l).imp fun {a b} (h : l.idxOf a < l.idxOf b) (heq : a = b) =>
    Nat.lt_irrefl _ (heq ▸ h)

theorem eraseDups_filter (f : α → Bool) : ∀ l : List α,
    (l.filter f).eraseDups = l.eraseDups.filter f
  | [] => rfl
  | a :: l => by
      have ih := eraseDups_filter f (l.filter fun b => !b == a)
      rw [List.eraseDups_cons]
      by_cases ha : f a = true
      · rw [List.filter_cons_of_pos ha, List.filter_cons_of_pos ha, List.eraseDups_cons,
          List.filter_comm, ih]
      · rw [List.filter_cons_of_neg ha, List.filter_cons_of_neg ha, ← ih, List.filter_filter]
        congr 1
        refine List.filter_congr fun b _ => ?_
        cases hb : b == a with
        | false => simp
        | true => rw [beq_iff_eq.mp hb, eq_false_of_ne_true ha, Bool.false_and]
termination_by l => l.length
decreasing_by exact Nat.lt_succ_of_le (List.length_filter_le _ _)

omit [BEq α] [LawfulBEq α] in
theorem one_lt_length_iff {l : List α} (h : l.Nodup) : 1 < l.length ↔ ∃ a ∈ l, ∃ b ∈ l, a ≠ b := by
  match l with
  | [] => simp
  | [a] => simp
  | a :: b :: l =>
      have hne : a ≠ b := (List.pairwise_cons.mp h).1 b List.mem_cons_self
      exact ⟨fun _ => ⟨a, by simp, b, by simp, hne⟩, fun _ => by simp⟩

end FirstAppearance

/-! ## What collides -/

/-- Files under two different paths export the name. -/
def Collides (files : List SourceFile) (s : Text) : Prop :=
  ∃ f ∈ files, ∃ g ∈ files, f.path ≠ g.path ∧ s ∈ exportedSymbols f.text ∧
  s ∈ exportedSymbols g.text

/-- The paths of the files that export a name, as often as they are listed. -/
def exporters (files : List SourceFile) (s : Text) : List Text :=
  (files.filter fun f => (exportedSymbols f.text).contains s).map (·.path)

/-- The paths are those of the files that export the name, each once, in the order in which they
first do. -/
structure NamesExporters (files : List SourceFile) (s : Text) (paths : List Text) : Prop where
  nodup : paths.Nodup
  mem_iff : ∀ path, path ∈ paths ↔ ∃ f ∈ files, f.path = path ∧ s ∈ exportedSymbols f.text
  inOrder : paths.Pairwise fun a b => (exporters files s).idxOf a < (exporters files s).idxOf b

def ProjectVerdict.collisionsOf (r : ProjectVerdict) (s : Text) : List Issue :=
  r.aggregate.errors.filter fun i => i.code == duplicateExport && i.matched == s

theorem mem_exporters : path ∈ exporters files s ↔
    ∃ f ∈ files, f.path = path ∧ s ∈ exportedSymbols f.text := by
  simp only [exporters, List.mem_map, List.mem_filter, List.contains_iff_mem, and_assoc,
    and_comm (a := _ = path)]

theorem owners_ofFiles (files : List SourceFile) (s : Text) :
    Exports.owners (.ofFiles files) s = (exporters files s).eraseDups := by
  rw [Exports.owners, Exports.ofFiles, exporters, List.filter_map, List.map_map]
  rfl

theorem namesExporters_owners (files : List SourceFile) (s : Text) :
    NamesExporters files s (Exports.owners (.ofFiles files) s) := by
  rw [owners_ofFiles]
  exact ⟨nodup_eraseDups _, fun path => List.mem_eraseDups.trans mem_exporters,
    pairwise_idxOf_eraseDups _⟩

theorem collides_iff : Collides files s ↔ 1 < (Exports.owners (.ofFiles files) s).length := by
  have howners := namesExporters_owners files s
  rw [one_lt_length_iff howners.nodup]
  constructor
  · rintro ⟨f, hf, g, hg, hne, hfs, hgs⟩
    exact ⟨f.path, (howners.mem_iff _).mpr ⟨f, hf, rfl, hfs⟩,
      g.path, (howners.mem_iff _).mpr ⟨g, hg, rfl, hgs⟩, hne⟩
  · rintro ⟨p, hp, p', hp', hne⟩
    obtain ⟨f, hf, rfl, hfs⟩ := (howners.mem_iff p).mp hp
    obtain ⟨g, hg, rfl, hgs⟩ := (howners.mem_iff p').mp hp'
    exact ⟨f, hf, g, hg, hne, hfs, hgs⟩

theorem NamesExporters.perm {paths paths' : List Text} (h : NamesExporters files s paths)
    (h' : NamesExporters files' s paths') (hperm : files'.Perm files) : paths'.Perm paths :=
  (List.perm_ext_iff_of_nodup h'.nodup h.nodup).mpr fun path => by
    rw [h.mem_iff, h'.mem_iff]
    simp only [hperm.mem_iff]

theorem collides_perm (hperm : files'.Perm files) : Collides files' s ↔ Collides files s := by
  simp only [Collides, hperm.mem_iff]

/-! ## The errors on collisions -/

def collisionErrors (files : List SourceFile) : List Issue :=
  (Exports.collisions (.ofFiles files)).map fun (symbol, paths) => collisionIssue symbol paths

theorem collisionErrors_eq (files : List SourceFile) :
    collisionErrors files = ((Exports.symbols (.ofFiles files)).filter fun s =>
      1 < (Exports.owners (.ofFiles files) s).length).map fun s =>
        collisionIssue s (Exports.owners (.ofFiles files) s) := by
  rw [collisionErrors, Exports.collisions, List.filter_map, List.map_map]
  rfl

theorem mem_symbols_of_collides (h : Collides files s) : s ∈ Exports.symbols (.ofFiles files) := by
  obtain ⟨f, hf, -, -, -, hs, -⟩ := h
  exact mem_sortedSet.mpr (List.mem_flatMap.mpr ⟨_, List.mem_map_of_mem hf, hs⟩)

theorem filter_collisionErrors_of_collides (h : Collides files s) :
    (collisionErrors files).filter (·.matched == s) =
      [collisionIssue s (Exports.owners (.ofFiles files) s)] := by
  have hmem : s ∈ (Exports.symbols (.ofFiles files)).filter fun s =>
      1 < (Exports.owners (.ofFiles files) s).length :=
    List.mem_filter.mpr ⟨mem_symbols_of_collides h, decide_eq_true (collides_iff.mp h)⟩
  have hnodup := (nodup_sortedSet ((Exports.ofFiles files).flatMap (·.2))).filter fun s =>
      decide (1 < (Exports.owners (.ofFiles files) s).length)
  have hone := List.count_eq_one_of_mem hnodup hmem
  rw [collisionErrors_eq, List.filter_map]
  show List.map _ (List.filter (fun x => x == s) _) = _
  rw [List.filter_beq, Exports.symbols, hone]
  rfl

theorem eq_of_mem_collisionErrors {i : Issue} (h : i ∈ collisionErrors files) :
    Collides files i.matched ∧
      i = collisionIssue i.matched (Exports.owners (.ofFiles files) i.matched) := by
  rw [collisionErrors_eq] at h
  obtain ⟨s, hs, rfl⟩ := List.mem_map.mp h
  exact ⟨collides_iff.mpr (of_decide_eq_true (List.mem_filter.mp hs).2), rfl⟩

theorem code_of_mem_collisionErrors {i : Issue} (h : i ∈ collisionErrors files) :
    i.code = duplicateExport := by
  rw [(eq_of_mem_collisionErrors h).2]
  rfl

theorem filter_collisionErrors_of_not_collides (h : ¬ Collides files s) :
    (collisionErrors files).filter (·.matched == s) = [] :=
  List.filter_eq_nil_iff.mpr fun _ hi hmatched =>
    h (beq_iff_eq.mp hmatched ▸ (eq_of_mem_collisionErrors hi).1)

theorem collisionErrors_eq_nil_iff : collisionErrors files = [] ↔ ∀ s, ¬ Collides files s := by
  constructor
  · intro hnil s hs
    have hone := filter_collisionErrors_of_collides hs
    rw [hnil] at hone
    cases hone
  · intro hnone
    exact List.eq_nil_iff_forall_not_mem.mpr fun i hi => hnone _ (eq_of_mem_collisionErrors hi).1

/-! ## The verdict on the service -/

/-- The errors of the files as they are told of the service. -/
def fileErrors (perFile : List (Text × Verdict)) : List Issue :=
  perFile.flatMap fun (path, v) => v.errors.map (Issue.inFile path)

theorem errors_ofFiles (files : List SourceFile) (perFile : List (Text × Verdict)) :
    (ProjectVerdict.ofFiles (.ofFiles files) perFile).aggregate.errors =
      fileErrors perFile ++ collisionErrors files := rfl

theorem code_ne_duplicateExport {v : Verdict} {t : Text} (hv : validate policy mode t = .ok v)
    {i : Issue} (hi : i ∈ v.errors) : i.code ≠ duplicateExport := by
  obtain ⟨errors, warnings, herrors, -, rfl⟩ := validate_eq_ok_iff.mp hv
  obtain ⟨rule, hrule, -, hcode⟩ := exists_rule herrors hi
  have hall : ∀ rule ∈ Rule.all, rule.code ≠ duplicateExport := by decide
  exact hcode ▸ hall rule hrule

/-- A verdict is that on a file. -/
def Judges (policy : Policy) (mode : StorageMode) (f : SourceFile) (judged : Text × Verdict) :
    Prop :=
  judged.1 = f.path ∧ validate policy mode f.text = .ok judged.2

theorem judges_iff {f : SourceFile} {judged : Text × Verdict} :
    (validate policy mode f.text).map (fun v => (f.path, v)) = .ok judged ↔
      Judges policy mode f judged := by
  obtain ⟨path, v⟩ := judged
  cases hv : validate policy mode f.text with
  | error fault => simp [Judges, hv, Except.map]
  | ok w => simp [Judges, hv, Except.map, eq_comm]

theorem validateFiles_eq_ok_iff : validateFiles policy mode files = .ok r ↔
    ∃ perFile, List.Forall₂ (Judges policy mode) files perFile ∧
      r = .ofFiles (.ofFiles files) perFile := by
  have hjudges :
      (fun f judged => (validate policy mode f.text).map (fun v => (f.path, v)) = .ok judged) =
      Judges policy mode := by
    funext f judged
    exact propext judges_iff
  rw [validateFiles]
  cases hall : files.mapM fun f => (validate policy mode f.text).map fun v => (f.path, v) with
  | error fault =>
      constructor
      · intro h
        cases h
      · rintro ⟨perFile, hperFile, -⟩
        rw [mapM_ok_iff.mpr (hjudges ▸ hperFile)] at hall
        cases hall
  | ok judged =>
      have hperFile := mapM_ok_iff.mp hall
      rw [hjudges] at hperFile
      constructor
      · intro h
        exact ⟨judged, hperFile, (Except.ok.inj h).symm⟩
      · rintro ⟨perFile, hperFile', rfl⟩
        rw [mapM_ok_iff.mpr (hjudges ▸ hperFile')] at hall
        rw [Except.ok.inj hall]
        rfl

theorem isValid_ofFiles (files : List SourceFile) (perFile : List (Text × Verdict)) :
    (ProjectVerdict.ofFiles (.ofFiles files) perFile).isValid = true ↔
    (∀ judged ∈ perFile, judged.2.isValid = true) ∧ ∀ s, ¬ Collides files s := by
  rw [ProjectVerdict.isValid, Verdict.isValid, errors_ofFiles, List.isEmpty_iff,
    List.append_eq_nil_iff, collisionErrors_eq_nil_iff, fileErrors, List.flatMap_eq_nil_iff]
  simp only [List.map_eq_nil_iff, Verdict.isValid, List.isEmpty_iff]

section Verdict
variable (hjudged : List.Forall₂ (Judges policy mode) files perFile)
include hjudged

theorem exists_judged {judged : Text × Verdict} (h : judged ∈ perFile) :
    ∃ t, validate policy mode t = .ok judged.2 := by
  obtain ⟨f, -, -, hv⟩ := exists_of_mem_results hjudged h
  exact ⟨f.text, hv⟩

theorem mem_fileErrors {i : Issue} (h : i ∈ fileErrors perFile) : i.code ≠ duplicateExport := by
  obtain ⟨judged, hmem, hi⟩ := List.mem_flatMap.mp h
  obtain ⟨own, hown, rfl⟩ := List.mem_map.mp hi
  obtain ⟨t, hv⟩ := exists_judged hjudged hmem
  have hcode : own.code ≠ duplicateExport := code_ne_duplicateExport hv hown
  exact hcode

theorem collisionsOf_ofFiles (s : Text) :
    (ProjectVerdict.ofFiles (.ofFiles files) perFile).collisionsOf s =
      (collisionErrors files).filter (·.matched == s) := by
  rw [ProjectVerdict.collisionsOf, errors_ofFiles, List.filter_append]
  have hfiles : (fileErrors perFile).filter (fun i => i.code == duplicateExport && i.matched == s) =
      [] := by
    refine List.filter_eq_nil_iff.mpr fun i hi h => mem_fileErrors hjudged hi ?_
    exact beq_iff_eq.mp (Bool.and_eq_true_iff.mp h).1
  rw [hfiles, List.nil_append]
  refine List.filter_congr fun i hi => ?_
  rw [code_of_mem_collisionErrors hi, beq_self_eq_true, Bool.true_and]

/-- The repairable codes of the files are those of the errors of the service. -/
theorem fixableCodes_ofFiles :
    (ProjectVerdict.ofFiles (.ofFiles files) perFile).aggregate.fixableCodes =
      sortedSet ((ProjectVerdict.ofFiles (.ofFiles files) perFile).aggregate.codes.filter
        Rule.isFixable) := by
  refine sortedSet_congr fun c => ?_
  rw [Verdict.codes, errors_ofFiles, List.mem_flatMap, List.mem_filter, List.map_append,
    List.mem_append]
  constructor
  · rintro ⟨judged, hmem, hc⟩
    obtain ⟨t, hv⟩ := exists_judged hjudged hmem
    obtain ⟨hcode, hfix⟩ := (mem_fixableCodes hv).mp hc
    obtain ⟨i, hi, rfl⟩ := List.mem_map.mp hcode
    refine ⟨.inl (List.mem_map.mpr ⟨i.inFile judged.1, ?_, rfl⟩), hfix⟩
    exact List.mem_flatMap.mpr ⟨judged, hmem, List.mem_map_of_mem hi⟩
  · rintro ⟨hfile | hcollision, hfix⟩
    · obtain ⟨i, hi, rfl⟩ := List.mem_map.mp hfile
      obtain ⟨judged, hmem, hi⟩ := List.mem_flatMap.mp hi
      obtain ⟨own, hown, rfl⟩ := List.mem_map.mp hi
      obtain ⟨t, hv⟩ := exists_judged hjudged hmem
      exact ⟨judged, hmem, (mem_fixableCodes hv).mpr ⟨List.mem_map.mpr ⟨own, hown, rfl⟩, hfix⟩⟩
    · obtain ⟨i, hi, rfl⟩ := List.mem_map.mp hcollision
      rw [code_of_mem_collisionErrors hi] at hfix
      exact absurd hfix (by decide)

end Verdict

/-- What the verdict on a service tells of its files and of the names they export. -/
structure ProjectVerdict.Tells (policy : Policy) (mode : StorageMode) (files : List SourceFile)
    (r : ProjectVerdict) : Prop where
  /-- Each file has its own verdict. -/
  perFile : List.Forall₂ (Judges policy mode) files r.perFile
  /-- A colliding name has one error, which names its exporters. -/
  collides : ∀ s, Collides files s → ∃ paths, NamesExporters files s paths ∧
    r.collisionsOf s = [collisionIssue s paths]
  apart : ∀ s, ¬ Collides files s → r.collisionsOf s = []
  valid : r.isValid = true ↔ (∀ judged ∈ r.perFile, judged.2.isValid = true) ∧
    ∀ s, ¬ Collides files s
  fixable : r.aggregate.fixableCodes = sortedSet (r.aggregate.codes.filter Rule.isFixable)

theorem tells_validateFiles (h : validateFiles policy mode files = .ok r) :
    r.Tells policy mode files := by
  obtain ⟨perFile, hjudged, rfl⟩ := validateFiles_eq_ok_iff.mp h
  refine ⟨hjudged, fun s hs => ?_, fun s hs => ?_, isValid_ofFiles files perFile,
    fixableCodes_ofFiles hjudged⟩
  · refine ⟨_, namesExporters_owners files s, ?_⟩
    rw [collisionsOf_ofFiles hjudged, filter_collisionErrors_of_collides hs]
  · rw [collisionsOf_ofFiles hjudged, filter_collisionErrors_of_not_collides hs]

theorem validateFiles_perm (h : validateFiles policy mode files = .ok r)
    (hperm : files'.Perm files) :
    ∃ r', validateFiles policy mode files' = .ok r' ∧ r'.perFile.Perm r.perFile := by
  obtain ⟨perFile, hjudged, rfl⟩ := validateFiles_eq_ok_iff.mp h
  obtain ⟨perFile', hjudged', hperFile⟩ := List.perm_comp_forall₂ hperm hjudged
  exact ⟨_, validateFiles_eq_ok_iff.mpr ⟨perFile', hjudged', rfl⟩, hperFile⟩

theorem answers_validateFiles (h : ∀ f ∈ files, TryBlocksClose f.text) :
    Answers (validateFiles policy mode files) := by
  obtain ⟨perFile, hperFile⟩ := answers_mapM (l := files)
    (f := fun f => (validate policy mode f.text).map fun v => (f.path, v)) fun f hf => by
      obtain ⟨v, hv⟩ := answers_validate (h f hf) policy mode
      exact ⟨(f.path, v), by rw [hv]; rfl⟩
  rw [validateFiles, hperFile]
  exact ⟨_, rfl⟩

/-- A service whose `try` blocks close has a verdict.  It is exact on collisions, and with the files
in another order there is one with the same verdicts on them, which names the same paths for the
same names. -/
theorem collisions_exact (policy : Policy) (mode : StorageMode)
    (hclose : ∀ f ∈ files, TryBlocksClose f.text) :
    ∃ r, validateFiles policy mode files = .ok r ∧ r.Tells policy mode files ∧
      ∀ files', files'.Perm files → ∃ r', validateFiles policy mode files' = .ok r' ∧
        r'.perFile.Perm r.perFile ∧
        ∀ s, (r.collisionsOf s = [] ∧ r'.collisionsOf s = []) ∨
          ∃ paths paths', r.collisionsOf s = [collisionIssue s paths] ∧
            r'.collisionsOf s = [collisionIssue s paths'] ∧ paths'.Perm paths := by
  obtain ⟨r, h⟩ := @answers_validateFiles policy mode files hclose
  have htells := tells_validateFiles h
  refine ⟨r, h, htells, fun files' hperm => ?_⟩
  obtain ⟨r', h', hperFile⟩ := validateFiles_perm h hperm
  have htells' := tells_validateFiles h'
  refine ⟨r', h', hperFile, fun s => ?_⟩
  by_cases hs : Collides files s
  · obtain ⟨paths, hpaths, hone⟩ := htells.collides s hs
    obtain ⟨paths', hpaths', hone'⟩ := htells'.collides s ((collides_perm hperm).mpr hs)
    exact .inr ⟨paths, paths', hone, hone', hpaths.perm hpaths' hperm⟩
  · exact .inl ⟨htells.apart s hs, htells'.apart s fun hs' => hs ((collides_perm hperm).mp hs')⟩

/-- Two files that export one name, and one of them another name also. -/
def twoShops : List SourceFile :=
  [⟨"src/a.ts".toList, "export const Item = 1;\nexport const Cart = 2;\n".toList⟩,
    ⟨"src/b.ts".toList, "export class Item \x7b\x7d\n".toList⟩]

/-- In either order the name that both export is told once, with the path that exports it first in
front; the name that one exports is not told. -/
theorem collisions_exact_twoShops : ∃ r r',
    validateFiles .default .none twoShops = .ok r ∧
    validateFiles .default .none twoShops.reverse = .ok r' ∧
    r'.perFile.Perm r.perFile ∧ r.isValid = false ∧
    r.collisionsOf "Item".toList =
      [collisionIssue "Item".toList ["src/a.ts".toList, "src/b.ts".toList]] ∧
    r'.collisionsOf "Item".toList =
      [collisionIssue "Item".toList ["src/b.ts".toList, "src/a.ts".toList]] ∧
    r.collisionsOf "Cart".toList = [] := by
  have hcollides : Collides twoShops "Item".toList := by
    rw [collides_iff]
    decide +kernel
  have hown : ¬ Collides twoShops "Cart".toList := by
    rw [collides_iff]
    decide +kernel
  obtain ⟨r, hr, htells, hperm⟩ := collisions_exact .default .none
    (show ∀ f ∈ twoShops, TryBlocksClose f.text by decide +kernel)
  obtain ⟨r', hr', hperFile, -⟩ := hperm _ (List.reverse_perm _)
  have hcollisions : (validateFiles .default .none twoShops).toOption.map
      (·.collisionsOf "Item".toList) =
        some [collisionIssue "Item".toList ["src/a.ts".toList, "src/b.ts".toList]] := by
    decide +kernel
  have hcollisions' : (validateFiles .default .none twoShops.reverse).toOption.map
      (·.collisionsOf "Item".toList) =
        some [collisionIssue "Item".toList ["src/b.ts".toList, "src/a.ts".toList]] := by
    decide +kernel
  rw [hr] at hcollisions
  rw [hr'] at hcollisions'
  refine ⟨r, r', hr, hr', hperFile, ?_, Option.some.inj hcollisions, Option.some.inj hcollisions',
    htells.apart _ hown⟩
  exact eq_false_of_ne_true fun hvalid => (htells.valid.mp hvalid).2 _ hcollides

/-- The parenthesis too many ends the arguments in front of the `try` block, so the analysis of the
handler is refused its cut. -/
def unclosedHandler : Text :=
  "app.post('/a', (req) => \x7b try \x7b A.parse(req.body)) \x7d \x7d);".toList

/-- A service with such a file has no verdict, also where other files of it collide. -/
theorem not_always_judged :
    ¬ ∀ files : List SourceFile, ∃ r, validateFiles .default .none files = .ok r := by
  intro hall
  obtain ⟨r, hr⟩ := hall (twoShops ++ [⟨"src/c.ts".toList, unclosedHandler⟩])
  have hnone : (validateFiles .default .none
      (twoShops ++ [⟨"src/c.ts".toList, unclosedHandler⟩])).toBool = false := by
    decide +kernel
  rw [hr] at hnone
  cases hnone

end ServiceGate
