/-
# The counts over a session

A session counts runs and repairs, keeps its counters in their document and loads them from there,
in any order.  The counters are machine words, and a document is read back as it was written
(`Statistics.read_render`).

Loading replaces the counters, so what was counted and not yet saved is dropped: `kept` are the
steps whose counts stay.  As long as the numbers fit into the counters, these are what was loaded
first and what the kept steps add (`totals_after`).  A command that counts is a run that loads,
counts and saves (`foldl_commandRuns`), and of such runs nothing is dropped
(`totalsOf_kept_commandRuns`).

The proof is an induction from the last step: whether a count is dropped depends on what comes
behind it (`drops`), so the sum is stated for the end of the session and one step is taken off at a
time (`Sound.step`).  Two things can keep a sum from being the counters: numbers that do not fit,
and a document that cannot be written, behind which no step saves (`not_always_counted`).
-/
import Mathlib.Algebra.BigOperators.Group.List.Basic
import Mathlib.Data.List.Induction
import Mathlib.Data.List.Infix
import ServiceGate.Proofs.Command.Upkeep
import ServiceGate.Proofs.Json.RoundTrip

namespace ServiceGate

open Environment (countsPlace statisticsFile)

variable {env : Environment} {tree : FileTree} {root : Place} {saves : Bool}

/-! ## Natural numbers for the counters -/

/-- What the counters count, without bounds. -/
@[ext]
structure Totals where
  runs : Nat
  filesChecked : Nat
  errorsFound : Nat
  errorsAutofixed : Nat
  fixesReverted : Nat
deriving DecidableEq

namespace Totals

instance : Add Totals where
  add t u := ⟨t.runs + u.runs, t.filesChecked + u.filesChecked, t.errorsFound + u.errorsFound,
    t.errorsAutofixed + u.errorsAutofixed, t.fixesReverted + u.fixesReverted⟩

instance : Zero Totals where
  zero := ⟨0, 0, 0, 0, 0⟩

instance : AddMonoid Totals where
  add_assoc _ _ _ :=
    Totals.ext (Nat.add_assoc ..) (Nat.add_assoc ..) (Nat.add_assoc ..) (Nat.add_assoc ..)
    (Nat.add_assoc ..)
  zero_add _ := Totals.ext (Nat.zero_add _) (Nat.zero_add _) (Nat.zero_add _) (Nat.zero_add _)
    (Nat.zero_add _)
  add_zero _ := rfl
  nsmul := nsmulRec

/-- The numbers that the counters can hold. -/
def Fits (t : Totals) : Prop :=
  t.runs < UInt32.size ∧ t.filesChecked < UInt64.size ∧ t.errorsFound < UInt64.size ∧
    t.errorsAutofixed < UInt64.size ∧ t.fixesReverted < UInt64.size

instance (t : Totals) : Decidable t.Fits := inferInstanceAs (Decidable (_ ∧ _))

end Totals

namespace Statistics

def totals (s : Statistics) : Totals :=
  ⟨s.runs.toNat, s.filesChecked.toNat, s.errorsFound.toNat, s.errorsAutofixed.toNat,
    s.fixesReverted.toNat⟩

theorem toNat_add_ofNat {a : UInt64} {n : Nat} (h : a.toNat + n < UInt64.size) :
    (a + UInt64.ofNat n).toNat = a.toNat + n := by
  rw [UInt64.toNat_add, UInt64.toNat_ofNat', Nat.add_mod_mod]
  exact Nat.mod_eq_of_lt h

theorem totals_recordCheck {s : Statistics} {files errors : Nat}
    (h : (s.totals + ⟨1, files, errors, 0, 0⟩).Fits) :
    (s.recordCheck files errors).totals = s.totals + ⟨1, files, errors, 0, 0⟩ := by
  obtain ⟨hruns, hfiles, herrors, -, -⟩ := h
  have hrun : (s.runs + 1).toNat = s.runs.toNat + 1 := by
    rw [UInt32.toNat_add]
    exact Nat.mod_eq_of_lt hruns
  exact Totals.ext hrun (toNat_add_ofNat hfiles) (toNat_add_ofNat herrors) rfl rfl

theorem totals_recordFix {s : Statistics} {fixed : Nat} {reverted : Bool}
    (h : (s.totals + ⟨0, 0, 0, fixed, reverted.toNat⟩).Fits) :
    (s.recordFix fixed reverted).totals = s.totals + ⟨0, 0, 0, fixed, reverted.toNat⟩ := by
  obtain ⟨-, -, -, hfixed, hreverted⟩ := h
  refine Totals.ext rfl rfl rfl (toNat_add_ofNat hfixed) ?_
  cases reverted with
  | false => rfl
  | true => exact toNat_add_ofNat hreverted

/-! ## The document -/

theorem numberBelow?_toNat {bound n : Nat} (h : n < bound) :
    (JsonValue.number n).numberBelow? bound = some n := if_pos h

theorem counter?_toNat (c : UInt64) : counter? (.number c.toNat) = some c := by
  rw [counter?, numberBelow?_toNat c.toNat_lt_size, Option.map_some, UInt64.ofNat_toNat]

theorem ofJson?_toJson (s : Statistics) : ofJson? s.toJson = some s := by
  have hrecord : s.toJson.record? fieldNames = some [.number s.runs.toNat,
      .number s.filesChecked.toNat,
      .number s.errorsFound.toNat, .number s.errorsAutofixed.toNat,
      .number s.fixesReverted.toNat] := rfl
  simp only [ofJson?, hrecord, Option.bind_eq_bind, Option.bind_some, counter?_toNat,
    numberBelow?_toNat s.runs.toNat_lt_size, UInt32.ofNat_toNat, Option.pure_def]

theorem read_render (s : Statistics) : read s.render = s := by
  have hplain : s.toJson.IsPlain := ⟨trivial, trivial, trivial, trivial, trivial, trivial⟩
  rw [read, render, JsonValue.read?_render hplain, Option.bind_eq_bind, Option.bind_some,
    ofJson?_toJson]
  rfl

end Statistics

theorem Environment.statistics_write (hroot : tree.locate? env.root = some root) (s : Statistics) :
    env.statistics (tree.write (countsPlace root) s.render) = s := by
  have hroot' := (FileTree.Grows.write tree (countsPlace root) s.render).locate? hroot
  rw [Environment.statistics, Environment.read?_statisticsFile hroot', FileTree.read?_write,
    Option.map_some, Option.getD_some, Statistics.read_render]

/-! ## Steps -/

/-- One step of a session with the counters. -/
inductive CountStep where
  | check (files errors : Nat)
  | fix (fixed : Nat) (reverted : Bool)
  | save
  | load
deriving DecidableEq

/-- The project's files, and the counters in memory. -/
structure CountSession where
  tree : FileTree
  counters : Statistics

namespace CountStep

def isCount : CountStep → Bool
  | check _ _ | fix _ _ => true
  | save | load => false

def record (c : Statistics) : CountStep → Statistics
  | check files errors => c.recordCheck files errors
  | fix fixed reverted => c.recordFix fixed reverted
  | save | load => c

/-- Runs that load the counters, count, and save them. -/
def commandRuns (runs : List (List CountStep)) : List CountStep :=
  runs.flatMap fun counts => load :: (counts ++ [save])

end CountStep

namespace CountSession

open CountStep

variable {counts : List CountStep}

def step (env : Environment) (s : CountSession) : CountStep → CountSession
  | .save => { s with tree := env.keepStatistics s.tree s.counters }
  | .load => { s with counters := env.statistics s.tree }
  | count => { s with counters := count.record s.counters }

/-- The session behind some steps, which starts with the counters of the project. -/
def after (env : Environment) (tree : FileTree) (steps : List CountStep) : CountSession :=
  steps.foldl (step env) ⟨tree, env.statistics tree⟩

theorem foldl_counts (h : ∀ s ∈ counts, s.isCount = true) (env : Environment) (s : CountSession) :
    counts.foldl (step env) s = ⟨s.tree, counts.foldl record s.counters⟩ := by
  induction counts generalizing s with
  | nil => rfl
  | cons next counts ih =>
      obtain ⟨hnext, hcounts⟩ := List.forall_mem_cons.mp h
      rw [List.foldl_cons, ih hcounts]
      cases next with
      | save | load => cases hnext
      | check _ _ | fix _ _ => rfl

/-- A command that counts is a run that loads, counts and saves. -/
theorem foldl_commandRuns {runs : List (List CountStep)}
    (h : ∀ counts ∈ runs, ∀ s ∈ counts, s.isCount = true) (env : Environment) (s : CountSession) :
    ((commandRuns runs).foldl (step env) s).tree =
      runs.foldl (fun tree counts => env.countRun (counts.foldl record) tree) s.tree := by
  induction runs generalizing s with
  | nil => rfl
  | cons counts runs ih =>
      obtain ⟨hcounts, hruns⟩ := List.forall_mem_cons.mp h
      rw [commandRuns, List.flatMap_cons, List.foldl_append, ← commandRuns, ih hruns,
        List.foldl_cons, List.foldl_concat, foldl_counts hcounts]
      rfl

end CountSession

/-! ## What is kept of the counts -/

namespace CountStep

variable {counts behind behind' : List CountStep} {s : CountStep}

def adds : CountStep → Totals
  | check files errors => ⟨1, files, errors, 0, 0⟩
  | fix fixed reverted => ⟨0, 0, 0, fixed, reverted.toNat⟩
  | save | load => 0

def totalsOf (steps : List CountStep) : Totals := (steps.map adds).sum

/-- Whether a count is dropped in front of these steps: they load before they save.  Where the
document cannot be written, no step saves. -/
def drops (saves : Bool) : List CountStep → Bool
  | [] => false
  | load :: _ => true
  | save :: behind => !saves && drops saves behind
  | _ :: behind => drops saves behind

/-- The steps whose counts are not dropped by those behind them. -/
def kept (saves : Bool) : List CountStep → List CountStep
  | [] => []
  | s :: behind => if drops saves behind then kept saves behind else s :: kept saves behind

theorem totalsOf_append (steps behind : List CountStep) :
    totalsOf (steps ++ behind) = totalsOf steps + totalsOf behind := by
  rw [totalsOf, List.map_append, List.sum_append]
  rfl

theorem totalsOf_cons (s : CountStep) (steps : List CountStep) :
    totalsOf (s :: steps) = s.adds + totalsOf steps := List.sum_cons

theorem drops_append_congr (h : drops saves behind = drops saves behind')
    (before : List CountStep) :
    drops saves (before ++ behind) = drops saves (before ++ behind') := by
  induction before with
  | nil => exact h
  | cons s before ih => cases s <;> simp only [List.cons_append, drops, ih]

theorem totalsOf_kept_congr (h : drops saves behind = drops saves behind')
    (hadds : totalsOf (kept saves behind) = totalsOf (kept saves behind'))
    (before : List CountStep) :
    totalsOf (kept saves (before ++ behind)) = totalsOf (kept saves (before ++ behind')) := by
  induction before with
  | nil => exact hadds
  | cons s before ih =>
      rw [List.cons_append, List.cons_append, kept, kept, drops_append_congr h]
      split
      · exact ih
      · rw [totalsOf_cons, totalsOf_cons, ih]

theorem totalsOf_kept_concat (hload : s ≠ load) (steps : List CountStep) :
    totalsOf (kept saves (steps ++ [s])) = totalsOf (kept saves steps) + s.adds := by
  have hdrops : drops saves [s] = drops saves [] := by
    cases s with
    | load => exact absurd rfl hload
    | save => exact Bool.and_false _
    | check _ _ | fix _ _ => rfl
  induction steps with
  | nil =>
      show totalsOf [s] = 0 + s.adds
      rw [totalsOf_cons, zero_add]
      exact add_zero s.adds
  | cons first steps ih =>
      have hsame := drops_append_congr hdrops steps
      rw [List.append_nil] at hsame
      rw [List.cons_append, kept, kept, hsame]
      split
      · exact ih
      · rw [totalsOf_cons, totalsOf_cons, ih, add_assoc]

theorem drops_counts (h : ∀ s ∈ counts, s.isCount = true) (behind : List CountStep) :
    drops saves (counts ++ behind) = drops saves behind := by
  induction counts with
  | nil => rfl
  | cons s counts ih =>
      obtain ⟨hs, hcounts⟩ := List.forall_mem_cons.mp h
      cases s with
      | save | load => cases hs
      | check _ _ | fix _ _ => exact ih hcounts

theorem totalsOf_kept_append_save (h : ∀ s ∈ counts, s.isCount = true) (behind : List CountStep) :
    totalsOf (kept true (counts ++ save :: behind)) = totalsOf counts +
    totalsOf (kept true behind) := by
  induction counts with
  | nil =>
      rw [List.nil_append, kept]
      split
      · exact (zero_add _).symm
      · exact totalsOf_cons save _
  | cons s counts ih =>
      obtain ⟨-, hcounts⟩ := List.forall_mem_cons.mp h
      have hdrops : drops true (counts ++ save :: behind) = false := drops_counts hcounts _
      rw [List.cons_append, kept, hdrops, if_neg Bool.false_ne_true, totalsOf_cons, ih hcounts,
        totalsOf_cons, add_assoc]

/-- Of runs that save what they have counted nothing is dropped, whatever comes behind them. -/
theorem totalsOf_kept_commandRuns {runs : List (List CountStep)}
    (h : ∀ counts ∈ runs, ∀ s ∈ counts, s.isCount = true) (behind : List CountStep) :
    totalsOf (kept true (commandRuns runs ++ behind)) =
      totalsOf (commandRuns runs) + totalsOf (kept true behind) := by
  induction runs with
  | nil => exact (zero_add _).symm
  | cons counts runs ih =>
      obtain ⟨hcounts, hruns⟩ := List.forall_mem_cons.mp h
      have hrow : commandRuns (counts :: runs) = load :: (counts ++ save :: commandRuns runs) := by
        rw [commandRuns, List.flatMap_cons, List.cons_append, List.append_assoc]
        rfl
      have hdrops : drops true (counts ++ save :: (commandRuns runs ++ behind)) = false :=
        drops_counts hcounts _
      have htotals : totalsOf (load :: (counts ++ save :: commandRuns runs)) =
          totalsOf counts + totalsOf (commandRuns runs) := by
        rw [totalsOf_cons, totalsOf_append, totalsOf_cons]
        exact (zero_add _).trans (congrArg _ (zero_add _))
      rw [hrow, htotals, List.cons_append, List.append_assoc, List.cons_append, kept, hdrops,
        if_neg Bool.false_ne_true, totalsOf_cons, totalsOf_kept_append_save hcounts, ih hruns,
        add_assoc]
      exact zero_add _

end CountStep

/-! ## Sessions -/

namespace CountSession

open CountStep

variable {s : CountSession} {next : CountStep} {steps : List CountStep} {first : Totals}

/-- What holds behind some steps: the counters are those of the first loading and of the kept steps,
and so would be the loaded ones. -/
structure Sound (env : Environment) (root : Place) (saves : Bool) (first : Totals)
    (steps : List CountStep) (s : CountSession) : Prop where
  rooted : s.tree.locate? env.root = some root
  saves_eq : (s.tree.obstacle? (countsPlace root)).isNone = saves
  counters : s.counters.totals = first + totalsOf (kept saves steps)
  stored : (env.statistics s.tree).totals = first + totalsOf (kept saves (steps ++ [load]))

theorem Sound.stored_concat (h : Sound env root saves first steps s)
    (hdrops : drops saves [next, load] = true) :
    (env.statistics s.tree).totals = first + totalsOf (kept saves (steps ++ [next] ++ [load])) := by
  rw [h.stored, List.append_assoc]
  have hsame : drops saves [load] = drops saves [next, load] := hdrops.symm
  exact congrArg _ (totalsOf_kept_congr hsame rfl steps)

theorem Sound.step (h : Sound env root saves first steps s)
    (hfits : (first + totalsOf (kept saves (steps ++ [next]))).Fits) :
    Sound env root saves first (steps ++ [next]) (s.step env next) := by
  have hconcat : next ≠ load → first + totalsOf (kept saves (steps ++ [next])) = s.counters.totals +
      next.adds :=
    fun hload => by rw [totalsOf_kept_concat hload, h.counters, add_assoc]
  cases next with
  | check files errors =>
      have hsum := hconcat nofun
      exact ⟨h.rooted, h.saves_eq, (Statistics.totals_recordCheck (hsum ▸ hfits)).trans hsum.symm,
        h.stored_concat rfl⟩
  | fix fixed reverted =>
      have hsum := hconcat nofun
      exact ⟨h.rooted, h.saves_eq, (Statistics.totals_recordFix (hsum ▸ hfits)).trans hsum.symm,
        h.stored_concat rfl⟩
  | load => exact ⟨h.rooted, h.saves_eq, h.stored, h.stored_concat rfl⟩
  | save =>
      have hcounters : s.counters.totals = first + totalsOf (kept saves (steps ++ [save])) :=
        (hconcat nofun).symm
      have hkeep := Environment.keepStatistics_eq h.rooted s.counters
      rw [h.saves_eq] at hkeep
      cases saves with
      | false =>
          have htree : (s.step env save).tree = s.tree := hkeep
          exact ⟨htree ▸ h.rooted, htree ▸ h.saves_eq, hcounters, htree ▸ h.stored_concat rfl⟩
      | true =>
          have htree : (s.step env save).tree = s.tree.write (countsPlace root) s.counters.render :=
            hkeep
          refine ⟨?_, ?_, hcounters, ?_⟩
          · exact htree ▸ (FileTree.Grows.write _ _ _).locate? h.rooted
          · have hclear := FileTree.obstacle?_write (t := s.counters.render)
              (Option.isNone_iff_eq_none.mp h.saves_eq)
            rw [htree, hclear]
            rfl
          · rw [htree, Environment.statistics_write h.rooted, h.counters, List.append_assoc]
            have hdrops : drops true [] = drops true [save, load] := rfl
            have hend := totalsOf_kept_congr hdrops rfl steps
            rw [List.append_nil] at hend
            exact congrArg _ hend

theorem Sound.start (hroot : tree.locate? env.root = some root) :
    Sound env root (tree.obstacle? (countsPlace root)).isNone (env.statistics tree).totals []
      ⟨tree, env.statistics tree⟩ :=
  ⟨hroot, rfl, rfl, rfl⟩

theorem Sound.after (hroot : tree.locate? env.root = some root) (steps : List CountStep)
    (hfits : ∀ early, early <+: steps → ((env.statistics tree).totals +
      totalsOf (kept (tree.obstacle? (countsPlace root)).isNone early)).Fits) :
    Sound env root (tree.obstacle? (countsPlace root)).isNone (env.statistics tree).totals steps
      (CountSession.after env tree steps) := by
  induction steps using List.reverseRecOn with
  | nil => exact .start hroot
  | append_singleton steps next ih =>
      have hafter : CountSession.after env tree (steps ++ [next]) =
          (CountSession.after env tree steps).step env next := List.foldl_concat ..
      have hearly := ih fun early hearly => hfits early (hearly.trans (List.prefix_append _ _))
      exact hafter ▸ hearly.step (hfits _ List.prefix_rfl)

/-- As long as the sums fit into the counters, behind every session the counters are what was loaded
first and what the kept steps have added: the number of the checks, the files and the errors of all
of them, the repairs, and the number of those given up.  What is stored is the same sum for the
steps that a loading would keep.  Commands that count are runs that load, count and save; where the
document can be written, nothing is dropped of these. -/
theorem totals_after (hroot : tree.locate? env.root = some root) (steps : List CountStep)
    (hfits : ∀ early, early <+: steps → ((env.statistics tree).totals +
      totalsOf (kept (tree.obstacle? (countsPlace root)).isNone early)).Fits) :
    let now := CountSession.after env tree steps
    let first := (env.statistics tree).totals
    let saves := (tree.obstacle? (countsPlace root)).isNone
    now.counters.totals = first + totalsOf (kept saves steps) ∧
      (env.statistics now.tree).totals = first + totalsOf (kept saves (steps ++ [load])) ∧
      ∀ runs, (∀ counts ∈ runs, ∀ s ∈ counts, s.isCount = true) → steps = commandRuns runs →
        now.tree = runs.foldl (fun tree counts => env.countRun (counts.foldl record) tree) tree ∧
        (saves = true → now.counters.totals = first + totalsOf steps ∧
          (env.statistics now.tree).totals = first + totalsOf steps) := by
  intro now first saves
  have hsound := Sound.after hroot steps hfits
  refine ⟨hsound.counters, hsound.stored, fun runs hruns hsteps => ⟨?_, fun hsaves => ?_⟩⟩
  · have htree := foldl_commandRuns hruns env ⟨tree, env.statistics tree⟩
    rw [← hsteps] at htree
    exact htree
  · have hnone : ∀ behind, totalsOf (kept true behind) = 0 →
        totalsOf (kept saves (steps ++ behind)) = totalsOf steps := by
      intro behind hbehind
      rw [hsaves, hsteps, totalsOf_kept_commandRuns hruns, hbehind, add_zero]
    have hall := hnone [] rfl
    rw [List.append_nil] at hall
    exact ⟨hsound.counters.trans (congrArg _ hall),
      hsound.stored.trans (congrArg _ (hnone [load] rfl))⟩

/-- A check that is not saved before the next loading is dropped, and one more run than the counter
can hold does not come to the sum. -/
theorem not_always_counted :
    let env : Environment := ⟨"/shop".toList, "2026-10-19".toList⟩
    let holding (counters : Statistics) : FileTree :=
  ⟨[(countsPlace ["shop".toList], counters.render)], []⟩
    let low := holding ⟨1, 2, 3, 4, 5⟩
    let full := holding ⟨4294967295, 2, 3, 4, 5⟩
    (CountSession.after env low [check 3 5, load]).counters.totals ≠
        (env.statistics low).totals + totalsOf [check 3 5, load] ∧
      (CountSession.after env full [check 3 5]).counters.totals ≠
        (env.statistics full).totals + totalsOf [check 3 5] := by
  decide +kernel

/-- A run that saves, and a check of which a loading drops the counts. -/
theorem totals_after_dropped :
    let env : Environment := ⟨"/shop".toList, "2026-10-19".toList⟩
    let tree : FileTree :=
      ⟨[(countsPlace ["shop".toList], (Statistics.mk 1 2 3 4 5).render)], []⟩
    let now := CountSession.after env tree [load, check 3 5, fix 4 true, save, check 1 1, load]
    now.counters.totals = ⟨2, 5, 8, 8, 6⟩ ∧ (env.statistics now.tree).totals = ⟨2, 5, 8, 8, 6⟩ := by
  intro env tree now
  have hroot : tree.locate? env.root = some ["shop".toList] := by decide
  have hfits : ∀ early ∈ [load, check 3 5, fix 4 true, save, check 1 1, load].inits,
      ((env.statistics tree).totals +
        totalsOf (kept (tree.obstacle? (countsPlace ["shop".toList])).isNone early)).Fits := by
    decide +kernel
  have h :=
    totals_after hroot [load, check 3 5, fix 4 true, save, check 1 1, load] fun early hearly =>
    hfits early ((List.mem_inits ..).mpr hearly)
  exact ⟨h.1.trans (by decide +kernel), h.2.1.trans (by decide +kernel)⟩

end CountSession

end ServiceGate
