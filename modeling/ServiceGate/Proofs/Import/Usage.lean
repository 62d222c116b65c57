/-
# Names that are used outside of imports

A name is used outside of the import statements if it is counted more often in the blanked text than
in the stretches of the statements.  A statement starts behind a line break or an indentation, and
ends with a quote, a semicolon or a blank (`break_start`, `break_stop`); blanking makes no character
of a name out of these.  So no cut makes or breaks a run, each run lies in one statement at most,
and the difference of the counts is the number of runs outside of all of them (`countInside_eq`).

The count is a count of runs (`Text.countWord_eq_ncard`), so the difference of two counts is the
number of elements of the difference of two sets of places.
-/
import ServiceGate.Rule.Imports
import ServiceGate.Proofs.Import.Exchanged
import ServiceGate.Proofs.Text.Runs

namespace ServiceGate

open CharClass (isName)
open Scan

variable {t word : Text} {n : Nat} {m : Match} {i : ImportStatement} {is : List ImportStatement}

/-! ## Where no run is cut -/

theorem Scan.break_blank (h : t.Break n) : (blank t).Break n := by
  obtain ⟨p, q, rfl, rfl, hp⟩ := h
  obtain ⟨u, v, hblank, hsize⟩ := exists_blank_append p q
  refine ⟨u, v, hblank, hsize.symm, fun c hc => Bool.eq_false_iff.mpr fun hname => ?_⟩
  have hblankless : c ≠ ' ' := by
    rintro rfl
    exact absurd hname (by decide)
  obtain ⟨u, rfl⟩ := List.getLast?_eq_some_iff.mp hc
  rw [List.append_assoc] at hblank
  obtain ⟨x, y, hcut, hx⟩ := exists_of_blank hblankless hblank
  have hcut' : p ++ q = (x ++ [c]) ++ y := by rw [hcut, List.append_assoc, List.singleton_append]
  obtain ⟨rfl, -⟩ :=
    Text.append_inj_of_size hcut' (by rw [← hsize, Text.size_append, Text.size_append, hx])
  rw [hp c (by simp)] at hname
  cases hname

namespace ImportStatement

theorem break_start (hm : m ∈ pattern.all t) : t.Break (ofMatch m).start := by
  obtain ⟨front, indent, body, back, rfl, hat, -⟩ := exists_at hm
  refine ⟨front ++ indent, body ++ back, by simp, hat.keyword, fun c hc => ?_⟩
  rcases List.eq_nil_or_concat' indent with rfl | ⟨blanks, d, rfl⟩
  · rw [List.append_nil] at hc
    have hline := hat.line
    rw [Option.mem_def.mp hc, Option.all_some, beq_iff_eq] at hline
    rw [hline]
    decide
  · obtain rfl : d = c := by simpa [← List.append_assoc] using hc
    have hindent := hat.blanks d (by simp)
    simp only [Text.isIndent, Bool.or_eq_true, beq_iff_eq] at hindent
    rcases hindent with rfl | rfl <;> decide

theorem break_stop (hm : m ∈ pattern.all t) : t.Break (ofMatch m).stop := by
  have hends : ∀ c ∈ ['\'', '"', ' ', '\t', ';'], isName c = false := by decide
  obtain ⟨u, c, v, hcut, hstop, hc⟩ := last_of_mem hm
  refine ⟨u ++ [c], v, hcut, hstop, fun d hd => ?_⟩
  rw [List.getLast?_concat] at hd
  exact Option.some.inj hd ▸ hends c hc

theorem pairwise_statements (t : Text) : (all (.of t)).Pairwise fun i j => i.stop ≤ j.start := by
  refine List.Pairwise.filter _ (List.pairwise_map.mpr ?_)
  refine (Pattern.pairwise_all pattern t).imp_of_mem fun {m m'} _ hm' hle => ?_
  obtain ⟨_, _, _, hkeyword, hstart, _⟩ := exists_keyword hm'
  rw [hkeyword]
  exact Nat.le_trans hle hstart

theorem breaks_of_mem (hi : i ∈ all (.of t)) :
    (blank t).Break i.start ∧ (blank t).Break i.stop ∧ i.start ≤ i.stop := by
  obtain ⟨m, hm, rfl, -⟩ := mem_all_iff.mp hi
  obtain ⟨_, _, _, hkeyword, _, hlt⟩ := exists_keyword hm
  refine ⟨break_blank (break_start hm), break_blank (break_stop hm), ?_⟩
  rw [hkeyword]
  exact Nat.le_of_lt hlt

end ImportStatement

/-! ## Counting in the statements -/

/-- What is counted in stretches that follow each other are the runs that lie in one of them. -/
theorem countInside_eq (hne : word ≠ []) (hword : ∀ c ∈ word, isName c = true)
    (hbreaks : ∀ i ∈ is, t.Break i.start ∧ t.Break i.stop ∧ i.start ≤ i.stop)
    (hapart : is.Pairwise fun i j => i.stop ≤ j.start) :
    is.foldr (fun i n => n + (t.between i.start i.stop).countWord word) 0 =
      ((t.runs word).filter fun n => ∃ i ∈ is, i.start ≤ n ∧ n + Text.size word ≤ i.stop).card := by
  induction is with
  | nil => simp
  | cons i is ih =>
      obtain ⟨⟨hstart, hstop, hle⟩, hbreaks⟩ := List.forall_mem_cons.mp hbreaks
      obtain ⟨hbehind, hapart⟩ := List.pairwise_cons.mp hapart
      have hpos : Text.size word ≠ 0 := fun hzero => hne (Text.eq_nil_of_size hzero)
      -- a run that ends in the first stretch does not start in one behind it
      have hdisjoint : Disjoint
          ((t.runs word).filter fun n => i.start ≤ n ∧ n + Text.size word ≤ i.stop)
          ((t.runs word).filter fun n => ∃ j ∈ is, j.start ≤ n ∧ n + Text.size word ≤ j.stop) := by
        refine Finset.disjoint_filter.mpr fun n _ ⟨_, hlt⟩ ⟨j, hj, hge, _⟩ => ?_
        have := hbehind j hj
        omega
      rw [List.foldr_cons, ih hbreaks hapart, Text.countWord_part hne hword hstart hstop hle,
        Nat.add_comm, ← Finset.card_union_of_disjoint hdisjoint, ← Finset.filter_or]
      simp only [List.exists_mem_cons_iff]

/-! ## The main statement -/

/-- A word is counted as often as it is a maximal run of characters of names, and it counts as used
outside of the import statements of a source exactly if it is such a run outside of every statement.
-/
theorem usage_exact (t word : Text) (hne : word ≠ []) (hword : ∀ c ∈ word, isName c = true) :
    t.countWord word = {n | t.RunAt n word}.ncard ∧
      (Rule.usedOutsideImports (blank t) (ImportStatement.all (.of t)) word = true ↔
        ∃ n, (blank t).RunAt n word ∧
          ∀ i ∈ ImportStatement.all (.of t), n + Text.size word ≤ i.start ∨ i.stop ≤ n) := by
  refine ⟨Text.countWord_eq_ncard hne hword t, ?_⟩
  have hbreaks := fun i (hi : i ∈ ImportStatement.all (.of t)) => ImportStatement.breaks_of_mem hi
  have hinside := countInside_eq hne hword hbreaks (ImportStatement.pairwise_statements t)
  have hlt : ∀ p : Nat → Prop, ∀ [DecidablePred p], (((blank t).runs word).filter p).card <
      ((blank t).runs word).card ↔ ∃ n ∈ (blank t).runs word, ¬ p n := fun p _ => by
    rw [Nat.lt_iff_le_and_ne, and_iff_right (Finset.card_filter_le _ _), ne_eq,
      Finset.card_filter_eq_iff]
    simp only [not_forall, exists_prop]
  rw [Rule.usedOutsideImports, hinside, ← Text.card_runs hne hword, decide_eq_true_iff, hlt]
  constructor
  · rintro ⟨n, hn, hout⟩
    have hrun := (Text.mem_runs hne hword).mp hn
    refine ⟨n, hrun, fun i hi => ?_⟩
    obtain ⟨hstart, hstop, -⟩ := hbreaks i hi
    rcases hrun.apart hstart hstop with h | h | h
    · exact .inl h
    · exact .inr h
    · exact absurd ⟨i, hi, h⟩ hout
  · rintro ⟨n, hrun, hout⟩
    refine ⟨n, (Text.mem_runs hne hword).mpr hrun, ?_⟩
    rintro ⟨i, hi, hge, hle⟩
    have hpos : Text.size word ≠ 0 := fun hzero => hne (Text.eq_nil_of_size hzero)
    rcases hout i hi with h | h <;> omega

/-- A word that occurs in itself, in longer names and in a comment. -/
def repeatedName : Text := "import \x7b aa \x7d from 'x';\naaa.aa$aa(/* aa */ aa);\n".toList

theorem usage_exact_repeated : "aa".toList ≠ [] ∧ (∀ c ∈ "aa".toList, isName c = true) ∧
    (blank repeatedName).countWord "aa".toList = 2 ∧
    {n | (blank repeatedName).RunAt n "aa".toList}.ncard = 2 ∧
    ∃ n, (blank repeatedName).RunAt n "aa".toList ∧
      ∀ i ∈ ImportStatement.all (.of repeatedName), n + 2 ≤ i.start ∨ i.stop ≤ n := by
  obtain ⟨hcount, -⟩ := usage_exact (blank repeatedName) "aa".toList (by decide) (by decide)
  obtain ⟨-, hused⟩ := usage_exact repeatedName "aa".toList (by decide) (by decide)
  have htwo : (blank repeatedName).countWord "aa".toList = 2 := by decide
  exact ⟨by decide, by decide, htwo, hcount ▸ htwo, hused.mp (by decide)⟩

end ServiceGate
