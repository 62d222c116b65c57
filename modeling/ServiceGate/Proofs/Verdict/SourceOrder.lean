/-
# Issues in the order of the source

Positions are ordered line by line, and column by column within a line.  A character moves a
position on (`rank_lt_advance`), so a place further behind in a text has a later position
(`rank_lt_position`), and no two places share one.  Offsets inside of a character count as its
start, so positions keep the order of all offsets (`rank_position_mono`).

The findings of a rule are sorted by their offsets before they get positions, and the rules report
one after the other.  So the issues of a verdict stand in the order of the catalogue, and those of
one rule in the order of the source, the ones without a place in front (`reported_in_order`).
-/
import Mathlib.Data.Prod.Lex
import Mathlib.Order.WithBot
import ServiceGate.Proofs.Text.Bounds
import ServiceGate.Proofs.Verdict.ByRule

namespace ServiceGate

variable {t u w : Text} {a b n k : Nat} {p q : Position} {f g : Finding} {rule : Rule}
  {ctx : Context} {level : Level} {issues : List Issue} {i j : Issue}

/-! ## Positions -/

namespace Position

def rank (p : Position) : ℕ ×ₗ ℕ := toLex (p.line, p.column)

theorem rank_lt_iff : p.rank < q.rank ↔ p.line < q.line ∨ p.line = q.line ∧ p.column < q.column :=
  Prod.Lex.toLex_lt_toLex

theorem rank_lt_advance (p : Position) (c : Char) : p.rank < (p.advance c).rank := by
  rw [rank_lt_iff, advance]
  split
  · exact .inl (Nat.lt_succ_self _)
  · exact .inr ⟨rfl, Nat.lt_succ_self _⟩

def behind (p : Position) (t : Text) : Position := t.foldl advance p

theorem rank_le_behind (p : Position) (t : Text) : p.rank ≤ (p.behind t).rank := by
  induction t generalizing p with
  | nil => exact le_refl _
  | cons c t ih => exact (rank_lt_advance p c).le.trans (ih (p.advance c))

theorem rank_lt_behind (p : Position) (hne : w ≠ []) : p.rank < (p.behind w).rank := by
  obtain ⟨c, w, rfl⟩ := List.exists_cons_of_ne_nil hne
  exact (rank_lt_advance p c).trans_le (rank_le_behind (p.advance c) w)

theorem walk_append (p : Position) (u w : Text) (n : Nat) :
    p.walk (u ++ w) (Text.size u + n) = (p.behind u).walk w n := by
  induction u generalizing p with
  | nil => rw [List.nil_append, Text.size, Nat.zero_add]; rfl
  | cons c u ih =>
      rw [List.cons_append, Text.size, walk, if_pos (by omega),
        show c.utf8Size + Text.size u + n - c.utf8Size = Text.size u + n by omega, ih (p.advance c)]
      rfl

theorem walk_zero (p : Position) (t : Text) : p.walk t 0 = p := by
  cases t with
  | nil => rfl
  | cons c t => rw [walk, if_neg (Nat.not_le_of_lt c.utf8Size_pos)]

theorem rank_walk_mono (hle : a ≤ b) (p : Position) (t : Text) :
    (p.walk t a).rank ≤ (p.walk t b).rank := by
  induction t generalizing p a b with
  | nil => exact le_refl _
  | cons c t ih =>
      by_cases ha : c.utf8Size ≤ a
      · rw [walk, if_pos ha, walk, if_pos (ha.trans hle)]
        exact ih (Nat.sub_le_sub_right hle _) _
      · rw [walk, if_neg ha, walk]
        split
        · calc p.rank
            _ ≤ (p.advance c).rank := (rank_lt_advance p c).le
            _ = ((p.advance c).walk t 0).rank := by rw [walk_zero]
            _ ≤ _ := ih (Nat.zero_le _) _
        · exact le_refl _

end Position

namespace Text

theorem position_append (u w : Text) : (u ++ w).position (size u) = Position.behind ⟨1, 1⟩ u := by
  rw [position, ← Nat.add_zero (size u), Position.walk_append, Position.walk_zero]

theorem rank_position_mono (hle : a ≤ b) (t : Text) : (t.position a).rank ≤ (t.position b).rank :=
  Position.rank_walk_mono hle _ t

/-- A place further behind has a later position. -/
theorem rank_lt_position (ha : t.IsBoundary a) (hb : t.IsBoundary b) (hlt : a < b) :
    (t.position a).rank < (t.position b).rank := by
  obtain ⟨u, v, rfl, rfl⟩ := isBoundary_iff.mp ha
  obtain ⟨u', v', hcut, rfl⟩ := isBoundary_iff.mp hb
  obtain ⟨w, rfl, rfl⟩ := exists_middle hcut hlt.le
  have hne : w ≠ [] := by
    rintro rfl
    simp at hlt
  have hbehind : Position.behind ⟨1, 1⟩ (u ++ w) = (Position.behind ⟨1, 1⟩ u).behind w :=
    List.foldl_append
  rw [position_append, ← List.append_assoc, position_append, hbehind]
  exact Position.rank_lt_behind _ hne

end Text

/-! ## The order of issues -/

def Rule.turn (code : String) : Nat := (Rule.all.map (·.code)).idxOf code

namespace Issue

/-- The place of an issue in the source; what has no place comes first. -/
def sourceRank (i : Issue) : WithBot (ℕ ×ₗ ℕ) :=
  match i.position with
  | none => ⊥
  | some p => p.rank

/-- Rule by rule, and for each rule by the place in the source. -/
def rank (i : Issue) : ℕ ×ₗ WithBot (ℕ ×ₗ ℕ) := toLex (Rule.turn i.code, i.sourceRank)

end Issue

theorem Finding.notAfter_trans (f g h : Finding) (hfg : f.notAfter g = true)
    (hgh : g.notAfter h = true) :
    f.notAfter h = true := by
  rw [notAfter] at hfg hgh ⊢
  cases hf : f.offset with
  | none => rfl
  | some a =>
      cases hg : g.offset with
      | none => rw [hf, hg] at hfg; cases hfg
      | some b =>
          cases hh : h.offset with
          | none => rw [hg, hh] at hgh; cases hgh
          | some k =>
              rw [hf, hg] at hfg
              rw [hg, hh] at hgh
              exact decide_eq_true ((of_decide_eq_true hfg).trans (of_decide_eq_true hgh))

theorem Finding.notAfter_total (f g : Finding) : (f.notAfter g || g.notAfter f) = true := by
  rw [notAfter, notAfter]
  cases f.offset <;> cases g.offset <;> simp
  omega

theorem sourceRank_le_of_notAfter (h : f.notAfter g = true) :
    (rule.issue t f).sourceRank ≤ (rule.issue t g).sourceRank := by
  rw [Finding.notAfter] at h
  rw [Issue.sourceRank, Issue.sourceRank, Rule.issue, Rule.issue]
  cases hf : f.offset with
  | none => exact bot_le
  | some a =>
      cases hg : g.offset with
      | none => rw [hf, hg] at h; cases h
      | some b =>
          rw [hf, hg] at h
          exact WithBot.coe_le_coe.mpr (Text.rank_position_mono (of_decide_eq_true h) t)

theorem pairwise_issues (h : rule.issues ctx = .ok issues) :
    issues.Pairwise fun i j => i.sourceRank ≤ j.sourceRank := by
  rw [Rule.issues] at h
  split_ifs at h with hgate
  · cases hfound : rule.detector.findings ctx with
    | error fault => rw [hfound] at h; cases h
    | ok found =>
        rw [hfound] at h
        obtain rfl := Except.ok.inj h
        refine List.pairwise_map.mpr ?_
        exact (List.pairwise_mergeSort Finding.notAfter_trans Finding.notAfter_total found).imp
          sourceRank_le_of_notAfter
  · obtain rfl := Except.ok.inj h
    exact .nil

theorem pairwise_turn (level : Level) :
    (Rule.all.filter (·.level = level)).Pairwise fun r s =>
    Rule.turn r.code < Rule.turn s.code := by
  refine List.Pairwise.filter _ (List.pairwise_iff_getElem.mpr fun m n hm hn hlt => ?_)
  have hturn : ∀ (k : Nat) (hk : k < Rule.all.length), Rule.turn Rule.all[k].code = k := fun k hk =>
    by
    have hk' : k < (Rule.all.map (·.code)).length := by simpa using hk
    have hget : (Rule.all.map (·.code))[k] = Rule.all[k].code := List.getElem_map _
    exact (congrArg (List.idxOf · _) hget.symm).trans (nodup_codes.idxOf_getElem k hk')
  rwa [hturn m hm, hturn n hn]

/-- What rules of the catalogue report, in its order. -/
theorem pairwise_results {rules : List Rule} {lists : List (List Issue)}
    (h : List.Forall₂ (fun rule issues => rule.issues ctx = .ok issues) rules lists)
    (hturn : rules.Pairwise fun r s => Rule.turn r.code < Rule.turn s.code) :
    lists.Pairwise fun own later => ∀ i ∈ own, ∀ j ∈ later, i.rank ≤ j.rank := by
  induction h with
  | nil => exact .nil
  | @cons rule own rules lists hown hrest ih =>
      obtain ⟨hbehind, hturn⟩ := List.pairwise_cons.mp hturn
      refine List.pairwise_cons.mpr ⟨fun later hlater i hi j hj => ?_, ih hturn⟩
      obtain ⟨other, hother, hlater⟩ := exists_of_mem_results hrest hlater
      refine Prod.Lex.toLex_le_toLex.mpr (.inl ?_)
      rw [code_of_mem_issues hown hi, code_of_mem_issues hlater hj]
      exact hbehind other hother

theorem pairwise_issuesOf (h : issuesOf level ctx = .ok issues) :
    issues.Pairwise fun i j => i.rank ≤ j.rank := by
  rw [issuesOf] at h
  cases hall : (Rule.all.filter (·.level = level)).mapM (Rule.issues ctx) with
  | error fault => rw [hall] at h; cases h
  | ok lists =>
      rw [hall] at h
      obtain rfl := Except.ok.inj h
      have hlists := mapM_ok_iff.mp hall
      refine List.pairwise_flatten.mpr ⟨fun own hown =>
        ?_, pairwise_results hlists (pairwise_turn level)⟩
      obtain ⟨rule, -, hown⟩ := exists_of_mem_results hlists hown
      refine (pairwise_issues hown).imp_of_mem fun hi hj hle => ?_
      rw [Issue.rank, Issue.rank, code_of_mem_issues hown hi, code_of_mem_issues hown hj]
      exact Prod.Lex.toLex_le_toLex.mpr (.inr ⟨rfl, hle⟩)

/-! ## The main statement -/

/-- Places further behind have later positions, so a position determines its place; and in every
verdict the errors, as well as the warnings, stand in the order of the catalogue, and those of one
rule in the order of the source, the ones without a place first. -/
theorem reported_in_order (t : Text) :
    (∀ a b, t.IsBoundary a → t.IsBoundary b → a < b → (t.position a).rank < (t.position b).rank) ∧
    (∀ a b, t.IsBoundary a → t.IsBoundary b → t.position a = t.position b → a = b) ∧
    ∀ policy mode v, validate policy mode t = .ok v → ∀ issues ∈ [v.errors, v.warnings],
      (∀ i ∈ issues, ∃ rule ∈ Rule.all, rule.code = i.code) ∧
        issues.Pairwise fun i j => i.rank ≤ j.rank := by
  refine ⟨fun a b => Text.rank_lt_position, fun a b ha hb heq => ?_, fun policy mode v hv => ?_⟩
  · rcases lt_trichotomy a b with hlt | hab | hlt
    · exact absurd (congrArg Position.rank heq) (Text.rank_lt_position ha hb hlt).ne
    · exact hab
    · exact absurd (congrArg Position.rank heq) (Text.rank_lt_position hb ha hlt).ne'
  · obtain ⟨errors, warnings, herrors, hwarnings, rfl⟩ := validate_eq_ok_iff.mp hv
    have hof : ∀ {level issues}, issuesOf level (.of policy mode t) = .ok issues →
        (∀ i ∈ issues, ∃ rule ∈ Rule.all, rule.code = i.code) ∧
          issues.Pairwise fun i j => i.rank ≤ j.rank := fun h =>
      ⟨fun i hi => (exists_rule h hi).imp fun _ hrule => ⟨hrule.1, hrule.2.2⟩, pairwise_issuesOf h⟩
    exact List.forall_mem_cons.mpr ⟨hof herrors, List.forall_mem_singleton.mpr (hof hwarnings)⟩

/-- A schema that nothing uses, of a library that is not imported, and a loose type behind an
accent. -/
def accented : Text := "const s = z.string();\nlet /* é */ a: any;\n".toList

theorem reported_in_order_accented :
    (accented.IsBoundary 29 ∧ accented.IsBoundary 31 ∧
      (accented.position 29).rank < (accented.position 31).rank) ∧
    (∀ n, accented.IsBoundary n → accented.position n = ⟨2, 9⟩ → n = 31) ∧
    ∃ v, validate .default .none accented = .ok v ∧
      (v.errors.map fun i => (i.code, i.position)) =
        [("UNUSED_SCHEMA", some ⟨1, 7⟩), ("MISSING_ZOD_IMPORT", none)] ∧
      (v.warnings.map fun i => (i.code, i.position)) = [("EXPLICIT_ANY", some ⟨2, 14⟩)] ∧
      v.errors.Pairwise (fun i j => i.rank ≤ j.rank) ∧
      v.warnings.Pairwise (fun i j => i.rank ≤ j.rank) := by
  obtain ⟨hlater, hplace, hverdict⟩ := reported_in_order accented
  have hreported : (validate .default .none accented).toOption.map (fun v =>
      (v.errors.map fun i => (i.code, i.position), v.warnings.map fun i => (i.code, i.position))) =
        some ([("UNUSED_SCHEMA", some ⟨1, 7⟩), ("MISSING_ZOD_IMPORT", none)],
          [("EXPLICIT_ANY", some ⟨2, 14⟩)]) := by decide +kernel
  have hbefore : accented.IsBoundary 29 := by decide
  have hbehind : accented.IsBoundary 31 := by decide
  have hposition : accented.position 31 = ⟨2, 9⟩ := by decide
  refine ⟨⟨hbefore, hbehind, hlater 29 31 hbefore hbehind (by decide)⟩,
    fun n hn heq => hplace n 31 hn hbehind (heq.trans hposition.symm), ?_⟩
  cases hv : validate .default .none accented with
  | error fault => rw [hv] at hreported; cases hreported
  | ok v =>
      rw [hv] at hreported
      obtain ⟨herrors, hwarnings⟩ := Prod.mk.inj (Option.some.inj hreported)
      exact ⟨v, rfl, herrors, hwarnings, (hverdict .default .none v hv v.errors (by simp)).2,
        (hverdict .default .none v hv v.warnings (by simp)).2⟩

end ServiceGate
