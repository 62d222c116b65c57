/-
# Matches in a text that goes on

A text is followed by more, which does not begin with a character of a word.  Then every place of
the text is the place that it was, its end included, and any pattern is read there as before or goes
past the end (`run_longer`).  So if no match reaches over the old end, the matches of the text are
the first ones of the longer text (`all_longer`), and its first match is the first one
(`first?_longer`).

A reading that started behind a part of a text has come past a longer part (`Leads.past`), so each
part of a match is read from where the part in front of it ends (`leads_past_seq`).
-/
import ServiceGate.Proofs.Pattern.Found
import ServiceGate.Proofs.Pattern.Places
import ServiceGate.Proofs.Pattern.Stretches

namespace ServiceGate

open Text (size)

def Reading.extend (w : Text) (r : Reading) : Reading :=
  { r with cursor := { r.cursor with rest := r.cursor.rest ++ w } }

namespace Pattern

variable {p : Pattern} {v w : Text} {o : Nat} {r r₁ : Reading} {x x' y y' : Option Reading}
  {k k' : Reading → Option Reading}

/-- What follows does not go on with a word. -/
def EndsWord (w : Text) : Prop := ∀ c ∈ w.head?, CharClass.isWord c = false

/-- The reading has come to a place of the text that starts at an offset. -/
def Upon (v : Text) (o : Nat) (r : Reading) : Prop :=
  ∃ u, v = u ++ r.cursor.rest ∧ r.cursor.offset = o + size u

/-- The outcome in the longer text is that in the text itself, or it lies past the end of that. -/
def Longer (w : Text) (n : Nat) (x x' : Option Reading) : Prop :=
  Past n x' ∨ x' = x.map (·.extend w)

/-! ## Outcomes -/

namespace Longer

theorem orElse {n : Nat} (h : Longer w n x x') (hy : Longer w n y y') :
    Longer w n (x.orElse fun _ => y) (x'.orElse fun _ => y') := by
  rcases h with ⟨r, rfl, hr⟩ | rfl
  · exact .inl ⟨r, rfl, hr⟩
  · cases x with
    | none => exact hy
    | some r => exact .inr rfl

theorem ite {n : Nat} {b b' : Bool} (hb : b' = b) (h : Longer w n x x') :
    Longer w n (if b then x else none) (if b' then x' else none) := by
  subst hb
  cases b' with
  | true => exact h
  | false => exact .inr rfl

end Longer

theorem Upon.moves (h : Upon v o r) (h₁ : Upon v o r₁) (hle : r.cursor.offset ≤ r₁.cursor.offset) :
    ∃ u, Moves r.cursor u r₁.cursor := by
  obtain ⟨z, hz, hoffset⟩ := h
  obtain ⟨z₁, hz₁, hoffset₁⟩ := h₁
  obtain ⟨u, hu, hrest⟩ := Text.exists_middle (hz.symm.trans hz₁) (by omega)
  exact ⟨u, hrest, by rw [hoffset₁, hoffset, hu, Text.size_append, Nat.add_assoc]⟩

theorem Upon.length_lt (h : Upon v o r) (h₁ : Upon v o r₁)
    (hlt : r.cursor.offset < r₁.cursor.offset) :
    r₁.cursor.rest.length < r.cursor.rest.length := by
  obtain ⟨u, hmoves⟩ := h.moves h₁ (Nat.le_of_lt hlt)
  rw [hmoves.rest, List.length_append]
  cases u with
  | nil => exact absurd hmoves.offset (by simp only [size]; omega)
  | cons c u => simp

theorem keep_extend (h : Upon v o r) (h₁ : Upon v o r₁) (hle : r.cursor.offset ≤ r₁.cursor.offset)
    (w : Text) (number : Nat) :
    (r₁.extend w).keep number (r.extend w).cursor = (r₁.keep number r.cursor).extend w := by
  obtain ⟨u, hmoves⟩ := h.moves h₁ hle
  have hextend : Moves (r.extend w).cursor u (r₁.extend w).cursor :=
    ⟨by rw [Reading.extend, hmoves.rest, List.append_assoc]; rfl, hmoves.offset⟩
  rw [Reading.keep, Reading.keep, hmoves.textTo_eq, hextend.textTo_eq]
  rfl

theorem atWordEdge_extend (hw : EndsWord w) (r : Reading) :
    (r.extend w).cursor.atWordEdge = r.cursor.atWordEdge := by
  obtain ⟨⟨behind, n, rest⟩, cs⟩ := r
  cases rest with
  | cons c rest => rfl
  | nil =>
      have hhead : w.head?.any CharClass.isWord = false := by
        cases hc : w.head? with
        | none => rfl
        | some c => exact hw c hc
      simp [Reading.extend, Cursor.atWordEdge, hhead]

/-! ## Runs -/

/-- At the end of a text a repetition takes nothing. -/
theorem repeated_of_nil {rounds : Nat} (hrest : r.cursor.rest = []) (greedy : Bool) :
    ∀ times : Nat, repeated (p.run rounds) greedy times k r = k r
  | 0 => rfl
  | times + 1 => by
      have hnone : p.run rounds (fun r₁ => if r.cursor.offset < r₁.cursor.offset
          then repeated (p.run rounds) greedy times k r₁ else none) r = none := by
        refine Option.eq_none_iff_forall_ne_some.mpr fun r' hr' => ?_
        obtain ⟨r₁, hleads, hr₁⟩ := exists_leads p hr'
        obtain ⟨z, -, hmoves, -⟩ := hleads.moves
        have hz : z = [] := (List.append_eq_nil_iff.mp (hmoves.rest.symm.trans hrest)).1
        have hsame : r₁.cursor.offset = r.cursor.offset := by rw [hmoves.offset, hz]; rfl
        rw [if_neg (by omega)] at hr₁
        cases hr₁
      rw [repeated]
      dsimp only
      rw [hnone]
      cases greedy with
      | true => rfl
      | false => cases k r <;> rfl

/-- At the old end a repetition of the longer text takes nothing either, or goes past it. -/
theorem repeated_longer_of_nil {rounds' : Nat} (h : Upon v o r) (hrest : r.cursor.rest = [])
    (hk : Longer w (o + size v) (k r) (k' (r.extend w))) (hon : Onward (o + size v) k')
    (greedy : Bool) (times' : Nat) :
    Longer w (o + size v) (k r) (repeated (p.run rounds') greedy times' k' (r.extend w)) := by
  obtain ⟨u, hu, hoffset⟩ := h
  rw [hrest, List.append_nil] at hu
  have hstuck : repeated (p.run rounds') greedy times' k' (r.extend w) = k' (r.extend w) ∨
      Past (o + size v) (repeated (p.run rounds') greedy times' k' (r.extend w)) :=
    repeated_stuck hon (by rw [hu]; exact hoffset) greedy times'
  rcases hstuck with heq | hpast
  · rwa [heq]
  · exact .inl hpast

theorem repeated_longer {rounds rounds' : Nat}
    (hp : ∀ {k k' : Reading → Option Reading} {r : Reading}, Upon v o r →
      (∀ {r₁}, Upon v o r₁ → r.cursor.offset ≤ r₁.cursor.offset →
        Longer w (o + size v) (k r₁) (k' (r₁.extend w))) → Onward (o + size v) k' →
          Longer w (o + size v) (p.run rounds k r) (p.run rounds' k' (r.extend w)))
    (hon : Onward (o + size v) k') (greedy : Bool) :
    ∀ (times times' : Nat) {r : Reading}, Upon v o r →
      (∀ {r₁}, Upon v o r₁ → r.cursor.offset ≤ r₁.cursor.offset →
        Longer w (o + size v) (k r₁) (k' (r₁.extend w))) →
      r.cursor.rest.length ≤ times → r.cursor.rest.length ≤ times' →
        Longer w (o + size v) (repeated (p.run rounds) greedy times k r)
          (repeated (p.run rounds') greedy times' k' (r.extend w)) := by
  intro times
  induction times with
  | zero =>
      intro times' r h hk hlen _
      have hrest : r.cursor.rest = [] := List.length_eq_zero_iff.mp (Nat.le_zero.mp hlen)
      exact repeated_longer_of_nil h hrest (hk h (Nat.le_refl _)) hon greedy times'
  | succ times ih =>
      intro times' r h hk hlen hlen'
      cases times' with
      | zero =>
          have hrest : r.cursor.rest = [] := List.length_eq_zero_iff.mp (Nat.le_zero.mp hlen')
          rw [repeated_of_nil hrest]
          exact hk h (Nat.le_refl _)
      | succ times' =>
          have hagain := @hp
            (fun r₁ => if r.cursor.offset < r₁.cursor.offset
              then repeated (p.run rounds) greedy times k r₁ else none)
            (fun r₁ => if r.cursor.offset < r₁.cursor.offset
              then repeated (p.run rounds') greedy times' k' r₁ else none) _ h
            (fun {r₁} h₁ hle => by
              by_cases hlt : r.cursor.offset < r₁.cursor.offset
              · have hlt' : r.cursor.offset < (r₁.extend w).cursor.offset := hlt
                have hshort := h.length_lt h₁ hlt
                rw [if_pos hlt, if_pos hlt']
                exact ih times' h₁ (fun h₂ hle₂ => hk h₂ (Nat.le_trans hle hle₂)) (by omega)
                  (by omega)
              · have hlt' : ¬ r.cursor.offset < (r₁.extend w).cursor.offset := hlt
                rw [if_neg hlt, if_neg hlt']
                exact .inr rfl)
            ((hon.repeated p greedy times').further _)
          rw [repeated, repeated]
          cases greedy with
          | true => exact hagain.orElse (hk h (Nat.le_refl _))
          | false => exact (hk h (Nat.le_refl _)).orElse hagain

/-- One character is read as in the text itself, or past its end. -/
theorem step_longer (f : Char → Bool) (h : Upon v o r)
    (hk : ∀ {r₁}, Upon v o r₁ → r.cursor.offset ≤ r₁.cursor.offset →
      Longer w (o + size v) (k r₁) (k' (r₁.extend w)))
    (hon : Onward (o + size v) k') :
    Longer w (o + size v) ((r.step? f).bind k) (((r.extend w).step? f).bind k') := by
  obtain ⟨u, hu, hoffset⟩ := id h
  cases hrest : r.cursor.rest with
  | nil =>
      rw [hrest, List.append_nil] at hu
      have hnone : (r.step? f).bind k = none := by
        rw [Reading.step?, Cursor.step?, hrest]
        rfl
      rw [hnone]
      rcases step_stuck (r := r.extend w) hon (by rw [hu]; exact hoffset) f with heq | hpast
      · exact .inr heq
      · exact .inl hpast
  | cons c rest =>
      have hstep : (r.extend w).step? f = (r.step? f).map (·.extend w) := by
        rw [Reading.step?, Cursor.step?, Reading.step?, Cursor.step?]
        simp only [Reading.extend, hrest, List.cons_append]
        cases f c <;> rfl
      rw [hstep]
      cases hr₁ : r.step? f with
      | none => exact .inr rfl
      | some r₁ =>
          obtain ⟨z, -, hmoves, -⟩ := (Leads.char hr₁).moves
          refine hk ⟨u ++ z, ?_, ?_⟩ (Leads.char hr₁).le
          · rw [hu, hmoves.rest, List.append_assoc]
          · rw [hmoves.offset, hoffset, Text.size_append, Nat.add_assoc]

/-- Any pattern is read as in the text itself, or past its end. -/
theorem run_longer {rounds rounds' : Nat} (hw : EndsWord w) (hrounds : v.length ≤ rounds)
    (hrounds' : v.length ≤ rounds') (p : Pattern) :
    ∀ {k k' : Reading → Option Reading} {r : Reading}, Upon v o r →
      (∀ {r₁}, Upon v o r₁ → r.cursor.offset ≤ r₁.cursor.offset →
        Longer w (o + size v) (k r₁) (k' (r₁.extend w))) → Onward (o + size v) k' →
          Longer w (o + size v) (p.run rounds k r) (p.run rounds' k' (r.extend w)) := by
  induction p with
  | empty => exact fun h hk _ => hk h (Nat.le_refl _)
  | char f => exact fun h hk hon => step_longer f h hk hon
  | textStart => exact fun h hk _ => (hk h (Nat.le_refl _)).ite rfl
  | lineStart => exact fun h hk _ => (hk h (Nat.le_refl _)).ite rfl
  | wordEdge => exact fun h hk _ => (hk h (Nat.le_refl _)).ite (atWordEdge_extend hw _)
  | seq p q ihp ihq =>
      intro k k' r h hk hon
      exact ihp h (fun h₁ hle => ihq h₁ (fun h₂ hle₂ => hk h₂ (Nat.le_trans hle hle₂)) hon)
        (hon.run q)
  | alt p q ihp ihq => exact fun h hk hon => (ihp h hk hon).orElse (ihq h hk hon)
  | many greedy p ih =>
      intro k k' r h hk hon
      obtain ⟨u, hu, -⟩ := id h
      have hlen : r.cursor.rest.length ≤ v.length := by
        rw [hu, List.length_append]
        exact Nat.le_add_left _ _
      exact repeated_longer ih hon greedy _ _ h hk (Nat.le_trans hlen hrounds)
        (Nat.le_trans hlen hrounds')
  | capture number p ih =>
      intro k k' r h hk hon
      rw [run, run]
      refine ih h (fun {r₁} h₁ hle => ?_) fun r₁ hr₁ => hon (r₁.keep number (r.extend w).cursor) hr₁
      rw [keep_extend h h₁ hle]
      have hkept : Upon v o (r₁.keep number r.cursor) := h₁
      exact hk hkept hle

/-! ## Matches -/

theorem matchAt?_longer {rounds rounds' : Nat} (hw : EndsWord w) (hrounds : v.length ≤ rounds)
    (hrounds' : v.length ≤ rounds') (p : Pattern) (behind : Option Char) (n : Nat) :
    (∃ m, p.matchAt? rounds' ⟨behind, n, v ++ w⟩ = some m ∧ n + size v < m.stop) ∨
      p.matchAt? rounds' ⟨behind, n, v ++ w⟩ = p.matchAt? rounds ⟨behind, n, v⟩ := by
  have hstart : Upon v n ⟨⟨behind, n, v⟩, []⟩ := ⟨[], rfl, rfl⟩
  have hrun : Longer w (n + size v) (p.run rounds some ⟨⟨behind, n, v⟩, []⟩)
      (p.run rounds' some ⟨⟨behind, n, v ++ w⟩, []⟩) :=
    run_longer hw hrounds hrounds' p hstart (fun _ _ => .inr rfl) (onward_some _)
  rw [matchAt?, matchAt?]
  rcases hrun with ⟨r, hr, hpast⟩ | heq
  · exact .inl ⟨_, by rw [hr]; rfl, hpast⟩
  · right
    rw [heq]
    cases hr : p.run rounds some ⟨⟨behind, n, v⟩, []⟩ with
    | none => rfl
    | some r =>
        obtain ⟨r', hleads, hsome⟩ := exists_leads p hr
        obtain ⟨u, -, hmoves, -⟩ := (Option.some.inj hsome ▸ hleads).moves
        have hlonger : Moves ⟨behind, n, v ++ w⟩ u (r.extend w).cursor :=
          ⟨by rw [Reading.extend, ← List.append_assoc, ← hmoves.rest], hmoves.offset⟩
        simp only [Option.map_some, Option.some.injEq]
        rw [hmoves.textTo_eq, hlonger.textTo_eq]
        rfl

theorem allFrom_longer {rounds rounds' : Nat} (hp : p.takes = true) (hw : EndsWord w) : ∀ (v : Text)
    {behind : Option Char} {free n : Nat}, v.length ≤ rounds → v.length ≤ rounds' →
      (∀ m ∈ p.allFrom rounds' free behind n (v ++ w), m.start < n + size v → m.stop ≤ n + size v) →
      ∃ ms, p.allFrom rounds' free behind n (v ++ w) = p.allFrom rounds free behind n v ++ ms ∧
        ∀ m ∈ ms, n + size v ≤ m.start
  | [], behind, free, n, _, _, _ => by
      have hnone : p.allFrom rounds free behind n [] = [] := by
        rw [allFrom, matchAt?_of_takes hp]
        split <;> rfl
      refine ⟨_, by rw [hnone]; rfl, fun m hm => ?_⟩
      obtain ⟨front, rest, -, hfound⟩ := exists_matchAt?_of_mem _ hm
      rw [(stop_of_matchAt? hfound).1]
      exact Nat.le_add_right n _
  | c :: v, behind, free, n, hlen, hlen', hm => by
      have hsize : n + size (c :: v) = n + c.utf8Size + size v := by rw [size, Nat.add_assoc]
      have hpos := c.utf8Size_pos
      have hsame : (if free ≤ n then p.matchAt? rounds' ⟨behind, n, c :: (v ++ w)⟩ else none) =
          if free ≤ n then p.matchAt? rounds ⟨behind, n, c :: v⟩ else none := by
        by_cases hfree : free ≤ n
        · rw [if_pos hfree, if_pos hfree]
          rcases matchAt?_longer hw hlen hlen' p behind n with ⟨m, hfound, hpast⟩ | heq
          · have hstop := hm m (by
              rw [List.cons_append, allFrom, if_pos hfree]
              rw [List.cons_append] at hfound
              rw [hfound]
              exact List.mem_cons_self) (by rw [(stop_of_matchAt? hfound).1]; omega)
            omega
          · exact heq
        · rw [if_neg hfree, if_neg hfree]
      rw [hsize] at hm ⊢
      rw [List.cons_append, allFrom, hsame] at hm ⊢
      rw [allFrom]
      cases hfound : (if free ≤ n then p.matchAt? rounds ⟨behind, n, c :: v⟩ else none) with
      | some m =>
          rw [hfound] at hm
          obtain ⟨ms, hms, hbehind⟩ := allFrom_longer hp hw v
            (Nat.le_of_succ_le hlen) (Nat.le_of_succ_le hlen')
            fun m' hm' => hm m' (List.mem_cons_of_mem m hm')
          exact ⟨ms, congrArg (m :: ·) hms, hbehind⟩
      | none =>
          rw [hfound] at hm
          exact allFrom_longer hp hw v (Nat.le_of_succ_le hlen) (Nat.le_of_succ_le hlen') hm

/-- If no match reaches over the old end, the matches of the text come first. -/
theorem all_longer (hp : p.takes = true) (hw : EndsWord w) (h : p.Apart (v ++ w) (size v)) :
    ∃ ms, p.all (v ++ w) = p.all v ++ ms ∧ ∀ m ∈ ms, size v ≤ m.start := by
  have hlong : v.length ≤ (v ++ w).length + 1 :=
    Nat.le_succ_of_le (by rw [List.length_append]; exact Nat.le_add_right _ _)
  obtain ⟨ms, hms, hbehind⟩ := allFrom_longer hp hw v (Nat.le_succ _) hlong
    fun m hm => by rw [Nat.zero_add]; exact h m hm
  rw [Nat.zero_add] at hbehind
  exact ⟨ms, hms, hbehind⟩

/-! ## The first match -/

theorem firstFrom?_eq_head? {rounds : Nat} : ∀ (t : Text) {behind : Option Char} {free n : Nat},
    free ≤ n → p.firstFrom? rounds behind n t = (p.allFrom rounds free behind n t).head?
  | [], behind, free, n, hfree => by
      rw [firstFrom?, allFrom, if_pos hfree]
      cases p.matchAt? rounds ⟨behind, n, []⟩ <;> rfl
  | c :: t, behind, free, n, hfree => by
      rw [firstFrom?, allFrom, if_pos hfree]
      cases p.matchAt? rounds ⟨behind, n, c :: t⟩ with
      | some m => rfl
      | none => exact firstFrom?_eq_head? t (Nat.le_add_right_of_le hfree)

theorem first?_eq_head? (p : Pattern) (t : Text) : p.first? t = (p.all t).head? :=
  firstFrom?_eq_head? t (Nat.le_refl 0)

theorem occursIn_iff {t : Text} : p.occursIn t = true ↔ p.all t ≠ [] := by
  rw [occursIn, first?_eq_head?]
  cases p.all t <;> simp

theorem proper_literal : ∀ w : Text, (literal w).proper = true
  | [] => rfl
  | [_] => rfl
  | _ :: c :: w => proper_literal (c :: w)

theorem occursIn_of_readsAt {t : Text} {n : Nat} (hp : p.proper = true) (htakes : p.takes = true)
    (h : p.ReadsAt t n) : p.occursIn t = true := by
  obtain ⟨m, hm, -⟩ := exists_covering (fun u hu => spells_ne_nil hu htakes) (h.matchesAt hp)
  exact occursIn_iff.mpr (List.ne_nil_of_mem hm)

/-- The first match of a text is that of a longer one. -/
theorem first?_longer {m : Match} (hp : p.takes = true) (hw : EndsWord w)
    (h : p.Apart (v ++ w) (size v)) (hm : p.first? v = some m) : p.first? (v ++ w) = some m := by
  obtain ⟨ms, hms, -⟩ := all_longer hp hw h
  rw [first?_eq_head?] at hm ⊢
  rw [hms, List.head?_append, hm]
  rfl

/-! ## Readings past a part -/

/-- A reading that started behind a part of a text has come past a longer part. -/
theorem Leads.past {r' : Reading} (h : Leads p r r') : ∀ {front rest : Text} {cs : List Capture},
    r = .past front rest cs → ∃ u rest' cs', rest = u ++ rest' ∧ r' = .past (front ++ u) rest' cs' ∧
      Spells p u := by
  have hstay : ∀ {p : Pattern} {r : Reading}, Spells p [] →
      ∀ {front rest : Text} {cs : List Capture},
      r = .past front rest cs → ∃ u rest' cs', rest = u ++ rest' ∧
      r = .past (front ++ u) rest' cs' ∧
        Spells p u := fun hp front rest cs hr =>
        ⟨[], rest, cs, rfl, by rw [List.append_nil, hr], hp⟩
  induction h with
  | empty => exact hstay .empty
  | textStart _ => exact hstay .textStart
  | lineStart _ => exact hstay .lineStart
  | wordEdge _ => exact hstay .wordEdge
  | manyNone => exact hstay .manyNone
  | @char f r r' hstep =>
      rintro front rest cs rfl
      cases rest with
      | nil => cases hstep
      | cons c rest =>
          have hc : f c = true := by
            by_contra hc
            rw [Reading.step?, Cursor.step?, Reading.past] at hstep
            simp only [if_neg hc] at hstep
            cases hstep
          rw [step?_past hc] at hstep
          exact ⟨[c], rest, cs, rfl, (Option.some.inj hstep).symm, .char hc⟩
  | seq _ _ ihp ihq =>
      intro front rest cs hr
      obtain ⟨u, rest', cs', rfl, hr₁, hu⟩ := ihp hr
      obtain ⟨u', rest'', cs'', rfl, hr', hu'⟩ := ihq hr₁
      exact ⟨u ++ u', rest'', cs'', by rw [List.append_assoc],
        by rw [hr', List.append_assoc], .seq hu hu'⟩
  | altFirst _ ih =>
      intro front rest cs hr
      obtain ⟨u, rest', cs', hrest, hr', hu⟩ := ih hr
      exact ⟨u, rest', cs', hrest, hr', .altFirst hu⟩
  | altSecond _ ih =>
      intro front rest cs hr
      obtain ⟨u, rest', cs', hrest, hr', hu⟩ := ih hr
      exact ⟨u, rest', cs', hrest, hr', .altSecond hu⟩
  | manyMore _ _ ihp ihmany =>
      intro front rest cs hr
      obtain ⟨u, rest', cs', rfl, hr₁, hu⟩ := ihp hr
      obtain ⟨u', rest'', cs'', rfl, hr', hu'⟩ := ihmany hr₁
      exact ⟨u ++ u', rest'', cs'', by rw [List.append_assoc],
        by rw [hr', List.append_assoc], .manyMore hu hu'⟩
  | @capture number p r r' _ ih =>
      intro front rest cs hr
      obtain ⟨u, rest', cs', rfl, rfl, hu⟩ := ih hr
      subst hr
      exact ⟨u, rest', _, rfl, keep_past cs number, .capture hu⟩

section Parts

variable {q : Pattern} {front rest : Text} {cs : List Capture} {r' : Reading} {m : Match}

theorem leads_past_seq (h : Leads (seq p q) (.past front rest cs) r') : ∃ u rest' cs',
    rest = u ++ rest' ∧ Spells p u ∧ Leads p (.past front rest cs) (.past (front ++ u) rest' cs') ∧
      Leads q (.past (front ++ u) rest' cs') r' := by
  cases h with
  | seq hp hq =>
      obtain ⟨u, rest', cs', hrest, rfl, hu⟩ := hp.past rfl
      exact ⟨u, rest', cs', hrest, hu, hp, hq⟩

theorem leads_past_wordEdge (h : Leads wordEdge (.past front rest cs) r') :
    front.getLast?.any CharClass.isWord ≠ rest.head?.any CharClass.isWord := by
  cases h with
  | wordEdge hedge => exact bne_iff_ne.mp hedge

theorem leads_past_capture {number : Nat} (h : Leads (capture number p) (.past front rest cs) r')
    (hp : p.groups = []) : ∃ u rest', rest = u ++ rest' ∧ Spells p u ∧
      r' = .past (front ++ u) rest' (.past number front u :: cs) := by
  cases h with
  | capture h =>
      obtain ⟨u, rest', cs', rfl, rfl, hu⟩ := h.past rfl
      have hcs : cs' = cs := h.captures_eq hp
      exact ⟨u, rest', rfl, hu, by rw [keep_past, hcs]⟩

theorem spells_last : ∀ {ps : List Pattern} {u : Text}, Spells (inOrder (ps ++ [p])) u →
    ∃ v w, u = v ++ w ∧ Spells p w
  | [], u, h => ⟨[], u, rfl, h⟩
  | q :: ps, u, h => by
      obtain ⟨v, w, rfl, -, hw⟩ : ∃ v w, u = v ++ w ∧ Spells q v ∧
          Spells (inOrder (ps ++ [p])) w := by
        cases ps <;> exact spells_seq h
      obtain ⟨v', w, rfl, hp⟩ := spells_last hw
      exact ⟨v ++ v', w, (List.append_assoc _ _ _).symm, hp⟩

theorem spells_literal_self : ∀ w : Text, Spells (literal w) w
  | [] => .empty
  | [c] => .char (beq_self_eq_true c)
  | c :: d :: w => .seq (u := [c]) (.char (beq_self_eq_true c)) (spells_literal_self (d :: w))

theorem spells_many_of_forall {greedy : Bool} {f : Char → Bool} : ∀ {w : Text},
    (∀ c ∈ w, f c = true) → Spells (many greedy (char f)) w
  | [], _ => .manyNone
  | c :: _, h => .manyMore (u := [c]) (.char (h c List.mem_cons_self))
      (spells_many_of_forall fun d hd => h d (List.mem_cons_of_mem c hd))

theorem spells_anyOf_of_mem {u : Text} : ∀ {ps : List Pattern}, p ∈ ps → Spells p u →
    Spells (anyOf ps) u
  | [q], hp, h => List.mem_singleton.mp hp ▸ h
  | q :: q' :: ps, hp, h => by
      rcases List.mem_cons.mp hp with rfl | hp
      · exact .altFirst h
      · exact .altSecond (spells_anyOf_of_mem hp h)

theorem spells_anyWord_of_mem {words : List String} {w : Text} (h : w ∈ words.map String.toList) :
    Spells (anyWord words) w := by
  obtain ⟨s, hs, rfl⟩ := List.mem_map.mp h
  exact spells_anyOf_of_mem (List.mem_map_of_mem hs) (spells_literal_self s.toList)

theorem Spells.leads {u : Text} (h : Spells p u) : p.blind = true → ∀ (front rest : Text)
    (cs : List Capture), ∃ cs',
    Leads p (.past front (u ++ rest) cs) (.past (front ++ u) rest cs') := by
  induction h with
  | empty => exact fun _ front rest cs => ⟨cs, by rw [List.append_nil]; exact .empty⟩
  | char hc => exact fun _ front rest cs => ⟨cs, leads_single hc front rest cs⟩
  | textStart => exact fun hp => nomatch hp
  | lineStart => exact fun hp => nomatch hp
  | wordEdge => exact fun hp => nomatch hp
  | manyNone => exact fun _ front rest cs => ⟨cs, by rw [List.append_nil]; exact .manyNone⟩
  | @seq _ _ u v _ _ ihp ihq =>
      intro hp front rest cs
      obtain ⟨hp, hq⟩ := Bool.and_eq_true_iff.mp hp
      rw [List.append_assoc, ← List.append_assoc front u v]
      obtain ⟨cs₁, h₁⟩ := ihp hp front _ cs
      obtain ⟨cs₂, h₂⟩ := ihq hq _ rest cs₁
      exact ⟨cs₂, .seq h₁ h₂⟩
  | altFirst _ ih =>
      intro hp front rest cs
      obtain ⟨cs', h⟩ := ih (Bool.and_eq_true_iff.mp hp).1 front rest cs
      exact ⟨cs', .altFirst h⟩
  | altSecond _ ih =>
      intro hp front rest cs
      obtain ⟨cs', h⟩ := ih (Bool.and_eq_true_iff.mp hp).2 front rest cs
      exact ⟨cs', .altSecond h⟩
  | @manyMore _ _ u v _ _ ihp ihmany =>
      intro hp front rest cs
      rw [List.append_assoc, ← List.append_assoc front u v]
      obtain ⟨cs₁, h₁⟩ := ihp hp front _ cs
      obtain ⟨cs₂, h₂⟩ := ihmany hp _ rest cs₁
      exact ⟨cs₂, .manyMore h₁ h₂⟩
  | capture _ ih =>
      intro hp front rest cs
      obtain ⟨cs', h⟩ := ih hp front rest cs
      exact ⟨_, by rw [← keep_past cs]; exact .capture h⟩

theorem exists_leads_of_mem_all {t : Text} (h : m ∈ p.all t) : ∃ front back,
    t = front ++ (m.text ++ back) ∧ m.start = size front ∧ m.stop = size (front ++ m.text) ∧
      Leads p (.past front (m.text ++ back) []) (.past (front ++ m.text) back m.captures) := by
  obtain ⟨front, rest, rfl, hfound⟩ := exists_of_mem_all h
  obtain ⟨r, hr, rfl⟩ := Option.map_eq_some_iff.mp hfound
  obtain ⟨r', hleads, hsome⟩ := exists_leads p hr
  obtain rfl := Option.some.inj hsome
  obtain ⟨u, back, cs, rfl, rfl, -⟩ := hleads.past rfl
  have htext : (⟨front.getLast?, size front, u ++ back⟩ : Cursor).textTo
      (Reading.past (front ++ u) back cs).cursor = u :=
    Moves.textTo_eq ⟨rfl, Text.size_append front u⟩
  refine ⟨front, back, ?_, rfl, ?_, ?_⟩
  · rw [htext]
  · rw [htext]
    rfl
  · rw [htext]
    exact hleads

end Parts

end Pattern

end ServiceGate
