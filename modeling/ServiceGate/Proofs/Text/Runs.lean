/-
# Maximal runs of characters of names

A word of such characters occurs whole where it is a maximal run (`RunAt`).  The search for it goes
on behind each occurrence, whole or not; it steps over none that is whole, because a maximal run has
no character of a name in front of it and an occurrence consists of nothing else
(`length_runStarts`).  So the count is the number of maximal runs (`countWord_eq_ncard`).

A part of a text that has no character of a name in front of its ends (`Break`) has the runs of the
text that lie in it (`runs_part`).
-/
import ServiceGate.Text.Word
import ServiceGate.Proofs.Text.Bounds
import Mathlib.Data.Set.Card

namespace ServiceGate.Text

open CharClass (isName)

variable {t p q w word front rest back : Text} {n m start stop : Nat} {behind : Option Char}
  {c : Char}

/-! ## Runs -/

/-- At an offset a maximal run of characters of names starts, and it is `word`. -/
def RunAt (t : Text) (n : Nat) (word : Text) : Prop :=
  ∃ front back, t = front ++ word ++ back ∧ n = size front ∧ word ≠ [] ∧
  (∀ c ∈ word, isName c = true) ∧
    (∀ c ∈ front.getLast?, isName c = false) ∧ ∀ c ∈ back.head?, isName c = false

/-- No character of a name stands in front of the offset. -/
def Break (t : Text) (n : Nat) : Prop :=
  ∃ front back, t = front ++ back ∧ n = size front ∧ ∀ c ∈ front.getLast?, isName c = false

theorem endsWord_iff : endsWord behind = true ↔ ∀ c ∈ behind, isName c = false := by
  cases behind with
  | none => simp [endsWord]
  | some c => simp [endsWord]

/-! ## Counting runs -/

/-- Where in a text that starts at offset `n` behind a character the word is a maximal run. -/
def runStarts (word : Text) (behind : Option Char) (n : Nat) : Text → List Nat
  | [] => []
  | c :: rest =>
    (if endsWord behind ∧ word.isPrefixOf (c :: rest) ∧
      endsWord ((c :: rest).drop word.length).head? then [n]
      else []) ++ runStarts word (some c) (n + c.utf8Size) rest

/-- What an occurrence still covers are characters of names, behind such a character; so no run
starts there. -/
theorem length_runStarts (hne : word ≠ []) (hword : ∀ c ∈ word, isName c = true) : ∀ (rest : Text)
    (behind : Option Char) (covered n : Nat), (∀ c ∈ rest.take covered, isName c = true) →
      (covered ≠ 0 → endsWord behind = false) →
        (runStarts word behind n rest).length = countWordFrom word behind covered rest
  | [], _, _, _, _, _ => rfl
  | c :: rest, behind, covered + 1, n, htake, hbehind => by
      obtain ⟨hc, htake⟩ := List.forall_mem_cons.mp htake
      rw [runStarts, if_neg fun h => by simp [hbehind (Nat.succ_ne_zero _)] at h, List.nil_append,
        countWordFrom]
      exact length_runStarts hne hword rest _ covered _ htake fun _ => by simp [endsWord, hc]
  | c :: rest, behind, 0, n, _, _ => by
      rw [runStarts, countWordFrom, List.length_append]
      by_cases hstarts : word.isPrefixOf (c :: rest) = true
      · obtain ⟨back, hback⟩ := List.isPrefixOf_iff_prefix.mp hstarts
        obtain ⟨k, hk⟩ := Nat.exists_eq_succ_of_ne_zero (mt List.length_eq_zero_iff.mp hne)
        have htake : ∀ d ∈ (c :: rest).take word.length, isName d = true := by
          rwa [← hback, List.take_left]
        rw [hk, List.take_succ_cons] at htake
        obtain ⟨hc, htake⟩ := List.forall_mem_cons.mp htake
        have ih := length_runStarts hne hword rest (some c) (word.length - 1) (n + c.utf8Size)
          (by rwa [hk, Nat.succ_sub_one]) fun _ => by simp [endsWord, hc]
        rw [ih]
        simp only [hstarts, true_and, if_true, Bool.and_eq_true]
        split_ifs <;> rfl
      · have ih := length_runStarts hne hword rest (some c) 0 (n + c.utf8Size) (by simp) (by simp)
        rw [ih]
        simp [hstarts]

theorem mem_runStarts (hne : word ≠ []) (hword : ∀ c ∈ word, isName c = true) :
    ∀ {rest front : Text},
    m ∈ runStarts word front.getLast? (size front) rest ↔ (front ++ rest).RunAt m word ∧
    size front ≤ m
  | [], front => by
      refine iff_of_false List.not_mem_nil ?_
      rintro ⟨⟨x, y, hcut, rfl, -⟩, hle⟩
      have hsize := congrArg size hcut
      rw [List.append_nil, size_append, size_append] at hsize
      exact hne (eq_nil_of_size (by omega))
  | c :: rest, front => by
      have hsize : size front + c.utf8Size = size (front ++ [c]) := by
        rw [size_append]
        rfl
      have hlast : some c = (front ++ [c]).getLast? := by simp
      have htext : front ++ c :: rest = front ++ [c] ++ rest := by simp
      have hpos := c.utf8Size_pos
      have hhere : (endsWord front.getLast? ∧ word.isPrefixOf (c :: rest) ∧
          endsWord ((c :: rest).drop word.length).head?) ↔
          (front ++ c :: rest).RunAt (size front) word := by
        constructor
        · rintro ⟨hfront, hstarts, hback⟩
          obtain ⟨back, hcut⟩ := List.isPrefixOf_iff_prefix.mp hstarts
          rw [← hcut, List.drop_left] at hback
          exact ⟨front, back,
            by rw [← hcut, List.append_assoc], rfl, hne, hword, endsWord_iff.mp hfront,
            endsWord_iff.mp hback⟩
        · rintro ⟨x, back, hcut, hx, -, -, hfront, hback⟩
          rw [List.append_assoc] at hcut
          obtain ⟨rfl, hword⟩ := append_inj_of_size hcut hx
          refine ⟨endsWord_iff.mpr hfront, List.isPrefixOf_iff_prefix.mpr ⟨back, hword.symm⟩, ?_⟩
          rw [hword, List.drop_left]
          exact endsWord_iff.mpr hback
      rw [runStarts, hsize, hlast, List.mem_append, mem_runStarts hne hword, ← htext,
        List.mem_ite_nil_right, List.mem_singleton, hhere]
      constructor
      · rintro (⟨hrun, rfl⟩ | ⟨hrun, hle⟩)
        · exact ⟨hrun, Nat.le_refl _⟩
        · exact ⟨hrun, by omega⟩
      · rintro ⟨hrun, hle⟩
        rcases Nat.eq_or_lt_of_le hle with rfl | hlt
        · exact .inl ⟨hrun, rfl⟩
        · refine .inr ⟨hrun, ?_⟩
          -- the run starts at a place, and the next one is behind the character
          obtain ⟨x, y, hcut, rfl, -⟩ := hrun
          rw [List.append_assoc] at hcut
          obtain ⟨u, rfl, hu⟩ := exists_middle hcut (Nat.le_of_lt hlt)
          cases u with
          | nil =>
              rw [List.append_nil] at hlt
              exact absurd hlt (Nat.lt_irrefl _)
          | cons d u =>
              obtain ⟨rfl, -⟩ := List.cons.inj hu
              rw [size_append, size_append, size, size, size]
              omega

theorem nodup_runStarts : ∀ (rest : Text) (behind : Option Char) (n : Nat),
    (runStarts word behind n rest).Nodup ∧ ∀ m ∈ runStarts word behind n rest, n ≤ m
  | [], _, _ => ⟨.nil, fun _ h => absurd h List.not_mem_nil⟩
  | c :: rest, behind, n => by
      obtain ⟨hnodup, hle⟩ := nodup_runStarts rest (some c) (n + c.utf8Size)
      have hpos := c.utf8Size_pos
      rw [runStarts]
      split_ifs
      · refine ⟨List.nodup_cons.mpr ⟨fun hmem => ?_, hnodup⟩, fun m hm => ?_⟩
        · have := hle n hmem
          omega
        · rcases List.mem_cons.mp hm with rfl | hm
          · exact Nat.le_refl _
          · have := hle m hm
            omega
      · refine ⟨hnodup, fun m hm => ?_⟩
        have := hle m hm
        omega

def runs (t word : Text) : Finset Nat := (runStarts word none 0 t).toFinset

theorem mem_runs (hne : word ≠ []) (hword : ∀ c ∈ word, isName c = true) :
    n ∈ runs t word ↔ t.RunAt n word := by
  have hmem := @mem_runStarts word n hne hword t []
  rw [runs, List.mem_toFinset]
  exact hmem.trans (and_iff_left (Nat.zero_le n))

theorem card_runs (hne : word ≠ []) (hword : ∀ c ∈ word, isName c = true) (t : Text) :
    (runs t word).card = t.countWord word := by
  rw [runs, List.toFinset_card_of_nodup (nodup_runStarts t none 0).1,
    length_runStarts hne hword t none 0 0 (by simp) (by simp), countWord,
    if_neg (by simpa using hne)]

/-- A word is counted as often as it is a maximal run. -/
theorem countWord_eq_ncard (hne : word ≠ []) (hword : ∀ c ∈ word, isName c = true) (t : Text) :
    t.countWord word = {n | t.RunAt n word}.ncard := by
  have hset : {n | t.RunAt n word} = ↑(runs t word) := by
    ext n
    exact (mem_runs hne hword).symm
  rw [hset, Set.ncard_coe_finset, card_runs hne hword]

/-! ## Runs of a part -/

/-- The part between two breaks has the runs of the text that lie in it; at its end it is enough
that no run of the word ends with the part. -/
theorem runAt_part (hp : ∀ c ∈ p.getLast?, isName c = false)
    (hw : ∀ c ∈ (p ++ w).getLast?, c ∉ word) :
    w.RunAt n word ↔ (p ++ w ++ q).RunAt (size p + n) word ∧ n + size word ≤ size w := by
  constructor
  · rintro ⟨x, y, rfl, rfl, hne, hword, hx, hy⟩
    refine ⟨⟨p ++ x, y ++ q,
      by simp, (size_append p x).symm, hne, hword, fun c hc => ?_, fun c hc => ?_⟩, ?_⟩
    · rcases List.eq_nil_or_concat' x with rfl | ⟨u, d, rfl⟩
      · exact hp c (by simpa using hc)
      · exact hx c (by simpa using hc)
    · cases y with
      | cons d y => exact hy c hc
      | nil =>
          -- the word would end with the part
          obtain ⟨u, d, rfl⟩ := (List.eq_nil_or_concat' word).resolve_left hne
          exact absurd (by simp) (hw d (by simp [← List.append_assoc]))
    · rw [size_append, size_append]
      omega
  · rintro ⟨⟨x, y, hcut, hx, hne, hword, hfront, hback⟩, hle⟩
    rw [List.append_assoc, List.append_assoc] at hcut
    obtain ⟨u, rfl, hu⟩ := exists_middle hcut (by omega)
    obtain rfl : n = size u := by
      rw [size_append] at hx
      omega
    rw [← List.append_assoc] at hu
    obtain ⟨v, rfl, hv⟩ := exists_middle hu.symm (by rw [size_append]; exact hle)
    refine ⟨u, v, rfl, rfl, hne, hword, fun c hc => ?_, fun c hc => ?_⟩
    · exact hfront c (by rw [List.getLast?_append, hc]; rfl)
    · exact hback c (by rw [hv, List.head?_append, hc]; rfl)

theorem countWord_part (hne : word ≠ []) (hword : ∀ c ∈ word, isName c = true)
    (hstart : t.Break start) (hstop : t.Break stop) (hle : start ≤ stop) :
    (t.between start stop).countWord word =
      ((runs t word).filter fun n => start ≤ n ∧ n + size word ≤ stop).card := by
  obtain ⟨p, r, rfl, rfl, hp⟩ := hstart
  obtain ⟨u, q, hcut, rfl, hu⟩ := hstop
  obtain ⟨w, rfl, rfl⟩ := exists_middle hcut hle
  have hlast : ∀ c ∈ (p ++ w).getLast?, c ∉ word := fun c hc hmem =>
    Bool.false_ne_true ((hu c hc).symm.trans (hword c hmem))
  have htext : p ++ (w ++ q) = p ++ w ++ q := (List.append_assoc p w q).symm
  have hruns : (runs (p ++ w ++ q) word).filter (fun n => size p ≤ n ∧
      n + size word ≤ size (p ++ w)) =
      (runs w word).image (size p + ·) := by
    ext n
    simp only [Finset.mem_filter, Finset.mem_image, mem_runs hne hword]
    constructor
    · rintro ⟨hrun, hle, hlt⟩
      obtain ⟨k, rfl⟩ := Nat.exists_eq_add_of_le hle
      rw [size_append] at hlt
      exact ⟨k, (runAt_part hp hlast).mpr ⟨hrun, by omega⟩, rfl⟩
    · rintro ⟨k, hk, rfl⟩
      obtain ⟨hrun, hlt⟩ := (runAt_part (q := q) hp hlast).mp hk
      rw [size_append]
      exact ⟨hrun, Nat.le_add_right _ _, by omega⟩
  rw [htext, hruns, Finset.card_image_of_injective _ (add_right_injective _), card_runs hne hword,
    size_append, between_append]

theorem RunAt.apart (h : t.RunAt n word) (hstart : t.Break start) (hstop : t.Break stop) :
    n + size word ≤ start ∨ stop ≤ n ∨ (start ≤ n ∧ n + size word ≤ stop) := by
  obtain ⟨x, y, rfl, rfl, hne, hword, -⟩ := h
  -- no break lies inside of the run
  have hinside : ∀ {k}, (x ++ word ++ y).Break k → k ≤ size x ∨ size x + size word ≤ k := by
    rintro k ⟨u, v, hcut, rfl, hu⟩
    by_contra hbetween
    obtain ⟨hlt, hlt'⟩ := not_or.mp hbetween
    rw [List.append_assoc] at hcut
    obtain ⟨w, rfl, hw⟩ := exists_middle hcut (by omega)
    rcases List.eq_nil_or_concat' w with rfl | ⟨w, d, rfl⟩
    · exact hlt (by simp)
    · obtain ⟨z, rfl, -⟩ := exists_middle hw.symm (by rw [size_append x] at hlt'; omega)
      have hd := hu d (by simp [← List.append_assoc])
      rw [hword d (by simp)] at hd
      cases hd
  rcases hinside hstart with h | h
  · rcases hinside hstop with h' | h'
    · exact .inr (.inl h')
    · exact .inr (.inr ⟨h, h'⟩)
  · exact .inl h

end ServiceGate.Text
