/-
# Offsets that bound a part

The offset behind a part `p` is its size, so cutting `p ++ q` there gives back `p` and `q`.  The
offsets of the characters of a text start at the given one and grow from each character to the next.

Two offsets bound a part of a text if both name a place in it, the first not behind the second
(`Bounds`).  They are those that a cut of the text into three parts gives (`bounds_iff`), and those
at which `between?` answers.
-/
import Mathlib.Data.List.Basic
import ServiceGate.Text.Basic
import ServiceGate.Text.Search

namespace ServiceGate.Text

section

/-! ## The part behind an offset -/

@[simp]
theorem after?_zero (t : Text) : t.after? 0 = some t := by
  cases t <;> rfl

theorem after?_cons (c : Char) (t : Text) (n : Nat) :
    after? (c :: t) (c.utf8Size + n) = after? t n := by
  have hc := c.utf8Size_pos
  obtain ⟨k, hk⟩ : ∃ k, c.utf8Size + n = k + 1 := ⟨c.utf8Size + n - 1, by omega⟩
  rw [hk, after?, if_pos (by omega)]
  congr 1
  omega

theorem after?_append (p q : Text) (n : Nat) :
    after? (p ++ q) (size p + n) = after? q n := by
  induction p with
  | nil => simp [size]
  | cons c p ih =>
      have hsize : size (c :: p) + n = c.utf8Size + (size p + n) := by simp only [size]; omega
      rw [hsize, List.cons_append, after?_cons, ih]

@[simp]
theorem after_append (p q : Text) : after (p ++ q) (size p) = q := by
  have h := after?_append p q 0
  simp only [Nat.add_zero, after?_zero] at h
  simp [after, h]

theorem after_append_cons (p : Text) (c : Char) (q : Text) :
    after (p ++ c :: q) (size p + c.utf8Size) = q := by
  have h : p ++ c :: q = (p ++ [c]) ++ q := by simp
  have hsize : size p + c.utf8Size = size (p ++ [c]) := by simp [size_append, size]
  rw [h, hsize, after_append]

/-! ## The part in front of an offset -/

@[simp]
theorem before?_zero (t : Text) : t.before? 0 = some [] := by
  cases t <;> rfl

theorem before?_cons (c : Char) (t : Text) (n : Nat) :
    before? (c :: t) (c.utf8Size + n) = (before? t n).map (c :: ·) := by
  have hc := c.utf8Size_pos
  obtain ⟨k, hk⟩ : ∃ k, c.utf8Size + n = k + 1 := ⟨c.utf8Size + n - 1, by omega⟩
  rw [hk, before?, if_pos (by omega), show k + 1 - c.utf8Size = n by omega]

theorem before?_append (p q : Text) : before? (p ++ q) (size p) = some p := by
  induction p with
  | nil => exact before?_zero q
  | cons c p ih => rw [size, List.cons_append, before?_cons, ih, Option.map_some]

@[simp]
theorem before_append (p q : Text) : before (p ++ q) (size p) = p := by
  rw [before, before?_append]
  rfl

theorem between?_append (p w q : Text) :
    between? (p ++ w ++ q) (size p) (size p + size w) = some w := by
  have hafter := after?_append p (w ++ q) 0
  rw [Nat.add_zero, after?_zero] at hafter
  rw [between?, if_pos (Nat.le_add_right _ _), List.append_assoc, hafter, Option.bind_some,
    Nat.add_sub_cancel_left, before?_append]

@[simp]
theorem between_append (p w q : Text) : between (p ++ w ++ q) (size p) (size p + size w) = w := by
  rw [between, between?_append]
  rfl

theorem isBoundary_iff {t : Text} {n : Nat} : t.IsBoundary n ↔ ∃ p q, t = p ++ q ∧ n = size p := by
  constructor
  · intro h
    obtain ⟨q, hq⟩ := Option.isSome_iff_exists.mp h
    have hp : (t.before? n).isSome = true := by rw [before?_isSome_eq, hq]; rfl
    obtain ⟨p, hp⟩ := Option.isSome_iff_exists.mp hp
    exact ⟨p, q, (before?_append_after? hp hq).symm, (size_of_before? hp).symm⟩
  · rintro ⟨p, q, rfl, rfl⟩
    have h := after?_append p q 0
    rw [Nat.add_zero, after?_zero] at h
    rw [IsBoundary, h]
    rfl

/-! ## The offsets of the characters -/

theorem indexed_append (n : Nat) (p q : Text) :
    indexed n (p ++ q) = indexed n p ++ indexed (n + size p) q := by
  induction p generalizing n with
  | nil => simp [indexed, size]
  | cons c p ih => simp [indexed, size, ih, Nat.add_assoc]

theorem le_of_mem_indexed {n : Nat} {t : Text} {x : Nat × Char} (h : x ∈ indexed n t) :
    n ≤ x.1 := by
  induction t generalizing n with
  | nil => cases h
  | cons c t ih =>
      rcases List.mem_cons.mp h with rfl | h
      · exact Nat.le_refl _
      · exact Nat.le_of_add_right_le (ih h)

theorem pairwise_indexed (n : Nat) (t : Text) :
    (indexed n t).Pairwise fun x y => x.1 < y.1 := by
  induction t generalizing n with
  | nil => exact .nil
  | cons c t ih =>
      refine .cons (fun y hy => ?_) (ih _)
      have hc := c.utf8Size_pos
      have hy := le_of_mem_indexed hy
      show n < y.1
      omega

end

variable {t p q u v w : Text} {n m start stop : Nat} {c : Char}

/-- Two offsets that bound a part of a text. -/
structure Bounds (t : Text) (start stop : Nat) : Prop where
  le : start ≤ stop
  start : t.IsBoundary start
  stop : t.IsBoundary stop

/-! ## Places -/

theorem isBoundary_append (p q : Text) : (p ++ q).IsBoundary (size p) :=
  isBoundary_iff.mpr ⟨p, q, rfl, rfl⟩

theorem isBoundary_zero (t : Text) : t.IsBoundary 0 := isBoundary_append [] t

theorem isBoundary_size (t : Text) : t.IsBoundary (size t) :=
  isBoundary_iff.mpr ⟨t, [], (List.append_nil t).symm, rfl⟩

theorem IsBoundary.le_size (h : t.IsBoundary n) : n ≤ size t := by
  obtain ⟨p, q, rfl, rfl⟩ := isBoundary_iff.mp h
  rw [size_append]
  exact Nat.le_add_right _ _

theorem eq_nil_of_size (h : size w = 0) : w = [] := by
  cases w with
  | nil => rfl
  | cons c w =>
      have hc := c.utf8Size_pos
      rw [size] at h
      omega

theorem exists_middle (h : p ++ q = u ++ v) (hle : size p ≤ size u) :
    ∃ w, u = p ++ w ∧ q = w ++ v := by
  rcases List.append_eq_append_iff.mp h with ⟨w, hu, hq⟩ | ⟨w, hp, hv⟩
  · exact ⟨w, hu, hq⟩
  · have hw : w = [] := eq_nil_of_size (by rw [hp, size_append] at hle; omega)
    subst hw
    exact ⟨[], by rw [hp]; simp, by rw [hv]; simp⟩

theorem append_inj_of_size (h : p ++ q = u ++ v) (hsize : size p = size u) : p = u ∧ q = v := by
  have hp : p = u := by rw [← before_append p q, h, hsize, before_append]
  exact ⟨hp, List.append_cancel_left (hp ▸ h)⟩

theorem IsBoundary.append (h : q.IsBoundary n) (p : Text) : (p ++ q).IsBoundary (size p + n) := by
  rw [IsBoundary, after?_append]
  exact h

theorem IsBoundary.append_right (h : p.IsBoundary n) (q : Text) : (p ++ q).IsBoundary n := by
  obtain ⟨u, v, rfl, rfl⟩ := isBoundary_iff.mp h
  rw [List.append_assoc]
  exact isBoundary_append u _

/-! ## Parts -/

theorem bounds_iff : Bounds t start stop ↔
    ∃ p w q, t = p ++ w ++ q ∧ start = size p ∧ stop = size p + size w := by
  constructor
  · rintro ⟨hle, hstart, hstop⟩
    obtain ⟨p, q, rfl, rfl⟩ := isBoundary_iff.mp hstart
    obtain ⟨u, v, huv, rfl⟩ := isBoundary_iff.mp hstop
    obtain ⟨w, rfl, rfl⟩ := exists_middle huv hle
    exact ⟨p, w, v, by rw [List.append_assoc], rfl, size_append p w⟩
  · rintro ⟨p, w, q, rfl, rfl, rfl⟩
    rw [List.append_assoc]
    exact ⟨Nat.le_add_right _ _, isBoundary_append p _, (isBoundary_append w q).append p⟩

theorem Bounds.between? (h : Bounds t start stop) :
    t.between? start stop = some (t.between start stop) := by
  obtain ⟨p, w, q, rfl, rfl, rfl⟩ := bounds_iff.mp h
  rw [between?_append, between_append]

theorem bounds_from (h : t.IsBoundary n) : Bounds t n (size t) := ⟨h.le_size, h, isBoundary_size t⟩

theorem bounds_to (h : t.IsBoundary n) : Bounds t 0 n := ⟨Nat.zero_le n, isBoundary_zero t, h⟩

theorem between_from (h : t.IsBoundary n) : t.between n (size t) = t.after n := by
  obtain ⟨p, q, rfl, rfl⟩ := isBoundary_iff.mp h
  have hall := between_append p q []
  rw [List.append_nil, ← size_append] at hall
  rw [hall, after_append]

theorem between_to (h : t.IsBoundary n) : t.between 0 n = t.before n := by
  obtain ⟨p, q, rfl, rfl⟩ := isBoundary_iff.mp h
  have hall := between_append [] p q
  rw [size, Nat.zero_add, List.nil_append] at hall
  rw [hall, before_append]

theorem before_append_after (h : t.IsBoundary n) : t.before n ++ t.after n = t := by
  obtain ⟨p, q, rfl, rfl⟩ := isBoundary_iff.mp h
  rw [before_append, after_append]

theorem size_before (h : t.IsBoundary n) : size (t.before n) = n := by
  obtain ⟨p, q, rfl, rfl⟩ := isBoundary_iff.mp h
  rw [before_append]

theorem size_between (h : Bounds t start stop) : start + size (t.between start stop) = stop := by
  obtain ⟨p, w, q, rfl, rfl, rfl⟩ := bounds_iff.mp h
  rw [between_append]

theorem Bounds.inner (h : Bounds t start stop) (hn : (t.between start stop).IsBoundary n) :
    t.IsBoundary (start + n) := by
  obtain ⟨p, w, q, rfl, rfl, rfl⟩ := bounds_iff.mp h
  rw [between_append] at hn
  rw [List.append_assoc]
  exact (hn.append_right q).append p

/-! ## Characters with their offsets -/

theorem exists_of_mem_indexed {x : Nat × Char} (h : x ∈ indexed n t) :
    ∃ p q, t = p ++ x.2 :: q ∧ x.1 = n + size p := by
  induction t generalizing n with
  | nil => cases h
  | cons c t ih =>
      rcases List.mem_cons.mp h with rfl | h
      · exact ⟨[], t, rfl, rfl⟩
      · obtain ⟨p, q, rfl, hx⟩ := ih h
        exact ⟨c :: p, q, rfl, by rw [hx, size, Nat.add_assoc]⟩

theorem exists_of_lastWhere? {f : Char → Bool} (h : t.lastWhere? f = some n) :
    ∃ p c q, t = p ++ c :: q ∧ n = size p ∧ f c = true := by
  obtain ⟨x, hx, rfl⟩ := Option.map_eq_some_iff.mp h
  have hc := List.find?_some hx
  obtain ⟨p, q, rfl, hn⟩ :=
    exists_of_mem_indexed (List.mem_reverse.mp (List.mem_of_find?_eq_some hx))
  exact ⟨p, x.2, q, rfl, by rw [hn, Nat.zero_add], hc⟩

/-! ## What is looked for -/

/-- What is found stands where it is found, and at no place in front of that. -/
theorem exists_of_findFrom? {needle : Text} {k : Nat} : ∀ {t : Text} {n : Nat},
    findFrom? needle n t = some k →
      ∃ p q, t = p ++ q ∧ k = n + size p ∧ needle <+: q ∧ ∀ u v, t = u ++ v → u.length < p.length →
      ¬ needle <+: v
  | [], n, h => by
      rw [findFrom?] at h
      split at h
      · next hempty =>
          rw [List.isEmpty_iff.mp hempty]
          exact ⟨[], [], rfl, (Option.some.inj h).symm, List.nil_prefix, fun u v _ hu =>
            absurd hu (Nat.not_lt_zero _)⟩
      · cases h
  | c :: t, n, h => by
      rw [findFrom?] at h
      split at h
      · next hstarts =>
          exact ⟨[], c :: t, rfl, (Option.some.inj h).symm, List.isPrefixOf_iff_prefix.mp hstarts,
            fun u v _ hu => absurd hu (Nat.not_lt_zero _)⟩
      · next hstarts =>
          obtain ⟨p, q, rfl, rfl, hneedle, hfirst⟩ := exists_of_findFrom? h
          refine ⟨c :: p, q, rfl, by rw [size, Nat.add_assoc], hneedle, fun u v huv hu hv => ?_⟩
          cases u with
          | nil => exact hstarts (List.isPrefixOf_iff_prefix.mpr (huv ▸ hv))
          | cons d u => exact hfirst u v (List.cons.inj huv).2 (Nat.lt_of_succ_lt_succ hu) hv

theorem findFrom?_isSome_iff {needle : Text} : ∀ {t : Text} {n : Nat},
    (findFrom? needle n t).isSome = true ↔ needle <:+: t
  | [], n => by
      rw [findFrom?, List.infix_nil, ← List.isEmpty_iff]
      cases needle.isEmpty <;> simp
  | c :: t, n => by
      rw [findFrom?, List.infix_cons_iff, ← List.isPrefixOf_iff_prefix]
      by_cases hstarts : needle.isPrefixOf (c :: t) = true
      · rw [if_pos hstarts]
        exact iff_of_true rfl (.inl hstarts)
      · rw [if_neg hstarts, findFrom?_isSome_iff, or_iff_right hstarts]

theorem contains_iff {needle : Text} : t.contains needle = true ↔ needle <:+: t :=
  findFrom?_isSome_iff

/-! ## Lines -/

theorem bounds_lineStart (h : t.IsBoundary n) : Bounds t (t.lineStart n) n := by
  obtain ⟨p, q, rfl, rfl⟩ := isBoundary_iff.mp h
  rw [lineStart, before_append]
  cases hlast : p.lastWhere? (· == '\n') with
  | none => exact bounds_to h
  | some i =>
      obtain ⟨u, c, v, rfl, rfl, hc⟩ := exists_of_lastWhere? hlast
      obtain rfl := beq_iff_eq.mp hc
      have hsize : size u + 1 = size (u ++ ['\n']) := by
        rw [size_append]
        rfl
      refine bounds_iff.mpr ⟨u ++ ['\n'], v, q, by simp, hsize, ?_⟩
      rw [← size_append]
      congr 1
      simp

end ServiceGate.Text
