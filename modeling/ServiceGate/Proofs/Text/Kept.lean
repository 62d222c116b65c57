/-
# Texts that agree up to an offset

An edit keeps what stands in front of it (`agree_splice`), so an offset in front of all edits so far
still names a place, and the same line, in the text that they have left.
-/
import ServiceGate.Proofs.Text.Bounds

namespace ServiceGate.Text

variable {t u v : Text} {k m n start stop : Nat}

/-! ## Line starts -/

/-- The offset of a place where a line starts. -/
def StartsLine (t : Text) (n : Nat) : Prop :=
  ∃ front back, t = front ++ back ∧ n = size front ∧ front.getLast?.all (· == '\n') = true

theorem exists_lastWhere? {f : Char → Bool} {p q : Text} {c : Char} (hc : f c = true) :
    ∃ i, (p ++ c :: q).lastWhere? f = some i ∧ size p ≤ i := by
  rw [lastWhere?, indexed_append, Nat.zero_add, indexed, List.reverse_append, List.reverse_cons,
    List.append_assoc, List.find?_append]
  cases hq : (indexed (size p + c.utf8Size) q).reverse.find? fun x => f x.2 with
  | some x =>
      have hle := le_of_mem_indexed (List.mem_reverse.mp (List.mem_of_find?_eq_some hq))
      exact ⟨x.1, rfl, by omega⟩
  | none =>
      refine ⟨size p, ?_, Nat.le_refl _⟩
      simp [hc]

theorem StartsLine.isBoundary (h : t.StartsLine n) : t.IsBoundary n := by
  obtain ⟨front, back, rfl, rfl, -⟩ := h
  exact isBoundary_append front back

theorem StartsLine.le_lineStart (h : t.StartsLine k) (hkn : k ≤ n) (hn : t.IsBoundary n) :
    k ≤ t.lineStart n := by
  obtain ⟨front, back, ht, rfl, hlast⟩ := h
  obtain ⟨p, q, hp, rfl⟩ := isBoundary_iff.mp hn
  obtain ⟨w, rfl, -⟩ := exists_middle (ht.symm.trans hp) hkn
  rcases List.eq_nil_or_concat' front with rfl | ⟨front, c, rfl⟩
  · exact Nat.zero_le _
  · have hc : (c == '\n') = true := by simpa using hlast
    rw [hp, lineStart, before_append, List.append_assoc, List.singleton_append]
    obtain ⟨i, hi, hle⟩ := exists_lastWhere? (f := (· == '\n')) (p := front) (q := w) hc
    rw [hi, size_append, beq_iff_eq.mp hc]
    exact Nat.add_le_add_right hle 1

theorem startsLine_lineStart (h : t.IsBoundary n) : t.StartsLine (t.lineStart n) := by
  obtain ⟨p, q, rfl, rfl⟩ := isBoundary_iff.mp h
  rw [lineStart, before_append]
  cases hlast : p.lastWhere? (· == '\n') with
  | none => exact ⟨[], p ++ q, rfl, rfl, rfl⟩
  | some i =>
      obtain ⟨u, c, v, rfl, rfl, hc⟩ := exists_of_lastWhere? hlast
      refine ⟨u ++ [c], v ++ q, by simp, ?_, by simpa using hc⟩
      rw [size_append, beq_iff_eq.mp hc]
      rfl

theorem lineStart_lineStart (h : t.IsBoundary n) : t.lineStart (t.lineStart n) = t.lineStart n := by
  have hplace := (bounds_lineStart h).start
  exact Nat.le_antisymm (bounds_lineStart hplace).le
    ((startsLine_lineStart h).le_lineStart (Nat.le_refl _) hplace)

theorem lineStart_append {front w : Text} (hfront : front.getLast?.all (· == '\n') = true)
    (hw : '\n' ∉ w) (rest : Text) : (front ++ w ++ rest).lineStart (size (front ++ w)) =
    size front := by
  have hline : (front ++ w ++ rest).StartsLine (size front) :=
    ⟨front, w ++ rest, List.append_assoc _ _ _, rfl, hfront⟩
  refine Nat.le_antisymm ?_ (hline.le_lineStart ?_ (isBoundary_append _ _))
  · rw [lineStart, before_append]
    cases hlast : (front ++ w).lastWhere? (· == '\n') with
    | none => exact Nat.zero_le _
    | some k =>
        obtain ⟨a, c, b, hcut, rfl, hc⟩ := exists_of_lastWhere? hlast
        rw [beq_iff_eq.mp hc] at hcut
        refine Nat.le_of_not_lt fun hlt => ?_
        obtain ⟨x, -, hw'⟩ := exists_middle hcut (Nat.le_of_lt_succ hlt)
        exact hw (by simp [hw'])
  · rw [size_append]
    exact Nat.le_add_right _ _

/-! ## Agreement -/

/-- Two texts with the same part in front of an offset. -/
def Agree (n : Nat) (t u : Text) : Prop := ∃ p q r, t = p ++ q ∧ u = p ++ r ∧ n = size p

theorem agree_refl (h : t.IsBoundary n) : Agree n t t := by
  obtain ⟨p, q, rfl, rfl⟩ := isBoundary_iff.mp h
  exact ⟨p, q, q, rfl, rfl, rfl⟩

theorem Agree.left (h : Agree n t u) : t.IsBoundary n := by
  obtain ⟨p, q, r, rfl, rfl, rfl⟩ := h
  exact isBoundary_append p q

theorem Agree.right (h : Agree n t u) : u.IsBoundary n := by
  obtain ⟨p, q, r, rfl, rfl, rfl⟩ := h
  exact isBoundary_append p r

theorem Agree.mono (h : Agree n t u) (hm : t.IsBoundary m) (hmn : m ≤ n) : Agree m t u := by
  obtain ⟨p, q, r, rfl, rfl, rfl⟩ := h
  obtain ⟨a, b, hab, rfl⟩ := isBoundary_iff.mp hm
  obtain ⟨w, rfl, rfl⟩ := exists_middle hab.symm hmn
  exact ⟨a, w ++ q, w ++ r, by simp, by simp, rfl⟩

theorem Agree.trans (h : Agree n t u) (h' : Agree n u v) : Agree n t v := by
  obtain ⟨p, q, r, rfl, rfl, rfl⟩ := h
  obtain ⟨a, b, c, hab, rfl, hsize⟩ := h'
  obtain ⟨w, rfl, -⟩ := exists_middle hab.symm (Nat.le_of_eq hsize.symm)
  have hw : w = [] := eq_nil_of_size (by rw [size_append] at hsize; omega)
  subst hw
  exact ⟨a, q, c, by simp, rfl, by simp⟩

theorem Agree.exists_rest {p q : Text} (h : Agree (size p) (p ++ q) u) : ∃ r, u = p ++ r := by
  obtain ⟨a, b, r, hab, rfl, hsize⟩ := h
  obtain ⟨w, rfl, -⟩ := exists_middle hab (Nat.le_of_eq hsize)
  have hw : w = [] := eq_nil_of_size (by rw [size_append p] at hsize; omega)
  subst hw
  exact ⟨r, by rw [List.append_nil]⟩

theorem Agree.between_eq (h : Agree stop t u) (hb : Bounds t start stop) :
    u.between start stop = t.between start stop := by
  obtain ⟨p, w, q, rfl, rfl, rfl⟩ := bounds_iff.mp hb
  rw [← size_append] at h
  obtain ⟨r, rfl⟩ := h.exists_rest
  rw [between_append, between_append]

theorem Agree.before_eq (h : Agree n t u) : t.before n = u.before n := by
  obtain ⟨p, q, r, rfl, rfl, rfl⟩ := h
  rw [before_append, before_append]

theorem Agree.lineStart_eq (h : Agree n t u) : t.lineStart n = u.lineStart n := by
  rw [lineStart, lineStart, h.before_eq]

theorem Agree.bounds (h : Agree stop t u) (hb : Bounds t start stop) : Bounds u start stop :=
  ⟨hb.le, (h.mono hb.start hb.le).right, h.right⟩

/-- A replacement keeps what stands in front of it. -/
theorem agree_splice (h : t.IsBoundary start) (stop : Nat) (new : Text) :
    Agree start t (t.splice start stop new) := by
  refine ⟨t.before start, t.after start, new ++ t.after stop, (before_append_after h).symm, ?_, ?_⟩
  · rw [splice, List.append_assoc]
  · rw [size_before h]

/-! ## Edits from the back -/

/-- Edits at ordered stretches, made from the back, keep what stands in front of all of them; so
each is made on a text that agrees with the first one up to the end of its stretch. -/
theorem agree_foldr {α : Type} {edit : α → Text → Text} (startOf stopOf : α → Nat) :
    ∀ {l : List α}, (∀ a ∈ l, ∀ u, Agree (stopOf a) t u → Agree (startOf a) u (edit a u)) →
      (∀ a ∈ l, Bounds t (startOf a) (stopOf a)) → l.Pairwise (fun a b => stopOf a ≤ startOf b) →
        ∀ k, t.IsBoundary k → (∀ a ∈ l, k ≤ startOf a) → Agree k t (l.foldr edit t)
  | [], _, _, _, _, hk, _ => agree_refl hk
  | a :: l, hedit, hbounds, horder, k, hk, hle => by
      obtain ⟨ha, hl⟩ := List.forall_mem_cons.mp hedit
      obtain ⟨hb, hbounds⟩ := List.forall_mem_cons.mp hbounds
      obtain ⟨hfirst, horder⟩ := List.pairwise_cons.mp horder
      obtain ⟨hka, hkl⟩ := List.forall_mem_cons.mp hle
      have hkept := agree_foldr startOf stopOf hl hbounds horder
      have hfront := hkept k hk hkl
      exact hfront.trans ((ha _ (hkept _ hb.stop hfirst)).mono hfront.right hka)

end ServiceGate.Text
