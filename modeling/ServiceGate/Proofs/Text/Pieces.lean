/-
# Pieces between separators

A separator divides a text into the pieces of what stands in front of it and of what stands behind
it (`splitWhere_append`), and pieces without a separator that are joined are divided again
(`pieces_join`).  A part without it ends in front of it or begins behind it (`prefix_of_notMem`,
`suffix_of_notMem`).  Cut at the first separator, a text is told apart into a part without it and
the rest (`splitOnce?_append`, `notMem_of_splitOnce?`).
-/
import Mathlib.Data.List.TakeDrop
import ServiceGate.Text.Search

namespace ServiceGate.Text

variable {f : Char → Bool} {c sep : Char} {t u piece : Text} {rest : List Text}

theorem splitWhere_pos (h : f c = true) (t : Text) :
    splitWhere f (c :: t) = [] :: splitWhere f t := by
  simp only [splitWhere, h, if_true]

theorem splitWhere_neg (h : f c = false) (ht : splitWhere f t = piece :: rest) :
    splitWhere f (c :: t) = (c :: piece) :: rest := by
  simp only [splitWhere, h, ht, Bool.false_eq_true, if_false]

theorem exists_splitWhere (f : Char → Bool) : ∀ t : Text, ∃ piece rest,
    splitWhere f t = piece :: rest
  | [] => ⟨[], [], rfl⟩
  | c :: t => by
      obtain ⟨piece, rest, ht⟩ := exists_splitWhere f t
      cases hc : f c with
      | true => exact ⟨_, _, splitWhere_pos hc t⟩
      | false => exact ⟨_, _, splitWhere_neg hc ht⟩

theorem splitWhere_of_forall : ∀ {t : Text}, (∀ c ∈ t, f c = false) → splitWhere f t = [t]
  | [], _ => rfl
  | c :: t, h => by
      obtain ⟨hc, ht⟩ := List.forall_mem_cons.mp h
      exact splitWhere_neg hc (splitWhere_of_forall ht)

theorem splitWhere_append (hsep : f sep = true) (x y : Text) :
    splitWhere f (x ++ sep :: y) = splitWhere f x ++ splitWhere f y := by
  induction x with
  | nil => exact splitWhere_pos hsep y
  | cons c x ih =>
      obtain ⟨piece, rest, hx⟩ := exists_splitWhere f x
      cases hc : f c with
      | true => rw [List.cons_append, splitWhere_pos hc, splitWhere_pos hc, ih, List.cons_append]
      | false =>
          rw [hx] at ih
          rw [List.cons_append, splitWhere_neg hc ih, splitWhere_neg hc hx]
          rfl

theorem pieces_of_notMem (h : sep ∉ t) : t.pieces sep = [t] :=
  splitWhere_of_forall fun _ hc => beq_eq_false_iff_ne.mpr fun heq => h (heq ▸ hc)

theorem pieces_append (sep : Char) (x y : Text) :
    pieces (x ++ sep :: y) sep = x.pieces sep ++ y.pieces sep :=
  splitWhere_append (f := (· == sep)) (beq_self_eq_true sep) x y

theorem eq_of_notMem {x y : Text} (hx : sep ∉ x) (hy : sep ∉ y)
    (h : x ++ sep :: t = y ++ sep :: u) :
    x = y := by
  have hpieces : ∀ {x t : Text}, sep ∉ x → (x ++ sep :: t).pieces sep = x :: t.pieces sep := by
    intro x t hx
    rw [pieces_append, pieces_of_notMem hx, List.singleton_append]
  exact (List.cons.inj ((hpieces hx).symm.trans ((congrArg (pieces · sep) h).trans (hpieces hy)))).1

/-- What stands in front without a sign ends in front of the sign. -/
theorem prefix_of_notMem {u rest t v : Text} (h : u ++ rest = t ++ c :: v) (hu : c ∉ u) :
    u <+: t := by
  rcases List.append_eq_append_iff.mp h with ⟨w, rfl, -⟩ | ⟨w, rfl, hw⟩
  · exact List.prefix_append u w
  · cases w with
    | nil =>
        exact ⟨[], by rw [List.append_nil, List.append_nil]⟩
    | cons d w =>
        obtain ⟨rfl, -⟩ := List.cons.inj hw
        exact absurd (List.mem_append_right _ List.mem_cons_self) hu

/-- What stands behind without a sign begins behind the sign. -/
theorem suffix_of_notMem {front u t v : Text} (h : front ++ u = t ++ c :: v) (hu : c ∉ u) :
    u <:+ v := by
  rcases List.append_eq_append_iff.mp h with ⟨w, rfl, rfl⟩ | ⟨w, rfl, hw⟩
  · exact absurd (List.mem_append_right w List.mem_cons_self) hu
  · cases w with
    | nil =>
        rw [List.nil_append] at hw
        exact absurd (hw ▸ List.mem_cons_self) hu
    | cons d w =>
        obtain ⟨-, rfl⟩ := List.cons.inj hw
        exact List.suffix_append w u

theorem pieces_join : ∀ {names : List Text}, names ≠ [] → (∀ n ∈ names, sep ∉ n) →
    (join [sep] names).pieces sep = names
  | [], h, _ => absurd rfl h
  | [n], _, h => by
      rw [join, List.intercalate, List.intersperse, List.flatten_cons, List.flatten_nil,
        List.append_nil]
      exact pieces_of_notMem (h n List.mem_cons_self)
  | n :: m :: names, _, h => by
      have hjoin : join [sep] (n :: m :: names) = n ++ sep :: join [sep] (m :: names) := rfl
      obtain ⟨hn, hrest⟩ := List.forall_mem_cons.mp h
      rw [hjoin, pieces_append, pieces_of_notMem hn, pieces_join (List.cons_ne_nil _ _) hrest]
      rfl

theorem notMem_join {between : Text} {parts : List Text} (hsep : sep ∉ between)
    (h : ∀ part ∈ parts, sep ∉ part) : sep ∉ join between parts := by
  induction parts with
  | nil => exact List.not_mem_nil
  | cons part parts ih =>
      obtain ⟨hpart, hparts⟩ := List.forall_mem_cons.mp h
      cases parts with
      | nil => simpa [join, List.intercalate] using hpart
      | cons next parts =>
          have hall := And.intro hpart (And.intro hsep (ih hparts))
          rw [← not_or, ← not_or, ← List.mem_append, ← List.mem_append] at hall
          simpa only [join, List.intercalate, List.intersperse_cons_cons, List.flatten_cons]
            using hall

/-! ## Cutting at the first separator -/

theorem splitOnce?_append {head : Text} (h : sep ∉ head) (rest : Text) :
    splitOnce? (head ++ sep :: rest) sep = some (head, rest) := by
  have hhead : ∀ c ∈ head, (c != sep) = true := fun c hc => bne_iff_ne.mpr fun heq => h (heq ▸ hc)
  rw [splitOnce?, List.span_eq_takeWhile_dropWhile, List.takeWhile_append_of_pos hhead,
    List.dropWhile_append_of_pos hhead, List.takeWhile_cons_of_neg (by simp),
    List.dropWhile_cons_of_neg (by simp), List.append_nil]

theorem notMem_of_splitOnce? {head tail : Text} (h : splitOnce? t sep = some (head, tail)) :
    sep ∉ head := by
  rw [splitOnce?, List.span_eq_takeWhile_dropWhile] at h
  have hhead : head = t.takeWhile (· != sep) := by
    split at h
    · cases h
    · next heq =>
        rw [← (Prod.mk.inj (Option.some.inj h)).1, ← (Prod.mk.inj heq).1]
  rw [hhead]
  exact fun hmem => absurd (List.all_eq_true.mp List.all_takeWhile sep hmem) (by simp)

end ServiceGate.Text
