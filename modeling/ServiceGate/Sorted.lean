/-
# Sorted sets

`sortedSet` lists the members of a list in ascending order, each once; `mem_sortedSet` says that
they are the same members.  Texts and strings are ordered character by character, by code point.
-/

namespace ServiceGate

/-- Puts a value into a sorted list unless it is there. -/
def insertSorted {α : Type} [DecidableEq α] [LT α] [DecidableLT α] (a : α) : List α → List α
  | [] => [a]
  | b :: rest => if a = b then b :: rest else if a < b then a :: b :: rest else b ::
      insertSorted a rest

/-- The members of a list in ascending order, each once. -/
def sortedSet {α : Type} [DecidableEq α] [LT α] [DecidableLT α] (as : List α) : List α :=
  as.foldr insertSorted []

section

variable {α : Type} [DecidableEq α] [LT α] [DecidableLT α]

theorem mem_insertSorted {a b : α} {as : List α} : b ∈ insertSorted a as ↔ b = a ∨ b ∈ as := by
  induction as with
  | nil => simp [insertSorted]
  | cons c as ih =>
    unfold insertSorted
    split
    · next h => subst h; simp
    · split
      · simp
      · simp only [List.mem_cons, ih]
        constructor
        · rintro (h | h | h) <;> simp [h]
        · rintro (h | h | h) <;> simp [h]

theorem mem_sortedSet {b : α} {as : List α} : b ∈ sortedSet as ↔ b ∈ as := by
  induction as with
  | nil => simp [sortedSet]
  | cons a as ih =>
    have : sortedSet (a :: as) = insertSorted a (sortedSet as) := rfl
    rw [this, mem_insertSorted, ih, List.mem_cons]

end

end ServiceGate
