/-
# Outcomes of computations that may fail

A computation along a list fails as soon as one of its steps does, so it has a result exactly if
every step has one (`mapM_ok_iff`), and what is done to each result can be done to all of them at
the end (`mapM_map`, `map_mapM`).  `Concur` compares two computations: both fail in the same way, or
both have results and these are related.

Two computations can be compared with `Concur` even where they go through different data: it is
weakened along implications of the relation (`Concur.imp`), and where the relation makes two
functions agree, mapping them over the computations gives the same outcome (`Concur.map_eq`).
-/
import Mathlib.Data.List.Forall2

namespace ServiceGate

variable {ε α β γ : Type} {f g : α → Except ε β}

/-! ## Along a list -/

theorem mapM_ok_iff : ∀ {l : List α} {l' : List β},
    l.mapM f = .ok l' ↔ List.Forall₂ (fun a b => f a = .ok b) l l'
  | [], l' => by
      rw [List.mapM_nil]
      constructor
      · intro h
        cases h
        exact .nil
      · intro h
        cases h
        rfl
  | a :: l, l' => by
      rw [List.mapM_cons]
      cases ha : f a with
      | error e =>
          constructor
          · intro h
            cases h
          · intro h
            cases h with
            | cons hb _ => rw [ha] at hb; cases hb
      | ok b =>
          cases hl : l.mapM f with
          | error e =>
              constructor
              · intro h
                cases h
              · intro h
                cases h with
                | cons _ hrest => rw [mapM_ok_iff.mpr hrest] at hl; cases hl
          | ok bs =>
              constructor
              · intro h
                cases h
                exact .cons ha (mapM_ok_iff.mp hl)
              · intro h
                cases h with
                | cons hb hrest =>
                    rw [ha] at hb
                    rw [mapM_ok_iff.mpr hrest] at hl
                    cases hb
                    cases hl
                    rfl

theorem exists_of_mem_results {r : α → β → Prop} {l : List α} {l' : List β} {b : β}
    (h : List.Forall₂ r l l') (hb : b ∈ l') : ∃ a ∈ l, r a b := by
  induction h with
  | nil => exact absurd hb List.not_mem_nil
  | cons hr _ ih =>
      rcases List.mem_cons.mp hb with rfl | hb
      · exact ⟨_, List.mem_cons_self, hr⟩
      · obtain ⟨a, ha, hr⟩ := ih hb
        exact ⟨a, List.mem_cons_of_mem _ ha, hr⟩

theorem mapM_congr : ∀ {l : List α}, (∀ a ∈ l, f a = g a) → l.mapM f = l.mapM g
  | [], _ => rfl
  | a :: l, h => by
      obtain ⟨ha, hl⟩ := List.forall_mem_cons.mp h
      rw [List.mapM_cons, List.mapM_cons, ha, mapM_congr hl]

/-- What is made of each result can be made of all results at the end. -/
theorem mapM_map {g : α → β → γ} : ∀ l : List α,
    l.mapM (fun a => (f a).map (g a)) = (l.mapM f).map (List.zipWith g l)
  | [] => rfl
  | a :: l => by
      rw [List.mapM_cons, List.mapM_cons, mapM_map l]
      cases f a with
      | error e => rfl
      | ok b =>
          cases l.mapM f with
          | error e => rfl
          | ok bs => rfl

theorem map_mapM (g : β → γ) : ∀ l : List α,
    (l.mapM f).map (List.map g) = l.mapM fun a => (f a).map g
  | [] => rfl
  | a :: l => by
      rw [List.mapM_cons, List.mapM_cons, ← map_mapM g l]
      cases f a with
      | error e => rfl
      | ok b =>
          cases l.mapM f with
          | error e => rfl
          | ok bs => rfl

/-! ## Two computations -/

/-- Both computations fail in the same way, or their results are related. -/
def Concur (r : β → γ → Prop) : Except ε β → Except ε γ → Prop
  | .error e, .error e' => e = e'
  | .ok b, .ok c => r b c
  | _, _ => False

theorem Concur.imp {r r' : β → γ → Prop} {x : Except ε β} {y : Except ε γ} (h : Concur r x y)
    (himp : ∀ b c, x = .ok b → y = .ok c → r b c → r' b c) : Concur r' x y := by
  cases x with
  | error e =>
      cases y with
      | error e' => exact h
      | ok c => cases h
  | ok b =>
      cases y with
      | error e' => cases h
      | ok c => exact himp b c rfl rfl h

theorem Concur.map_eq {r : β → γ → Prop} {x : Except ε β} {y : Except ε γ} {f : β → α} {g : γ → α}
    (h : Concur r x y) (hfg : ∀ b c, r b c → f b = g c) : x.map f = y.map g := by
  cases x with
  | error e =>
      cases y with
      | error e' => exact congrArg Except.error h
      | ok c => cases h
  | ok b =>
      cases y with
      | error e' => cases h
      | ok c => exact congrArg Except.ok (hfg b c h)

end ServiceGate
