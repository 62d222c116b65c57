/-
# Cuts in resource names

The singular of a word is cut off behind an ending that was found in its lower-case form, which can
be longer than the word.  No letter beyond ASCII has a lower-case form that ends with a letter of
such an ending (`toNat_lt_of_ending`), so the ending stands in the word itself, one byte for each
letter.

The letters of the endings are looked for in the tables of the letter cases: a run of them leads to
ASCII letters from ASCII letters, or it leads beyond them, or it is a single letter whose form is no
letter of an ending (`target_of_run`).
-/
import ServiceGate.Proofs.Checked.Basic
import ServiceGate.Proofs.CharClass
import ServiceGate.Spec.Coverage

namespace ServiceGate

open LetterCase

/-! ## Lower-case forms -/

def endingLetters : List Char := "cehisx".toList

def lowerAmong (behind : Text) (c : Char) (rest : Text) : Text :=
  if c == 'Σ' then [if startsCased behind && !startsCased rest then 'ς' else 'σ'] else lowerChar c

/-- A form that is not empty and does not end with a letter of an ending. -/
def IsForeign (t : Text) : Prop := ∃ u c, t = u ++ [c] ∧ c ∉ endingLetters

theorem isForeign_singleton {c : Char} (h : c ∉ endingLetters) : IsForeign [c] := ⟨[], c, rfl, h⟩

theorem isForeign_iff {t : Text} : IsForeign t ↔
    t.getLast?.any (!endingLetters.contains ·) = true := by
  constructor
  · rintro ⟨u, c, rfl, hc⟩
    simpa using hc
  · intro h
    rcases List.eq_nil_or_concat' t with rfl | ⟨u, c, rfl⟩
    · cases h
    · exact ⟨u, c, by simp, by simpa using h⟩

instance (t : Text) : Decidable (IsForeign t) := decidable_of_iff _ isForeign_iff.symm

theorem isForeign_of_spelling : ∀ x ∈ lowerSpellings, IsForeign (x.2.map Char.ofNat) := by
  decide

theorem toNat_lt_of_mem_endingLetters : ∀ c ∈ endingLetters, c.toNat < 128 := by decide

set_option maxRecDepth 2000 in
/-- A run is one of ASCII letters, or it leads beyond them, or it is one letter and leads to no
letter of an ending. -/
theorem target_of_run : ∀ run ∈ lowerRuns, run.2.1 < 128 ∨ 128 ≤ run.2.2.2 ∨
    run.1 = run.2.1 ∧ Char.ofNat run.2.2.2 ∉ endingLetters := by
  decide

theorem ofNat_notMem_endingLetters {n : Nat} (h : 128 ≤ n) : Char.ofNat n ∉ endingLetters := by
  intro hmem
  by_cases hn : n.isValidChar
  · have hlt := toNat_lt_of_mem_endingLetters _ hmem
    rw [Char.ofNat, dif_pos hn, show (Char.ofNatAux n hn).toNat = n from rfl] at hlt
    omega
  · rw [Char.ofNat, dif_neg hn] at hmem
    exact absurd hmem (by decide)

theorem notMem_of_run : ∀ run ∈ lowerRuns, ∀ k < run.2.1 + 1 - run.1, ¬ run.1 + k < 128 →
    Char.ofNat (run.2.2.2 + k) ∉ endingLetters := by
  intro run hrun k hk hfirst
  rcases target_of_run run hrun with hlt | hle | ⟨hone, htarget⟩
  · omega
  · exact ofNat_notMem_endingLetters (by omega)
  · obtain rfl : k = 0 := by omega
    exact htarget

theorem isForeign_mapChar {c : Char} (h : ¬ c.toNat < 128) :
    IsForeign (mapChar lowerRuns lowerSpellings c) := by
  have hself : c ∉ endingLetters := fun hmem => h (toNat_lt_of_mem_endingLetters c hmem)
  rw [mapChar]
  cases hspelling : lowerSpellings.lookup c.toNat with
  | some codes =>
      obtain ⟨l, l', htable, -⟩ := List.lookup_eq_some_iff.mp hspelling
      exact isForeign_of_spelling (c.toNat, codes) (by rw [htable]; simp)
  | none =>
      cases hrun : ofRuns lowerRuns c.toNat with
      | none => exact isForeign_singleton hself
      | some n =>
          obtain ⟨⟨first, last, step, target⟩, hmem, hrun⟩ := List.exists_of_findSome?_eq_some hrun
          simp only at hrun
          split_ifs at hrun with hin
          simp only [Bool.and_eq_true, decide_eq_true_eq] at hin
          obtain rfl := Option.some.inj hrun
          exact isForeign_singleton
            (notMem_of_run _ hmem _ (by simp only; omega) (by simp only; omega))

theorem lowerAmong_cases (behind : Text) (c : Char) (rest : Text) :
    IsForeign (lowerAmong behind c rest) ∨ c.toNat < 128 ∧
    (lowerAmong behind c rest).length = 1 := by
  rw [lowerAmong]
  split_ifs
  · exact .inl (by decide)
  · exact .inl (by decide)
  · rw [lowerChar]
    split_ifs with h
    · exact .inr ⟨h, rfl⟩
    · exact .inr ⟨h, rfl⟩
    · exact .inl (isForeign_mapChar h)

/-! ## Endings -/

theorem length_le_lowerFrom (behind : Text) : ∀ t : Text, t.length ≤ (lowerFrom behind t).length
  | [] => Nat.le_refl 0
  | c :: t => by
      have hrest := length_le_lowerFrom (c :: behind) t
      have hone : 1 ≤ (lowerAmong behind c t).length := by
        rcases lowerAmong_cases behind c t with ⟨u, d, hu, -⟩ | ⟨-, h⟩
        · rw [hu, List.length_append]
          exact Nat.le_add_left _ _
        · exact Nat.le_of_eq h.symm
      show _ ≤ (lowerAmong behind c t ++ lowerFrom (c :: behind) t).length
      rw [List.length_append, List.length_cons]
      omega

/-- An ending of the lower-case form is the lower-case form of as many ASCII letters at the end. -/
theorem exists_ending {ending : Text} (hending : ∀ c ∈ ending, c ∈ endingLetters) :
    ∀ {t behind : Text}, ending <:+ lowerFrom behind t →
      ∃ p w, t = p ++ w ∧ w.length = ending.length ∧ ∀ c ∈ w, c.toNat < 128
  | [], behind, h => by
      obtain rfl := List.suffix_nil.mp h
      exact ⟨[], [], rfl, rfl, fun c hc => absurd hc List.not_mem_nil⟩
  | c :: t, behind, h => by
      obtain ⟨u, hu⟩ := h
      have hu : u ++ ending = lowerAmong behind c t ++ lowerFrom (c :: behind) t := hu
      have hrest : ending <:+ lowerFrom (c :: behind) t →
          ∃ p w, c :: t = p ++ w ∧ w.length = ending.length ∧ ∀ d ∈ w, d.toNat < 128 := fun h => by
        obtain ⟨p, w, rfl, hw⟩ := exists_ending hending h
        exact ⟨c :: p, w, rfl, hw⟩
      rcases List.append_eq_append_iff.mp hu with ⟨v, hv, hend⟩ | ⟨v, -, hv⟩
      · rcases List.eq_nil_or_concat' v with rfl | ⟨v, d, rfl⟩
        · exact hrest (by rw [hend]; exact List.suffix_refl _)
        · -- the ending begins in the form of `c`, so `c` is its first letter and `t` the others
          have hd : d ∈ endingLetters := hending d (by rw [hend]; simp)
          have hletters : ∀ x ∈ lowerFrom (c :: behind) t, x ∈ endingLetters := fun x hx =>
            hending x (by rw [hend]; exact List.mem_append_right _ hx)
          obtain ⟨p, w, hpw, hlength, hw⟩ := exists_ending hletters (List.suffix_refl _)
          have hp : p = [] := by
            have hle := length_le_lowerFrom (c :: behind) t
            rw [hpw, List.length_append] at hle
            exact List.length_eq_zero_iff.mp (by rw [hpw] at hlength; omega)
          rcases lowerAmong_cases behind c t with ⟨x, y, hxy, hy⟩ | ⟨hc, hone⟩
          · rw [hxy, ← List.append_assoc] at hv
            obtain rfl := (List.append_inj' hv rfl).2 |> List.cons.inj |>.1
            exact absurd hd hy
          · have hvlength : (v ++ [d]).length = 1 := by
              rw [hv, List.length_append, List.length_append] at hone
              rw [List.length_append]
              simp only [List.length_singleton] at hone ⊢
              omega
            refine ⟨[], c :: t, rfl, ?_, ?_⟩
            · have hsum := congrArg List.length hend
              have htail := congrArg List.length hpw
              rw [List.length_append, hvlength, ← hlength] at hsum
              rw [hp, List.nil_append] at htail
              rw [List.length_cons, hsum, htail, Nat.add_comm]
            · rw [hpw, hp, List.nil_append]
              exact List.forall_mem_cons.mpr ⟨hc, hw⟩
      · exact hrest (by rw [hv]; exact List.suffix_append _ _)

theorem size_of_ascii : ∀ {w : Text}, (∀ c ∈ w, c.toNat < 128) → w.size = w.length
  | [], _ => rfl
  | c :: w, h => by
      obtain ⟨hc, hw⟩ := List.forall_mem_cons.mp h
      have hone : c.utf8Size = 1 := by
        rw [Char.utf8Size_eq_one_iff]
        exact Nat.le_of_lt_succ hc
      rw [Text.size, size_of_ascii hw, hone, List.length_cons, Nat.add_comm]

/-- As many bytes as an ending has letters can be cut off at the end. -/
theorem before_of_endsWith {word ending : Text} (hending : ∀ c ∈ ending, c ∈ endingLetters)
    (h : word.lower.endsWith ending = true) :
    word.IsBoundary (word.size - ending.length) ∧
      word.before (word.size - ending.length) = Resource.dropEnd ending.length word := by
  obtain ⟨p, w, rfl, hlength, hascii⟩ := exists_ending hending (List.isSuffixOf_iff_suffix.mp h)
  have hsize : (p ++ w).size - ending.length = p.size := by
    rw [Text.size_append, size_of_ascii hascii, hlength]
    omega
  rw [hsize, Text.before_append, Resource.dropEnd, List.length_append, hlength,
    Nat.add_sub_cancel, List.take_left]
  exact ⟨Text.isBoundary_append p w, rfl⟩

namespace Checked

/-! ## Names of resources -/

def singular (word : Text) : Except SpanFault Text :=
  let lower := word.lower
  if lower.endsWith "ies".toList && 3 < word.size then do
    let stem ← cutTo word (word.size - 3)
    return stem ++ ['y']
  else if ["sses", "xes", "ches", "shes"].any fun s => lower.endsWith s.toList then
    cutTo word (word.size - 2)
  else if lower.endsWith "s".toList && !lower.endsWith "ss".toList && 1 < word.size then
    cutTo word (word.size - 1)
  else .ok word

def resourceOf (path : Text) : Except SpanFault (Option Text) :=
  match RoutePath.lastStatic? path with
  | none => return none
  | some segment => do
    let name := Resource.pascalCase (← singular segment)
    return if name.isEmpty then none else some name

/-- The schema that a change of the resource on a path is expected to refer to. -/
def expectedSchema (policy : Policy) (method path : Text) : Except SpanFault (Option Text) :=
  if policy.isInfraPath path || policy.isActionPath path then return none
  else do
    match ← resourceOf path with
    | none => return none
    | some resource =>
      if method == "post".toList then return some ("Create".toList ++ resource)
      else if method == "put".toList || method == "patch".toList then
        return some ("Update".toList ++ resource)
      else return none

theorem singular_eq (word : Text) : singular word = .ok (Resource.singular word) := by
  have hcut : ∀ ending : Text, (∀ c ∈ ending, c ∈ endingLetters) →
      word.lower.endsWith ending = true →
      cutTo word (word.size - ending.length) = .ok (Resource.dropEnd ending.length word) := by
    intro ending hending h
    obtain ⟨hplace, hbefore⟩ := before_of_endsWith hending h
    rw [cutTo_eq hplace, hbefore]
  simp only [singular, Resource.singular]
  split_ifs with hies hes hs
  · have h := hcut "ies".toList (by decide) (Bool.and_eq_true _ _ ▸ hies).1
    rw [show word.size - 3 = word.size - "ies".toList.length from rfl, h]
    rfl
  · obtain ⟨s, hs, h⟩ := List.any_eq_true.mp hes
    have hsuffix : ∀ s ∈ ["sses", "xes", "ches", "shes"], "es".toList <:+ s.toList := by decide
    exact hcut "es".toList (by decide) (List.isSuffixOf_iff_suffix.mpr
      ((hsuffix s hs).trans (List.isSuffixOf_iff_suffix.mp h)))
  · simp only [Bool.and_eq_true] at hs
    exact hcut "s".toList (by decide) hs.1.1
  · rfl

theorem resourceOf_eq (path : Text) : resourceOf path = .ok (Resource.ofPath? path) := by
  rw [resourceOf, Resource.ofPath?]
  cases RoutePath.lastStatic? path with
  | none => rfl
  | some segment =>
      simp only [singular_eq]
      rfl

theorem expectedSchema_eq (policy : Policy) (method path : Text) :
    expectedSchema policy method path = .ok (Spec.expectedSchema? policy method path) := by
  rw [expectedSchema, Spec.expectedSchema?, resourceOf_eq, ok_bind]
  cases Resource.ofPath? path with
  | none => split_ifs <;> rfl
  | some resource =>
      simp only
      split_ifs <;> rfl

end Checked

end ServiceGate
