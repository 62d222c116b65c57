/-
# Classes that have nothing in common

White space and characters of a name are apart (`isName_of_isSpace`), and so are both of them and
the signs of the source language (`isName_ne`, `notMem_signs_of_isSpace`).  The classes are tables,
so the facts are read off the finitely many characters on one side.  The tables of upper and lower
case turn nothing into a sign (`notMem_signs_of_mem_mapChar`), so a text and its lower-case form
have the same signs (`mem_lower_iff`).

A fact about all characters cannot be decided by going through them.  Two tables of ranges are
compared instead (`apart`, `inRanges_of_apart`): if no range of one meets a range of the other, no
character is in both.  The tables of the letter cases are runs with the letters that they lead to;
`images` lists the letters that a table leads to, and whatever is to be said of a case form is
decided for that list.
-/
import ServiceGate.CharClass.Basic
import ServiceGate.Text.LetterCase

namespace ServiceGate.CharClass

variable {c : Char}

/-- What is said of the characters of a text is decided for them alone.  All characters are finitely
many too, but far too many to go through. -/
instance (priority := 2000) decidableForallMem (p : Char → Prop) [DecidablePred p] (t : List Char) :
    Decidable (∀ c ∈ t, p c) :=
  List.decidableBAll p t

/-- The same for the character that there may be. -/
instance (priority := 2000) decidableForallMemOption (p : Char → Prop) [DecidablePred p]
    (c : Option Char) :
    Decidable (∀ d ∈ c, p d) :=
  Option.decidableForallMem c

theorem forall_of_table {table : Ranges} {P : Char → Prop}
    (h : ∀ r ∈ table, ∀ k < r.2 + 1 - r.1, P (Char.ofNat (r.1 + k)))
    (hc : inRanges table c.toNat = true) : P c := by
  obtain ⟨r, hr, hfirst, hlast⟩ := mem_inRanges.mp hc
  have hk := h r hr (c.toNat - r.1) (by omega)
  rwa [show r.1 + (c.toNat - r.1) = c.toNat by omega, Char.ofNat_toNat] at hk

/-- Whether no range of one table meets a range of another. -/
def apart (table other : Ranges) : Bool :=
  table.all fun r => other.all fun s => Nat.blt r.2 s.1 || Nat.blt s.2 r.1

theorem inRanges_of_apart {table other : Ranges} {n : Nat} (h : apart table other = true)
    (hn : inRanges table n = true) : inRanges other n = false := by
  obtain ⟨r, hr, hfirst, hlast⟩ := mem_inRanges.mp hn
  refine Bool.eq_false_iff.mpr fun hother => ?_
  obtain ⟨s, hs, hfirst', hlast'⟩ := mem_inRanges.mp hother
  have hrs := List.all_eq_true.mp (List.all_eq_true.mp h r hr) s hs
  simp only [Nat.blt_eq, Bool.or_eq_true] at hrs
  omega

set_option maxRecDepth 2000 in
theorem apart_whiteSpace : ∀ table ∈ [alphabetic, decimalDigit, otherNumber, mark, connector],
    apart whiteSpace table = true := by
  decide

theorem ascii_of_isSpace (h : isSpace c = true) :
    isAsciiLetter c = false ∧ isAsciiDigit c = false ∧ (c == '_') = false ∧ (c == '$') = false :=
  forall_of_table (P := fun c => isAsciiLetter c = false ∧ isAsciiDigit c = false ∧
    (c == '_') = false ∧ (c == '$') = false) (by decide) h

theorem isName_of_isSpace (h : isSpace c = true) : isName c = false := by
  have htable := fun table hmem => inRanges_of_apart (apart_whiteSpace table hmem) h
  obtain ⟨hletter, hdigit, hline, hdollar⟩ := ascii_of_isSpace h
  rw [isName, isAlphanumeric, hletter, hdigit, hline, hdollar, htable alphabetic (by simp),
    htable decimalDigit (by simp), htable otherNumber (by simp)]
  simp

theorem isWord_of_isSpace (h : isSpace c = true) : isWord c = false := by
  have htable := fun table hmem => inRanges_of_apart (apart_whiteSpace table hmem) h
  obtain ⟨hletter, hdigit, hline, -⟩ := ascii_of_isSpace h
  rw [isWord, hletter, hdigit, hline, htable alphabetic (by simp), htable mark (by simp),
    htable decimalDigit (by simp), htable connector (by simp)]
  simp

/-- The signs of the source language that no name contains. -/
def signs : List Char :=
  ['\'', '"', '\x60', '\x7b', '\x7d', '[', ']', '(', ')', ',', '/', ':', ';', '.', '*', '=', '?',
    '<', '>', '\\']

theorem notMem_signs_of_isWord (h : isWord c = true) : c ∉ signs := by
  have hsigns : ∀ d ∈ signs, isWord d = false := by decide
  intro hc
  rw [hsigns c hc] at h
  cases h

theorem notMem_signs_of_isSpace (h : isSpace c = true) : c ∉ signs := by
  have hsigns : ∀ d ∈ signs, isSpace d = false := by decide
  intro hc
  rw [hsigns c hc] at h
  cases h

theorem isName_ne {d : Char} (h : isName c = true) (hd : d ∈ signs) : c ≠ d := by
  have hsigns : ∀ d ∈ signs, isName d = false := by decide
  rintro rfl
  rw [hsigns c hd] at h
  cases h

/-! ## Upper and lower case -/

theorem notMem_signs_of_le {n : Nat} (h : 128 ≤ n) : Char.ofNat n ∉ signs := by
  have hsigns : ∀ d ∈ signs, 0 < d.toNat ∧ d.toNat < 128 := by decide
  have hcode : (Char.ofNat n).toNat = 0 ∨ 128 ≤ (Char.ofNat n).toNat := by
    rw [Char.ofNat]
    by_cases hvalid : n.isValidChar
    · rw [dif_pos hvalid]
      exact .inr h
    · rw [dif_neg hvalid]
      exact .inl rfl
  intro hmem
  have hrange := hsigns _ hmem
  omega

/-- A table of runs that leads to no sign. -/
def SparesSigns (runs : List (Nat × Nat × Nat × Nat)) : Prop :=
  ∀ run ∈ runs, 128 ≤ run.2.2.2 ∨ ∀ k < run.2.1 + 1 - run.1, Char.ofNat (run.2.2.2 + k) ∉ signs

instance (runs : List (Nat × Nat × Nat × Nat)) : Decidable (SparesSigns runs) :=
  inferInstanceAs (Decidable (∀ run ∈ runs, _))

/-- A case form is the character itself, stands at a place of a run, or is of a longer spelling. -/
theorem mapChar_cases {runs : List (Nat × Nat × Nat × Nat)} {spellings : List (Nat × List Nat)}
    {d : Char} (hd : d ∈ LetterCase.mapChar runs spellings c) : d = c ∨
      (∃ run ∈ runs, ∃ k, run.1 + k ≤ run.2.1 ∧ d = Char.ofNat (run.2.2.2 + k)) ∨
      ∃ x ∈ spellings, ∃ n ∈ x.2, d = Char.ofNat n := by
  rw [LetterCase.mapChar] at hd
  cases hlookup : spellings.lookup c.toNat with
  | some codes =>
      rw [hlookup] at hd
      obtain ⟨n, hn, rfl⟩ := List.mem_map.mp hd
      obtain ⟨front, back, rfl, -⟩ := List.lookup_eq_some_iff.mp hlookup
      exact .inr (.inr ⟨_, List.mem_append_right _ List.mem_cons_self, n, hn, rfl⟩)
  | none =>
      rw [hlookup] at hd
      obtain rfl := List.mem_singleton.mp hd
      cases hrun : LetterCase.ofRuns runs c.toNat with
      | none => exact .inl rfl
      | some n =>
          obtain ⟨⟨first, last, step, target⟩, hmem, hn⟩ := List.exists_of_findSome?_eq_some hrun
          simp only [Bool.and_eq_true, decide_eq_true_eq] at hn
          split at hn
          · next hrange =>
              rw [← Option.some.inj hn]
              refine .inr (.inl ⟨_, hmem, c.toNat - first, ?_, rfl⟩)
              simp only
              omega
          · cases hn

/-- A case form that the tables give is a sign only of a sign. -/
theorem notMem_signs_of_mem_mapChar {runs : List (Nat × Nat × Nat × Nat)}
    {spellings : List (Nat × List Nat)} {d : Char} (hruns : SparesSigns runs)
    (hspellings : ∀ x ∈ spellings, ∀ n ∈ x.2, Char.ofNat n ∉ signs) (hc : c ∉ signs)
    (hd : d ∈ LetterCase.mapChar runs spellings c) : d ∉ signs := by
  rcases mapChar_cases hd with rfl | ⟨run, hrun, k, hk, rfl⟩ | ⟨x, hx, n, hn, rfl⟩
  · exact hc
  · rcases hruns run hrun with htarget | hall
    · exact notMem_signs_of_le (Nat.le_trans htarget (Nat.le_add_right _ _))
    · exact hall k (by omega)
  · exact hspellings x hx n hn

/-- The characters that a table of runs leads to, and those of one of longer spellings. -/
def images (runs : List (Nat × Nat × Nat × Nat)) (spellings : List (Nat × List Nat)) : Ranges :=
  runs.map (fun run => (run.2.2.2, run.2.2.2 + (run.2.1 - run.1))) ++ spellings.flatMap fun x =>
  x.2.map fun n => (n, n)

theorem isSpace_of_mem_mapChar {runs : List (Nat × Nat × Nat × Nat)}
    {spellings : List (Nat × List Nat)} (h : apart (images runs spellings) whiteSpace = true)
    (hc : isSpace c = false) {d : Char} (hd : d ∈ LetterCase.mapChar runs spellings c) :
    isSpace d = false := by
  have himage : ∀ r ∈ images runs spellings, ∀ n, r.1 ≤ n → n ≤ r.2 →
      isSpace (Char.ofNat n) = false := by
    intro r hr n hfirst hlast
    have hn := inRanges_of_apart h (mem_inRanges.mpr ⟨r, hr, hfirst, hlast⟩)
    by_cases hvalid : n.isValidChar
    · rw [Char.ofNat, dif_pos hvalid]
      exact hn
    · rw [Char.ofNat, dif_neg hvalid]
      rfl
  rcases mapChar_cases hd with rfl | ⟨run, hrun, k, hk, rfl⟩ | ⟨x, hx, n, hn, rfl⟩
  · exact hc
  · refine himage _ (List.mem_append_left _ (List.mem_map_of_mem hrun)) _ (Nat.le_add_right _ _) ?_
    simp only
    omega
  · exact himage (n, n) (List.mem_append_right _ (List.mem_flatMap.mpr
      ⟨x, hx, List.mem_map_of_mem hn⟩)) n (Nat.le_refl _) (Nat.le_refl _)

theorem isSpace_of_mem_upperChar (hc : isSpace c = false) (hd : d ∈ LetterCase.upperChar c) :
    isSpace d = false := by
  rw [LetterCase.upperChar] at hd
  split at hd
  · obtain rfl := List.mem_singleton.mp hd
    have hletters : ∀ k < 26, isSpace (Char.ofNat ('A'.toNat + k)) = false := by decide
    split
    · next hsmall =>
        rw [Bool.and_eq_true, decide_eq_true_eq, decide_eq_true_eq] at hsmall
        have hfirst : 97 ≤ c.toNat := hsmall.1
        have hlast : c.toNat ≤ 122 := hsmall.2
        have hletter := hletters (c.toNat - 97) (by omega)
        rwa [show 'A'.toNat + (c.toNat - 97) = c.toNat - 32 by
          show 65 + (c.toNat - 97) = c.toNat - 32
          omega] at hletter
    · exact hc
  · exact isSpace_of_mem_mapChar (by decide +kernel) hc hd

theorem isSpace_of_isAlphanumeric (h : isAlphanumeric c = true) : isSpace c = false := by
  refine Bool.eq_false_iff.mpr fun hspace => ?_
  have hname := isName_of_isSpace hspace
  rw [isName, h] at hname
  cases hname

set_option maxRecDepth 2000 in
theorem notMem_signs_of_mem_lowerChar {d : Char} (hc : c ∉ signs)
    (hd : d ∈ LetterCase.lowerChar c) :
    d ∉ signs := by
  have hletters : ∀ k < 26, Char.ofNat ('a'.toNat + k) ∉ signs := by decide
  rw [LetterCase.lowerChar] at hd
  split at hd
  · obtain rfl := List.mem_singleton.mp hd
    split
    · next hcapital =>
        rw [Bool.and_eq_true, decide_eq_true_eq, decide_eq_true_eq] at hcapital
        have hfirst : 65 ≤ c.toNat := hcapital.1
        have hlast : c.toNat ≤ 90 := hcapital.2
        have hletter := hletters (c.toNat - 65) (by omega)
        rwa [show 'a'.toNat + (c.toNat - 65) = c.toNat + 32 by
          show 97 + (c.toNat - 65) = c.toNat + 32
          omega] at hletter
    · exact hc
  · exact notMem_signs_of_mem_mapChar (by decide) (by decide) hc hd

theorem of_mem_lowerFrom {d : Char} : ∀ {t behind : Text}, d ∈ LetterCase.lowerFrom behind t →
    d = 'ς' ∨ d = 'σ' ∨ ∃ c ∈ t, d ∈ LetterCase.lowerChar c
  | [], _, hd => by cases hd
  | c :: t, behind, hd => by
      rcases List.mem_append.mp hd with hd | hd
      · split at hd
        · rw [List.mem_singleton] at hd
          split at hd
          · exact .inl hd
          · exact .inr (.inl hd)
        · exact .inr (.inr ⟨c, List.mem_cons_self, hd⟩)
      · rcases of_mem_lowerFrom hd with hd | hd | ⟨e, he, hd⟩
        · exact .inl hd
        · exact .inr (.inl hd)
        · exact .inr (.inr ⟨e, List.mem_cons_of_mem c he, hd⟩)

theorem mem_lowerFrom_of_mem {d : Char} (hd : d ∈ signs) : ∀ {t : Text} (behind : Text), d ∈ t →
    d ∈ LetterCase.lowerFrom behind t
  | c :: t, behind, h => by
      have hself : ∀ d ∈ signs, (d == 'Σ') = false ∧ LetterCase.lowerChar d = [d] := by decide
      rcases List.mem_cons.mp h with rfl | h
      · rw [LetterCase.lowerFrom, (hself d hd).1, (hself d hd).2]
        exact List.mem_append_left _ (List.mem_singleton.mpr rfl)
      · exact List.mem_append_right _ (mem_lowerFrom_of_mem hd (c :: behind) h)

/-- Lower case neither makes nor removes a sign. -/
theorem mem_lower_iff {d : Char} (hd : d ∈ signs) {t : Text} : d ∈ t.lower ↔ d ∈ t := by
  have hsigma : 'ς' ∉ signs ∧ 'σ' ∉ signs := by decide
  refine ⟨fun h => ?_, mem_lowerFrom_of_mem hd []⟩
  rcases of_mem_lowerFrom h with rfl | rfl | ⟨c, hc, hform⟩
  · exact absurd hd hsigma.1
  · exact absurd hd hsigma.2
  · by_cases hsign : c ∈ signs
    · have hself : ∀ d ∈ signs, LetterCase.lowerChar d = [d] := by decide
      rw [hself c hsign, List.mem_singleton] at hform
      exact hform ▸ hc
    · exact absurd hd (notMem_signs_of_mem_lowerChar hsign hform)

end ServiceGate.CharClass
