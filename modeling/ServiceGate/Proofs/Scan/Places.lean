/-
# The places that a scan names

A mark stands at a place of the text and ends at one (`bounds_of_mem_marks`), and so does the
bracket that a search finds, behind the one it started from (`exists_of_matchingClose?`).  Blanking
keeps places (`isBoundary_blank`).  The other way round a place of the blanked text is one of the
text if what follows is no blank (`exists_of_blank`): a character of several bytes becomes several
blanks.
-/
import ServiceGate.Proofs.Scan.Matching
import ServiceGate.Proofs.Text.Bounds
import ServiceGate.Scan.Blank

namespace ServiceGate.Scan

variable {t u v : Text} {n close : Nat} {c : Char} {m : Mark}

/-! ## Marks -/

theorem exists_of_mem_marks (h : m ∈ marks t n) :
    ∃ p q, t = p ++ m.char :: q ∧ m.offset = Text.size p ∧ n ≤ m.offset := by
  by_cases hn : t.IsBoundary n
  · have hmem : (m.offset, m.char) ∈ Text.indexed n (t.after n) := by
      rw [← chars_marksFrom .start]
      exact List.mem_map_of_mem (f := fun m : Mark => (m.offset, m.char)) h
    obtain ⟨w, q, hw, hoffset⟩ := Text.exists_of_mem_indexed hmem
    simp only at hw hoffset
    refine ⟨t.before n ++ w, q, ?_, ?_, by omega⟩
    · rw [List.append_assoc, ← hw, Text.before_append_after hn]
    · rw [Text.size_append, Text.size_before hn, hoffset]
  · have hafter : t.after n = [] := by
      rw [Text.after, Option.not_isSome_iff_eq_none.mp hn]
      rfl
    rw [marks, hafter] at h
    cases h

theorem isBoundary_of_mem_marks (h : m ∈ marks t n) : t.IsBoundary m.offset := by
  obtain ⟨p, q, rfl, hoffset, -⟩ := exists_of_mem_marks h
  rw [hoffset]
  exact Text.isBoundary_append p _

theorem isBoundary_behind_mark (h : m ∈ marks t n) : t.IsBoundary (m.offset + m.char.utf8Size) := by
  obtain ⟨p, q, hcut, hoffset, -⟩ := exists_of_mem_marks h
  have hsize : m.offset + m.char.utf8Size = Text.size (p ++ [m.char]) := by
    rw [hoffset, Text.size_append]
    rfl
  rw [hcut, hsize, ← List.singleton_append, ← List.append_assoc]
  exact Text.isBoundary_append _ q

/-! ## Brackets -/

/-- A closing bracket that is found stands behind the opening one. -/
theorem exists_of_matchingClose? (h : matchingClose? t n = some close) :
    ∃ (b : Bracket) (p w q : Text), t = p ++ b.opener :: (w ++ b.closer :: q) ∧ n = Text.size p ∧
      close = n + 1 + Text.size w := by
  have hn : t.IsBoundary n := by
    by_contra hn
    have hafter : t.after n = [] := by
      rw [Text.after, Option.not_isSome_iff_eq_none.mp hn]
      rfl
    rw [matchingClose?, hafter] at h
    cases h
  obtain ⟨p, q, rfl, rfl⟩ := Text.isBoundary_iff.mp hn
  have hsome := h
  rw [matchingClose?, Text.after_append] at h
  cases q with
  | nil => cases h
  | cons o q =>
      obtain ⟨b, rfl⟩ : ∃ b : Bracket, o = b.opener := by
        simp only [closer?] at h
        split at h
        · cases h
        · next heq =>
            split at heq
            · exact ⟨.brace, rfl⟩
            · exact ⟨.square, rfl⟩
            · exact ⟨.paren, rfl⟩
            · cases heq
      rw [matchingClose?_opener b rfl] at hsome
      obtain ⟨m, hm, hsome⟩ := List.mem_filterMap.mp (mem_of_closeIn hsome)
      split at hsome
      · obtain ⟨rfl, hchar⟩ := Prod.mk.inj (Option.some.inj hsome)
        have hidx : (m.offset, m.char) ∈ Text.indexed (Text.size p + 1) q := by
          rw [← chars_marksFrom .start]
          exact List.mem_map_of_mem (f := fun m : Mark => (m.offset, m.char)) hm
        obtain ⟨w, q', hq, hoffset⟩ := Text.exists_of_mem_indexed hidx
        simp only at hq hoffset
        exact ⟨b, p, w, q', by rw [hq, hchar], rfl, hoffset⟩
      · cases hsome

theorem bounds_of_matchingClose? (h : matchingClose? t n = some close) :
    Text.Bounds t (n + 1) close ∧ t.IsBoundary n ∧ t.IsBoundary (close + 1) := by
  obtain ⟨b, p, w, q, rfl, rfl, rfl⟩ := exists_of_matchingClose? h
  have hopen : Text.size p + 1 = Text.size (p ++ [b.opener]) := by
    rw [Text.size_append, Text.size, b.utf8Size_opener]
    rfl
  have hcut : p ++ b.opener :: (w ++ b.closer :: q) = (p ++ [b.opener]) ++ w ++ b.closer :: q := by
    simp
  refine ⟨Text.bounds_iff.mpr ⟨p ++ [b.opener], w, b.closer :: q, hcut, hopen, by rw [hopen]⟩,
    Text.isBoundary_append p _, ?_⟩
  have hclose : Text.size p + 1 + Text.size w +
      1 = Text.size (p ++ [b.opener] ++ w ++ [b.closer]) := by
    rw [Text.size_append _ [b.closer], Text.size_append _ w, ← hopen, Text.size, b.utf8Size_closer]
    rfl
  have hcut' : p ++ b.opener :: (w ++ b.closer :: q) =
      (p ++ [b.opener] ++ w ++ [b.closer]) ++ q := by simp
  rw [hclose, hcut']
  exact Text.isBoundary_append _ q

/-! ## Blanked text -/

theorem exists_blank_append (p q : Text) :
    ∃ u v, blank (p ++ q) = u ++ v ∧ Text.size u = Text.size p := by
  have hchars : (marks (p ++ q) 0).map (·.char) = p ++ q := by
    rw [marks, map_char_marksFrom, Text.after, Text.after?_zero]
    rfl
  obtain ⟨ms, ms', hms, hp, -⟩ := List.map_eq_append_iff.mp hchars
  refine ⟨ms.flatMap Mark.blank, ms'.flatMap Mark.blank, ?_, ?_⟩
  · rw [blank, hms, List.flatMap_append]
  · rw [size_flatMap_markBlank, hp]

theorem isBoundary_blank (h : t.IsBoundary n) : (blank t).IsBoundary n := by
  obtain ⟨p, q, rfl, rfl⟩ := Text.isBoundary_iff.mp h
  obtain ⟨u, v, hblank, hsize⟩ := exists_blank_append p q
  rw [hblank, ← hsize]
  exact Text.isBoundary_append u v

theorem bounds_blank {start stop : Nat} (h : t.Bounds start stop) : (blank t).Bounds start stop :=
  ⟨h.le, isBoundary_blank h.start, isBoundary_blank h.stop⟩

/-- A character other than a blank that is left by blanking was there before. -/
theorem exists_mark_of_blank (hc : c ≠ ' ') : ∀ {ms : List Mark} {u v : Text},
    ms.flatMap Mark.blank = u ++ c :: v →
      ∃ ms₁ m ms₂, ms = ms₁ ++ m :: ms₂ ∧ m.char = c ∧ (m.kind = .code ∨ m.char = '\n') ∧
        Text.size (ms₁.map (·.char)) = Text.size u
  | [], u, v, h => absurd (List.append_eq_nil_iff.mp h.symm).2 (List.cons_ne_nil c v)
  | m :: ms, u, v, h => by
      -- the character is the marked one, or it stands behind what the mark leaves
      have hbehind : ∀ u', u = m.blank ++ u' → ms.flatMap Mark.blank = u' ++ c :: v →
          ∃ ms₁ m' ms₂, m :: ms = ms₁ ++ m' :: ms₂ ∧ m'.char = c ∧
          (m'.kind = .code ∨ m'.char = '\n') ∧
            Text.size (ms₁.map (·.char)) = Text.size u := by
        intro u' hu hrest
        obtain ⟨ms₁, m', ms₂, rfl, hchar, hkind, hsize⟩ := exists_mark_of_blank hc hrest
        refine ⟨m :: ms₁, m', ms₂, rfl, hchar, hkind, ?_⟩
        rw [List.map_cons, Text.size, hsize, hu, Text.size_append, size_markBlank]
      rw [List.flatMap_cons] at h
      rcases List.append_eq_append_iff.mp h with ⟨u', hu, hrest⟩ | ⟨w, hm, hw⟩
      · exact hbehind _ hu hrest
      · cases w with
        | nil => exact hbehind [] (by rw [hm]; simp) hw.symm
        | cons d w =>
            obtain ⟨rfl, -⟩ := List.cons.inj hw
            rw [Mark.blank] at hm
            split_ifs at hm with hcode
            · have hu : u = [] := by
                cases u with
                | nil => rfl
                | cons x u => simp at hm
              subst hu
              exact ⟨[], m, ms, rfl, (List.cons.inj hm).1, hcode, rfl⟩
            · have hmem : c ∈ List.replicate m.char.utf8Size ' ' := by
                rw [hm]
                exact List.mem_append_right _ List.mem_cons_self
              exact absurd (List.eq_of_mem_replicate hmem) hc

theorem exists_of_blank (hc : c ≠ ' ') (h : blank t = u ++ c :: v) :
    ∃ p q, t = p ++ c :: q ∧ Text.size p = Text.size u := by
  have hchars : (marks t 0).map (·.char) = t := by
    rw [marks, map_char_marksFrom, Text.after, Text.after?_zero]
    rfl
  obtain ⟨ms₁, m, ms₂, hms, hchar, -, hsize⟩ := exists_mark_of_blank hc h
  refine ⟨ms₁.map (·.char), ms₂.map (·.char), ?_, hsize⟩
  rw [← hchars, hms, List.map_append, List.map_cons, hchar]

end ServiceGate.Scan
