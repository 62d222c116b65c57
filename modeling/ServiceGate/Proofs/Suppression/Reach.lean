/-
# The files that a suppression reaches

A suppression names its file by the file's path or by an end of it, and a longer path than the
file's names it as well.  An end of a path is made of whole segments (`IsTail`), or it starts inside
of a segment (`Straddles`); which of the two it is, the comparison does not ask.  So an issue is
suppressed exactly where an entry for its rule covers every file, names the file, or straddles it
(`covered_iff`), and it is the last case alone in which a suppression reaches a file that it does
not name (`not_only_named`).
-/
import ServiceGate.Proofs.Text.Pieces
import ServiceGate.Route.Path
import ServiceGate.Suppression
import Mathlib.Data.List.Basic

namespace ServiceGate

open RoutePath (segments)

variable {path tail y : Text} {c : Char}

/-! ## The segments of an end -/

theorem Text.exists_lastPiece (f : Char → Bool) : ∀ x : Text, ∃ xs q, splitWhere f x = xs ++ [q] ∧
    ∀ {y a ys}, splitWhere f y = a :: ys → splitWhere f (x ++ y) = xs ++ (q ++ a) :: ys
  | [] => ⟨[], [], rfl, fun hy => hy⟩
  | c :: x => by
      obtain ⟨xs, q, hx, hmeet⟩ := exists_lastPiece f x
      cases hc : f c with
      | true =>
          refine ⟨[] :: xs, q, by rw [splitWhere_pos hc, hx]; rfl, fun hy => ?_⟩
          rw [List.cons_append, splitWhere_pos hc, hmeet hy]
          rfl
      | false =>
          cases xs with
          | nil => exact ⟨[], c :: q, splitWhere_neg hc hx, fun hy => splitWhere_neg hc (hmeet hy)⟩
          | cons p xs => exact ⟨(c :: p) :: xs, q, splitWhere_neg hc hx, fun hy =>
              splitWhere_neg hc (hmeet hy)⟩

theorem segments_append (x y : Text) : segments (x ++ '/' :: y) = segments x ++ segments y := by
  rw [segments, Text.pieces_append, List.filter_append]
  rfl

theorem segments_slash (y : Text) : segments ('/' :: y) = segments y := segments_append [] y

theorem segments_across (hc : c ≠ '/') (hy : y.head? ≠ some '/') (hne : y ≠ []) (x : Text) :
    ∃ xs q a ys, segments y = a :: ys ∧ segments (x ++ c :: y) = xs ++ (q ++ c :: a) :: ys := by
  obtain ⟨d, y, rfl⟩ := List.exists_cons_of_ne_nil hne
  have hd : d ≠ '/' := fun h => hy (h ▸ rfl)
  obtain ⟨a, ys, hcut⟩ := Text.exists_splitWhere (· == '/') y
  have hbehind : Text.splitWhere (· == '/') (d :: y) = (d :: a) :: ys :=
    Text.splitWhere_neg (beq_eq_false_iff_ne.mpr hd) hcut
  have hacross : Text.splitWhere (· == '/') (c :: d :: y) = (c :: d :: a) :: ys :=
    Text.splitWhere_neg (beq_eq_false_iff_ne.mpr hc) hbehind
  obtain ⟨xs, q, -, hmeet⟩ := Text.exists_lastPiece (· == '/') x
  refine ⟨xs.filter (!·.isEmpty), q, d :: a, ys.filter (!·.isEmpty), ?_, ?_⟩
  · rw [segments, Text.pieces, hbehind]
    rfl
  · rw [segments, Text.pieces, hmeet hacross, List.filter_append, List.filter_cons_of_pos (by simp)]

/-! ## Ends of a path -/

namespace Suppression

/-- A path ends with another one, which is the path or a row of whole segments. -/
def IsTail (path tail : Text) : Prop :=
  tail <:+ path ∧ (tail = path ∨ segments tail ≠ [] ∧ segments tail <:+ segments path)

/-- A path ends with another one that starts inside of a segment, or that has no segment at all. -/
def Straddles (path tail : Text) : Prop :=
  ∃ front c, path = front ++ c :: tail ∧ (segments tail = [] ∨ c ≠ '/' ∧ tail.head? ≠ some '/')

theorem suffix_iff : tail <:+ path ↔ IsTail path tail ∨ Straddles path tail := by
  constructor
  · rintro ⟨front, rfl⟩
    rcases List.eq_nil_or_concat' front with rfl | ⟨front, c, rfl⟩
    · exact .inl ⟨List.suffix_refl tail, .inl rfl⟩
    have hcut : front ++ [c] ++ tail = front ++ c :: tail := by simp
    by_cases hstraddles : segments tail = [] ∨ c ≠ '/' ∧ tail.head? ≠ some '/'
    · exact .inr ⟨front, c, hcut, hstraddles⟩
    obtain ⟨hsegments, hslash⟩ := not_or.mp hstraddles
    refine .inl ⟨List.suffix_append _ _, .inr ⟨hsegments, ?_⟩⟩
    -- a slash stands in front of the end, or the end starts with one
    by_cases hc : c = '/'
    · rw [hcut, hc, segments_append]
      exact List.suffix_append _ _
    · have hhead : tail.head? = some '/' := not_not.mp fun h => hslash ⟨hc, h⟩
      obtain ⟨rest, rfl⟩ := List.head?_eq_some_iff.mp hhead
      rw [segments_append, segments_slash]
      exact List.suffix_append _ _
  · rintro (⟨h, -⟩ | ⟨front, c, rfl, -⟩)
    · exact h
    · exact ⟨front ++ [c], by simp⟩

theorem Straddles.not_isTail (h : Straddles path tail) : ¬ IsTail path tail := by
  obtain ⟨front, c, rfl, hstart⟩ := h
  rintro ⟨-, hsame | ⟨hne, hsuffix⟩⟩
  · have hlength := congrArg List.length hsame
    simp only [List.length_append, List.length_cons] at hlength
    omega
  rcases hstart with hnone | ⟨hc, hhead⟩
  · exact hne hnone
  have htail : tail ≠ [] := by
    rintro rfl
    exact hne rfl
  obtain ⟨xs, q, a, ys, hsegments, hall⟩ := segments_across hc hhead htail front
  rw [hsegments, hall] at hsuffix
  have hrow := List.suffix_of_suffix_length_le hsuffix (List.suffix_append xs ((q ++ c :: a) :: ys))
    (by simp)
  have hfirst := (List.cons.inj (hrow.eq_of_length (by simp))).1
  have hlength := congrArg List.length hfirst
  simp only [List.length_append, List.length_cons] at hlength
  omega

/-! ## What is suppressed -/

/-- A suppression is for a rule. -/
def ForRule (e : Suppression) (rule : Text) : Prop := e.rule = wildcard ∨ e.rule = rule

/-- One of two paths is an end of the other that is made of whole segments. -/
def Names (entry path : Text) : Prop := IsTail path entry ∨ IsTail entry path

/-- One of two paths is an end of the other that straddles it. -/
def Clips (entry path : Text) : Prop := Straddles path entry ∨ Straddles entry path

theorem mayName_iff {entry path : Text} : mayName entry path = true ↔ Names entry path ∨
    Clips entry path := by
  simp only [mayName, Text.endsWith, Bool.or_eq_true, List.isSuffixOf_iff_suffix, suffix_iff, Names,
    Clips]
  exact or_or_or_comm

theorem Straddles.length_lt (h : Straddles path tail) : tail.length < path.length := by
  obtain ⟨front, c, rfl, -⟩ := h
  rw [List.length_append, List.length_cons]
  omega

theorem Clips.not_names {entry path : Text} (h : Clips entry path) : ¬ Names entry path := by
  have hlonger : ∀ {path tail : Text}, Straddles path tail → ¬ IsTail tail path :=
    fun hlong htail =>
    Nat.not_le_of_lt hlong.length_lt htail.1.length_le
  rintro (hnames | hnames)
  · exact h.elim (fun h => h.not_isTail hnames) fun h => hlonger h hnames
  · exact h.elim (fun h => hlonger h hnames) fun h => h.not_isTail hnames

theorem covers_iff {e : Suppression} {rule file : Text} : e.covers rule file = true ↔
    e.ForRule rule ∧ (e.file = wildcard ∨ Names e.file file ∨ Clips e.file file) := by
  rw [covers, Bool.and_eq_true, Bool.or_eq_true, Bool.or_eq_true, mayName_iff, ForRule]
  simp only [beq_iff_eq]

/-- An issue is suppressed exactly if an entry for its rule is for every file, names its file, or
clips its path; and what is clipped is not named. -/
theorem covered_iff (entries : List Suppression) (rule file : Text) :
    (anyCovers entries rule file = true ↔ ∃ e ∈ entries, e.ForRule rule ∧
      (e.file = wildcard ∨ Names e.file file ∨ Clips e.file file)) ∧
    ∀ entry, ¬ (Clips entry file ∧ Names entry file) := by
  refine ⟨?_, fun entry h => h.1.not_names h.2⟩
  rw [anyCovers, List.any_eq_true]
  simp only [covers_iff]

/-- A suppression may reach a file that no entry names. -/
theorem not_only_named : ¬ ∀ (entries : List Suppression) (rule file : Text),
    anyCovers entries rule file = true →
      ∃ e ∈ entries, e.ForRule rule ∧ (e.file = wildcard ∨ Names e.file file) := by
  intro h
  obtain ⟨e, he, -, hfile⟩ :=
    h [⟨"CONSOLE_LOG".toList, "server.ts".toList, []⟩] "CONSOLE_LOG".toList
    "src/observer.ts".toList (by decide)
  obtain rfl := List.mem_singleton.mp he
  have hclips : Clips "server.ts".toList "src/observer.ts".toList :=
    .inl ⟨"src/o".toList, 'b', by decide, .inr ⟨by decide, by decide⟩⟩
  exact hfile.elim (by decide) hclips.not_names

end Suppression

end ServiceGate
