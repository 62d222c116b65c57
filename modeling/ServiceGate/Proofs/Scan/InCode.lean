/-
# Places in code

A byte that is left by blanking is code, and white space apart all code is left (`isCodeAt_eq`), so
the scan of the text comes to such a byte in code (`inCode_of_isCodeAt`), be it in a region of a
template. From there flat text, which has no quote, no slash and no brace, is read as code without a
change of state (`reads_flat`); and a flat stretch that starts in code can be put in the place of
another with the same brackets (`balanced_flat`).
-/
import ServiceGate.Proofs.Scan.Exchange
import ServiceGate.Proofs.Scan.Restart

namespace ServiceGate

theorem Text.byteAt?_append (p q : Text) (n : Nat) :
    Text.byteAt? (p ++ q) (Text.size p + n) = Text.byteAt? q n := by
  induction p with
  | nil => simp [Text.size]
  | cons c p ih =>
      have hc : ¬ Text.size (c :: p) + n < c.utf8Size := by
        rw [Text.size]
        omega
      have hsize : Text.size (c :: p) + n - c.utf8Size = Text.size p + n := by
        rw [Text.size]
        omega
      rw [List.cons_append, Text.byteAt?, if_neg hc, hsize, ih]

namespace Scan

variable {p q t u w : Text} {s : State} {c d : Char} {n : Nat} {ms : List Mark}

/-! ## Code characters -/

theorem exists_marks_cut (p : Text) (c : Char) (q : Text) : ∃ ms k ms',
    marks (p ++ c :: q) 0 = ms ++ ⟨Text.size p, c, k⟩ :: ms' ∧ ms.map (·.char) = p := by
  have hchars : (marks (p ++ c :: q) 0).map (fun m => (m.offset, m.char)) =
      Text.indexed 0 p ++ Text.indexed (Text.size p) (c :: q) := by
    rw [marks, chars_marksFrom, Text.after, Text.after?_zero, Option.getD_some, Text.indexed_append,
      Nat.zero_add]
  obtain ⟨ms, ms', hms, hp, hq⟩ := List.map_eq_append_iff.mp hchars
  cases ms' with
  | nil => cases hq
  | cons m ms' =>
      obtain ⟨hm, -⟩ := List.cons.inj hq
      obtain ⟨n, d, k⟩ := m
      obtain ⟨rfl, rfl⟩ := Prod.mk.inj hm
      refine ⟨ms, k, ms', hms, ?_⟩
      have hp' := congrArg (List.map Prod.snd) hp
      rw [List.map_map, map_snd_indexed] at hp'
      exact hp'

theorem text_of_marks_cut {ms ms' : List Mark} {m : Mark} (h : marks t 0 = ms ++ m :: ms') :
    t = ms.map (·.char) ++ m.char :: ms'.map (·.char) ∧ m.offset = Text.size (ms.map (·.char)) := by
  have ht : t = ms.map (·.char) ++ m.char :: ms'.map (·.char) := by
    have hchars := map_char_marksFrom .start 0 t
    rw [← marks_zero, h, List.map_append, List.map_cons] at hchars
    exact hchars.symm
  obtain ⟨ms₁, k, ms₁', hmarks, hp⟩ := exists_marks_cut (ms.map (·.char)) m.char (ms'.map (·.char))
  rw [← ht, h] at hmarks
  have hlength := congrArg List.length hp
  rw [List.length_map, List.length_map, eq_comm] at hlength
  obtain ⟨-, htail⟩ := List.append_inj hmarks hlength
  exact ⟨ht, congrArg Mark.offset (List.cons.inj htail).1⟩

theorem isAsciiSpace_of_high : ∀ k < 128, CharClass.isAsciiSpace
    (Char.ofNat (128 + k)) = false := by
  decide

theorem isAsciiSpace_byte {b : UInt8} (h : b ∈ String.utf8EncodeChar c) :
    CharClass.isAsciiSpace (Char.ofNat b.toNat) = CharClass.isAsciiSpace c := by
  -- a longer character is no ASCII, and neither are its bytes
  have hlong : 127 < c.val.toNat → CharClass.isAsciiSpace c = false := fun hc => by
    simp only [CharClass.isAsciiSpace, Bool.or_eq_false_iff, beq_eq_false_iff_ne]
    refine ⟨⟨⟨⟨?_, ?_⟩, ?_⟩, ?_⟩, ?_⟩ <;> rintro rfl <;> exact absurd hc (by decide)
  have hbyte : ∀ n, 128 ≤ n → n < 256 →
      CharClass.isAsciiSpace (Char.ofNat (UInt8.ofNat n).toNat) = false := fun n hle hlt => by
    obtain ⟨k, rfl⟩ := Nat.exists_eq_add_of_le hle
    rw [UInt8.toNat_ofNat_of_lt' hlt, isAsciiSpace_of_high k (by omega)]
  unfold String.utf8EncodeChar at h
  dsimp only at h
  split_ifs at h with hshort
  · obtain rfl := List.mem_singleton.mp h
    rw [UInt8.toNat_ofNat_of_lt' (Nat.lt_of_le_of_lt hshort (by decide)),
      show c.val.toNat = c.toNat from rfl, Char.ofNat_toNat]
  all_goals
    rw [hlong (Nat.lt_of_not_le hshort)]
    simp only [List.mem_cons, List.not_mem_nil, or_false] at h
  · rcases h with rfl | rfl <;> exact hbyte _ (by omega) (by omega)
  · rcases h with rfl | rfl | rfl <;> exact hbyte _ (by omega) (by omega)
  · rcases h with rfl | rfl | rfl | rfl <;> exact hbyte _ (by omega) (by omega)

theorem exists_byteAt? {i : Nat} (hi : i < c.utf8Size) (v : Text) :
    ∃ b ∈ String.utf8EncodeChar c, Text.byteAt? (c :: v) i = some b := by
  rw [← String.length_utf8EncodeChar] at hi
  refine ⟨_, List.getElem_mem hi, ?_⟩
  rw [Text.byteAt?, if_pos (by rwa [← String.length_utf8EncodeChar]), List.getElem?_eq_getElem hi]

theorem exists_byteAt?_blank {m : Mark} {i : Nat} (hk : m.kind ≠ .code) (hi : i < m.char.utf8Size)
    (v : Text) : ∃ b : UInt8, Text.byteAt? (m.blank ++ v) i = some b ∧
      CharClass.isAsciiSpace (Char.ofNat b.toNat) = true := by
  unfold Mark.blank
  split_ifs with hc
  · obtain ⟨b, hb, hbyte⟩ := exists_byteAt? hi v
    refine ⟨b, hbyte, ?_⟩
    rw [isAsciiSpace_byte hb, hc.resolve_left hk]
    rfl
  · obtain ⟨j, hj⟩ := Nat.exists_eq_add_of_lt hi
    rw [hj, Nat.add_assoc, List.replicate_add, List.append_assoc]
    have hbyte := Text.byteAt?_append (List.replicate i ' ') (List.replicate (j + 1) ' ' ++ v) 0
    rw [size_blanks, Nat.add_zero] at hbyte
    exact ⟨32, hbyte, by decide⟩

/-- The bytes of a character are in code exactly if the character is, and is no white space. -/
theorem isCodeAt_eq {ms ms' : List Mark} {k : Kind} {i : Nat}
    (hmarks : marks (p ++ c :: q) 0 = ms ++ ⟨Text.size p, c, k⟩ :: ms') (hp : ms.map (·.char) = p)
    (hi : i < c.utf8Size) : isCodeAt (p ++ c :: q) (blank (p ++ c :: q)) (Text.size p + i) =
      (k == .code && !CharClass.isAsciiSpace c) := by
  have hblank : Text.byteAt? (blank (p ++ c :: q)) (Text.size p + i) =
      Text.byteAt? ((⟨Text.size p, c, k⟩ : Mark).blank ++ ms'.flatMap Mark.blank) i := by
    rw [blank, hmarks, List.flatMap_append, List.flatMap_cons]
    nth_rewrite 2 [← hp]
    rw [← size_flatMap_markBlank, Text.byteAt?_append]
  obtain ⟨a, ha, hbyte⟩ := exists_byteAt? hi q
  rw [isCodeAt, Text.byteAt?_append, hblank, hbyte]
  by_cases hk : k = .code
  · subst hk
    obtain ⟨b, hb, hbyte'⟩ := exists_byteAt? hi (ms'.flatMap Mark.blank)
    have hsame : b = a := by
      rw [Text.byteAt?, if_pos hi] at hbyte hbyte'
      exact Option.some.inj (hbyte'.symm.trans hbyte)
    have hleft : (⟨Text.size p, c, .code⟩ : Mark).blank = [c] := rfl
    rw [hleft, List.singleton_append, hbyte', hsame]
    simp only [isAsciiSpace_byte ha, beq_self_eq_true]
  · obtain ⟨b, hbyte', hspace⟩ := exists_byteAt?_blank (m := ⟨Text.size p, c, k⟩) hk hi
      (ms'.flatMap Mark.blank)
    rw [hbyte']
    simp only [hspace, beq_eq_false_iff_ne.mpr hk, Bool.not_true, Bool.and_false, Bool.false_and]

theorem exists_code_mark (h : isCodeAt (p ++ c :: q) (blank (p ++ c :: q)) (Text.size p) = true) :
    ∃ ms ms', marks (p ++ c :: q) 0 = ms ++ ⟨Text.size p, c, .code⟩ :: ms' ∧
      ms.map (·.char) = p := by
  obtain ⟨ms, k, ms', hmarks, hp⟩ := exists_marks_cut p c q
  have heq := isCodeAt_eq hmarks hp c.utf8Size_pos
  rw [Nat.add_zero, h, eq_comm, Bool.and_eq_true, beq_iff_eq] at heq
  obtain ⟨rfl, -⟩ := heq
  exact ⟨ms, ms', hmarks, hp⟩

/-- A character that is marked as code stands in code, unless it is white space. -/
theorem isCodeAt_of_mark {ms ms' : List Mark} (hc : CharClass.isAsciiSpace c = false)
    (hmarks : marks (p ++ c :: q) 0 = ms ++ ⟨Text.size p, c, .code⟩ :: ms')
    (hp : ms.map (·.char) = p) :
    isCodeAt (p ++ c :: q) (blank (p ++ c :: q)) (Text.size p) = true := by
  have heq := isCodeAt_eq hmarks hp c.utf8Size_pos
  rwa [Nat.add_zero, hc] at heq

/-- Behind the part `p` the scan comes to the character `c` in code. -/
def InCode (p : Text) (c : Char) : Prop :=
  ∃ ms s, s.mode = .code ∧ ∀ q, Reads (c :: q) .start 0 p ms s

theorem inCode_of_mem_marks (h : ⟨n, c, .code⟩ ∈ marks t 0) :
    ∃ p q, t = p ++ c :: q ∧ n = Text.size p ∧ InCode p c := by
  have hmem : ⟨n, c, .code⟩ ∈ (visits t).map (·.1) := by
    rw [visits, map_fst_visitsFrom]
    rwa [marks_zero] at h
  obtain ⟨⟨m, σ⟩, hvisit, rfl⟩ := List.mem_map.mp hmem
  obtain ⟨p, q, ms, hcut, hsize, hreads, hcode⟩ := reads_of_visit t hvisit rfl
  exact ⟨p, q, hcut, hsize.trans (Nat.zero_add _), ms, σ, (State.of_step_code hcode).1,
    fun q => hreads.congr_head rfl⟩

theorem inCode_of_isCodeAt (h : isCodeAt (p ++ c :: q) (blank (p ++ c :: q)) (Text.size p) = true) :
    InCode p c := by
  obtain ⟨ms, ms', hmarks, -⟩ := exists_code_mark h
  obtain ⟨p', q', hcut, hsize, hcode⟩ :=
    inCode_of_mem_marks (hmarks ▸ List.mem_append_right ms List.mem_cons_self)
  obtain ⟨w, rfl, -⟩ := Text.exists_middle hcut (Nat.le_of_eq hsize)
  obtain rfl : w = [] := Text.eq_nil_of_size (by
    rw [Text.size_append] at hsize
    omega)
  rwa [List.append_nil] at hcode

theorem OpensAt.inCode_close {b : Bracket} {o : Nat} (h : OpensAt t b o)
    (hn : matchingClose? t o = some n) : ∃ p q, t = p ++ b.closer :: q ∧ n = Text.size p ∧
      InCode p b.closer := by
  obtain ⟨cs, cs', hcodes, hclose⟩ := h.code_cut
  have hmem : (n, b.closer) ∈ codeOf (marks t 0) := by
    rw [hcodes]
    exact List.mem_append_right _ (List.mem_cons_of_mem _ (mem_of_closeIn (hclose.symm.trans hn)))
  exact inCode_of_mem_marks (mem_codeOf.mp hmem)

/-! ## Flat text -/

def isFlat (c : Char) : Bool := !isQuote c && c != '/' && c != '\x7b' && c != '\x7d'

theorem step_flat (hc : isFlat c = true) (hs : s.mode = .code) (next : Option Char) :
    s.step c next = ⟨.code, s, false⟩ := by
  obtain ⟨mode, regions, last⟩ := s
  subst hs
  simp only [isFlat, isQuote, Bool.and_eq_true, Bool.not_eq_true', bne_iff_ne] at hc
  obtain ⟨⟨⟨hquote, hslash⟩, hopen⟩, hclose⟩ := hc
  simp only [State.step, State.stepCode, hquote, beq_eq_false_iff_ne.mpr hslash,
    beq_eq_false_iff_ne.mpr hopen, beq_eq_false_iff_ne.mpr hclose]
  rfl

theorem reads_flat (hs : s.mode = .code) (rest : Text) : ∀ (w : Text) (n : Nat),
    (∀ c ∈ w, isFlat c = true) → ∃ ms, Reads rest s n w ms s ∧ codeText ms = w
  | [], _, _ => ⟨[], .nil, rfl⟩
  | c :: w, n, hw => by
      obtain ⟨hc, hw⟩ := List.forall_mem_cons.mp hw
      obtain ⟨ms, hms, htext⟩ := reads_flat hs rest w (n + c.utf8Size) hw
      refine ⟨_, .one (step_flat hc hs _) hms, ?_⟩
      rw [codeText_cons, if_pos rfl, htext]

/-- Behind flat text that starts in code the scan is in code. -/
theorem InCode.append (h : InCode p c) (hw : ∀ x ∈ c :: w, isFlat x = true) (d : Char) :
    InCode (p ++ c :: w) d := by
  obtain ⟨ms, s, hs, hreads⟩ := h
  obtain ⟨ms', hms', -⟩ := reads_flat hs [d] (c :: w) (0 + Text.size p) hw
  refine ⟨ms ++ ms', s, hs, fun q => ?_⟩
  have hwhole : Reads [d] .start 0 (p ++ c :: w) (ms ++ ms') s := (hreads (w ++ [d])).append hms'
  exact hwhole.congr_head rfl

theorem InCode.not_endsInCode (h : InCode p c) (hc : isQuote c = true) : ¬ EndsInCode
    (p ++ [c]) := by
  rintro ⟨⟨hmode, -⟩, -⟩
  obtain ⟨ms, ⟨mode, regions, last⟩, hs, hreads⟩ := h
  obtain rfl : mode = .code := hs
  rw [(hreads []).after_eq, State.after_one (by rw [step_quote hc]), step_quote hc] at hmode
  cases hmode

/-- What is read in front of code is read alike in front of flat text. -/
theorem Reads.detach_flat (h : Reads q .start 0 p ms s) (hs : s.mode = .code)
    (hflat : isFlat d = true) (hd : d ≠ '*') (u : Text) : Reads (d :: u) .start 0 p ms s := by
  have hslash : d ≠ '/' := by
    rintro rfl
    exact absurd hflat (by decide)
  exact h.detach hs fun x _ => by simp [opensComment, hslash, hd]

/-- One flat stretch that starts in code in the place of another with the same brackets. -/
theorem balanced_flat (hp : InCode p c) (hw : ∀ x ∈ c :: w, isFlat x = true)
    (hu : ∀ x ∈ d :: u, isFlat x = true) (hd : d ≠ '*')
    (htrack : ∀ k : Depths, k.trackAll (c :: w) = k.trackAll (d :: u)) (q : Text) :
    balanced (p ++ c :: w ++ q) = balanced (p ++ d :: u ++ q) := by
  obtain ⟨ms, s, hs, hreads⟩ := hp
  obtain ⟨ms₁, hms₁, htext₁⟩ := reads_flat hs q (c :: w) 0 hw
  obtain ⟨ms₂, hms₂, htext₂⟩ := reads_flat hs q (d :: u) 0 hu
  have halike : Alike s (c :: w ++ q) (d :: u ++ q) :=
    .exchange hms₁ hms₂ ⟨rfl, rfl⟩ fun k => by rw [htext₁, htext₂, htrack]
  have hnew := (hreads (w ++ q)).detach_flat hs (hu d List.mem_cons_self) hd (u ++ q)
  rw [List.append_assoc, List.append_assoc]
  exact (halike.append (hreads (w ++ q)) hnew).balanced_eq

end Scan

end ServiceGate
