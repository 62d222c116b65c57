/-
# A scan, stretch by stretch

Four signs are read by what follows them.  A part that ends with none of them is `Settled`: it has
the same marks in front of anything (`marks_append`).  If it also ends in code outside of templates,
the scan of what follows starts afresh, and so the same of it is code wherever it stands
(`isCodeAt_append_right`).
-/
import ServiceGate.Proofs.CharClass
import ServiceGate.Proofs.Scan.InCode

namespace ServiceGate

namespace Text

variable {p q : Text} {n start stop : Nat}

/-! ## Places in the first part -/

theorem after?_append_left : ∀ (p q : Text) {n : Nat}, n ≤ size p →
    after? (p ++ q) n = (after? p n).map (· ++ q)
  | _, _, 0, _ => by rw [after?_zero, after?_zero, Option.map_some]
  | [], _, n + 1, h => absurd h (Nat.not_succ_le_zero n)
  | c :: p, q, n + 1, h => by
      rw [List.cons_append, after?, after?]
      split_ifs with hc
      · rw [size] at h
        exact after?_append_left p q (by omega)
      · rfl

theorem before?_append_left : ∀ (p q : Text) {n : Nat}, n ≤ size p →
    before? (p ++ q) n = before? p n
  | _, _, 0, _ => by rw [before?_zero, before?_zero]
  | [], _, n + 1, h => absurd h (Nat.not_succ_le_zero n)
  | c :: p, q, n + 1, h => by
      rw [List.cons_append, before?, before?]
      split_ifs with hc
      · rw [size] at h
        rw [before?_append_left p q (by omega)]
      · rfl

theorem size_of_after? {t u : Text} {n : Nat} (h : t.after? n = some u) : n + size u = size t := by
  obtain ⟨p, q, rfl, rfl⟩ := isBoundary_iff.mp (show t.IsBoundary n by rw [IsBoundary, h]; rfl)
  have hafter := after?_append p q 0
  rw [Nat.add_zero, after?_zero, h] at hafter
  rw [Option.some.inj hafter, size_append]

theorem between_append_left (h : stop ≤ size p) :
    between (p ++ q) start stop = between p start stop := by
  rw [between, between, between?, between?]
  by_cases hle : start ≤ stop
  · rw [if_pos hle, if_pos hle, after?_append_left p q (Nat.le_trans hle h)]
    cases hafter : p.after? start with
    | none => rfl
    | some u =>
        have hsize := size_of_after? hafter
        rw [Option.map_some, Option.bind_some, Option.bind_some, before?_append_left u q (by omega)]
  · rw [if_neg hle, if_neg hle]

theorem between_append_right (p q : Text) (start stop : Nat) :
    between (p ++ q) (size p + start) (size p + stop) = between q start stop := by
  have hiff : size p + start ≤ size p + stop ↔ start ≤ stop := by omega
  rw [between, between, between?, between?, after?_append,
    show size p + stop - (size p + start) = stop - start by omega]
  by_cases hle : start ≤ stop
  · rw [if_pos hle, if_pos (hiff.mpr hle)]
  · rw [if_neg hle, if_neg fun h => hle (hiff.mp h)]

theorem size_between_le (t : Text) (start stop : Nat) : size (between t start stop) ≤ stop := by
  rw [between]
  cases hcut : t.between? start stop with
  | none => exact Nat.zero_le _
  | some w =>
      rw [between?] at hcut
      split_ifs at hcut
      obtain ⟨u, -, hw⟩ := Option.bind_eq_some_iff.mp hcut
      have hsize := size_of_before? hw
      rw [Option.getD_some]
      omega

theorem byteAt?_append_left : ∀ {p q : Text} {n : Nat}, n < size p →
    byteAt? (p ++ q) n = byteAt? p n
  | [], _, n, h => absurd h (Nat.not_lt_zero n)
  | c :: p, q, n, h => by
      rw [List.cons_append, byteAt?, byteAt?]
      split_ifs with hc
      · rfl
      · rw [size] at h
        exact byteAt?_append_left (by omega)

end Text

namespace Scan

variable {p q rest t : Text} {s s' : State} {c : Char} {n d : Nat} {m : Mark}

/-! ## Parts that end with no sign of two characters -/

def looksAhead (c : Char) : Bool := c == '/' || c == '*' || c == '\\' || c == '$'

/-- A part that is read the same in front of anything. -/
def Settled (t : Text) : Prop := ∀ c ∈ t.getLast?, looksAhead c = false

instance (t : Text) : Decidable (Settled t) :=
  inferInstanceAs (Decidable (∀ c ∈ t.getLast?, looksAhead c = false))

theorem State.step_settled (hc : looksAhead c = false) (next : Option Char) :
    s.step c next = s.step c none := by
  simp only [looksAhead, Bool.or_eq_false_iff] at hc
  obtain ⟨⟨⟨hslash, hstar⟩, hback⟩, hdollar⟩ := hc
  obtain ⟨mode, regions, last⟩ := s
  cases mode with
  | lineComment => rfl
  | blockComment => simp only [State.step, State.stepBlockComment, hstar, Bool.false_and]
  | string quote =>
      simp only [State.step, State.stepString, hback, hdollar, Bool.and_false, Bool.false_and,
        Bool.false_eq_true, if_false]
  | code => simp only [State.step, State.stepCode, hslash, Bool.false_and]

theorem Settled.reads (h : Settled t) (s : State) (n : Nat) (rest : Text) :
    Reads rest s n t (marksFrom s n t) (s.after t) :=
  reads_of_last t n fun _ c hc _ => State.step_settled (h c hc) _

theorem Settled.of_append (h : Settled (p ++ q)) (hq : q ≠ []) : Settled q := fun c hc =>
  h c (by rw [List.getLast?_append_of_ne_nil p hq]; exact hc)

theorem Settled.marksFrom_append (h : Settled p) (s : State) (n : Nat) (q : Text) :
    marksFrom s n (p ++ q) = marksFrom s n p ++ marksFrom (s.after p) (n + Text.size p) q :=
  (h.reads s n q).marksFrom_eq

theorem le_offset_of_mem_marksFrom (h : m ∈ marksFrom s n t) : n ≤ m.offset := by
  have hmem : (m.offset, m.char) ∈ Text.indexed n t := by
    rw [← chars_marksFrom s]
    exact List.mem_map_of_mem (f := fun m : Mark => (m.offset, m.char)) h
  exact Text.le_of_mem_indexed hmem

/-- The marks of a settled part come first, wherever in it the scan starts. -/
theorem Settled.marks_append (h : Settled p) (hn : n ≤ Text.size p) (q : Text) :
    ∃ ms, marks (p ++ q) n = marks p n ++ ms ∧ ∀ m ∈ ms, Text.size p ≤ m.offset := by
  rw [marks, marks, Text.after, Text.after, Text.after?_append_left p q hn]
  cases hafter : p.after? n with
  | none => exact ⟨[], rfl, fun _ hm => absurd hm List.not_mem_nil⟩
  | some u =>
      have hsize := Text.size_of_after? hafter
      have hu : Settled u := by
        by_cases hnil : u = []
        · rw [hnil]
          exact fun _ hc => by cases hc
        · obtain ⟨v, w, rfl, rfl⟩ := Text.isBoundary_iff.mp (show p.IsBoundary n by
            rw [Text.IsBoundary, hafter]; rfl)
          have hw := Text.after?_append v w 0
          rw [Nat.add_zero, Text.after?_zero, hafter] at hw
          obtain rfl := Option.some.inj hw
          exact h.of_append hnil
      refine ⟨_, hu.marksFrom_append .start n q, fun m hm => ?_⟩
      rw [← hsize]
      exact le_offset_of_mem_marksFrom hm

/-! ## Where a text starts -/

def Mark.shift (d : Nat) (m : Mark) : Mark := { m with offset := d + m.offset }

theorem marksFrom_shift (d : Nat) : ∀ (t : Text) (s : State) (n : Nat),
    marksFrom s (d + n) t = (marksFrom s n t).map (Mark.shift d)
  | [], _, _ => rfl
  | [_], _, _ => rfl
  | c :: e :: t, s, n => by
      cases hr : (s.step c (some e)).takesNext with
      | true =>
          rw [marksFrom_two _ hr, marksFrom_two _ hr, Nat.add_assoc d, Nat.add_assoc d,
            marksFrom_shift d t]
          rfl
      | false =>
          rw [marksFrom_one (t := e :: t) _ hr, marksFrom_one (t := e :: t) _ hr, Nat.add_assoc d,
            marksFrom_shift d (e :: t)]
          rfl

theorem marks_append_right (p q : Text) (n : Nat) :
    marks (p ++ q) (Text.size p + n) = (marks q n).map (Mark.shift (Text.size p)) := by
  rw [marks, marks, Text.after, Text.after, Text.after?_append, marksFrom_shift]

theorem Settled.isCodeAt_append_left (h : Settled p) (q : Text) (hn : n < Text.size p) :
    (Source.of (p ++ q)).isCodeAt n = (Source.of p).isCodeAt n := by
  have hblank : blank (p ++ q) = blank p ++
      (marksFrom (State.start.after p) (Text.size p) q).flatMap Mark.blank := by
    rw [blank, blank, marks_zero, marks_zero, h.marksFrom_append, List.flatMap_append, Nat.zero_add]
  show isCodeAt (p ++ q) (blank (p ++ q)) n = isCodeAt p (blank p) n
  rw [isCodeAt, isCodeAt, hblank, Text.byteAt?_append_left hn,
    Text.byteAt?_append_left (by rwa [size_blank])]

/-! ## Parts behind which the scan starts afresh -/

/-- A settled part that ends in code outside of templates. -/
def Rests (t : Text) : Prop := Settled t ∧ (State.start.after t).Agrees .start

instance (t : Text) : Decidable (Rests t) :=
  inferInstanceAs (Decidable (_ ∧ (_ = _ ∧ _ = _)))

theorem Rests.marks_append (h : Rests p) (q : Text) :
    marks (p ++ q) 0 = marks p 0 ++ (marks q 0).map (Mark.shift (Text.size p)) := by
  have hq := marksFrom_agrees q (Text.size p) h.2
  rw [marks_zero, marks_zero, marks_zero, h.1.marksFrom_append, Nat.zero_add, ← hq,
    ← marksFrom_shift, Nat.add_zero]

theorem Rests.blank_append (h : Rests p) (q : Text) : blank (p ++ q) = blank p ++ blank q := by
  rw [blank, h.marks_append, List.flatMap_append, List.flatMap_map]
  rfl

/-- Behind the first part the code is that of the second one. -/
theorem Rests.isCodeAt_append_right (h : Rests p) (q : Text) (n : Nat) :
    (Source.of (p ++ q)).isCodeAt (Text.size p + n) = (Source.of q).isCodeAt n := by
  have hbyte := Text.byteAt?_append (blank p) (blank q) n
  rw [size_blank] at hbyte
  show isCodeAt (p ++ q) (blank (p ++ q)) (Text.size p + n) = isCodeAt q (blank q) n
  rw [isCodeAt, isCodeAt, h.blank_append, Text.byteAt?_append, hbyte]

end Scan

end ServiceGate
