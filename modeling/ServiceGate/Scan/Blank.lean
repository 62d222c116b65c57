/-
# Code without its comments and strings

`blank` overwrites comments and strings with spaces, byte for byte, and keeps every line feed, so
that an offset means the same in both texts; `size_blank` says so for the length.
-/
import ServiceGate.Scan.Mark
import ServiceGate.CharClass.Basic

namespace ServiceGate.Scan

def Mark.blank (m : Mark) : Text :=
  if m.kind = .code ∨ m.char = '\n' then [m.char] else List.replicate m.char.utf8Size ' '

/-- The text with comments and strings overwritten by spaces. -/
def blank (t : Text) : Text := (marks t 0).flatMap Mark.blank

/-- Whether the byte at offset `n` belongs to code, white space apart; `blanked` is the blanked
text. -/
def isCodeAt (t blanked : Text) (n : Nat) : Bool :=
  match t.byteAt? n, blanked.byteAt? n with
  | some a, some b => a == b && !CharClass.isAsciiSpace (Char.ofNat b.toNat)
  | _, _ => false

/-- A source text together with its blanked form. -/
structure Source where
  text : Text
  blanked : Text
  blanked_eq : blanked = blank text

def Source.of (t : Text) : Source := ⟨t, blank t, rfl⟩

/-- Whether the byte at offset `n` of the source is code. -/
def Source.isCodeAt (s : Source) (n : Nat) : Bool := Scan.isCodeAt s.text s.blanked n

theorem size_blanks (n : Nat) : Text.size (List.replicate n ' ') = n := by
  induction n with
  | zero => rfl
  | succ n ih =>
    have : ' '.utf8Size = 1 := rfl
    simp [List.replicate_succ, Text.size, ih, this]
    omega

theorem size_markBlank (m : Mark) : Text.size m.blank = m.char.utf8Size := by
  unfold Mark.blank
  split
  · simp [Text.size]
  · exact size_blanks _

theorem size_flatMap_markBlank (ms : List Mark) :
    Text.size (ms.flatMap Mark.blank) = Text.size (ms.map (·.char)) := by
  induction ms with
  | nil => rfl
  | cons m ms ih => simp [Text.size_append, Text.size, ih, size_markBlank]

theorem map_snd_indexed (t : Text) (n : Nat) : (t.indexed n).map (·.2) = t := by
  induction t generalizing n with
  | nil => rfl
  | cons c t ih => simp [Text.indexed, ih]

theorem map_char_marksFrom (s : State) (n : Nat) (t : Text) :
    (marksFrom s n t).map (·.char) = t := by
  have h := congrArg (List.map Prod.snd) (chars_marksFrom s n t)
  simpa [List.map_map, Function.comp_def, map_snd_indexed] using h

theorem size_blank (t : Text) : Text.size (blank t) = Text.size t := by
  have h : t.after 0 = t := by cases t <;> rfl
  rw [blank, size_flatMap_markBlank, marks, map_char_marksFrom, h]

end ServiceGate.Scan
