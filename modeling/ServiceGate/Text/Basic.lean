/-
# Texts and byte offsets

A text is a list of characters.  Positions in it are byte offsets into its UTF-8 form, because that
is how positions are reported and compared; only the offsets between two characters (`IsBoundary`)
name a place.  `after?`, `before?` and `between?` cut a text at such places and answer `none` when
an offset lies inside a character, past the end, or behind the other one.  Their total companions
give the empty text instead.

`before?_append_after?` says that a cut loses nothing.
-/

namespace ServiceGate

abbrev Text := List Char

namespace Text

/-- The number of bytes of the UTF-8 form. -/
def size : Text → Nat
  | [] => 0
  | c :: rest => c.utf8Size + size rest

def after? : Text → Nat → Option Text
  | t, 0 => some t
  | [], _ + 1 => none
  | c :: rest, n + 1 =>
    if c.utf8Size ≤ n + 1 then after? rest (n + 1 - c.utf8Size) else none

/-- The part in front of byte offset `n`. -/
def before? : Text → Nat → Option Text
  | _, 0 => some []
  | [], _ + 1 => none
  | c :: rest, n + 1 =>
    if c.utf8Size ≤ n + 1 then (before? rest (n + 1 - c.utf8Size)).map (c :: ·) else none

def between? (t : Text) (start stop : Nat) : Option Text :=
  if start ≤ stop then (t.after? start).bind (·.before? (stop - start)) else none

/-- An offset between two characters, or at either end. -/
def IsBoundary (t : Text) (n : Nat) : Prop := (t.after? n).isSome

instance (t : Text) (n : Nat) : Decidable (t.IsBoundary n) :=
  inferInstanceAs (Decidable (_ = true))

/-- The part behind an offset, empty where no character starts. -/
def after (t : Text) (n : Nat) : Text := (t.after? n).getD []

/-- The part in front of an offset, empty where no character starts. -/
def before (t : Text) (n : Nat) : Text := (t.before? n).getD []

/-- The part between two offsets, empty where they bound none. -/
def between (t : Text) (start stop : Nat) : Text := (t.between? start stop).getD []

/-- The text with the part between two offsets replaced. -/
def splice (t : Text) (start stop : Nat) (new : Text) : Text :=
  t.before start ++ new ++ t.after stop

/-- The text with `new` put in at an offset. -/
def insertAt (t : Text) (n : Nat) (new : Text) : Text := t.splice n n new

def byteAt? : Text → Nat → Option UInt8
  | [], _ => none
  | c :: rest, n =>
    if n < c.utf8Size then (String.utf8EncodeChar c)[n]? else byteAt? rest (n - c.utf8Size)

/-- The characters of a text, each with its byte offset, the first one standing at `n`. -/
def indexed (n : Nat) : Text → List (Nat × Char)
  | [] => []
  | c :: rest => (n, c) :: indexed (n + c.utf8Size) rest

theorem size_append (s t : Text) : size (s ++ t) = size s + size t := by
  induction s with
  | nil => simp [size]
  | cons c s ih => simp [size, ih, Nat.add_assoc]

theorem before?_append_after? {t : Text} {n : Nat} {p q : Text}
    (hp : t.before? n = some p) (hq : t.after? n = some q) : p ++ q = t := by
  fun_induction before? t n generalizing p q with
  | case1 => simp_all [after?]
  | case2 => simp at hp
  | case3 c rest n hc ih =>
    obtain ⟨r, hr, rfl⟩ := Option.map_eq_some_iff.1 hp
    rw [after?, if_pos hc] at hq
    simp [ih hr hq]
  | case4 => simp at hp

theorem size_of_before? {t : Text} {n : Nat} {p : Text} (h : t.before? n = some p) :
    size p = n := by
  fun_induction before? t n generalizing p with
  | case1 => simp_all [size]
  | case2 => simp at h
  | case3 c rest n hc ih =>
    obtain ⟨r, hr, rfl⟩ := Option.map_eq_some_iff.1 h
    have := ih hr
    simp only [size]
    omega
  | case4 => simp at h

theorem before?_isSome_eq (t : Text) (n : Nat) : (t.before? n).isSome = (t.after? n).isSome := by
  fun_induction before? t n with
  | case1 => simp [after?]
  | case2 => simp [after?]
  | case3 c rest n hc ih => simp [after?, if_pos hc, ih]
  | case4 c rest n hc => simp [after?, if_neg hc]

end Text

end ServiceGate
