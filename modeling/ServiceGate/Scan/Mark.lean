/-
# The scanned text

`marks` lists every character with its byte offset and its kind; `chars_marks` says that it drops,
adds and reorders nothing.  `codeChars` keeps the code alone.
-/
import ServiceGate.Scan.State

namespace ServiceGate.Scan

/-- A character of the text as the scanner saw it. -/
structure Mark where
  offset : Nat
  char : Char
  kind : Kind
deriving DecidableEq, Repr

/-- The marks of a text that starts at byte offset `n`, scanned from state `s`. -/
def marksFrom (s : State) (n : Nat) : Text → List Mark
  | [] => []
  | [c] => [⟨n, c, (s.step c none).kind⟩]
  | c :: d :: rest =>
    let r := s.step c (some d)
    let m := n + c.utf8Size
    if r.takesNext then
      ⟨n, c, r.kind⟩ :: ⟨m, d, r.kind⟩ :: marksFrom r.state (m + d.utf8Size) rest
    else ⟨n, c, r.kind⟩ :: marksFrom r.state m (d :: rest)

/-- The marks of the part behind byte offset `n`, scanned afresh; none where no character
starts. -/
def marks (t : Text) (n : Nat) : List Mark := marksFrom .start n (t.after n)

def finalState (t : Text) : State := State.start.after t

/-- Offsets and characters of the code behind byte offset `n`, scanned afresh. -/
def codeChars (t : Text) (n : Nat) : List (Nat × Char) :=
  (marks t n).filterMap fun m => if m.kind = .code then some (m.offset, m.char) else none

theorem chars_marksFrom (s : State) (n : Nat) (t : Text) :
    (marksFrom s n t).map (fun m => (m.offset, m.char)) = t.indexed n := by
  fun_induction marksFrom s n t with
  | case1 => rfl
  | case2 => rfl
  | case3 s n c d rest r m h ih => simp [Text.indexed, ih, m]
  | case4 s n c d rest r m h ih => simp [Text.indexed, ih, m]

end ServiceGate.Scan
