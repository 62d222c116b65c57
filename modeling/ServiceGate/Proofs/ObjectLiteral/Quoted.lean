/-
# Quoted keys are read back

A text in single quotes is read in two ways, each by its own rule for backslashes.  `decode?` takes
the quotes and the backslashes off again and gives the text itself (`decode?_encode`); the scanner
takes all of it for one string and goes on in code behind it (`reads_encode`).  Both proofs go one
written character at a time: one with a backslash in front of it, or one that needs none.

`encode` writes its backslashes in one pass.  Two passes, the first for the backslashes and the
second for the quotes, write the same (`encode_eq_replaceEach`); the other way round the second pass
would meet the backslashes of the first.
-/
import ServiceGate.ObjectLiteral.Quoted
import ServiceGate.Proofs.Scan.WellNested

namespace ServiceGate.Quoted

open Scan

/-! ## Writing in two passes -/

def replaceEach (c : Char) (new t : Text) : Text := t.flatMap fun d => if d = c then new else [d]

theorem encode_eq_replaceEach (t : Text) :
    encode t = '\'' :: replaceEach '\'' "\\'".toList (replaceEach '\\' "\\\\".toList t) ++
    ['\''] := by
  have hchar : ∀ c, (if c = '\\' then "\\\\".toList else [c]).flatMap
      (fun d => if d = '\'' then "\\'".toList else [d]) = escape c := by
    intro c
    by_cases hb : c = '\\'
    · subst hb
      rfl
    · by_cases hq : c = '\''
      · subst hq
        rfl
      · simp [escape, hb, hq]
  rw [encode, replaceEach, replaceEach, List.flatMap_assoc, funext hchar]

/-! ## One written character -/

section Characters
variable {quote c : Char} {n : Nat}

theorem decodeRest?_of_ne (hc : ¬ (c == '\\') = true) (t : Text) :
    decodeRest? quote n (c :: t) = if c == quote then some ([], n + c.utf8Size)
      else (decodeRest? quote (n + c.utf8Size) t).map fun r => (c :: r.1, r.2) := by
  rw [decodeRest?.eq_def]
  simp only [if_neg hc]

theorem decodeRest?_escape (n : Nat) (c : Char) (t : Text) :
    decodeRest? '\'' n (escape c ++ t) =
      (decodeRest? '\'' (n + Text.size (escape c)) t).map fun r => (c :: r.1, r.2) := by
  rw [escape]
  split_ifs with hc
  · rw [List.cons_append, List.cons_append, decodeRest?, if_pos (beq_self_eq_true _),
      Nat.add_assoc]
    rfl
  · obtain ⟨hb, hq⟩ := not_or.mp (Bool.or_eq_true _ _ ▸ hc)
    rw [List.singleton_append, decodeRest?_of_ne hb, if_neg hq]
    rfl

theorem quotedBody_escape_append (c : Char) {t : Text} (h : QuotedBody '\'' t) :
    QuotedBody '\'' (escape c ++ t) := by
  rw [escape]
  split_ifs with hc
  · exact .escape h
  · obtain ⟨hb, hq⟩ : c ≠ '\\' ∧ c ≠ '\'' := by simpa using hc
    exact .char hq hb h

end Characters

/-! ## Whole texts -/

theorem decodeRest?_encode (n : Nat) (rest t : Text) :
    decodeRest? '\'' n (t.flatMap escape ++ '\'' :: rest) =
      some (t, n + Text.size (t.flatMap escape) + 1) := by
  induction t generalizing n with
  | nil => exact decodeRest?_of_ne (by decide) rest
  | cons c t ih =>
      rw [List.flatMap_cons, List.append_assoc, decodeRest?_escape, ih, Text.size_append,
        Option.map_some, Nat.add_assoc n]

/-- A text in quotes is read back, whatever quotes and backslashes it has. -/
theorem decode?_encode (t rest : Text) :
    decode? '\'' (encode t ++ rest) = some (t, Text.size (encode t)) := by
  have hsize : Text.size (encode t) = '\''.utf8Size + Text.size (t.flatMap escape) + 1 := by
    simp only [encode, List.cons_append, Text.size, Text.size_append]
    rfl
  have hshape : encode t ++ rest = '\'' :: (t.flatMap escape ++ '\'' :: rest) := by
    simp [encode]
  rw [hshape, decode?, decodeRest?_encode, hsize]

example : decode? '\'' (encode "/o'reilly".toList ++ ": 1".toList) = some
    ("/o'reilly".toList, 12) := by
  decide +kernel

theorem quotedBody_escape (t : Text) : QuotedBody '\'' (t.flatMap escape) := by
  induction t with
  | nil => exact .nil
  | cons c t ih => exact List.flatMap_cons ▸ quotedBody_escape_append c ih

/-- In code the scanner reads a text in quotes as one string, whatever follows. -/
theorem reads_encode (t rest : Text) (regions : List Nat) (last : Option Char) (n : Nat) :
    Reads rest ⟨.code, regions, last⟩ n (encode t)
    (literals n (encode t)) ⟨.code, regions, some '\''⟩ :=
  (quotedBody_escape t).reads_string (.inl rfl) rest regions last n

/-- What stands between two single quotes is written in two passes, the backslashes first.  It is
read back with the number of its bytes, and a scanner that comes to it in code takes all of it for a
string and goes on in code behind it, in the regions it was in. -/
theorem encode_read_back (t rest : Text) (regions : List Nat) (last : Option Char) (n : Nat) :
    encode t = '\'' :: replaceEach '\'' "\\'".toList (replaceEach '\\' "\\\\".toList t) ++ ['\''] ∧
      decode? '\'' (encode t ++ rest) = some (t, Text.size (encode t)) ∧
      marksFrom ⟨.code, regions, last⟩ n (encode t ++ rest) = literals n (encode t) ++
        marksFrom ⟨.code, regions, some '\''⟩ (n + Text.size (encode t)) rest ∧
      (State.mk .code regions last).after (encode t) = ⟨.code, regions, some '\''⟩ ∧
      (State.mk .code regions last).after (encode t ++ rest) =
        (State.mk .code regions (some '\'')).after rest := by
  have hreads := reads_encode t rest regions last n
  have hafter := (reads_encode t [] regions last n).after_eq
  rw [List.append_nil] at hafter
  exact ⟨encode_eq_replaceEach t, decode?_encode t rest, hreads.marksFrom_eq, hafter,
    hreads.after_eq⟩

end ServiceGate.Quoted
