/-
# Object literals, stretch by stretch

A literal that is read in the first part of a text is read in the whole text as well
(`readAt?_append_left`), and one in the second part is read the same wherever the part stands, its
places moved along (`readAt?_append_right`).

In front, the group of the literal is closed within the first part (`Settled`), so nothing that
follows changes which brace closes it, where the commas are or what the pieces say.  Behind, the
marks of the second part are those of a text of its own, all moved by the size of the first part.

What is read is compared field by field: `moved` moves the places of an entry and of a literal and
leaves the keys, so looking a key up commutes with it (`get?_moved`, `hasKey_moved`).
-/
import Mathlib.Data.List.TakeWhile
import ServiceGate.ObjectLiteral.Basic
import ServiceGate.Proofs.Scan.Places
import ServiceGate.Proofs.Scan.Stretches

namespace ServiceGate

open Scan

variable {p q t : Text} {n d start stop close depth : Nat} {opener closer : Char}
  {o : ObjectLiteral} {e : ObjectEntry}

namespace Scan

/-! ## Brackets that match -/

theorem closeIn_append_left (more : List (Nat × Char)) : ∀ {cs : List (Nat × Char)} {depth : Nat},
    closeIn opener closer depth cs = some n → closeIn opener closer depth (cs ++ more) = some n
  | [], _, h => by cases h
  | (k, c) :: cs, 0, h => by
      rw [List.cons_append, closeIn]
      rw [closeIn] at h
      split_ifs at h ⊢
      · exact closeIn_append_left more h
      · exact h
      · exact closeIn_append_left more h
  | (k, c) :: cs, depth + 1, h => by
      rw [List.cons_append, closeIn]
      rw [closeIn] at h
      split_ifs at h ⊢
      all_goals exact closeIn_append_left more h

theorem closeIn_map (d : Nat) : ∀ (cs : List (Nat × Char)) (depth : Nat),
    closeIn opener closer depth (cs.map fun x => (d + x.1, x.2)) =
      (closeIn opener closer depth cs).map (d + ·)
  | [], _ => rfl
  | (k, c) :: cs, 0 => by
      rw [List.map_cons, closeIn, closeIn, closeIn_map d cs 0, closeIn_map d cs 1]
      split_ifs <;> rfl
  | (k, c) :: cs, depth + 1 => by
      rw [List.map_cons, closeIn, closeIn, closeIn_map d cs (depth + 2), closeIn_map d cs depth,
        closeIn_map d cs (depth + 1)]
      split_ifs <;> rfl

theorem codeOf_shift (d : Nat) (ms : List Mark) :
    codeOf (ms.map (Mark.shift d)) = (codeOf ms).map fun x => (d + x.1, x.2) := by
  rw [codeOf, codeOf, List.filterMap_map, List.map_filterMap]
  refine List.filterMap_congr fun m _ => ?_
  by_cases hm : m.kind = .code
  · simp [Mark.shift, hm]
  · simp [Mark.shift, hm]

theorem after_append_left {c : Char} {w : Text} (h : p.after n = c :: w) (q : Text) :
    (p ++ q).after n = c :: (w ++ q) ∧ n + c.utf8Size ≤ Text.size p := by
  have hafter : p.after? n = some (c :: w) := by
    rw [Text.after] at h
    cases hu : p.after? n with
    | none => rw [hu] at h; cases h
    | some u => rw [hu, Option.getD_some] at h; rw [h]
  have hsize := Text.size_of_after? hafter
  rw [Text.size] at hsize
  refine ⟨?_, by omega⟩
  rw [Text.after, Text.after?_append_left p q (by omega), hafter]
  rfl

theorem head?_after_append_left (hn : n < Text.size p) (q : Text) :
    ((p ++ q).after n).head? = (p.after n).head? := by
  rw [Text.after, Text.after, Text.after?_append_left p q (Nat.le_of_lt hn)]
  cases hafter : p.after? n with
  | none => rfl
  | some u =>
      cases u with
      | cons c w => rfl
      | nil =>
          have hsize := Text.size_of_after? hafter
          rw [Text.size] at hsize
          omega

theorem after_append_right (p q : Text) (n : Nat) : (p ++ q).after
    (Text.size p + n) = q.after n := by
  rw [Text.after, Text.after?_append, Text.after]

theorem Settled.matchingClose?_append_left (hp : Settled p) (h : matchingClose? p n = some close)
    (q : Text) : matchingClose? (p ++ q) n = some close := by
  rw [matchingClose?] at h
  cases hafter : p.after n with
  | nil => rw [hafter] at h; cases h
  | cons opener w =>
      have hpos := opener.utf8Size_pos
      obtain ⟨hwhole, hle⟩ := after_append_left hafter q
      obtain ⟨ms, hms, -⟩ := hp.marks_append (show n + 1 ≤ Text.size p by omega) q
      have hcode : codeChars (p ++ q) (n + 1) = codeChars p (n + 1) ++ codeOf ms := by
        rw [codeChars, codeChars, hms, List.filterMap_append]
        rfl
      rw [hafter] at h
      rw [matchingClose?, hwhole]
      cases hcloser : closer? opener with
      | none => simp only [hcloser] at h; cases h
      | some closer =>
          simp only [hcloser] at h ⊢
          rw [hcode]
          exact closeIn_append_left _ h

theorem matchingClose?_append_right (p q : Text) (n : Nat) :
    matchingClose? (p ++ q) (Text.size p + n) = (matchingClose? q n).map (Text.size p + ·) := by
  have hcode : codeChars (p ++ q) (Text.size p + n + 1) =
      (codeChars q (n + 1)).map fun x => (Text.size p + x.1, x.2) := by
    rw [Nat.add_assoc, codeChars, marks_append_right]
    exact codeOf_shift _ _
  rw [matchingClose?, matchingClose?, after_append_right, hcode]
  cases q.after n with
  | nil => rfl
  | cons opener w =>
      dsimp only
      cases closer? opener with
      | none => rfl
      | some closer => exact closeIn_map _ _ _

end Scan

namespace ObjectLiteral

/-! ## Pieces -/

theorem le_of_mem_pieces {a b : Nat} : ∀ {ms : List Mark} {depth : Int} {start : Nat},
    start ≤ close → (a, b) ∈ pieces close depth start ms → a ≤ close ∧ b ≤ close
  | [], _, _, hle, h => by
      obtain ⟨rfl, rfl⟩ := Prod.mk.inj (List.mem_singleton.mp h)
      exact ⟨hle, Nat.le_refl _⟩
  | m :: ms, depth, start, hle, h => by
      rw [pieces] at h
      split_ifs at h with hend
      · obtain ⟨rfl, rfl⟩ := Prod.mk.inj (List.mem_singleton.mp h)
        exact ⟨hle, Nat.le_refl _⟩
      · exact le_of_mem_pieces hle h
      · exact le_of_mem_pieces hle h
      · exact le_of_mem_pieces hle h
      · rcases List.mem_cons.mp h with h | h
        · obtain ⟨rfl, rfl⟩ := Prod.mk.inj h
          exact ⟨hle, by omega⟩
        · exact le_of_mem_pieces (by omega) h
      · exact le_of_mem_pieces hle h

/-- Marks behind the closing brace do not count. -/
theorem pieces_append_left {more : List Mark} (hmore : ∀ m ∈ more.head?, close ≤ m.offset) :
    ∀ (ms : List Mark) (depth : Int) (start : Nat),
      pieces close depth start (ms ++ more) = pieces close depth start ms
  | [], depth, start => by
      cases more with
      | nil => rfl
      | cons m more =>
          rw [List.nil_append, pieces, pieces, if_pos (hmore m rfl)]
  | m :: ms, depth, start => by
      rw [List.cons_append, pieces, pieces]
      simp only [pieces_append_left hmore ms]

theorem pieces_shift (d : Nat) : ∀ (ms : List Mark) (depth : Int) (start : Nat),
    pieces (d + close) depth (d + start) (ms.map (Mark.shift d)) =
      (pieces close depth start ms).map fun x => (d + x.1, d + x.2)
  | [], _, _ => rfl
  | m :: ms, depth, start => by
      have hle : d + close ≤ d + m.offset ↔ close ≤ m.offset := by omega
      rw [List.map_cons, pieces, pieces]
      simp only [Mark.shift, hle, Nat.add_assoc]
      simp only [pieces_shift d ms]
      split_ifs <;> rfl

end ObjectLiteral

namespace ObjectEntry

/-! ## Entries -/

def moved (d : Nat) (e : ObjectEntry) : ObjectEntry :=
  ⟨e.key, d + e.keyAt, d + e.valueStart, d + e.valueStop⟩

theorem firstSignificant?_of_marks {ms : List Mark}
    (hms : marks (p ++ q) start = marks p start ++ ms) (hbehind : ∀ m ∈ ms, Text.size p ≤ m.offset)
    (hstop : stop ≤ Text.size p) :
    firstSignificant? (p ++ q) start stop = firstSignificant? p start stop := by
  have hnone : ms.takeWhile (fun m => m.offset < stop) = [] := by
    cases ms with
    | nil => rfl
    | cons m ms =>
        have hm := hbehind m List.mem_cons_self
        exact List.takeWhile_cons_of_neg (by simpa using Nat.le_trans hstop hm)
  have htake : (marks p start ++ ms).takeWhile (fun m => m.offset < stop) =
      (marks p start).takeWhile fun m => m.offset < stop := by
    rw [List.takeWhile_append, hnone, List.append_nil]
    split_ifs with hall
    · exact (List.takeWhile_eq_self_iff.mpr (List.takeWhile_eq_self_iff.mp
        ((List.takeWhile_prefix _).eq_of_length hall))).symm
    · rfl
  rw [firstSignificant?, firstSignificant?, hms, htake]

theorem firstSignificant?_append_left (hp : Settled p) (hstart : start ≤ Text.size p)
    (hstop : stop ≤ Text.size p) (q : Text) :
    firstSignificant? (p ++ q) start stop = firstSignificant? p start stop := by
  obtain ⟨ms, hms, hbehind⟩ := hp.marks_append hstart q
  exact firstSignificant?_of_marks hms hbehind hstop

theorem firstSignificant?_append_right (p q : Text) (start stop : Nat) :
    firstSignificant? (p ++ q) (Text.size p + start) (Text.size p + stop) =
      (firstSignificant? q start stop).map (Text.size p + ·) := by
  have hlt : ∀ m : Mark, decide ((m.shift (Text.size p)).offset < Text.size p + stop) =
      decide (m.offset < stop) := fun m => by simp [Mark.shift]
  rw [firstSignificant?, firstSignificant?, marks_append_right, List.takeWhile_map, List.find?_map]
  simp only [Function.comp_def, hlt, Option.map_map]
  rfl

theorem read?_append_left (hp : Settled p) (hstart : start ≤ Text.size p)
    (hstop : stop ≤ Text.size p) (q : Text) : read? (p ++ q) start stop = read? p start stop := by
  rw [read?, read?, firstSignificant?_append_left hp hstart hstop]
  simp only [Text.between_append_left hstop]

theorem valueSpan?_moved {keyAt behindKey : Nat} {rest : Text} (d : Nat)
    (h : Text.size rest ≤ stop) :
    valueSpan? (d + keyAt) (d + behindKey) (d + stop) rest =
      (valueSpan? keyAt behindKey stop rest).map fun x => (d + x.1, d + x.2) := by
  have htrim : ∀ {u : Text}, Text.size u.trimStart ≤ Text.size u := fun {u} => by
    have hsize :=
      congrArg Text.size (List.takeWhile_append_dropWhile (p := CharClass.isSpace) (l := u))
    rw [Text.size_append] at hsize
    rw [Text.trimStart]
    omega
  rw [valueSpan?, valueSpan?]
  split
  · rfl
  · next afterColon hrest =>
      have hsize : Text.size (Text.trimStart afterColon) ≤ stop := by
        have h₁ := @htrim rest
        have h₂ := @htrim afterColon
        rw [hrest, Text.size] at h₁
        omega
      simp only [Option.map_some, Option.some.injEq, Prod.mk.injEq]
      omega
  · simp only [Option.map_some, Nat.add_assoc]
  · rfl

theorem read?_append_right (p q : Text) (start stop : Nat) :
    read? (p ++ q) (Text.size p + start) (Text.size p + stop) =
      (read? q start stop).map (moved (Text.size p)) := by
  rw [read?, read?, firstSignificant?_append_right]
  cases firstSignificant? q start stop with
  | none => rfl
  | some keyAt =>
      simp only [Option.map_some, Option.bind_eq_bind, Option.bind_some, Text.between_append_right]
      cases readKey? (q.between keyAt stop) with
      | none => rfl
      | some key =>
          have hsize := Text.size_between_le q (keyAt + key.2) stop
          simp only [Option.bind_some, Nat.add_assoc, Text.between_append_right]
          rw [valueSpan?_moved (Text.size p) hsize]
          cases valueSpan? keyAt (keyAt + key.2) stop (q.between (keyAt + key.2) stop) with
          | none => rfl
          | some span => rfl

end ObjectEntry

namespace ObjectLiteral

/-! ## Literals -/

def moved (d : Nat) (o : ObjectLiteral) : ObjectLiteral :=
  ⟨d + o.openAt, d + o.closeAt, o.entries.map (·.moved d)⟩

theorem readAt?_of_head (h : (t.after n).head? ≠ some '\x7b') : readAt? t n = none := by
  rw [readAt?]
  split
  · next w hafter => exact absurd (by rw [hafter]; rfl) h
  · rfl

theorem isSome_readAt? (h : (t.after n).head? = some '\x7b') :
    (readAt? t n).isSome = (matchingClose? t n).isSome := by
  obtain ⟨w, hafter⟩ := List.head?_eq_some_iff.mp h
  rw [readAt?, hafter]
  exact Option.isSome_map

theorem readAt?_append_left (hp : Settled p) (h : readAt? p n = some o) (q : Text) :
    readAt? (p ++ q) n = some o := by
  rw [readAt?] at h
  split at h
  · next w hafter =>
      obtain ⟨close, hclose, ho⟩ := Option.map_eq_some_iff.mp h
      obtain ⟨hwhole, -⟩ := after_append_left hafter q
      obtain ⟨hinner, -, hplace⟩ := bounds_of_matchingClose? hclose
      have hle := hinner.le
      have hsize := hplace.le_size
      obtain ⟨ms, hms, hbehind⟩ := hp.marks_append (show n + 1 ≤ Text.size p by omega) q
      have hmore : ∀ m ∈ ms.head?, close ≤ m.offset := fun m hm => by
        have := hbehind m (List.mem_of_mem_head? hm)
        omega
      rw [readAt?, hwhole]
      simp only [hp.matchingClose?_append_left hclose q, Option.map_some, hms,
        pieces_append_left hmore]
      rw [← ho]
      congr 2
      refine List.filterMap_congr fun x hx => ?_
      obtain ⟨hstart, hstop⟩ := le_of_mem_pieces hle hx
      exact ObjectEntry.read?_append_left hp (by omega) (by omega) q
  · cases h

theorem readAt?_append_of_closes (hp : Settled p) (h : (matchingClose? p n).isSome) (q : Text) :
    readAt? (p ++ q) n = readAt? p n := by
  by_cases hhead : (p.after n).head? = some '\x7b'
  · obtain ⟨o, ho⟩ := Option.isSome_iff_exists.mp ((isSome_readAt? hhead).trans h)
    rw [ho, readAt?_append_left hp ho]
  · obtain ⟨close, hclose⟩ := Option.isSome_iff_exists.mp h
    obtain ⟨hinner, -, hplace⟩ := bounds_of_matchingClose? hclose
    have hle := hinner.le
    have hsize := hplace.le_size
    rw [readAt?_of_head hhead, readAt?_of_head]
    rwa [head?_after_append_left (by omega)]

theorem readAt?_append_right (p q : Text) (n : Nat) :
    readAt? (p ++ q) (Text.size p + n) = (readAt? q n).map (moved (Text.size p)) := by
  rw [readAt?, readAt?, after_append_right]
  split
  · rw [matchingClose?_append_right, Option.map_map, Option.map_map]
    congr 1
    funext close
    simp only [Function.comp_def, moved]
    congr 1
    rw [Nat.add_assoc, marks_append_right, pieces_shift, List.filterMap_map, List.map_filterMap]
    refine List.filterMap_congr fun x _ => ?_
    exact ObjectEntry.read?_append_right p q x.1 x.2
  · rfl

theorem get?_moved (d : Nat) (o : ObjectLiteral) (key : Text) :
    (o.moved d).get? key = (o.get? key).map (·.moved d) := by
  rw [get?, get?, moved, List.find?_map]
  rfl

theorem hasKey_moved (d : Nat) (o : ObjectLiteral) (key : Text) :
    (o.moved d).hasKey key = o.hasKey key := by
  rw [hasKey, hasKey, get?_moved, Option.isSome_map]

end ObjectLiteral

theorem ObjectEntry.object?_moved (p q : Text) (e : ObjectEntry) :
    (e.moved (Text.size p)).object? (p ++ q) = (e.object? q).map (·.moved (Text.size p)) :=
  ObjectLiteral.readAt?_append_right p q e.valueStart

end ServiceGate
