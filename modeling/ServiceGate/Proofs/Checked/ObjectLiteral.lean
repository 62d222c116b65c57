/-
# Cuts in object literals

A literal is read between two brackets that match, at the commas that the scan names, so its pieces,
its keys and its entries lie at places of the text (`placed_of_readAt?`), and a new entry is put in
at one.

The scanner names places only, so what is to be shown is that the offsets computed from them are
places too: the end of a quoted key, which is decoded character by character
(`isBoundary_of_readKey?`), the pieces between the commas (`isBoundary_of_mem_pieces`) and the end
of the last value that counts (`isBoundary_of_behindValue?`).  A literal whose parts lie at places
is `Placed`, and that is what the repairs of a specification are given.
-/
import Mathlib.Data.List.TakeWhile
import ServiceGate.ObjectLiteral.Insert
import ServiceGate.Proofs.Checked.Basic
import ServiceGate.Proofs.Scan.Places

namespace ServiceGate

open Scan Text

variable {t piece key : Text} {n start stop close : Nat} {e : ObjectEntry} {o : ObjectLiteral}

/-! ## Keys -/

theorem exists_of_decodeRest? {quote : Char} {m : Nat}
    (h : Quoted.decodeRest? quote n t = some (key, m)) : ∃ u v, t = u ++ v ∧ m = n + size u := by
  fun_induction Quoted.decodeRest? quote n t generalizing key m with
  | case1 => cases h
  | case2 => cases h
  | case3 n c hc d rest ih =>
      obtain ⟨⟨k, m'⟩, hr, hm⟩ := Option.map_eq_some_iff.mp h
      obtain ⟨-, rfl⟩ := Prod.mk.inj hm
      obtain ⟨u, v, rfl, rfl⟩ := ih hr
      exact ⟨c :: d :: u, v, rfl, by simp only [size]; omega⟩
  | case4 n c rest hc hquote =>
      obtain ⟨-, rfl⟩ := Prod.mk.inj (Option.some.inj h)
      exact ⟨[c], rest, rfl, rfl⟩
  | case5 n c rest hc hquote ih =>
      obtain ⟨⟨k, m'⟩, hr, hm⟩ := Option.map_eq_some_iff.mp h
      obtain ⟨-, rfl⟩ := Prod.mk.inj hm
      obtain ⟨u, v, rfl, rfl⟩ := ih hr
      exact ⟨c :: u, v, rfl, by simp only [size]; omega⟩

theorem isBoundary_takeWhile (f : Char → Bool) (t : Text) :
    t.IsBoundary (size (t.takeWhile f)) := by
  have h := isBoundary_append (t.takeWhile f) (t.dropWhile f)
  rwa [List.takeWhile_append_dropWhile] at h

theorem before_takeWhile (f : Char → Bool) (t : Text) :
    t.before (size (t.takeWhile f)) = t.takeWhile f := by
  have h := before_append (t.takeWhile f) (t.dropWhile f)
  rwa [List.takeWhile_append_dropWhile] at h

theorem isBoundary_of_readKey? (h : ObjectEntry.readKey? piece = some (key, n)) :
    piece.IsBoundary n := by
  cases piece with
  | nil => cases h
  | cons c piece =>
      rw [ObjectEntry.readKey?] at h
      split_ifs at h
      · rw [Quoted.decode?] at h
        obtain ⟨u, v, rfl, rfl⟩ := exists_of_decodeRest? h
        exact isBoundary_append (c :: u) v
      · obtain ⟨-, rfl⟩ := Prod.mk.inj (Option.some.inj h)
        exact isBoundary_takeWhile _ _

/-! ## Pieces and entries -/

theorem of_firstSignificant? (h : ObjectEntry.firstSignificant? t start stop = some n) :
    t.IsBoundary n ∧ start ≤ n ∧ n < stop := by
  obtain ⟨m, hm, rfl⟩ := Option.map_eq_some_iff.mp h
  have hmem := List.mem_of_find?_eq_some hm
  have hmark : m ∈ marks t start := (List.takeWhile_prefix _).subset hmem
  obtain ⟨p, q, -, -, hle⟩ := exists_of_mem_marks hmark
  exact ⟨isBoundary_of_mem_marks hmark, hle, by simpa using List.mem_takeWhile_imp hmem⟩

/-- The ends of a piece are the ends of the whole or places at the commas. -/
theorem of_mem_pieces {a b : Nat} : ∀ {ms : List Mark} {depth : Int} {start : Nat},
    (a, b) ∈ ObjectLiteral.pieces close depth start ms →
      (a = start ∨ ∃ i, ⟨i, ',', .code⟩ ∈ ms ∧ a = i + 1) ∧ (b = close ∨ ⟨b, ',', .code⟩ ∈ ms)
  | [], depth, start, h => by
      obtain ⟨rfl, rfl⟩ := Prod.mk.inj (List.mem_singleton.mp h)
      exact ⟨.inl rfl, .inl rfl⟩
  | m :: ms, depth, start, h => by
      have hmore : ∀ {depth start}, (a, b) ∈ ObjectLiteral.pieces close depth start ms →
          (a = start ∨ ∃ i, ⟨i, ',', .code⟩ ∈ m :: ms ∧ a = i + 1) ∧
            (b = close ∨ ⟨b, ',', .code⟩ ∈ m :: ms) :=
        fun h => (of_mem_pieces h).imp
          (Or.imp_right fun ⟨i, hi, ha⟩ => ⟨i, List.mem_cons_of_mem m hi, ha⟩)
          (Or.imp_right fun hb => List.mem_cons_of_mem m hb)
      rw [ObjectLiteral.pieces] at h
      split_ifs at h with hclose hkind hopen hcloser hcomma
      · obtain ⟨rfl, rfl⟩ := Prod.mk.inj (List.mem_singleton.mp h)
        exact ⟨.inl rfl, .inl rfl⟩
      · exact hmore h
      · exact hmore h
      · exact hmore h
      · have hm : m = ⟨m.offset, ',', .code⟩ := by
          obtain ⟨i, c, k⟩ := m
          have hk : k = .code := by simpa using hkind
          have hc : c = ',' := beq_iff_eq.mp (Bool.and_eq_true _ _ ▸ hcomma).1
          rw [hk, hc]
        rcases List.mem_cons.mp h with h | h
        · obtain ⟨rfl, rfl⟩ := Prod.mk.inj h
          exact ⟨.inl rfl, .inr (hm ▸ List.mem_cons_self)⟩
        · obtain ⟨ha, hb⟩ := hmore h
          refine ⟨.inr ?_, hb⟩
          rcases ha with rfl | ha
          · exact ⟨m.offset, hm ▸ List.mem_cons_self, rfl⟩
          · exact ha
      · exact hmore h

/-- A literal whose braces and keys stand at places of the text. -/
structure Placed (t : Text) (o : ObjectLiteral) : Prop where
  openAt : t.IsBoundary o.openAt
  behind : t.IsBoundary (o.closeAt + 1)
  entries : ∀ e ∈ o.entries, Bounds t o.openAt e.keyAt

theorem isBoundary_of_mem_pieces {a b : Nat} (hclose : matchingClose? t n = some close)
    (h : (a, b) ∈ ObjectLiteral.pieces close 0 (n + 1) (marks t (n + 1))) :
    t.IsBoundary b ∧ n ≤ a := by
  obtain ⟨ha, hb⟩ := of_mem_pieces h
  constructor
  · rcases hb with rfl | hb
    · exact (bounds_of_matchingClose? hclose).1.stop
    · exact isBoundary_of_mem_marks hb
  · rcases ha with rfl | ⟨i, hi, rfl⟩
    · exact Nat.le_succ n
    · obtain ⟨-, -, -, -, hle⟩ := exists_of_mem_marks hi
      simp only at hle
      omega

theorem keyAt_of_read? (h : ObjectEntry.read? t start stop = some e) :
    ObjectEntry.firstSignificant? t start stop = some e.keyAt := by
  obtain ⟨keyAt, hkeyAt, h⟩ := Option.bind_eq_some_iff.mp h
  obtain ⟨⟨key, length⟩, -, h⟩ := Option.bind_eq_some_iff.mp h
  obtain ⟨⟨valueStart, valueStop⟩, -, h⟩ := Option.bind_eq_some_iff.mp h
  obtain rfl := Option.some.inj h
  exact hkeyAt

theorem placed_of_readAt? (h : ObjectLiteral.readAt? t n = some o) : Placed t o := by
  rw [ObjectLiteral.readAt?] at h
  split at h
  · obtain ⟨close, hclose, rfl⟩ := Option.map_eq_some_iff.mp h
    obtain ⟨-, hopen, hbehind⟩ := bounds_of_matchingClose? hclose
    refine ⟨hopen, hbehind, fun e he => ?_⟩
    obtain ⟨⟨a, b⟩, hmem, hread⟩ := List.mem_filterMap.mp he
    obtain ⟨hplace, hle, -⟩ := of_firstSignificant? (keyAt_of_read? hread)
    exact ⟨Nat.le_trans (isBoundary_of_mem_pieces hclose hmem).2 hle, hopen, hplace⟩
  · cases h

theorem isBoundary_of_behindValue? (h : ObjectLiteral.behindValue? t e = some n) :
    t.IsBoundary n := by
  obtain ⟨m, hm, rfl⟩ := Option.map_eq_some_iff.mp h
  have hmem := (List.mem_filter.mp (List.mem_of_getLast? hm)).1
  exact isBoundary_behind_mark ((List.takeWhile_prefix _).subset hmem)

namespace Checked

/-! ## Reading -/

/-- The key that a piece opens with, and how many bytes it takes up. -/
def readKey (piece : Text) : Except SpanFault (Option (Text × Nat)) :=
  match piece with
  | [] => return none
  | c :: _ =>
    if c == '\'' || c == '"' then return Quoted.decode? c piece
    else if CharClass.isName c then do
      let length := size (piece.takeWhile CharClass.isName)
      let key ← cutTo piece length
      return some (key, length)
    else return none

/-- Reads the piece between two offsets as an entry. -/
def readEntry (t : Text) (start stop : Nat) : Except SpanFault (Option ObjectEntry) :=
  match ObjectEntry.firstSignificant? t start stop with
  | none => return none
  | some keyAt => do
    match ← readKey (← cut t keyAt stop) with
    | none => return none
    | some (key, length) =>
      let behindKey := keyAt + length
      let rest ← cut t behindKey stop
      return (ObjectEntry.valueSpan? keyAt behindKey stop rest).map fun (valueStart, valueStop) =>
        ⟨key, keyAt, valueStart, valueStop⟩

/-- The literal whose opening brace stands at an offset. -/
def readLiteral (t : Text) (n : Nat) : Except SpanFault (Option ObjectLiteral) :=
  match t.after n with
  | '\x7b' :: _ =>
    match matchingClose? t n with
    | none => return none
    | some close => do
      let entries ← filterMap (fun (start, stop) => readEntry t start stop)
        (ObjectLiteral.pieces close 0 (n + 1) (marks t (n + 1)))
      return some ⟨n, close, entries⟩
  | _ => return none

theorem readKey_eq (piece : Text) : readKey piece = .ok (ObjectEntry.readKey? piece) := by
  cases piece with
  | nil => rfl
  | cons c piece =>
      have hcut : cutTo (c :: piece) (size ((c :: piece).takeWhile CharClass.isName)) =
          .ok ((c :: piece).takeWhile CharClass.isName) := by
        rw [cutTo_eq (isBoundary_takeWhile _ _), before_takeWhile]
      rw [readKey, ObjectEntry.readKey?]
      dsimp only
      rw [hcut]
      split_ifs <;> rfl

theorem readEntry_eq (hstop : t.IsBoundary stop) :
    readEntry t start stop = .ok (ObjectEntry.read? t start stop) := by
  rw [readEntry, ObjectEntry.read?]
  cases hkeyAt : ObjectEntry.firstSignificant? t start stop with
  | none => rfl
  | some keyAt =>
      obtain ⟨hplace, -, hlt⟩ := of_firstSignificant? hkeyAt
      have hpiece : Bounds t keyAt stop := ⟨Nat.le_of_lt hlt, hplace, hstop⟩
      simp only [cut_eq hpiece, ok_bind, readKey_eq, Option.bind_eq_bind, Option.bind_some]
      cases hkey : ObjectEntry.readKey? (t.between keyAt stop) with
      | none => rfl
      | some key =>
          obtain ⟨key, length⟩ := key
          have hinner := isBoundary_of_readKey? hkey
          have hrest : Bounds t (keyAt + length) stop := by
            refine ⟨?_, hpiece.inner hinner, hstop⟩
            rw [← size_between hpiece]
            exact Nat.add_le_add_left hinner.le_size keyAt
          simp only [cut_eq hrest, ok_bind, Option.bind_some]
          cases ObjectEntry.valueSpan? keyAt (keyAt + length) stop
            (t.between (keyAt + length) stop) <;>
            rfl

theorem readLiteral_eq (t : Text) (n : Nat) :
    readLiteral t n = .ok (ObjectLiteral.readAt? t n) := by
  by_cases hopen : ∃ rest, t.after n = '\x7b' :: rest
  · obtain ⟨rest, hafter⟩ := hopen
    rw [readLiteral, ObjectLiteral.readAt?, hafter]
    cases hclose : matchingClose? t n with
    | none => rfl
    | some close =>
        have hentries := filterMap_eq (f := fun (start, stop) => readEntry t start stop)
          (g := fun (start, stop) => ObjectEntry.read? t start stop)
          (l := ObjectLiteral.pieces close 0 (n + 1) (marks t (n + 1)))
          fun x hx => readEntry_eq (isBoundary_of_mem_pieces (a := x.1) hclose hx).1
        simp only [hentries]
        rfl
  · have hchecked : readLiteral t n = .ok none := by
      rw [readLiteral]
      split
      · next hafter => exact absurd ⟨_, hafter⟩ hopen
      · rfl
    have hread : ObjectLiteral.readAt? t n = none := by
      rw [ObjectLiteral.readAt?]
      split
      · next hafter => exact absurd ⟨_, hafter⟩ hopen
      · rfl
    rw [hchecked, hread]

/-- The object literal that the value of an entry is. -/
def readValue (e : ObjectEntry) (t : Text) : Except SpanFault (Option ObjectLiteral) :=
  readLiteral t e.valueStart

theorem readValue_eq (e : ObjectEntry) (t : Text) : readValue e t = .ok (e.object? t) :=
  readLiteral_eq t e.valueStart

/-! ## Adding an entry -/

/-- The blanks and tabs that the line of an offset starts with. -/
def lineIndent (t : Text) (n : Nat) : Except SpanFault Text := do
  let line ← cutFrom t (← lineStart t n)
  cutTo line (size (line.takeWhile isIndent))

/-- What stands between the last entry and a new one. -/
def separator (t : Text) (o : ObjectLiteral) (last : ObjectEntry) : Except SpanFault Text := do
  if (← cut t o.openAt last.keyAt).any (· == '\n') then
    return ",\n".toList ++ (← lineIndent t last.keyAt)
  else return ", ".toList

def replaceWith (t : Text) (o : ObjectLiteral) (entry : Text) : Except SpanFault Text :=
  splice t o.openAt (o.closeAt + 1) ("\x7b ".toList ++ entry ++ " \x7d".toList)

def insertEntry (t : Text) (o : ObjectLiteral) (entry : Text) : Except SpanFault Text :=
  match o.entries.getLast? with
  | none => replaceWith t o entry
  | some last =>
    match ObjectLiteral.behindValue? t last with
    | none => replaceWith t o entry
    | some n => do insertAt t n ((← separator t o last) ++ entry)

theorem lineIndent_eq (h : t.IsBoundary n) :
    lineIndent t n = .ok (ObjectLiteral.lineIndent t n) := by
  rw [lineIndent, lineStart_eq h, ok_bind, cutFrom_eq (bounds_lineStart h).start, ok_bind,
    cutTo_eq (isBoundary_takeWhile _ _), before_takeWhile]
  rfl

theorem insertEntry_eq (h : Placed t o) (entry : Text) :
    insertEntry t o entry = .ok (o.insertEntry t entry) := by
  have hreplace : replaceWith t o entry = .ok (ObjectLiteral.replaceWith t o entry) :=
    splice_eq h.openAt h.behind _
  rw [insertEntry, ObjectLiteral.insertEntry]
  cases hlast : o.entries.getLast? with
  | none => exact hreplace
  | some last =>
      simp only
      cases hn : ObjectLiteral.behindValue? t last with
      | none => exact hreplace
      | some n =>
          have hkey := h.entries last (List.mem_of_getLast? hlast)
          have hseparator : separator t o last = .ok (ObjectLiteral.separator t o last) := by
            rw [separator, ObjectLiteral.separator, cut_eq hkey, ok_bind, lineIndent_eq hkey.stop,
              ok_bind]
            split_ifs <;> rfl
          simp only [hseparator, ok_bind]
          exact insertAt_eq (isBoundary_of_behindValue? hn) _

end Checked

end ServiceGate
