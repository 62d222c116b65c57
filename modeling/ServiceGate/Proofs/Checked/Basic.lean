/-
# Checked cuts

The definitions of the gate cut texts at offsets that come from scans, from matches and from texts
that were edited since; where two offsets bound no part they give the empty text.  In the modules
below `Checked` every such cut is refused instead, with the offsets as a fault.  A checked function
cuts where its counterpart cuts; that it has the same value means that no cut is refused.

Here: cuts (`cut_eq`), functions over lists (`mapM_eq` and others), and the functions on texts that
cut.

A function is checked by writing it once more with every cut in `Except`, and the two are proved
equal where the offsets are known to bound a part of the text.  So each module states two things:
where the offsets of its functions come from, and that the checked function is the function.
-/
import Mathlib.Data.List.Induction
import ServiceGate.Proofs.Outcomes
import ServiceGate.Proofs.Text.Bounds
import ServiceGate.Rule.Basic
import ServiceGate.Text.Word

namespace ServiceGate.Checked

open Text (Bounds)

variable {α β : Type} {t word : Text} {n start stop : Nat}

theorem ok_bind {a : α} {f : α → Except SpanFault β} : (Except.ok a >>= f) = f a := rfl

/-! ## Cuts -/

def cut (t : Text) (start stop : Nat) : Except SpanFault Text :=
  match t.between? start stop with
  | some part => .ok part
  | none => .error ⟨start, stop⟩

def cutFrom (t : Text) (n : Nat) : Except SpanFault Text := cut t n t.size

def cutTo (t : Text) (n : Nat) : Except SpanFault Text := cut t 0 n

/-- The text with the part between two offsets replaced. -/
def splice (t : Text) (start stop : Nat) (new : Text) : Except SpanFault Text := do
  let front ← cutTo t start
  let back ← cutFrom t stop
  return front ++ new ++ back

def insertAt (t : Text) (n : Nat) (new : Text) : Except SpanFault Text := splice t n n new

theorem cut_eq (h : Bounds t start stop) : cut t start stop = .ok (t.between start stop) := by
  rw [cut, h.between?]

theorem cutFrom_eq (h : t.IsBoundary n) : cutFrom t n = .ok (t.after n) := by
  rw [cutFrom, cut_eq (Text.bounds_from h), Text.between_from h]

theorem cutTo_eq (h : t.IsBoundary n) : cutTo t n = .ok (t.before n) := by
  rw [cutTo, cut_eq (Text.bounds_to h), Text.between_to h]

theorem splice_eq (hstart : t.IsBoundary start) (hstop : t.IsBoundary stop) (new : Text) :
    splice t start stop new = .ok (t.splice start stop new) := by
  rw [splice, cutTo_eq hstart, cutFrom_eq hstop]
  rfl

theorem insertAt_eq (h : t.IsBoundary n) (new : Text) : insertAt t n new = .ok (t.insertAt n new) :=
  splice_eq h h new

/-! ## Lists -/

theorem mapM_eq {f : α → Except SpanFault β} {g : α → β} : ∀ {l : List α},
    (∀ a ∈ l, f a = .ok (g a)) → l.mapM f = .ok (l.map g)
  | [], _ => by rw [List.mapM_nil]; rfl
  | a :: l, h => by
      obtain ⟨ha, hl⟩ := List.forall_mem_cons.mp h
      rw [List.mapM_cons, ha, mapM_eq hl]
      rfl

def filter (f : α → Except SpanFault Bool) : List α → Except SpanFault (List α)
  | [] => return []
  | a :: l => do
    let keep ← f a
    let rest ← filter f l
    return if keep then a :: rest else rest

def filterMap (f : α → Except SpanFault (Option β)) (l : List α) : Except SpanFault (List β) :=
  (l.mapM f).map List.reduceOption

def flatMap (f : α → Except SpanFault (List β)) (l : List α) : Except SpanFault (List β) :=
  (l.mapM f).map List.flatten

def findSome (f : α → Except SpanFault (Option β)) : List α → Except SpanFault (Option β)
  | [] => return none
  | a :: l => do
    match ← f a with
    | some b => return some b
    | none => findSome f l

theorem filter_eq {f : α → Except SpanFault Bool} {g : α → Bool} : ∀ {l : List α},
    (∀ a ∈ l, f a = .ok (g a)) → filter f l = .ok (l.filter g)
  | [], _ => rfl
  | a :: l, h => by
      obtain ⟨ha, hl⟩ := List.forall_mem_cons.mp h
      rw [filter, ha, filter_eq hl, List.filter_cons]
      rfl

theorem filterMap_eq {f : α → Except SpanFault (Option β)} {g : α → Option β} {l : List α}
    (h : ∀ a ∈ l, f a = .ok (g a)) : filterMap f l = .ok (l.filterMap g) := by
  rw [filterMap, mapM_eq h]
  show Except.ok ((l.map g).filterMap id) = _
  rw [List.filterMap_map]
  rfl

theorem flatMap_eq {f : α → Except SpanFault (List β)} {g : α → List β} {l : List α}
    (h : ∀ a ∈ l, f a = .ok (g a)) : flatMap f l = .ok (l.flatMap g) := by
  rw [flatMap, mapM_eq h, List.flatMap_def]
  rfl

theorem findSome_eq {f : α → Except SpanFault (Option β)} {g : α → Option β} : ∀ {l : List α},
    (∀ a ∈ l, f a = .ok (g a)) → findSome f l = .ok (l.findSome? g)
  | [], _ => rfl
  | a :: l, h => by
      obtain ⟨ha, hl⟩ := List.forall_mem_cons.mp h
      rw [findSome, ha, List.findSome?_cons]
      cases g a with
      | some b => rfl
      | none => exact findSome_eq hl

/-! ## Lines and positions -/

/-- The byte offset at which the line of offset `n` starts. -/
def lineStart (t : Text) (n : Nat) : Except SpanFault Nat := do
  let front ← cutTo t n
  match front.lastWhere? (· == '\n') with
  | some i => return i + 1
  | none => return 0

theorem lineStart_eq (h : t.IsBoundary n) : lineStart t n = .ok (t.lineStart n) := by
  rw [lineStart, cutTo_eq h, ok_bind, Text.lineStart]
  cases (t.before n).lastWhere? (· == '\n') <;> rfl

def placeBefore (t : Text) : Nat → Nat
  | 0 => 0
  | n + 1 => if t.IsBoundary (n + 1) then n + 1 else placeBefore t n

/-- The position of a byte offset, counted in the part in front of it. -/
def position (t : Text) (n : Nat) : Except SpanFault Position := do
  let front ← cutTo t (placeBefore t (min n t.size))
  let line ← cutFrom front (front.lineStart front.size)
  return ⟨front.count '\n' + 1, line.length + 1⟩

theorem placeBefore_spec (t : Text) : ∀ n : Nat, t.IsBoundary (placeBefore t n) ∧
    placeBefore t n ≤ n ∧ ∀ m, t.IsBoundary m → m ≤ n → m ≤ placeBefore t n
  | 0 => ⟨Text.isBoundary_zero t, Nat.le_refl 0, fun _ _ h => h⟩
  | n + 1 => by
      rw [placeBefore]
      split_ifs with hn
      · exact ⟨hn, Nat.le_refl _, fun _ _ h => h⟩
      · obtain ⟨hplace, hle, hlast⟩ := placeBefore_spec t n
        refine ⟨hplace, Nat.le_succ_of_le hle, fun m hm hmn => hlast m hm ?_⟩
        have hne : m ≠ n + 1 := fun h => hn (h ▸ hm)
        omega

theorem walk_append (pos : Position) (q : Text) : ∀ {p : Text} {n : Nat}, p.size ≤ n →
    pos.walk (p ++ q) n = (p.foldl Position.advance pos).walk q (n - p.size)
  | [], n, _ => rfl
  | c :: p, n, h => by
      rw [Text.size] at h
      rw [List.cons_append, Position.walk, if_pos (by omega), walk_append _ q (by omega),
        List.foldl_cons, Text.size, Nat.sub_add_eq]

def lastLine (t : Text) : Text := t.after (t.lineStart t.size)

theorem lineStart_size_concat (t : Text) (c : Char) :
    (t ++ [c]).lineStart (t ++ [c]).size = if c = '\n' then (t ++ [c]).size else t.lineStart
    t.size := by
  have hbefore : ∀ u : Text, u.before u.size = u := fun u => by
    have h := Text.before_append u []
    rwa [List.append_nil] at h
  have hlast : (t ++ [c]).lastWhere? (· == '\n') =
      if c = '\n' then some t.size else t.lastWhere? (· == '\n') := by
    rw [Text.lastWhere?, Text.indexed_append, List.reverse_append, Nat.zero_add]
    simp only [Text.indexed, List.reverse_cons, List.reverse_nil, List.nil_append,
      List.singleton_append, List.find?_cons]
    split_ifs with hc
    · rw [beq_iff_eq.mpr hc]
      rfl
    · rw [beq_eq_false_iff_ne.mpr hc]
      rfl
  rw [Text.lineStart, Text.lineStart, hbefore, hbefore, hlast]
  split_ifs with hc
  · subst hc
    rw [Text.size_append]
    rfl
  · rfl

theorem lastLine_concat (t : Text) (c : Char) :
    lastLine (t ++ [c]) = if c = '\n' then [] else lastLine t ++ [c] := by
  rw [lastLine, lineStart_size_concat]
  split_ifs with hc
  · have h := Text.after_append (t ++ [c]) []
    rwa [List.append_nil] at h
  · obtain ⟨u, v, ht, hu⟩ := Text.isBoundary_iff.mp
      (Text.bounds_lineStart (Text.isBoundary_size t)).start
    rw [lastLine, hu, ht, List.append_assoc, Text.after_append, Text.after_append]

theorem foldl_advance (t : Text) :
    t.foldl Position.advance ⟨1, 1⟩ = ⟨t.count '\n' + 1, (lastLine t).length + 1⟩ := by
  induction t using List.reverseRecOn with
  | nil => rfl
  | append_singleton t c ih =>
      rw [List.foldl_concat, ih, lastLine_concat, Position.advance, List.count_append]
      by_cases hc : c = '\n'
      · subst hc
        simp
      · rw [if_neg (by simpa using hc), if_neg hc]
        simp [hc]

theorem position_eq (t : Text) (n : Nat) : position t n = .ok (t.position n) := by
  obtain ⟨hplace, hle, hlast⟩ := placeBefore_spec t (min n t.size)
  obtain ⟨p, q, ht, hp⟩ := Text.isBoundary_iff.mp hplace
  have hstop : ∀ pos : Position, pos.walk q (n - p.size) = pos := by
    intro pos
    cases q with
    | nil => rfl
    | cons c q =>
        have hnext : t.IsBoundary (p ++ [c]).size := by
          rw [ht, show p ++ c :: q = (p ++ [c]) ++ q by simp]
          exact Text.isBoundary_append _ q
        have hsize : (p ++ [c]).size = p.size + c.utf8Size := by
          rw [Text.size_append]
          rfl
        have hc := c.utf8Size_pos
        rw [Position.walk, if_neg]
        intro hfits
        have := hlast _ hnext (Nat.le_min.mpr ⟨by omega, hnext.le_size⟩)
        omega
  have hwalk : t.position n = p.foldl Position.advance ⟨1, 1⟩ := by
    rw [Text.position, ht, walk_append _ q (by omega), hstop]
  have hfront : t.before (placeBefore t (min n t.size)) = p := by
    rw [hp]
    nth_rewrite 1 [ht]
    exact Text.before_append p q
  rw [position, cutTo_eq hplace, ok_bind, hfront,
    cutFrom_eq (Text.bounds_lineStart (Text.isBoundary_size p)).start, hwalk, foldl_advance]
  rfl

/-! ## Whole words -/

/-- Where a word occurs in a text that starts at offset `n`, the last occurrence still covering a
number of characters. -/
def occurrences (word : Text) (covered n : Nat) : Text → List Nat
  | [] => []
  | c :: rest =>
    match covered with
    | k + 1 => occurrences word k (n + c.utf8Size) rest
    | 0 =>
      if word.isPrefixOf (c :: rest) then
        n :: occurrences word (word.length - 1) (n + c.utf8Size) rest
      else occurrences word 0 (n + c.utf8Size) rest

/-- Whether the occurrence of a word at an offset is whole. -/
def isWhole (t word : Text) (n : Nat) : Except SpanFault Bool := do
  let front ← cutTo t n
  let back ← cutFrom t (n + word.size)
  return Text.endsWord front.getLast? && Text.endsWord back.head?

def countWord (t word : Text) : Except SpanFault Nat :=
  if word.isEmpty then return 0
  else (filter (isWhole t word) (occurrences word 0 0 t)).map List.length

/-- Counting in what is left of a text counts the whole ones among the occurrences there. -/
theorem exists_filter_isWhole (word : Text) : ∀ (rest front : Text) (covered : Nat),
    ∃ whole, filter (isWhole (front ++ rest) word) (occurrences word covered front.size rest) =
    .ok whole ∧
      whole.length = Text.countWordFrom word front.getLast? covered rest
  | [], front, covered => ⟨[], rfl, rfl⟩
  | c :: rest, front, covered => by
      have hnext : front ++ c :: rest = (front ++ [c]) ++ rest := by simp
      have hsize : front.size + c.utf8Size = (front ++ [c]).size := by
        rw [Text.size_append]
        rfl
      have hbehind : some c = (front ++ [c]).getLast? := by simp
      cases covered with
      | succ covered =>
          rw [occurrences, Text.countWordFrom, hnext, hsize, hbehind]
          exact exists_filter_isWhole word rest _ _
      | zero =>
          rw [occurrences, Text.countWordFrom]
          split_ifs with hword
          · obtain ⟨back, hback⟩ := List.isPrefixOf_iff_prefix.mp hword
            have hcut : front ++ c :: rest = (front ++ word) ++ back := by
              rw [← hback, List.append_assoc]
            have hstop : (front ++ c :: rest).IsBoundary (front.size + word.size) := by
              rw [hcut, ← Text.size_append]
              exact Text.isBoundary_append _ _
            have hwhole : isWhole (front ++ c :: rest) word front.size =
                .ok (Text.endsWord front.getLast? &&
                  Text.endsWord ((c :: rest).drop word.length).head?) := by
              rw [isWhole, cutTo_eq (Text.isBoundary_append _ _), cutFrom_eq hstop,
                Text.before_append, hcut, ← Text.size_append, Text.after_append, ← hback,
                List.drop_left]
              rfl
            obtain ⟨whole, hfilter, hlength⟩ := exists_filter_isWhole word rest
              (front ++ [c]) (word.length - 1)
            rw [← hnext, ← hsize] at hfilter
            rw [filter, hwhole, ok_bind, hfilter, ok_bind, hbehind, ← hlength]
            refine ⟨_, rfl, ?_⟩
            dsimp only
            cases Text.endsWord front.getLast? &&
              Text.endsWord ((c :: rest).drop word.length).head? with
            | true => exact Nat.add_comm _ _
            | false => exact (Nat.zero_add _).symm
          · rw [hnext, hsize, hbehind]
            exact exists_filter_isWhole word rest _ _

theorem countWord_eq (t word : Text) : countWord t word = .ok (t.countWord word) := by
  rw [countWord, Text.countWord]
  split_ifs
  · rfl
  · obtain ⟨whole, hfilter, hlength⟩ := exists_filter_isWhole word t [] 0
    have hall : filter (isWhole t word) (occurrences word 0 0 t) = .ok whole := hfilter
    rw [hall, show Text.countWordFrom word none 0 t = whole.length from hlength.symm]
    rfl

end ServiceGate.Checked
