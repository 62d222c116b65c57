/-
# Searching the text without its comments

Two texts that differ in their comments alone are searched mark by mark.  What is found in one of
them is found in the other if it holds no comment, and a match that is all comment is found in the
first text alone.  Where there are matches of no other kind (`Spared`), those in the text without
comments are those of the text that hold none (`all_uncomment`).

The two searches run over the same marks, but they do not stand at the same place all the time: a
match that starts in a comment takes the one search along, while the other goes on mark by mark.
`InStep` says where each of them stands, what it has passed and what stands behind it, and `Agree`
that what they find from there on is the same but for what lies in comments.  A mark of a comment
and a mark of anything else each keep the two in step (`agree_comment`, `agree_code`), and the
induction on the marks puts these together (`agree`).
-/
import ServiceGate.Proofs.Pattern.Stretches
import ServiceGate.Proofs.Scan.Uncommented

namespace ServiceGate

open Scan

variable {t : Text} {m : Match}

/-- The marks of the text that a match reaches over, be it in part, all satisfy `f`. -/
def Match.Over (t : Text) (m : Match) (f : Kind → Prop) : Prop :=
  ∀ x ∈ marks t 0, x.offset < m.stop → m.start < x.offset + x.char.utf8Size → f x.kind

/-- A match without a comment. -/
def Match.Clear (t : Text) (m : Match) : Prop := m.Over t (· ≠ .comment)

/-- A match that is all comment. -/
def Match.Covered (t : Text) (m : Match) : Prop := m.Over t (· = .comment)

instance (t : Text) (m : Match) : Decidable (m.Clear t) :=
  inferInstanceAs (Decidable (∀ x ∈ marks t 0, _ → _ → x.kind ≠ .comment))

instance (t : Text) (m : Match) : Decidable (m.Covered t) :=
  inferInstanceAs (Decidable (∀ x ∈ marks t 0, _ → _ → x.kind = .comment))

/-- No match, with the comments or without them, is comment in part. -/
structure Pattern.Spared (p : Pattern) (t : Text) : Prop where
  text : ∀ m ∈ p.all t, m.Clear t ∨ m.Covered t
  left : ∀ m ∈ p.all (uncomment t), m.Clear t

instance (p : Pattern) (t : Text) : Decidable (p.Spared t) :=
  decidable_of_iff ((∀ m ∈ p.all t, m.Clear t ∨ m.Covered t) ∧ ∀ m ∈ p.all (uncomment t), m.Clear t)
    ⟨fun h => ⟨h.1, h.2⟩, fun h => ⟨h.text, h.left⟩⟩

/-- No code stands in a match that is all comment. -/
theorem Match.Covered.isCodeAt {n : Nat} (h : m.Covered t) (hn : t.IsBoundary n)
    (hstart : m.start ≤ n) (hstop : n < m.stop) : (Source.of t).isCodeAt n = false := by
  by_contra hcode
  have hcode : Scan.isCodeAt t (blank t) n = true := (Bool.not_eq_false _).mp hcode
  obtain ⟨p, q, rfl, rfl⟩ := Text.isBoundary_iff.mp hn
  cases q with
  | nil =>
      have hnone : ∀ w : Text, Text.byteAt? w (Text.size w) = none := fun w => by
        have h := Text.byteAt?_append w [] 0
        rwa [List.append_nil, Nat.add_zero] at h
      rw [List.append_nil, Scan.isCodeAt, hnone] at hcode
      cases hcode
  | cons c q =>
      obtain ⟨ms, ms', hmarks, -⟩ := exists_code_mark hcode
      have hmem : ⟨Text.size p, c, .code⟩ ∈ marks (p ++ c :: q) 0 := by
        rw [hmarks]
        exact List.mem_append_right _ List.mem_cons_self
      have hpos := c.utf8Size_pos
      cases h _ hmem hstop (by simp only; omega)

namespace Scan

variable {done ms : List Mark} {x : Mark}

theorem offset_of_marks (h : marks t 0 = done ++ x :: ms) :
    x.offset = Text.size (done.map (·.char)) := by
  have hchars : (marks t 0).map (·.char) = t := by
    rw [marks, map_char_marksFrom, Text.after, Text.after?_zero]
    rfl
  have hall : (marks t 0).map (fun m => (m.offset, m.char)) = Text.indexed 0 t := by
    rw [marks, chars_marksFrom, Text.after, Text.after?_zero]
    rfl
  have hsplit : t = done.map (·.char) ++ (x :: ms).map (·.char) := by
    rw [← List.map_append, ← h, hchars]
  rw [hsplit, Text.indexed_append, ← hsplit, h, List.map_append, Nat.zero_add] at hall
  obtain ⟨-, hx⟩ := List.append_inj hall (by
    rw [List.length_map, ← List.length_map (fun x : Nat × Char => x.2), map_snd_indexed,
      List.length_map])
  exact (Prod.mk.inj (List.cons.inj hx).1).1

theorem exists_clear_part : ∀ ms : List Mark, ∃ ms₁ ms₂, ms = ms₁ ++ ms₂ ∧
    ms₁.flatMap Mark.uncomment = ms₁.map (·.char) ∧ ∀ y ∈ ms₂.head?, y.kind = .comment
  | [] => ⟨[], [], rfl, rfl, fun _ h => by cases h⟩
  | x :: ms => by
      by_cases hk : x.kind = .comment
      · exact ⟨[], x :: ms, rfl, rfl, fun y hy => Option.some.inj hy ▸ hk⟩
      · obtain ⟨ms₁, ms₂, rfl, hleft, hhead⟩ := exists_clear_part ms
        refine ⟨x :: ms₁, ms₂, rfl, ?_, hhead⟩
        rw [List.flatMap_cons, Mark.uncomment_of_ne hk, hleft]
        rfl

end Scan

namespace Pattern

variable {p : Pattern} {rounds rounds' free free' n : Nat} {behind behind' : Option Char}
  {x : Mark} {done ms ms₁ ms₂ : List Mark}

/-! ## One place -/

theorem of_matchAt? {front rest : Text} (ht : p.takes = true)
    (h : p.matchAt? rounds ⟨behind, Text.size front, rest⟩ = some m) :
    m.start = Text.size front ∧ m.start < m.stop := by
  obtain ⟨hin, hstart⟩ := in_of_matchAt? h
  exact ⟨hstart, start_lt_stop hin ht⟩

/-- A match without a comment ends in front of the first comment behind its start. -/
theorem stop_le_of_clear (hmarks : marks t 0 = done ++ (ms₁ ++ ms₂))
    (hhead : ∀ y ∈ ms₂.head?, y.kind = .comment) (hstart : m.start = Text.size (done.map (·.char)))
    (hstop : m.stop ≤ m.start + Text.size ((ms₁ ++ ms₂).map (·.char))) (h : m.Clear t) :
    m.stop ≤ m.start + Text.size (ms₁.map (·.char)) := by
  cases ms₂ with
  | nil => rwa [List.append_nil] at hstop
  | cons y ms₂ =>
      have hoffset := @offset_of_marks _ (done ++ ms₁) _ _ (by rw [hmarks, List.append_assoc])
      rw [List.map_append, Text.size_append, ← hstart] at hoffset
      by_contra hlt
      refine h y (by rw [hmarks]; simp) (by omega) ?_ (hhead y rfl)
      have := y.char.utf8Size_pos
      omega

/-- In front of a mark that is no comment both texts have the same match. -/
theorem matchAt?_uncomment (hp : p.leading = true) (ht : p.takes = true)
    (hmarks : marks t 0 = done ++ x :: ms) (hk : x.kind ≠ .comment)
    (hn : n = Text.size (done.map (·.char))) (hbehind : LikeBehind behind behind')
    (hrounds : ((x :: ms).map (·.char)).length ≤ rounds)
    (hrounds' : ((x :: ms).flatMap Mark.uncomment).length ≤ rounds')
    (hin : ∀ m, p.matchAt? rounds ⟨behind, n, (x :: ms).map (·.char)⟩ = some m →
      m.Clear t ∨ m.Covered t)
    (hin' : ∀ m, p.matchAt? rounds' ⟨behind', n, (x :: ms).flatMap Mark.uncomment⟩ = some m →
      m.Clear t) :
    p.matchAt? rounds' ⟨behind', n, (x :: ms).flatMap Mark.uncomment⟩ =
        p.matchAt? rounds ⟨behind, n, (x :: ms).map (·.char)⟩ ∧
      ∀ m, p.matchAt? rounds ⟨behind, n, (x :: ms).map (·.char)⟩ = some m → m.Clear t := by
  have hclear : ∀ m, p.matchAt? rounds ⟨behind, n, (x :: ms).map (·.char)⟩ = some m →
      m.Clear t := by
    intro m hm
    refine (hin m hm).resolve_right fun hcovered => hk ?_
    rw [hn] at hm
    obtain ⟨hstart, hstop⟩ := of_matchAt? ht hm
    have hoffset := offset_of_marks hmarks
    have := x.char.utf8Size_pos
    exact hcovered x (by rw [hmarks]; simp) (by omega) (by omega)
  refine ⟨?_, hclear⟩
  have hhead : ((x :: ms).map (·.char)).head? = ((x :: ms).flatMap Mark.uncomment).head? := by
    rw [List.flatMap_cons, Mark.uncomment_of_ne hk]
    rfl
  obtain ⟨ms₁, ms₂, hms, hleft, hcomment⟩ := exists_clear_part (x :: ms)
  rw [hms] at hmarks hin hin' hclear hrounds hrounds' hhead ⊢
  rw [List.map_append, List.length_append] at hrounds
  rw [List.flatMap_append, List.length_append, hleft] at hrounds'
  -- neither match reaches over the first comment
  have hlike := @matchAt?_like (ms₁.map (·.char)) _ _ _ _ _ ⟨behind, n, (ms₁ ++ ms₂).map (·.char)⟩
    ⟨behind', n, (ms₁ ++ ms₂).flatMap Mark.uncomment⟩ hp
    List.map_append (by rw [← hleft]; exact List.flatMap_append) hbehind hhead
    (Nat.le_of_add_right_le hrounds) (Nat.le_of_add_right_le hrounds')
    (fun m hm => by
      obtain ⟨hstart, hstop⟩ := stop_of_matchAt? hm
      rw [← hstart] at hstop ⊢
      exact stop_le_of_clear hmarks hcomment (hstart.trans hn) hstop (hclear m hm))
    (fun m hm => by
      obtain ⟨hstart, hstop⟩ := stop_of_matchAt? hm
      rw [size_flatMap_uncomment, ← hstart] at hstop
      rw [← hstart]
      exact stop_le_of_clear hmarks hcomment (hstart.trans hn) hstop (hin' m hm))
  generalize p.matchAt? rounds ⟨behind, n, (ms₁ ++ ms₂).map (·.char)⟩ = y at hlike ⊢
  generalize p.matchAt? rounds' ⟨behind', n, (ms₁ ++ ms₂).flatMap Mark.uncomment⟩ = y' at hlike ⊢
  cases hlike with
  | none => rfl
  | some h => rw [h.eq]

/-- A stretch in which no match starts is passed over. -/
theorem allFrom_pass (rest : Text) : ∀ (w : Text) {behind : Option Char} {n : Nat},
    (∀ m ∈ p.allFrom rounds free behind n (w ++ rest), n + Text.size w ≤ m.start) →
      p.allFrom rounds free behind n (w ++ rest) =
        p.allFrom rounds free (lastOr behind w) (n + Text.size w) rest
  | [], _, _, _ => rfl
  | c :: w, behind, n, h => by
      have hnone : (if free ≤ n then p.matchAt? rounds ⟨behind, n, c :: (w ++ rest)⟩ else none) =
          none := by
        cases hm : if free ≤ n then p.matchAt? rounds ⟨behind, n, c :: (w ++ rest)⟩ else none with
        | none => rfl
        | some m =>
            have hstart := h m (by
              rw [List.cons_append, allFrom, hm]
              exact List.mem_cons_self)
            split_ifs at hm
            have hpos := c.utf8Size_pos
            rw [(stop_of_matchAt? hm).1, Text.size] at hstart
            omega
      rw [List.cons_append, allFrom, hnone] at h ⊢
      simp only at h ⊢
      rw [lastOr_cons, Text.size, ← Nat.add_assoc]
      refine allFrom_pass rest w fun m hm => ?_
      have hstart := h m hm
      rwa [Text.size, ← Nat.add_assoc] at hstart

/-! ## One mark after the other -/

theorem likeBehind_of_endsComment {y : Mark} (hk : x.kind = .comment) (h : EndsComment x y)
    (hy : y.kind ≠ .comment) (behind' : Option Char) :
    LikeBehind (some x.char) (lastOr behind' x.uncomment) := by
  obtain ⟨o, c, k⟩ := x
  simp only at hk
  subst hk
  rcases h rfl hy with hc | hc <;> simp only at hc <;> subst hc
  · have hslash : LikeBehind (some '/') (some ' ') := ⟨by decide, by decide⟩
    exact hslash
  · exact LikeBehind.refl _

theorem behind_of_clear (hmarks : marks t 0 = done ++ x :: ms) (hk : x.kind = .comment)
    (hn : n = Text.size (done.map (·.char))) (hstart : n ≤ m.start) (hstop : m.start < m.stop)
    (h : m.Clear t) : n + x.char.utf8Size ≤ m.start := by
  by_contra hlt
  have hoffset := offset_of_marks hmarks
  exact h x (by rw [hmarks]; simp) (by omega) (by omega) hk

/-- Both searches stand in front of the same marks, and at a mark that is no comment either both may
start a match or none of them. -/
structure InStep (t : Text) (rounds rounds' : Nat) (done ms : List Mark)
    (behind behind' : Option Char) (free free' n : Nat) : Prop where
  marks : Scan.marks t 0 = done ++ ms
  place : n = Text.size (done.map (·.char))
  chain : ms.IsChain EndsComment
  enough : (ms.map (·.char)).length ≤ rounds
  enough' : (ms.flatMap Mark.uncomment).length ≤ rounds'
  behind : ∀ x ∈ ms.head?, x.kind ≠ .comment → LikeBehind behind behind'
  free : ∀ x ∈ ms, (free ≤ x.offset → free' ≤ x.offset) ∧
    (free' ≤ x.offset → free ≤ x.offset ∨ x.kind = .comment)

/-- If no match is comment in part, what is found without the comments are the matches that hold
none. -/
def Agree (p : Pattern) (t : Text) (rounds rounds' : Nat) (ms : List Mark)
    (behind behind' : Option Char) (free free' n : Nat) : Prop :=
  (∀ m ∈ p.allFrom rounds free behind n (ms.map (·.char)), m.Clear t ∨ m.Covered t) →
    (∀ m ∈ p.allFrom rounds' free' behind' n (ms.flatMap Mark.uncomment), m.Clear t) →
      p.allFrom rounds' free' behind' n (ms.flatMap Mark.uncomment) =
        (p.allFrom rounds free behind n (ms.map (·.char))).filter fun m => m.Clear t

namespace InStep

theorem offset_eq (h : InStep t rounds rounds' done (x :: ms) behind behind' free free' n) :
    x.offset = n :=
  (offset_of_marks h.marks).trans h.place.symm

theorem marks_cons (h : InStep t rounds rounds' done (x :: ms) behind behind' free free' n) :
    Scan.marks t 0 = (done ++ [x]) ++ ms := by
  rw [h.marks, List.append_assoc, List.singleton_append]

theorem place_cons (h : InStep t rounds rounds' done (x :: ms) behind behind' free free' n) :
    n + x.char.utf8Size = Text.size ((done ++ [x]).map (·.char)) := by
  rw [List.map_append, Text.size_append, ← h.place]
  rfl

theorem lt_offset (h : InStep t rounds rounds' done (x :: ms) behind behind' free free' n)
    {y : Mark} (hy : y ∈ ms) : n < y.offset := by
  have hpos := x.char.utf8Size_pos
  obtain ⟨us, vs, rfl⟩ := List.append_of_mem hy
  have hoffset := @offset_of_marks t (done ++ [x] ++ us) vs y (by rw [h.marks_cons]; simp)
  rw [List.map_append, Text.size_append, ← h.place_cons] at hoffset
  omega

/-- Behind the first mark both searches are in step if they are in what they look at. -/
theorem next {c c' : Option Char} {start start' : Nat}
    (h : InStep t rounds rounds' done (x :: ms) behind behind' free free' n)
    (hbehind : ∀ y ∈ ms.head?, y.kind ≠ .comment → LikeBehind c c')
    (hfree : ∀ y ∈ ms, (start ≤ y.offset → start' ≤ y.offset) ∧
      (start' ≤ y.offset → start ≤ y.offset ∨ y.kind = .comment)) :
    InStep t rounds rounds' (done ++ [x]) ms c c' start start' (n + x.char.utf8Size) where
  marks := h.marks_cons
  place := h.place_cons
  chain := (List.isChain_cons.mp h.chain).2
  enough := Nat.le_of_succ_le h.enough
  enough' := by
    have henough := h.enough'
    rw [List.flatMap_cons, List.length_append] at henough
    exact Nat.le_of_add_left_le henough
  behind := hbehind
  free := hfree

/-- The search without comments passes over a comment, though the other one may find something in
it. -/
theorem agree_comment (ht : p.takes = true)
    (h : InStep t rounds rounds' done (x :: ms) behind behind' free free' n)
    (hk : x.kind = .comment) (ih : ∀ {c c' : Option Char} {start start' : Nat},
      InStep t rounds rounds' (done ++ [x]) ms c c' start start' (n + x.char.utf8Size) →
        Agree p t rounds rounds' ms c c' start start' (n + x.char.utf8Size)) :
    Agree p t rounds rounds' (x :: ms) behind behind' free free' n := by
  intro hin hin'
  have hmem : x ∈ Scan.marks t 0 := by rw [h.marks]; simp
  have hoffset := h.offset_eq
  have hstart : ∀ m ∈ p.allFrom rounds' free' behind' n ((x :: ms).flatMap Mark.uncomment),
      n + Text.size x.uncomment ≤ m.start := fun m hm => by
    have hclear := hin' m hm
    rw [h.place, ← size_flatMap_uncomment] at hm
    obtain ⟨hfound, -, hle⟩ := in_of_mem_allFrom _ hm
    rw [size_flatMap_uncomment, ← h.place] at hle
    rw [size_markUncomment]
    exact behind_of_clear h.marks hk h.place hle (start_lt_stop hfound ht) hclear
  have hlike : ∀ y ∈ ms.head?, y.kind ≠ .comment →
      LikeBehind (some x.char) (lastOr behind' x.uncomment) := fun y hy hk' =>
    likeBehind_of_endsComment hk ((List.isChain_cons.mp h.chain).1 y hy) hk' behind'
  rw [List.map_cons] at hin ⊢
  rw [List.flatMap_cons] at hstart hin' ⊢
  rw [allFrom_pass _ _ hstart, size_markUncomment] at hin' ⊢
  rw [allFrom] at hin ⊢
  cases hm :
    if free ≤ n then p.matchAt? rounds ⟨behind, n, x.char :: ms.map (·.char)⟩ else none with
  | none =>
      rw [hm] at hin
      exact ih (h.next hlike fun y hy => h.free y (List.mem_cons_of_mem _ hy)) hin hin'
  | some m =>
      rw [hm] at hin
      simp only at hin ⊢
      obtain ⟨hm', hin⟩ := List.forall_mem_cons.mp hin
      split_ifs at hm with hle
      rw [h.place] at hm
      obtain ⟨hmstart, hmstop⟩ := of_matchAt? ht hm
      rw [← h.place] at hmstart
      have hpos := x.char.utf8Size_pos
      -- the match reaches over the comment, so it is all comment
      have hnot : ¬ m.Clear t := fun hclear => hclear x hmem (by omega) (by omega) hk
      have hcovered := hm'.resolve_left hnot
      rw [List.filter_cons_of_neg (by simpa using hnot)]
      refine ih (h.next hlike fun y hy => ⟨fun _ => ?_, fun _ => ?_⟩) hin hin'
      · have hto := (h.free x List.mem_cons_self).1
        have := h.lt_offset hy
        omega
      · by_cases hstop : m.stop ≤ y.offset
        · exact .inl hstop
        · have := h.lt_offset hy
          have := y.char.utf8Size_pos
          exact .inr (hcovered y (by rw [h.marks]; simp [hy]) (by omega) (by omega))

/-- At a mark that is no comment both searches find the same. -/
theorem found_eq (hp : p.leading = true) (ht : p.takes = true)
    (h : InStep t rounds rounds' done (x :: ms) behind behind' free free' n)
    (hk : x.kind ≠ .comment) (hin : ∀ m ∈ p.allFrom rounds free behind n ((x :: ms).map (·.char)),
      m.Clear t ∨ m.Covered t)
    (hin' : ∀ m ∈ p.allFrom rounds' free' behind' n ((x :: ms).flatMap Mark.uncomment), m.Clear t) :
    (if free' ≤ n then p.matchAt? rounds' ⟨behind', n,
      x.char :: ms.flatMap Mark.uncomment⟩ else none) =
        (if free ≤ n then p.matchAt? rounds ⟨behind, n, x.char :: ms.map (·.char)⟩ else none) ∧
      ∀ m, (if free ≤ n then p.matchAt? rounds ⟨behind, n, x.char :: ms.map (·.char)⟩ else none) =
        some m → m.Clear t := by
  obtain ⟨hto, hfrom⟩ := h.free x List.mem_cons_self
  rw [h.offset_eq] at hto hfrom
  have hcut : (x :: ms).flatMap Mark.uncomment = x.char :: ms.flatMap Mark.uncomment := by
    rw [List.flatMap_cons, Mark.uncomment_of_ne hk, List.singleton_append]
  by_cases hle : free ≤ n
  · rw [hcut] at hin'
    rw [if_pos hle, if_pos (hto hle), ← hcut]
    refine matchAt?_uncomment hp ht h.marks hk h.place (h.behind x rfl hk) h.enough h.enough'
      (fun m hm => hin m ?_) (fun m hm => hin' m ?_)
    · rw [List.map_cons] at hm ⊢
      rw [allFrom, if_pos hle, hm]
      exact List.mem_cons_self
    · rw [hcut] at hm
      rw [allFrom, if_pos (hto hle), hm]
      exact List.mem_cons_self
  · rw [if_neg hle, if_neg fun hle' => hle ((hfrom hle').resolve_right hk)]
    exact ⟨rfl, fun _ hm => by cases hm⟩

theorem agree_code (hp : p.leading = true) (ht : p.takes = true)
    (h : InStep t rounds rounds' done (x :: ms) behind behind' free free' n)
    (hk : x.kind ≠ .comment) (ih : ∀ {c c' : Option Char} {start start' : Nat},
      InStep t rounds rounds' (done ++ [x]) ms c c' start start' (n + x.char.utf8Size) →
        Agree p t rounds rounds' ms c c' start start' (n + x.char.utf8Size)) :
    Agree p t rounds rounds' (x :: ms) behind behind' free free' n := by
  intro hin hin'
  obtain ⟨hsame, hclear⟩ := h.found_eq hp ht hk hin hin'
  have hcut : (x :: ms).flatMap Mark.uncomment = x.char :: ms.flatMap Mark.uncomment := by
    rw [List.flatMap_cons, Mark.uncomment_of_ne hk, List.singleton_append]
  have hlike : ∀ y ∈ ms.head?, y.kind ≠ .comment → LikeBehind (some x.char) (some x.char) :=
    fun _ _ _ => LikeBehind.refl _
  rw [List.map_cons] at hin ⊢
  rw [hcut] at hin' ⊢
  rw [allFrom] at hin hin' ⊢
  rw [hsame] at hin' ⊢
  rw [allFrom]
  cases hm :
    if free ≤ n then p.matchAt? rounds ⟨behind, n, x.char :: ms.map (·.char)⟩ else none with
  | none =>
      rw [hm] at hin hin'
      exact ih (h.next hlike fun y hy => h.free y (List.mem_cons_of_mem _ hy)) hin hin'
  | some m =>
      rw [hm] at hin hin'
      simp only at hin hin' ⊢
      rw [List.filter_cons_of_pos (by simpa using hclear m hm)]
      exact congrArg _ (ih (h.next hlike fun y hy => ⟨id, .inl⟩) (List.forall_mem_cons.mp hin).2
        (List.forall_mem_cons.mp hin').2)

/-- Searches that are in step agree. -/
theorem agree (hp : p.leading = true) (ht : p.takes = true) : ∀ {ms done : List Mark}
    {behind behind' : Option Char} {free free' n : Nat},
      InStep t rounds rounds' done ms behind behind' free free' n →
        Agree p t rounds rounds' ms behind behind' free free' n
  | [], _, _, _, _, _, _, _ => by
      intro _ _
      rw [List.map_nil, List.flatMap_nil, allFrom, allFrom, matchAt?_of_takes ht,
        matchAt?_of_takes ht]
      split_ifs <;> rfl
  | x :: ms, done, _, _, _, _, _, h => by
      by_cases hk : x.kind = .comment
      · exact h.agree_comment ht hk fun hnext => agree hp ht hnext
      · exact h.agree_code hp ht hk fun hnext => agree hp ht hnext

end InStep

/-- Without the comments a spared pattern has the matches that hold none. -/
theorem all_uncomment (hp : p.leading = true) (ht : p.takes = true) (h : p.Spared t) :
    p.all (uncomment t) = (p.all t).filter fun m => m.Clear t := by
  have hchars : (marks t 0).map (·.char) = t := by
    rw [marks, map_char_marksFrom, Text.after, Text.after?_zero]
    rfl
  have hstart : InStep t (t.length + 1) ((uncomment t).length + 1) [] (marks t 0) none none 0 0 0 :=
    ⟨rfl, rfl, isChain_endsComment t, by rw [hchars]; exact Nat.le_succ _, Nat.le_succ _,
      fun _ _ _ => LikeBehind.refl none, fun _ _ => ⟨id, .inl⟩⟩
  have hall : p.all (uncomment t) =
      (p.allFrom (t.length + 1) 0 none 0 ((marks t 0).map (·.char))).filter fun m => m.Clear t :=
    hstart.agree hp ht (by rw [hchars]; exact h.text) h.left
  rwa [hchars] at hall

end Pattern

end ServiceGate
