/-
# A search, stretch by stretch

The matches of a leading pattern in a text are those `within` its stretches, wherever none of them
reaches over the places between (`Apart`, `all_append`).  What is found within a stretch does not
depend on where it stands, but for the character in front (`within_like`).  So where one stretch is
put in the place of another, the matches in front of it and behind it are as they were.

Of what stands in front of a place a leading pattern sees one character, so a stretch is searched
with that one character in mind: `within` takes it as an argument, and `lastOr` says which it is
behind a stretch.  `Apart` says that no match that starts in front of a place ends behind it; being
the condition on which a search can be cut there, it is decidable, and it is the form in which later
statements ask for it.
-/
import ServiceGate.Proofs.Outcomes
import ServiceGate.Proofs.Pattern.Beside
import ServiceGate.Proofs.Pattern.Places
import ServiceGate.Proofs.Pattern.Search

namespace ServiceGate

variable {o o' o₁ o₁' : Nat} {m m' : Match}

theorem Match.Like.shift (h : Match.Like o o' m m') (ho : o₁ + o' = o + o₁') :
    Match.Like o₁ o₁' m m' where
  start := by have := h.start; omega
  stop := by have := h.stop; omega
  text := h.text
  captures := h.captures.imp fun g g' hg =>
    ⟨hg.group, hg.text, by have := hg.start; omega, by have := hg.stop; omega⟩

theorem Capture.Like.eq {g g' : Capture} (h : Capture.Like o o g g') : g' = g := by
  obtain ⟨group, start, stop, text⟩ := g
  obtain ⟨group', start', stop', text'⟩ := g'
  obtain ⟨hgroup, htext, hstart, hstop⟩ := h
  simp only at hgroup htext hstart hstop
  rw [hgroup, htext, Nat.add_right_cancel hstart, Nat.add_right_cancel hstop]

theorem Match.Like.eq (h : Match.Like o o m m') : m' = m := by
  obtain ⟨start, stop, text, captures⟩ := m
  obtain ⟨start', stop', text', captures'⟩ := m'
  obtain ⟨hstart, hstop, htext, hcaptures⟩ := h
  simp only at hstart hstop htext hcaptures
  have hsame : captures' = captures := by
    induction hcaptures with
    | nil => rfl
    | cons hg _ ih => rw [hg.eq, ih]
  rw [htext, hsame, Nat.add_right_cancel hstart, Nat.add_right_cancel hstop]

theorem eq_of_forall₂_like {ms ms' : List Match} (h : List.Forall₂ (Match.Like o o) ms ms') :
    ms' = ms := by
  induction h with
  | nil => rfl
  | cons hm _ ih => rw [hm.eq, ih]

theorem Match.In.start_lt {p : Pattern} {t : Text} (h : m.In p t) (hp : p.takes = true) :
    m.start < Text.size t := by
  obtain ⟨front, back, rfl, hstart⟩ := h.cut
  have hpos : Text.size m.text ≠ 0 := fun hzero =>
    Pattern.spells_ne_nil h.spells hp (Text.eq_nil_of_size hzero)
  rw [Text.size_append, Text.size_append]
  omega

namespace Pattern

variable {p : Pattern} {rounds rounds' free free' n n' : Nat} {behind behind' : Option Char}
  {t u v w : Text} {c : Char}

/-- The matches in a stretch by itself, which stands at an offset behind a character. -/
def within (p : Pattern) (behind : Option Char) (n : Nat) (w : Text) : List Match :=
  p.allFrom (w.length + 1) n behind n w

/-- No match that is found reaches over a place. -/
def Apart (p : Pattern) (t : Text) (n : Nat) : Prop := ∀ m ∈ p.all t, m.start < n → m.stop ≤ n

instance (p : Pattern) (t : Text) (n : Nat) : Decidable (p.Apart t n) :=
  inferInstanceAs (Decidable (∀ m ∈ p.all t, m.start < n → m.stop ≤ n))

/-- The character in front of what follows a stretch. -/
def lastOr (behind : Option Char) (w : Text) : Option Char := w.getLast?.or behind

theorem lastOr_cons (behind : Option Char) (c : Char) (w : Text) :
    lastOr behind (c :: w) = lastOr (some c) w := by
  cases w with
  | nil => rfl
  | cons d w => simp [lastOr, List.getLast?_cons]

theorem LikeBehind.refl (x : Option Char) : LikeBehind x x := ⟨rfl, rfl⟩

/-! ## One place after the other -/

theorem matchAt?_of_takes (hp : p.takes = true) : p.matchAt? rounds ⟨behind, n, []⟩ = none := by
  rw [matchAt?]
  cases hrun : p.run rounds some ⟨⟨behind, n, []⟩, []⟩ with
  | none => rfl
  | some r =>
      obtain ⟨r', hleads, -⟩ := exists_leads p hrun
      obtain ⟨u, -, hu, hspells, -⟩ := hleads.moves
      exact absurd (List.append_eq_nil_iff.mp hu.rest.symm).1 (spells_ne_nil hspells hp)

theorem stop_of_matchAt? {m : Match} (h : p.matchAt? rounds ⟨behind, n, w⟩ = some m) :
    m.start = n ∧ m.stop ≤ n + Text.size w := by
  obtain ⟨r, hr, rfl⟩ := Option.map_eq_some_iff.mp h
  obtain ⟨r', hleads, hr'⟩ := exists_leads p hr
  obtain rfl := Option.some.inj hr'
  obtain ⟨u, -, hu, -⟩ := hleads.moves
  refine ⟨rfl, ?_⟩
  have hrest : w = u ++ r'.cursor.rest := hu.rest
  have hoffset : r'.cursor.offset = n + Text.size u := hu.offset
  simp only [hoffset, hrest, Text.size_append]
  omega

theorem allFrom_free : ∀ (w : Text) {behind : Option Char} {free free' n : Nat}, free ≤ n →
    free' ≤ n → p.allFrom rounds free behind n w = p.allFrom rounds free' behind n w
  | [], _, _, _, _, h, h' => by rw [allFrom, allFrom, if_pos h, if_pos h']
  | c :: w, behind, free, free', n, h, h' => by
      rw [allFrom, allFrom, if_pos h, if_pos h']
      cases p.matchAt? rounds ⟨behind, n, c :: w⟩ with
      | some m => rfl
      | none => exact allFrom_free w (by omega) (by omega)

/-- What is found in the same stretch at two places is the same. -/
theorem allFrom_like (hp : p.leading = true) : ∀ (w : Text) {behind behind' : Option Char}
    {free free' n n' : Nat}, w.length ≤ rounds → w.length ≤ rounds' → LikeBehind behind behind' →
      (free ≤ n ∧ free' ≤ n' ∨ free' + n = free + n') →
        List.Forall₂ (Match.Like n n') (p.allFrom rounds free behind n w)
          (p.allFrom rounds' free' behind' n' w)
  | [], behind, behind', free, free', n, n', hr, hr', hbehind, hfree => by
      have hiff : free ≤ n ↔ free' ≤ n' := by omega
      rw [allFrom, allFrom]
      by_cases h : free ≤ n
      · rw [if_pos h, if_pos (hiff.mp h)]
        have hlike := @matchAt?_like [] [] [] _ _ _ ⟨behind, n, []⟩ ⟨behind', n',
          []⟩ hp rfl rfl hbehind rfl hr hr'
          (fun m hm => (stop_of_matchAt? hm).2) (fun m hm => (stop_of_matchAt? hm).2)
        generalize p.matchAt? rounds ⟨behind, n, []⟩ = x at hlike ⊢
        generalize p.matchAt? rounds' ⟨behind', n', []⟩ = x' at hlike ⊢
        cases hlike with
        | some hm => exact .cons hm .nil
        | none => exact .nil
      · rw [if_neg h, if_neg fun h' => h (hiff.mpr h')]
        exact .nil
  | c :: w, behind, behind', free, free', n, n', hr, hr', hbehind, hfree => by
      have hiff : free ≤ n ↔ free' ≤ n' := by omega
      have hnext : ∀ {free free'}, (free ≤ n + c.utf8Size ∧ free' ≤ n' + c.utf8Size ∨
          free' + n = free + n') → List.Forall₂ (Match.Like n n')
            (p.allFrom rounds free (some c) (n + c.utf8Size) w)
            (p.allFrom rounds' free' (some c) (n' + c.utf8Size) w) := fun hf =>
        (allFrom_like hp w (Nat.le_of_succ_le hr) (Nat.le_of_succ_le hr') (LikeBehind.refl _)
          (by omega)).imp fun _ _ hm => hm.shift (by omega)
      rw [allFrom, allFrom]
      by_cases h : free ≤ n
      · rw [if_pos h, if_pos (hiff.mp h)]
        have hlike := @matchAt?_like (c :: w) [] [] _ _ _ ⟨behind, n, c :: w⟩ ⟨behind', n', c :: w⟩
          hp (List.append_nil _).symm (List.append_nil _).symm
          hbehind rfl hr hr'
          (fun m hm => (stop_of_matchAt? hm).2) (fun m hm => (stop_of_matchAt? hm).2)
        generalize p.matchAt? rounds ⟨behind, n, c :: w⟩ = x at hlike ⊢
        generalize p.matchAt? rounds' ⟨behind', n', c :: w⟩ = x' at hlike ⊢
        cases hlike with
        | some hm =>
            refine .cons hm (hnext (.inr ?_))
            exact hm.stop
        | none => exact hnext (by omega)
      · rw [if_neg h, if_neg fun h' => h (hiff.mpr h')]
        exact hnext (by omega)

theorem within_nil (hp : p.takes = true) (behind : Option Char) (n : Nat) :
    p.within behind n [] = [] := by
  rw [within, allFrom, matchAt?_of_takes hp, if_pos (Nat.le_refl n)]
  rfl

theorem within_like (hp : p.leading = true) (hbehind : LikeBehind behind behind') (n n' : Nat)
    (w : Text) :
    List.Forall₂ (Match.Like n n') (p.within behind n w) (p.within behind' n' w) :=
  allFrom_like hp w (Nat.le_succ _) (Nat.le_succ _) hbehind (.inl ⟨Nat.le_refl _, Nat.le_refl _⟩)

theorem allFrom_eq_within (hp : p.leading = true) (hr : w.length ≤ rounds) (hfree : free ≤ n) :
    p.allFrom rounds free behind n w = p.within behind n w :=
  eq_of_forall₂_like (o := n) (allFrom_like hp w (Nat.le_succ _) hr (LikeBehind.refl _)
    (.inl ⟨Nat.le_refl _, hfree⟩))

theorem exists_matchAt?_of_mem {m : Match} : ∀ (w : Text) {behind : Option Char} {free n : Nat},
    m ∈ p.allFrom rounds free behind n w → ∃ front rest, w = front ++ rest ∧
      p.matchAt? rounds ⟨lastOr behind front, n + Text.size front, rest⟩ = some m
  | [], behind, free, n, h => by
      rw [allFrom] at h
      split_ifs at h
      · exact ⟨[], [], rfl, Option.mem_toList.mp h⟩
      · cases h
  | c :: w, behind, free, n, h => by
      have hmore : ∀ {free}, m ∈ p.allFrom rounds free (some c) (n + c.utf8Size) w →
          ∃ front rest, c :: w = front ++ rest ∧
            p.matchAt? rounds ⟨lastOr behind front, n + Text.size front, rest⟩ = some m := fun h =>
            by
        obtain ⟨front, rest, rfl, hm⟩ := exists_matchAt?_of_mem w h
        refine ⟨c :: front, rest, rfl, ?_⟩
        rwa [lastOr_cons, Text.size, ← Nat.add_assoc]
      rw [allFrom] at h
      split at h
      · next m' hfound =>
          rcases List.mem_cons.mp h with rfl | h
          · split_ifs at hfound
            exact ⟨[], c :: w, rfl, hfound⟩
          · exact hmore h
      · exact hmore h

/-! ## One stretch after the other -/

/-- Where no match reaches over the place between two stretches, those of the first one come in
front of those of the second one. -/
theorem allFrom_append (hp : p.leading = true) (ht : p.takes = true) : ∀ (w : Text)
    {v : Text} {behind : Option Char} {free n : Nat}, (w ++ v).length ≤ rounds →
      free ≤ n + Text.size w →
      (∀ m ∈ p.allFrom rounds free behind n (w ++ v), m.start < n + Text.size w →
        m.stop ≤ n + Text.size w) →
      p.allFrom rounds free behind n (w ++ v) = p.allFrom rounds free behind n w ++
        p.allFrom rounds (n + Text.size w) (lastOr behind w) (n + Text.size w) v
  | [], v, behind, free, n, hr, hfree, _ => by
      have hnone : p.allFrom rounds free behind n [] = [] := by
        rw [allFrom, matchAt?_of_takes ht]
        split <;> rfl
      rw [hnone, List.nil_append, List.nil_append]
      exact allFrom_free v hfree (Nat.le_refl _)
  | c :: w, v, behind, free, n, hr, hfree, hm => by
      have hsize : n + Text.size (c :: w) = n + c.utf8Size + Text.size w := by
        rw [Text.size, Nat.add_assoc]
      have hpos := c.utf8Size_pos
      have hlen : (w ++ v).length ≤ rounds := Nat.le_of_succ_le hr
      have hlen' : (c :: w).length ≤ rounds := by
        rw [List.length_append] at hr
        exact Nat.le_trans (Nat.le_add_right _ _) hr
      rw [List.cons_append] at hm ⊢
      -- the stretch has the same match at its start with and without what follows
      have hsame : (if free ≤ n then p.matchAt? rounds ⟨behind, n, c :: w⟩ else none) =
          if free ≤ n then p.matchAt? rounds ⟨behind, n, c :: (w ++ v)⟩ else none := by
        by_cases h : free ≤ n
        · rw [if_pos h, if_pos h]
          have hlike := @matchAt?_like (c :: w) v [] _ _ _ ⟨behind, n, c :: (w ++ v)⟩
            ⟨behind, n, c :: w⟩ hp (List.cons_append ..).symm (List.append_nil _).symm
            (LikeBehind.refl _) rfl hlen' hlen'
            (fun m hfound => by
              refine hm m ?_ (by rw [(stop_of_matchAt? hfound).1]; omega)
              rw [allFrom, if_pos h, hfound]
              exact List.mem_cons_self)
            (fun m hfound => (stop_of_matchAt? hfound).2)
          generalize p.matchAt? rounds ⟨behind, n, c :: (w ++ v)⟩ = x at hlike ⊢
          generalize p.matchAt? rounds ⟨behind, n, c :: w⟩ = x' at hlike ⊢
          cases hlike with
          | some hm => rw [hm.eq]
          | none => rfl
        · rw [if_neg h, if_neg h]
      rw [hsize] at hfree hm ⊢
      rw [lastOr_cons]
      rw [allFrom] at hm ⊢
      rw [allFrom, hsame]
      cases hfound : (if free ≤ n then p.matchAt? rounds ⟨behind, n, c :: (w ++ v)⟩ else none) with
      | some m =>
          rw [hfound] at hm
          have hstart : m.start = n := by
            split at hfound
            · exact (stop_of_matchAt? hfound).1
            · cases hfound
          have hstop := hm m List.mem_cons_self (by omega)
          simp only [List.cons_append]
          rw [allFrom_append hp ht w hlen hstop fun m' hm' => hm m' (List.mem_cons_of_mem m hm')]
      | none =>
          rw [hfound] at hm
          exact allFrom_append hp ht w hlen hfree hm

theorem within_append (hp : p.leading = true) (ht : p.takes = true)
    (h : ∀ m ∈ p.within behind n (u ++ w), m.start < n + Text.size u → m.stop ≤ n + Text.size u) :
    p.within behind n (u ++ w) =
      p.within behind n u ++ p.within (lastOr behind u) (n + Text.size u) w := by
  have hlen : (u ++ w).length ≤ (u ++ w).length + 1 := Nat.le_succ _
  rw [within, allFrom_append hp ht u hlen (Nat.le_add_right _ _) h]
  rw [List.length_append] at hlen ⊢
  rw [allFrom_eq_within hp (by omega) (Nat.le_refl _),
    allFrom_eq_within hp (by omega) (Nat.le_refl _)]

theorem all_eq_within (p : Pattern) (t : Text) : p.all t = p.within none 0 t := rfl

/-- The matches in front of a place, and those behind it. -/
theorem all_append (hp : p.leading = true) (ht : p.takes = true)
    (h : p.Apart (u ++ w) (Text.size u)) :
    p.all (u ++ w) = p.within none 0 u ++ p.within u.getLast? (Text.size u) w := by
  have happend := @within_append p 0 none u w hp ht
    (by rw [Nat.zero_add]; exact h)
  rw [Nat.zero_add, lastOr, Option.or_none] at happend
  exact happend

end Pattern

end ServiceGate

/-!
## Matches that an edit leaves

At a place that no match reaches over the preferred match is found (`mem_all_of_matchAt?`).  Between
two such places the matches are those of the stretch between them: those in front of it are the
matches of the front, and those behind it do not depend on it but for its last character
(`all_parts`).
-/

namespace ServiceGate.Pattern

variable {p : Pattern} {t u u' w w' front rest : Text} {m m' : Match} {n : Nat}

theorem exists_cut_of_mem_all (hm : m ∈ p.all t) : ∃ front rest, t = front ++ rest ∧
    m.start = Text.size front ∧
      p.matchAt? (t.length + 1) ⟨front.getLast?, Text.size front, rest⟩ = some m := by
  obtain ⟨front, rest, ht, hmatch⟩ := exists_of_mem_all hm
  exact ⟨front, rest, ht, (in_of_matchAt? hmatch).2, hmatch⟩

theorem matchesAt_of_matchAt? (h : p.matchAt? ((front ++ rest).length + 1)
    ⟨front.getLast?, Text.size front, rest⟩ = some m) :
    p.MatchesAt (front ++ rest) (Text.size front) :=
  ⟨front, rest, rfl, rfl, by rw [h]; rfl⟩

/-- At a place that no match reaches over the preferred match is found. -/
theorem mem_all_of_matchAt? (hp : p.takes = true)
    (hapart : p.Apart (front ++ rest) (Text.size front))
    (h : p.matchAt? ((front ++ rest).length + 1) ⟨front.getLast?, Text.size front, rest⟩ = some m) :
    m ∈ p.all (front ++ rest) := by
  obtain ⟨m', hm', hle, hlt⟩ :=
    exists_covering (fun _ hspells => spells_ne_nil hspells hp) (matchesAt_of_matchAt? h)
  have hstart : m'.start = Text.size front := by
    refine Nat.le_antisymm hle (Nat.le_of_not_lt fun hfront => ?_)
    exact absurd (hapart m' hm' hfront) (Nat.not_le_of_gt hlt)
  obtain ⟨front', rest', hcut, hsize, hmatch⟩ := exists_cut_of_mem_all hm'
  have hfront : front' = front := by
    rw [← Text.before_append front' rest', ← hcut, ← hsize, hstart, Text.before_append]
  rw [hfront] at hcut hmatch
  rw [← List.append_cancel_left hcut, h] at hmatch
  rwa [Option.some.inj hmatch]

section Parts

variable (hlead : p.leading = true) (hp : p.takes = true)

include hlead hp

/-- The matches in front of a stretch, in it and behind it. -/
theorem all_parts {v q : Text} (hstart : p.Apart (u ++ v ++ q) (Text.size u))
    (hstop : p.Apart (u ++ v ++ q) (Text.size (u ++ v))) :
    p.all (u ++ v ++ q) = p.all u ++ p.within u.getLast? (Text.size u) v ++
      p.within (u ++ v).getLast? (Text.size (u ++ v)) q := by
  have hall := all_append hlead hp hstop
  have hinner : p.Apart (u ++ v) (Text.size u) := fun m hm hlt => by
    refine hstart m ?_ hlt
    rw [hall]
    exact List.mem_append_left _ hm
  rw [hall]
  exact congrArg (· ++ _) (all_append hlead hp hinner)

end Parts

end ServiceGate.Pattern
