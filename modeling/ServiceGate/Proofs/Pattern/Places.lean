/-
# Where matches lie

A match bounds a part of the text (`In.bounds`), and a group of it stands between its ends
(`In.exists_group`).  It was found at a place with the character in front of it in sight
(`exists_of_mem_all`), so a match of a pattern that asks for the start of a line starts at one, and
what comes behind a group was read from its end on (`Fresh.group`).

A reading is `Fresh` as long as no group was captured in it.  Parts without groups leave the
captures as they are (`Leads.captures_eq`), so for a pattern with one group between two parts the
first part leads to where the group starts, and the group is all that is captured from there.
-/
import ServiceGate.Proofs.Pattern.Sound
import ServiceGate.Proofs.Text.Kept

namespace ServiceGate

open Text (Bounds)

variable {p : Pattern} {t : Text} {m : Match} {n rounds free : Nat} {g : Capture}

namespace Match

theorem In.bounds (h : m.In p t) : Bounds t m.start m.stop := by
  obtain ⟨front, back, ht, hstart⟩ := h.cut
  exact Text.bounds_iff.mpr ⟨front, m.text, back, ht, hstart, by rw [h.stop, hstart]⟩

theorem In.between_eq (h : m.In p t) : t.between m.start m.stop = m.text := by
  obtain ⟨front, back, ht, hstart⟩ := h.cut
  rw [h.stop, hstart, ht, Text.between_append]

/-- A group cuts the text inside of the match. -/
theorem In.exists_group (h : m.In p t) (hg : m.group? n = some g) :
    ∃ front back, t = front ++ g.text ++ back ∧ g.start = Text.size front ∧
      g.stop = g.start + Text.size g.text ∧ m.start ≤ g.start ∧ g.stop ≤ m.stop := by
  obtain ⟨front, back, ht, hstart⟩ := h.cut
  obtain ⟨-, body, a, b, -, -, hm, hgstart, hgstop⟩ := h.group hg
  refine ⟨front ++ a, b ++ back, by rw [ht, hm]; simp, ?_, hgstop, by omega, ?_⟩
  · rw [hgstart, hstart, Text.size_append]
  · rw [hgstop, h.stop, hgstart, hm, Text.size_append, Text.size_append]
    omega

end Match

/-! ## Where a match is found -/

namespace Pattern

/-- A match is found at a place of the text, with the character in front of it in sight. -/
theorem exists_of_mem_allFrom : ∀ (rest : Text) {front : Text} {free : Nat},
    m ∈ p.allFrom rounds free front.getLast? (Text.size front) rest →
      ∃ front' rest', front ++ rest = front' ++ rest' ∧
        p.matchAt? rounds ⟨front'.getLast?, Text.size front', rest'⟩ = some m
  | [], front, free, h => by
      rw [allFrom] at h
      split at h
      · exact ⟨front, [], rfl, Option.mem_toList.mp h⟩
      · cases h
  | c :: rest, front, free, h => by
      have hfront : Text.size front + c.utf8Size = Text.size (front ++ [c]) := by
        simp [Text.size_append, Text.size]
      have hbehind : some c = (front ++ [c]).getLast? := by simp
      have hnext : front ++ c :: rest = (front ++ [c]) ++ rest := by simp
      rw [allFrom, hfront, hbehind] at h
      split at h
      · next m' hm' =>
          rcases List.mem_cons.mp h with rfl | h
          · split at hm'
            · exact ⟨front, c :: rest, rfl, hm'⟩
            · cases hm'
          · exact hnext ▸ exists_of_mem_allFrom rest h
      · exact hnext ▸ exists_of_mem_allFrom rest h

theorem exists_of_mem_all (h : m ∈ p.all t) : ∃ front rest, t = front ++ rest ∧
    p.matchAt? (t.length + 1) ⟨front.getLast?, Text.size front, rest⟩ = some m :=
  @exists_of_mem_allFrom _ _ _ t [] _ h

theorem exists_of_firstFrom? : ∀ (rest : Text) {front : Text},
    p.firstFrom? rounds front.getLast? (Text.size front) rest = some m →
      ∃ front' rest', front ++ rest = front' ++ rest' ∧
        p.matchAt? rounds ⟨front'.getLast?, Text.size front', rest'⟩ = some m
  | [], front, h => ⟨front, [], rfl, h⟩
  | c :: rest, front, h => by
      have hfront : Text.size front + c.utf8Size = Text.size (front ++ [c]) := by
        simp [Text.size_append, Text.size]
      have hbehind : some c = (front ++ [c]).getLast? := by simp
      have hnext : front ++ c :: rest = (front ++ [c]) ++ rest := by simp
      rcases orElse_eq_some h with h | h
      · exact ⟨front, c :: rest, rfl, h⟩
      · rw [hfront, hbehind] at h
        exact hnext ▸ exists_of_firstFrom? rest h

theorem exists_of_first? (h : p.first? t = some m) : ∃ front rest, t = front ++ rest ∧
    p.matchAt? (t.length + 1) ⟨front.getLast?, Text.size front, rest⟩ = some m :=
  @exists_of_firstFrom? _ _ _ t [] h

theorem startsLine_of_mem_all (h : m ∈ (seq lineStart p).all t) : t.StartsLine m.start := by
  obtain ⟨front, rest, rfl, hm⟩ := exists_of_mem_all h
  have hstart := (in_of_matchAt? hm).2
  obtain ⟨r, hr, -⟩ := Option.map_eq_some_iff.mp hm
  rw [run, run] at hr
  split at hr
  · next hline => exact ⟨front, rest, rfl, hstart, hline⟩
  · cases hr

/-! ## A group between two parts -/

/-- A reading that stands at a place of a text and has read no group yet. -/
structure Fresh (t : Text) (r : Reading) : Prop where
  cut : ∃ front, t = front ++ r.cursor.rest ∧ r.cursor.offset = Text.size front
  captures : r.captures = []

section Fresh
variable {q : Pattern} {r r' : Reading} {number : Nat}

theorem exists_reading_of_mem_all (h : m ∈ p.all t) :
    ∃ r r', Fresh t r ∧ Leads p r r' ∧ m.captures = r'.captures := by
  obtain ⟨front, rest, rfl, hm⟩ := exists_of_mem_all h
  obtain ⟨r', hr, rfl⟩ := Option.map_eq_some_iff.mp hm
  obtain ⟨r'', hleads, hr''⟩ := exists_leads p hr
  obtain rfl := Option.some.inj hr''
  exact ⟨_, _, ⟨⟨front, rfl, rfl⟩, rfl⟩, hleads, rfl⟩

theorem Leads.captures_eq (h : Leads p r r') (hp : p.groups = []) : r'.captures = r.captures := by
  obtain ⟨u, new, -, -, hnew, hin⟩ := h.moves
  cases new with
  | nil => exact hnew
  | cons g new =>
      obtain ⟨body, a, b, hmem, -⟩ := hin g List.mem_cons_self
      rw [hp] at hmem
      cases hmem

theorem Fresh.second (hr : Fresh t r) (h : Leads (p.seq q) r r') (hp : p.groups = []) :
    ∃ r₁, Fresh t r₁ ∧ Leads q r₁ r' := by
  obtain ⟨front, ht, hoffset⟩ := hr.cut
  cases h with
  | @seq _ _ _ r₁ _ hfirst hsecond =>
      obtain ⟨u, -, hu, -⟩ := hfirst.moves
      refine ⟨r₁, ⟨⟨front ++ u, ?_, ?_⟩, ?_⟩, hsecond⟩
      · rw [ht, hu.rest, List.append_assoc]
      · rw [hu.offset, hoffset, Text.size_append]
      · rw [hfirst.captures_eq hp, hr.captures]

/-- A group that a fresh reading reads is the only one, with what comes behind it. -/
theorem Fresh.group (hr : Fresh t r) (h : Leads ((Pattern.capture number p).seq q) r r')
    (hp : p.groups = []) (hq : q.groups = []) : ∃ front w v back, t = front ++ w ++ (v ++ back) ∧
      Spells p w ∧ Spells q v ∧
      r'.captures = [⟨number, Text.size front, Text.size front + Text.size w, w⟩] := by
  obtain ⟨front, ht, hoffset⟩ := hr.cut
  cases h with
  | @seq _ _ _ r₁ _ hgroup hbehind =>
      cases hgroup with
      | @capture _ _ _ r₂ hbody =>
          obtain ⟨w, -, hw, hspells, -⟩ := hbody.moves
          obtain ⟨v, -, hv, hspells', -⟩ := hbehind.moves
          refine ⟨front, w, v, r'.cursor.rest, ?_, hspells, hspells', ?_⟩
          · rw [ht, hw.rest, List.append_assoc, ← hv.rest]
            rfl
          · rw [hbehind.captures_eq hq, Reading.keep, hbody.captures_eq hp, hr.captures,
              hw.textTo_eq, hw.offset, hoffset]

end Fresh

/-! ## What a greedy repetition takes -/

section Greedy
variable {f : Char → Bool} {k : Reading → Option Reading}

theorem isSome_repeated (hk : ∀ r, (k r).isSome = true)
    (body : (Reading → Option Reading) → Reading → Option Reading) : ∀ (n : Nat) (r : Reading),
    (repeated body true n k r).isSome = true
  | 0, r => hk r
  | n + 1, r => by
      rw [repeated]
      dsimp only
      rw [if_pos rfl]
      cases body (fun r' => if r.cursor.offset < r'.cursor.offset
          then repeated body true n k r' else none) r with
      | some _ => rfl
      | none => exact hk r

/-- A greedy repetition in front of something that always succeeds takes all it can. -/
theorem exists_of_repeated (hk : ∀ r, (k r).isSome = true) : ∀ (n : Nat) {r r' : Reading},
    r.cursor.rest.length ≤ n → repeated ((char f).run rounds) true n k r = some r' →
      ∃ u r₁, Moves r.cursor u r₁.cursor ∧ r₁.cursor.rest.head?.any f = false ∧ k r₁ = some r'
  | 0, r, _, hn, h => by
      have hrest : r.cursor.rest = [] := List.length_eq_zero_iff.mp (Nat.le_zero.mp hn)
      exact ⟨[], r, .refl _, by rw [hrest]; rfl, h⟩
  | n + 1, r, _, hn, h => by
      rw [repeated] at h
      dsimp only at h
      rw [if_pos rfl, run, Reading.step?, Cursor.step?] at h
      cases hrest : r.cursor.rest with
      | nil =>
          rw [hrest] at h
          exact ⟨[], r, .refl _, by rw [hrest]; rfl, h⟩
      | cons c rest =>
          rw [hrest] at h hn
          by_cases hc : f c = true
          · have hpos := c.utf8Size_pos
            simp only [if_pos hc, Option.map_some, Option.bind_some] at h
            rw [if_pos (by omega)] at h
            obtain ⟨r'', hagain⟩ := Option.isSome_iff_exists.mp (isSome_repeated hk
              ((char f).run rounds) n ⟨⟨some c, r.cursor.offset + c.utf8Size, rest⟩, r.captures⟩)
            rw [hagain] at h
            obtain rfl := Option.some.inj h
            obtain ⟨u, r₁, hu, hstop, hr₁⟩ :=
              exists_of_repeated hk n (Nat.le_of_succ_le_succ hn) hagain
            refine ⟨c :: u, r₁, ⟨?_, ?_⟩, hstop, hr₁⟩
            · rw [hrest]
              exact congrArg (c :: ·) hu.rest
            · rw [hu.offset, Text.size, Nat.add_assoc]
          · simp only [if_neg hc, Option.map_none, Option.bind_none] at h
            exact ⟨[], r, .refl _, by rw [hrest]; simpa using hc, h⟩

end Greedy

end Pattern

end ServiceGate
