/-
# Reading the same stretch in two texts

The same stretch `w` stands in two texts, at the offset `o` in front of `a` and at `o'` in front of
`b`.  Two readings in it are `Beside` each other if they have come equally far.  A `blind` pattern
looks at the characters that it takes and at nothing else, so it is read alike from there on, unless
a reading goes past the end of the stretch (`run_same`).  Hence two matches that both end in the
stretch are the same, place apart (`matchAt?_beside`).

Matching is written with continuations, so the statement about it is one about continuations, too:
if two of them give the same outcome from readings that are beside each other, so does a pattern in
front of them.  An outcome counts as the same if one of the two is `Past` the end of the stretch,
since the two texts differ there; for this to survive the rest of the pattern, nothing may lead back
(`Onward`).

The places that a pattern can ask for look at the character in front as well.  A `leading` pattern
asks for one at its start alone, where the two characters in front need only be `LikeBehind`, that
is, agree in whether they belong to a word and whether they end a line.
-/
import Mathlib.Data.List.Forall2
import ServiceGate.Proofs.Pattern.Sound
import ServiceGate.Proofs.Text.Bounds

namespace ServiceGate

/-- A group at one place is that at another place, where the offset `o` has become `o'`. -/
structure Capture.Like (o o' : Nat) (g g' : Capture) : Prop where
  group : g'.group = g.group
  text : g'.text = g.text
  start : g'.start + o = g.start + o'
  stop : g'.stop + o = g.stop + o'

/-- A match at one place is that at another place, where the offset `o` has become `o'`. -/
structure Match.Like (o o' : Nat) (m m' : Match) : Prop where
  start : m'.start + o = m.start + o'
  stop : m'.stop + o = m.stop + o'
  text : m'.text = m.text
  captures : List.Forall₂ (Capture.Like o o') m.captures m'.captures

namespace Pattern

variable {w a b : Text} {o o' : Nat} {r r' r₁ r₁' : Reading} {x x' y y' : Option Reading}
  {k k' : Reading → Option Reading}

def blind : Pattern → Bool
  | textStart | lineStart | wordEdge => false
  | empty | char _ => true
  | seq p q | alt p q => p.blind && q.blind
  | many _ p | capture _ p => p.blind

/-- Two readings that have come equally far into the stretch. -/
structure Beside (w a b : Text) (o o' : Nat) (r r' : Reading) : Prop where
  cut : ∃ u v, w = u ++ v ∧ r.cursor.rest = v ++ a ∧ r'.cursor.rest = v ++ b ∧
    r.cursor.offset = o + Text.size u ∧ r'.cursor.offset = o' + Text.size u
  captures : List.Forall₂ (Capture.Like o o') r.captures r'.captures

/-- A reading has come past an offset. -/
def Past (n : Nat) (x : Option Reading) : Prop := ∃ r, x = some r ∧ n < r.cursor.offset

/-- Two outcomes are the same, or one of them lies behind the stretch. -/
def Same (w a b : Text) (o o' : Nat) (x x' : Option Reading) : Prop :=
  Past (o + Text.size w) x ∨ Past (o' + Text.size w) x' ∨ Option.Rel (Beside w a b o o') x x'

/-- From behind the stretch nothing leads back into it. -/
def Onward (n : Nat) (k : Reading → Option Reading) : Prop :=
  ∀ r, n < r.cursor.offset → ∀ r', k r = some r' → n < r'.cursor.offset

/-! ## Outcomes -/

namespace Same

theorem none : Same w a b o o' none none := .inr (.inr .none)

theorem orElse (h : Same w a b o o' x x') (hy : Same w a b o o' y y') :
    Same w a b o o' (x.orElse fun _ => y) (x'.orElse fun _ => y') := by
  rcases h with ⟨r, rfl, hr⟩ | ⟨r, rfl, hr⟩ | h
  · exact .inl ⟨r, rfl, hr⟩
  · exact .inr (.inl ⟨r, rfl, hr⟩)
  · cases h with
    | some h => exact .inr (.inr (.some h))
    | none => exact hy

theorem of_stuck (h : Same w a b o o' x x') (hy : y = x ∨ Past (o + Text.size w) y)
    (hy' : y' = x' ∨ Past (o' + Text.size w) y') : Same w a b o o' y y' := by
  rcases hy with rfl | hy
  · rcases hy' with rfl | hy'
    · exact h
    · exact .inr (.inl hy')
  · exact .inl hy

end Same

theorem Leads.le {p : Pattern} (h : Leads p r r') : r.cursor.offset ≤ r'.cursor.offset := by
  obtain ⟨u, -, hu, -⟩ := h.moves
  rw [hu.offset]
  exact Nat.le_add_right _ _

theorem Onward.run {n rounds : Nat} (hk : Onward n k) (p : Pattern) :
    Onward n (p.run rounds k) := by
  intro r hr r' h
  obtain ⟨r₁, hleads, h⟩ := exists_leads p h
  exact hk r₁ (Nat.lt_of_lt_of_le hr hleads.le) r' h

theorem Onward.repeated {n rounds : Nat} (hk : Onward n k) (p : Pattern) (greedy : Bool)
    (times : Nat) : Onward n (repeated (p.run rounds) greedy times k) := by
  intro r hr r' h
  obtain ⟨r₁, hleads, h⟩ := repeated_leads (exists_leads p) greedy times h
  exact hk r₁ (Nat.lt_of_lt_of_le hr hleads.le) r' h

theorem Onward.further {n : Nat} (hk : Onward n k) (m : Nat) :
    Onward n fun r => if m < r.cursor.offset then k r else none := by
  intro r hr r' h
  by_cases hm : m < r.cursor.offset
  · simp only [if_pos hm] at h
    exact hk r hr r' h
  · simp only [if_neg hm] at h
    cases h

theorem onward_some (n : Nat) : Onward n some := fun _ hr _ h => Option.some.inj h ▸ hr

namespace Beside

/-- A character of the stretch is taken by both, or by none. -/
theorem step (h : Beside w a b o o' r r') (hr : r.cursor.offset < o + Text.size w)
    (f : Char → Bool) : Option.Rel (Beside w a b o o') (r.step? f) (r'.step? f) := by
  obtain ⟨⟨u, v, hw, hrest, hrest', hoffset, hoffset'⟩, hcaptures⟩ := h
  cases v with
  | nil =>
      rw [hw, List.append_nil] at hr
      omega
  | cons c v =>
      rw [List.cons_append] at hrest hrest'
      rw [Reading.step?, Cursor.step?, hrest, Reading.step?, Cursor.step?, hrest']
      dsimp only
      by_cases hc : f c = true
      · have hsize : Text.size (u ++ [c]) = Text.size u + c.utf8Size := by
          rw [Text.size_append]
          rfl
        rw [if_pos hc, if_pos hc]
        refine .some ⟨⟨u ++ [c], v, by rw [hw]; simp, rfl, rfl, ?_, ?_⟩, hcaptures⟩
        · rw [hsize, ← Nat.add_assoc, ← hoffset]
        · rw [hsize, ← Nat.add_assoc, ← hoffset']
      · rw [if_neg hc, if_neg hc]
        exact .none

theorem keep (h : Beside w a b o o' r r') (h₁ : Beside w a b o o' r₁ r₁')
    (hle : r.cursor.offset ≤ r₁.cursor.offset) (number : Nat) :
    Beside w a b o o' (r₁.keep number r.cursor) (r₁'.keep number r'.cursor) := by
  obtain ⟨⟨u, v, hw, hrest, hrest', hoffset, hoffset'⟩, -⟩ := h
  obtain ⟨⟨u₁, v₁, hw₁, hrest₁, hrest₁', hoffset₁, hoffset₁'⟩, hcaptures⟩ := h₁
  obtain ⟨z, hu₁, hv⟩ := Text.exists_middle (hw.symm.trans hw₁) (by omega)
  have hmoves : Moves r.cursor z r₁.cursor := by
    refine ⟨by rw [hrest, hv, hrest₁, List.append_assoc], ?_⟩
    rw [hoffset₁, hoffset, hu₁, Text.size_append, Nat.add_assoc]
  have hmoves' : Moves r'.cursor z r₁'.cursor := by
    refine ⟨by rw [hrest', hv, hrest₁', List.append_assoc], ?_⟩
    rw [hoffset₁', hoffset', hu₁, Text.size_append, Nat.add_assoc]
  refine ⟨⟨u₁, v₁, hw₁, hrest₁, hrest₁', hoffset₁, hoffset₁'⟩, .cons ⟨rfl, ?_, ?_, ?_⟩ hcaptures⟩
  · exact hmoves'.textTo_eq.trans hmoves.textTo_eq.symm
  · simp only
    omega
  · simp only
    omega

end Beside

/-! ## Runs -/

/-- At the end of the stretch a repetition stops, or it goes on past the end. -/
theorem repeated_stuck {n rounds : Nat} {p : Pattern} (hk : Onward n k) (hr : r.cursor.offset = n)
    (greedy : Bool) : ∀ times : Nat, repeated (p.run rounds) greedy times k r = k r ∨
      Past n (repeated (p.run rounds) greedy times k r)
  | 0 => .inl rfl
  | times + 1 => by
      have hagain : ∀ {r'}, p.run rounds (fun r₁ => if r.cursor.offset < r₁.cursor.offset
          then repeated (p.run rounds) greedy times k r₁ else none) r = some r' →
            n < r'.cursor.offset := by
        intro r' h
        obtain ⟨r₁, -, h⟩ := exists_leads p h
        split at h
        · next hlt =>
            obtain ⟨r₂, hleads, h⟩ := repeated_leads (exists_leads p) greedy times h
            exact hk r₂ (by have := hleads.le; omega) r' h
        · cases h
      rw [repeated]
      cases hrun : p.run rounds (fun r₁ => if r.cursor.offset < r₁.cursor.offset
          then repeated (p.run rounds) greedy times k r₁ else none) r with
      | none =>
          left
          cases greedy with
          | true => rfl
          | false => cases k r <;> rfl
      | some r' =>
          cases greedy with
          | true => exact .inr ⟨r', rfl, hagain hrun⟩
          | false =>
              cases hstop : k r with
              | none => exact .inr ⟨r', rfl, hagain hrun⟩
              | some r₂ => exact .inl rfl

theorem repeated_same {rounds rounds' : Nat} {p : Pattern}
    (hp : ∀ {k k' : Reading → Option Reading} {r r' : Reading}, Beside w a b o o' r r' →
      (∀ {r₁ r₁'}, Beside w a b o o' r₁ r₁' → r.cursor.offset ≤ r₁.cursor.offset →
        Same w a b o o' (k r₁) (k' r₁')) →
        Onward (o + Text.size w) k → Onward (o' + Text.size w) k' →
          Same w a b o o' (p.run rounds k r) (p.run rounds' k' r'))
    (hon : Onward (o + Text.size w) k) (hon' : Onward (o' + Text.size w) k') (greedy : Bool) :
    ∀ (times times' : Nat) {r r' : Reading} {v : Text}, Beside w a b o o' r r' →
      (∀ {r₁ r₁'}, Beside w a b o o' r₁ r₁' → r.cursor.offset ≤ r₁.cursor.offset →
        Same w a b o o' (k r₁) (k' r₁')) →
      r.cursor.rest = v ++ a → v.length ≤ times → v.length ≤ times' →
        Same w a b o o' (repeated (p.run rounds) greedy times k r)
          (repeated (p.run rounds') greedy times' k' r')
  | times, times', r, r', [], h, hk, hrest, _, _ => by
      obtain ⟨⟨u, v, hw, hrest', -, hoffset, hoffset'⟩, -⟩ := id h
      have hv : v = [] := List.append_left_eq_self.mp (hrest'.symm.trans hrest)
      rw [hv, List.append_nil] at hw
      exact (hk h (Nat.le_refl _)).of_stuck (repeated_stuck hon (hw ▸ hoffset) greedy times)
        (repeated_stuck hon' (hw ▸ hoffset') greedy times')
  | times + 1, times' + 1, r, r', c :: v, h, hk, hrest, hlen, hlen' => by
      obtain ⟨⟨u, z, hw, hz, -, hoffset, hoffset'⟩, -⟩ := id h
      obtain rfl : z = c :: v := List.append_cancel_right (hz.symm.trans hrest)
      -- a further round leaves less of the stretch
      have hagain := @hp
        (fun r₁ => if r.cursor.offset < r₁.cursor.offset
          then repeated (p.run rounds) greedy times k r₁ else none)
        (fun r₁ => if r'.cursor.offset < r₁.cursor.offset
          then repeated (p.run rounds') greedy times' k' r₁ else none) _ _ h
        (fun {r₁ r₁'} h₁ hle => by
          obtain ⟨⟨u₁, v₁, hw₁, hrest₁, -, hoffset₁, hoffset₁'⟩, -⟩ := id h₁
          by_cases hlt : r.cursor.offset < r₁.cursor.offset
          · obtain ⟨y, hu₁, hv₁⟩ := Text.exists_middle (hw.symm.trans hw₁) (by omega)
            have hshort : v₁.length ≤ v.length := by
              cases y with
              | nil => exact absurd hlt (by rw [hoffset, hoffset₁, hu₁, List.append_nil]; omega)
              | cons d y =>
                  rw [(List.cons.inj hv₁).2, List.append_eq, List.length_append]
                  exact Nat.le_add_left _ _
            rw [List.length_cons] at hlen hlen'
            simp only [if_pos hlt, if_pos (show r'.cursor.offset < r₁'.cursor.offset by omega)]
            exact repeated_same hp hon hon' greedy times times' h₁
              (fun h₂ hle₂ => hk h₂ (Nat.le_trans hle hle₂)) hrest₁ (by omega) (by omega)
          · simp only [if_neg hlt, if_neg (show ¬ r'.cursor.offset < r₁'.cursor.offset by omega)]
            exact .none)
        ((hon.repeated p greedy times).further _) ((hon'.repeated p greedy times').further _)
      rw [repeated, repeated]
      cases greedy with
      | true => exact hagain.orElse (hk h (Nat.le_refl _))
      | false => exact (hk h (Nat.le_refl _)).orElse hagain

theorem step_stuck {n : Nat} (hk : Onward n k) (hr : r.cursor.offset = n) (f : Char → Bool) :
    (r.step? f).bind k = none ∨ Past n ((r.step? f).bind k) := by
  cases hstep : r.step? f with
  | none => exact .inl rfl
  | some r₁ =>
      have hlt : n < r₁.cursor.offset := by
        obtain ⟨u, -, hu, hspells, -⟩ := (Leads.char hstep).moves
        cases hspells with
        | @char _ c _ =>
            have hsize : Text.size [c] = c.utf8Size := rfl
            have := c.utf8Size_pos
            rw [hu.offset, hsize]
            omega
      cases hk₁ : k r₁ with
      | none => exact .inl hk₁
      | some r₂ => exact .inr ⟨r₂, hk₁, hk r₁ hlt r₂ hk₁⟩

/-- A blind pattern is read alike in both texts. -/
theorem run_same {rounds rounds' : Nat} (hrounds : w.length ≤ rounds)
    (hrounds' : w.length ≤ rounds') :
    ∀ (p : Pattern), p.blind = true → ∀ {k k' : Reading → Option Reading} {r r' : Reading},
      Beside w a b o o' r r' →
      (∀ {r₁ r₁'}, Beside w a b o o' r₁ r₁' → r.cursor.offset ≤ r₁.cursor.offset →
        Same w a b o o' (k r₁) (k' r₁')) →
        Onward (o + Text.size w) k → Onward (o' + Text.size w) k' →
          Same w a b o o' (p.run rounds k r) (p.run rounds' k' r')
  | .empty, _, _, _, _, _, h, hk, _, _ => hk h (Nat.le_refl _)
  | .char f, _, k, k', r, r', h, hk, hon, hon' => by
      obtain ⟨⟨u, v, hw, -, -, hoffset, hoffset'⟩, -⟩ := id h
      rw [run, run]
      by_cases hr : r.cursor.offset < o + Text.size w
      · have hrel := h.step hr f
        cases hstep : r.step? f with
        | none =>
            rw [hstep] at hrel
            cases hstep' : r'.step? f with
            | none => exact .none
            | some r₁' => rw [hstep'] at hrel; cases hrel
        | some r₁ =>
            rw [hstep] at hrel
            cases hstep' : r'.step? f with
            | none => rw [hstep'] at hrel; cases hrel
            | some r₁' =>
                rw [hstep'] at hrel
                cases hrel with
                | some h₁ => exact hk h₁ (Leads.char hstep).le
      · have hsize := congrArg Text.size hw
        rw [Text.size_append] at hsize
        exact Same.none.of_stuck (step_stuck hon (by omega) f) (step_stuck hon' (by omega) f)
  | .seq p q, hp, _, _, _, _, h, hk, hon, hon' =>
      have hp := Bool.and_eq_true _ _ ▸ hp
      run_same hrounds hrounds' p hp.1 h (fun h₁ hle => run_same hrounds hrounds' q hp.2 h₁
        (fun h₂ hle₂ => hk h₂ (Nat.le_trans hle hle₂)) hon hon') (hon.run q) (hon'.run q)
  | .alt p q, hp, _, _, _, _, h, hk, hon, hon' =>
      have hp := Bool.and_eq_true _ _ ▸ hp
      (run_same hrounds hrounds' p hp.1 h hk hon hon').orElse
        (run_same hrounds hrounds' q hp.2 h hk hon hon')
  | .many greedy p, hp, k, k', r, r', h, hk, hon, hon' => by
      obtain ⟨⟨u, v, hw, hrest, -⟩, -⟩ := id h
      have hlen : v.length ≤ w.length := by
        rw [hw, List.length_append]
        exact Nat.le_add_left _ _
      exact repeated_same (run_same hrounds hrounds' p hp) hon hon' greedy _ _ h hk hrest
        (Nat.le_trans hlen hrounds) (Nat.le_trans hlen hrounds')
  | .capture number p, hp, k, k', r, r', h, hk, hon, hon' =>
      run_same hrounds hrounds' p hp h (fun h₁ hle => hk (h.keep h₁ hle number) hle)
        (fun r₁ hr₁ => hon (r₁.keep number r.cursor) hr₁)
        (fun r₁ hr₁ => hon' (r₁.keep number r'.cursor) hr₁)

/-! ## Matches -/

section Matches
variable {p q : Pattern} {rounds rounds' : Nat} {c c' : Cursor}

/-- A blind pattern matches alike where neither match leaves the stretch. -/
theorem matchAt?_beside (hp : p.blind = true) (hc : c.rest = w ++ a) (hc' : c'.rest = w ++ b)
    (hrounds : w.length ≤ rounds) (hrounds' : w.length ≤ rounds')
    (hin : ∀ m, p.matchAt? rounds c = some m → m.stop ≤ c.offset + Text.size w)
    (hin' : ∀ m, p.matchAt? rounds' c' = some m → m.stop ≤ c'.offset + Text.size w) :
    Option.Rel (Match.Like c.offset c'.offset) (p.matchAt? rounds c) (p.matchAt? rounds' c') := by
  have hstart : Beside w a b c.offset c'.offset ⟨c, []⟩ ⟨c', []⟩ :=
    ⟨⟨[], w, rfl, hc, hc', rfl, rfl⟩, .nil⟩
  have hsame : Same w a b c.offset c'.offset (p.run rounds some ⟨c, []⟩)
      (p.run rounds' some ⟨c', []⟩) :=
    run_same hrounds hrounds' p hp hstart (fun h _ => .inr (.inr (.some h))) (onward_some _)
      (onward_some _)
  rw [matchAt?] at hin hin' ⊢
  rw [matchAt?]
  generalize p.run rounds some ⟨c, []⟩ = x at hsame hin ⊢
  generalize p.run rounds' some ⟨c', []⟩ = x' at hsame hin' ⊢
  rcases hsame with ⟨r, hr, hpast⟩ | ⟨r, hr, hpast⟩ | hrel
  · have hle := hin _ (by rw [hr]; rfl)
    simp only at hle
    omega
  · have hle := hin' _ (by rw [hr]; rfl)
    simp only at hle
    omega
  · cases hrel with
    | none => exact .none
    | some h =>
        obtain ⟨⟨u, v, hw, hrest, hrest', hoffset, hoffset'⟩, hcaptures⟩ := h
        have hmoves : ∀ {c d : Cursor} {z : Text}, c.rest = w ++ z → d.rest = v ++ z →
            d.offset = c.offset + Text.size u → c.textTo d = u := fun hc hd hoffset =>
          Moves.textTo_eq ⟨by rw [hc, hd, hw, List.append_assoc], hoffset⟩
        refine .some ⟨Nat.add_comm _ _, ?_, ?_, hcaptures⟩
        · simp only
          omega
        · simp only
          rw [hmoves hc hrest hoffset, hmoves hc' hrest' hoffset']

/-- A pattern that starts with a place and names no other one. -/
def leading : Pattern → Bool
  | seq wordEdge q | seq lineStart q => q.blind
  | _ => false

/-- Two characters in front of a place that a leading pattern does not tell apart. -/
def LikeBehind (x y : Option Char) : Prop :=
  x.any CharClass.isWord = y.any CharClass.isWord ∧ x.all (· == '\n') = y.all (· == '\n')

instance (x y : Option Char) : Decidable (LikeBehind x y) := inferInstanceAs (Decidable (_ ∧ _))

theorem matchAt?_like (hp : p.leading = true) (hc : c.rest = w ++ a) (hc' : c'.rest = w ++ b)
    (hbehind : LikeBehind c.behind c'.behind) (hhead : c.rest.head? = c'.rest.head?)
    (hrounds : w.length ≤ rounds) (hrounds' : w.length ≤ rounds')
    (hin : ∀ m, p.matchAt? rounds c = some m → m.stop ≤ c.offset + Text.size w)
    (hin' : ∀ m, p.matchAt? rounds' c' = some m → m.stop ≤ c'.offset + Text.size w) :
    Option.Rel (Match.Like c.offset c'.offset) (p.matchAt? rounds c) (p.matchAt? rounds' c') := by
  -- both places are there, or neither is
  have hplace : ∀ {place q : Pattern} {f : Cursor → Bool}, q.blind = true → p = seq place q →
      (∀ (n : Nat) (c : Cursor),
        (seq place q).matchAt? n c = if f c then q.matchAt? n c else none) →
      f c = f c' →
      Option.Rel (Match.Like c.offset c'.offset) (p.matchAt? rounds c) (p.matchAt? rounds' c') := by
    rintro place q f hq rfl hf hcc
    rw [hf] at hin hin' ⊢
    rw [hf]
    by_cases hfc : f c = true
    · have hfc' : f c' = true := hcc.symm.trans hfc
      rw [if_pos hfc] at hin ⊢
      rw [if_pos hfc'] at hin' ⊢
      exact matchAt?_beside hq hc hc' hrounds hrounds' hin hin'
    · have hfc' : ¬ f c' = true := fun h => hfc (hcc.trans h)
      rw [if_neg hfc, if_neg hfc']
      exact .none
  have hif : ∀ {f : Bool} {x : Option Reading} {c : Cursor}, (if f then x else none).map
      (fun r => (⟨c.offset, r.cursor.offset, c.textTo r.cursor, r.captures⟩ : Match)) =
      if f then x.map (fun r => ⟨c.offset, r.cursor.offset, c.textTo r.cursor, r.captures⟩)
        else none := fun {f _ _} => by cases f <;> rfl
  match p, hp with
  | seq wordEdge q, hp =>
      refine hplace (f := Cursor.atWordEdge) hp rfl (fun n c => hif) ?_
      rw [Cursor.atWordEdge, Cursor.atWordEdge, hbehind.1, hhead]
  | seq lineStart q, hp =>
      refine hplace (f := Cursor.atLineStart) hp rfl (fun n c => hif) ?_
      rw [Cursor.atLineStart, Cursor.atLineStart, hbehind.2]

end Matches

end Pattern

end ServiceGate
