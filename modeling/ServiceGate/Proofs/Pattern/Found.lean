/-
# What a pattern describes is found

A run tries every way to read a pattern.  So where one of them lets the continuation succeed, the
run succeeds (`isSome_run`), provided that each round of a repetition takes a character (`proper`).

Which way it takes is told by `Prefers p r r'`: the run goes on from `r'` if it can go on from there
at all.  Literal text, repetitions that go on as far as they can, and parts that are there or cannot
be there are preferred, and preferred parts in a row are a preferred whole; so a match of text that
leaves no choice is known with its groups (`matchAt?_of_prefers`).  A pattern matches where it can
be read (`ReadsAt.matchesAt`).
-/
import ServiceGate.Proofs.Pattern.Search

namespace ServiceGate

namespace Pattern

variable {p q : Pattern} {rounds : Nat} {k : Reading → Option Reading} {r r' r₁ : Reading}
  {f : Char → Bool} {front rest u w : Text} {cs : List Capture}

def proper : Pattern → Bool
  | empty | char _ | textStart | lineStart | wordEdge => true
  | seq p q | alt p q => p.proper && q.proper
  | many _ p => p.takes && p.proper
  | capture _ p => p.proper

theorem Leads.length_le (h : Leads p r r') : r'.cursor.rest.length ≤ r.cursor.rest.length := by
  obtain ⟨u, -, hu, -⟩ := h.moves
  rw [hu.rest, List.length_append]
  exact Nat.le_add_left _ _

theorem Leads.lt (h : Leads p r r') (hp : p.takes = true) :
    r.cursor.offset < r'.cursor.offset ∧ r'.cursor.rest.length < r.cursor.rest.length := by
  obtain ⟨u, -, hu, hspells, -⟩ := h.moves
  have hne := spells_ne_nil hspells hp
  have hsize : Text.size u ≠ 0 := fun hzero => hne (Text.eq_nil_of_size hzero)
  have hlength := List.length_pos_of_ne_nil hne
  rw [hu.offset, hu.rest, List.length_append]
  omega

theorem isSome_orElse_left {α : Type} {o : Option α} {f : Unit → Option α} (h : o.isSome = true) :
    (o.orElse f).isSome = true := by
  obtain ⟨a, rfl⟩ := Option.isSome_iff_exists.mp h
  rfl

theorem isSome_orElse_right {α : Type} {o : Option α} {f : Unit → Option α}
    (h : (f ()).isSome = true) :
    (o.orElse f).isSome = true := by
  cases o with
  | none => exact h
  | some a => rfl

theorem isSome_repeated_stop {body : (Reading → Option Reading) → Reading → Option Reading}
    (greedy : Bool) (times : Nat) (hk : (k r).isSome = true) :
    (repeated body greedy times k r).isSome = true := by
  cases times with
  | zero => exact hk
  | succ times =>
      rw [repeated]
      cases greedy with
      | true => exact isSome_orElse_right hk
      | false => exact isSome_orElse_left hk

theorem isSome_repeated_more {body : (Reading → Option Reading) → Reading → Option Reading}
    {times : Nat} (greedy : Bool) (h : (body (fun r' => if r.cursor.offset < r'.cursor.offset then
      repeated body greedy times k r' else none) r).isSome = true) :
    (repeated body greedy (times + 1) k r).isSome = true := by
  rw [repeated]
  cases greedy with
  | true => exact isSome_orElse_left h
  | false => exact isSome_orElse_right h

/-- A run succeeds if a way to read the pattern leads to where the continuation succeeds. -/
theorem isSome_run : ∀ (p : Pattern), p.proper = true →
    ∀ {k : Reading → Option Reading} {r r' : Reading},
    Leads p r r' → r.cursor.rest.length ≤ rounds → (k r').isSome = true →
      (p.run rounds k r).isSome = true := by
  intro p
  induction p with
  | empty =>
      rintro - k r r' (_ | _) - hk
      exact hk
  | char f =>
      rintro - k r r' (_ | hstep) - hk
      rw [run, hstep]
      exact hk
  | textStart =>
      rintro - k r r' (_ | _ | hbehind) - hk
      rw [run, hbehind]
      exact hk
  | lineStart =>
      rintro - k r r' (_ | _ | _ | hline) - hk
      rw [run, if_pos hline]
      exact hk
  | wordEdge =>
      rintro - k r r' (_ | _ | _ | _ | hedge) - hk
      rw [run, if_pos hedge]
      exact hk
  | seq p q ihp ihq =>
      intro hproper k r r' h hrounds hk
      obtain ⟨hp, hq⟩ := Bool.and_eq_true_iff.mp hproper
      cases h with
      | seq hfirst hsecond =>
          exact ihp hp hfirst hrounds (ihq hq hsecond (Nat.le_trans hfirst.length_le hrounds) hk)
  | alt p q ihp ihq =>
      intro hproper k r r' h hrounds hk
      obtain ⟨hp, hq⟩ := Bool.and_eq_true_iff.mp hproper
      cases h with
      | altFirst hfirst => exact isSome_orElse_left (ihp hp hfirst hrounds hk)
      | altSecond hsecond => exact isSome_orElse_right (ihq hq hsecond hrounds hk)
  | many greedy p ih =>
      intro hproper k r r' h hrounds hk
      obtain ⟨htakes, hp⟩ := Bool.and_eq_true_iff.mp hproper
      rw [run]
      -- the number of rounds that are left bounds what is left of the text
      suffices hall : ∀ (times : Nat) {r : Reading}, Leads (many greedy p) r r' →
          r.cursor.rest.length ≤ times → r.cursor.rest.length ≤ rounds →
            (repeated (p.run rounds) greedy times k r).isSome = true from
        hall rounds h hrounds hrounds
      intro times
      induction times with
      | zero =>
          intro r h htimes _
          cases h with
          | manyNone => exact hk
          | manyMore hfirst _ => exact absurd (hfirst.lt htakes).2 (by omega)
      | succ times ihtimes =>
          intro r h htimes hrounds
          cases h with
          | manyNone => exact isSome_repeated_stop greedy _ hk
          | manyMore hfirst hmore =>
              obtain ⟨hoffset, hlength⟩ := hfirst.lt htakes
              refine isSome_repeated_more greedy (ih hp hfirst hrounds ?_)
              rw [if_pos hoffset]
              exact ihtimes hmore (by omega) (by omega)
  | capture number p ih =>
      rintro hproper k r r' (_ | _ | _ | _ | _ | _ | _ | _ | _ | _ | hbody) hrounds hk
      exact ih hproper hbody hrounds hk

/-! ## Readings past a part of the text -/

end Pattern

/-- The reading that has come past a part of the text. -/
def Reading.past (front rest : Text) (cs : List Capture) : Reading :=
  ⟨⟨front.getLast?, Text.size front, rest⟩, cs⟩

/-- A group that has read `u` behind a part of the text. -/
def Capture.past (number : Nat) (front u : Text) : Capture :=
  ⟨number, Text.size front, Text.size front + Text.size u, u⟩

namespace Pattern

theorem step?_past {c : Char} (hc : f c = true) :
    (Reading.past front (c :: rest) cs).step? f = some (Reading.past (front ++ [c]) rest cs) := by
  simp [Reading.step?, Cursor.step?, Reading.past, hc, Text.size_append, Text.size]

theorem keep_past (cs' : List Capture) (number : Nat) :
    (Reading.past (front ++ u) rest cs).keep number (Reading.past front (u ++ rest) cs').cursor =
      Reading.past (front ++ u) rest (.past number front u :: cs) := by
  have htext : (Reading.past front (u ++ rest) cs').cursor.textTo
      (Reading.past (front ++ u) rest cs).cursor = u :=
    Moves.textTo_eq ⟨rfl, Text.size_append front u⟩
  rw [Reading.keep, htext]
  simp only [Reading.past, Capture.past, Text.size_append]

theorem leads_many {greedy : Bool} (rest : Text) (cs : List Capture) : ∀ (u front : Text),
    (∀ c ∈ u, f c = true) → Leads (many greedy (char f)) (Reading.past front (u ++ rest) cs)
      (Reading.past (front ++ u) rest cs) := by
  intro u
  induction u with
  | nil =>
      intro front _
      rw [List.append_nil, List.nil_append]
      exact .manyNone
  | cons c u ih =>
      intro front hu
      have hmore := ih (front ++ [c]) fun d hd => hu d (List.mem_cons_of_mem c hd)
      rw [List.append_assoc, List.singleton_append] at hmore
      exact .manyMore (.char (step?_past (hu c List.mem_cons_self))) hmore

theorem matchesAt_of_leads (hp : p.proper = true) (h : Leads p (Reading.past front rest []) r') :
    p.MatchesAt (front ++ rest) (Text.size front) := by
  refine ⟨front, rest, rfl, rfl, ?_⟩
  rw [matchAt?, Option.isSome_map]
  refine isSome_run p hp h ?_ rfl
  simp only [List.length_append]
  omega

/-! ## Text that leaves no choice -/

/-- A run goes on from `r'`, if it can go on from there. -/
def Prefers (rounds : Nat) (p : Pattern) (r r' : Reading) : Prop :=
  ∀ k : Reading → Option Reading, (k r').isSome = true → p.run rounds k r = k r'

/-- A run leads nowhere. -/
def Refuses (rounds : Nat) (p : Pattern) (r : Reading) : Prop :=
  ∀ k : Reading → Option Reading, p.run rounds k r = none

namespace Prefers

theorem leads (h : Prefers rounds p r r') : Leads p r r' := by
  obtain ⟨r₁, hleads, hsome⟩ := exists_leads p (h some rfl)
  rwa [Option.some.inj hsome] at hleads

theorem empty : Prefers rounds .empty r r := fun _ _ => rfl

theorem char (h : r.step? f = some r') : Prefers rounds (.char f) r r' := by
  intro k _
  rw [run, h, Option.bind_some]

theorem lineStart (h : r.cursor.atLineStart = true) : Prefers rounds .lineStart r r := fun _ _ =>
  if_pos h

theorem seq (h : Prefers rounds p r r₁) (h' : Prefers rounds q r₁ r') :
    Prefers rounds (.seq p q) r r' := by
  intro k hk
  have hq := h' k hk
  rw [run, h _ (by rwa [hq]), hq]

theorem assoc {s : Pattern} (h : Prefers rounds (.seq (.seq p q) s) r r') :
    Prefers rounds (.seq p (.seq q s)) r r' := fun k hk => h k hk

theorem first (h : Prefers rounds p r r') (q : Pattern) : Prefers rounds (.alt p q) r r' := by
  intro k hk
  rw [run, h k hk]
  obtain ⟨r'', hr''⟩ := Option.isSome_iff_exists.mp hk
  rw [hr'']
  rfl

theorem second (hp : Refuses rounds p r) (h : Prefers rounds q r r') :
    Prefers rounds (.alt p q) r r' := by
  intro k hk
  rw [run, hp k]
  exact h k hk

theorem present (h : Prefers rounds p r r') : Prefers rounds (optional p) r r' := h.first _

theorem missing (hp : Refuses rounds p r) : Prefers rounds (optional p) r r := .second hp .empty

theorem capture {number : Nat} (cs' : List Capture)
    (h : Prefers rounds p (Reading.past front (u ++ rest) cs)
      (Reading.past (front ++ u) rest cs')) :
    Prefers rounds (.capture number p) (Reading.past front (u ++ rest) cs)
      (Reading.past (front ++ u) rest (.past number front u :: cs')) := by
  intro k hk
  rw [run, h _ (by rwa [keep_past]), keep_past]

theorem single {c : Char} (hc : f c = true) : Prefers rounds (.char f)
    (Reading.past front (c :: rest) cs) (Reading.past (front ++ [c]) rest cs) :=
  char (step?_past hc)

theorem literal : ∀ (w front : Text), Prefers rounds (Pattern.literal w)
    (Reading.past front (w ++ rest) cs) (Reading.past (front ++ w) rest cs)
  | [], front => by
      rw [List.append_nil]
      exact empty
  | [c], front => single (by simp)
  | c :: d :: w, front => by
      have hmore : Prefers rounds (Pattern.literal (d :: w))
          (Reading.past (front ++ [c]) (d :: w ++ rest) cs)
          (Reading.past (front ++ [c] ++ (d :: w)) rest cs) := literal (d :: w) (front ++ [c])
      rw [List.append_assoc, List.singleton_append] at hmore
      exact seq (single (by simp)) hmore

/-- A greedy repetition goes on to the end of its class. -/
theorem repeated_eq (rounds : Nat) (cs : List Capture) (hrest : ∀ c ∈ rest.head?, f c = false) :
    ∀ (u front : Text) {times : Nat}, (∀ c ∈ u, f c = true) → u.length ≤ times →
      ∀ k : Reading → Option Reading, (k (Reading.past (front ++ u) rest cs)).isSome = true →
        repeated ((Pattern.char f).run rounds) true times k (Reading.past front (u ++ rest) cs) =
          k (Reading.past (front ++ u) rest cs)
  | [], front, 0, _, _, k, _ => by rw [List.append_nil]; rfl
  | [], front, times + 1, _, _, k, hk => by
      have hstep : (Reading.past front rest cs).step? f = none := by
        cases rest with
        | nil => rfl
        | cons c rest => simp [Reading.step?, Cursor.step?, Reading.past, hrest c rfl]
      rw [List.nil_append, List.append_nil, repeated, if_pos rfl, run, hstep]
      rfl
  | c :: u, front, times + 1, hu, htimes, k, hk => by
      have hfurther : (Reading.past front (c :: u ++ rest) cs).cursor.offset <
          (Reading.past (front ++ [c]) (u ++ rest) cs).cursor.offset := by
        have := Char.utf8Size_pos c
        simp only [Reading.past, Text.size_append, Text.size]
        omega
      have hmore := repeated_eq rounds cs hrest u (front ++ [c])
        (fun d hd => hu d (List.mem_cons_of_mem c hd)) (Nat.le_of_succ_le_succ htimes) k
        (by rwa [List.append_assoc])
      rw [List.append_assoc, List.singleton_append] at hmore
      obtain ⟨r'', hr''⟩ := Option.isSome_iff_exists.mp hk
      rw [repeated, if_pos rfl, run, List.cons_append, step?_past (hu c List.mem_cons_self),
        Option.bind_some]
      simp only [List.cons_append] at hfurther
      rw [if_pos hfurther, hmore, hr'']
      rfl

theorem star (hu : ∀ c ∈ u, f c = true) (hrest : ∀ c ∈ rest.head?, f c = false)
    (hrounds : u.length ≤ rounds) (front : Text) (cs : List Capture) :
    Prefers rounds (Pattern.star (.char f)) (Reading.past front (u ++ rest) cs)
      (Reading.past (front ++ u) rest cs) :=
  repeated_eq rounds cs hrest u front hu hrounds

theorem star_nil (hrest : ∀ c ∈ rest.head?, f c = false) : Prefers rounds (Pattern.star (.char f))
    (Reading.past front rest cs) (Reading.past front rest cs) := by
  have h : Prefers rounds (Pattern.star (.char f)) (Reading.past front ([] ++ rest) cs)
      (Reading.past (front ++ []) rest cs) := star (by simp) hrest (Nat.zero_le _) _ _
  rwa [List.append_nil] at h

theorem plus (hne : u ≠ []) (hu : ∀ c ∈ u, f c = true) (hrest : ∀ c ∈ rest.head?, f c = false)
    (hrounds : u.length ≤ rounds) (front : Text) (cs : List Capture) :
    Prefers rounds (Pattern.plus (.char f)) (Reading.past front (u ++ rest) cs)
      (Reading.past (front ++ u) rest cs) := by
  cases u with
  | nil => exact absurd rfl hne
  | cons c u =>
      have hmore :
          Prefers rounds (Pattern.star (.char f)) (Reading.past (front ++ [c]) (u ++ rest) cs)
          (Reading.past (front ++ [c] ++ u) rest cs) :=
        star (fun d hd => hu d (List.mem_cons_of_mem c hd)) hrest (Nat.le_of_succ_le hrounds) _ _
      rw [List.append_assoc, List.singleton_append] at hmore
      exact seq (single (hu c List.mem_cons_self)) hmore

end Prefers

namespace Refuses

theorem char {c : Char} (hc : f c = false) :
    Refuses rounds (.char f) (Reading.past front (c :: rest) cs) := by
  intro k
  simp [run, Reading.step?, Cursor.step?, Reading.past, hc]

theorem seq (h : Refuses rounds p r) (q : Pattern) : Refuses rounds (.seq p q) r := fun _ => h _

theorem capture (number : Nat) (h : Refuses rounds p r) : Refuses rounds (.capture number p) r :=
  fun _ => h _

theorem literal {c d : Char} {w : Text} (hc : (d == c) = false) :
    Refuses rounds (Pattern.literal (c :: w)) (Reading.past front (d :: rest) cs) := by
  have hchar : Refuses rounds (.char (· == c)) (Reading.past front (d :: rest) cs) := char hc
  cases w with
  | nil => exact hchar
  | cons e w => exact hchar.seq _

end Refuses

theorem refuses_of_spells (h : ∀ u v, r.cursor.rest = u ++ v → ¬ Spells p u) :
    Refuses rounds p r := by
  intro k
  cases hrun : p.run rounds k r with
  | none => rfl
  | some r'' =>
      obtain ⟨r', hleads, -⟩ := exists_leads p hrun
      obtain ⟨u, -, hmoves, hspells, -⟩ := hleads.moves
      exact absurd hspells (h u _ hmoves.rest)

theorem matchAt?_of_prefers (h : Prefers rounds p (Reading.past front (u ++ rest) [])
      (Reading.past (front ++ u) rest cs)) :
    p.matchAt? rounds ⟨front.getLast?, Text.size front, u ++ rest⟩ =
      some ⟨Text.size front, Text.size front + Text.size u, u, cs⟩ := by
  have hrun : p.run rounds some ⟨⟨front.getLast?, Text.size front, u ++ rest⟩, []⟩ =
      some (Reading.past (front ++ u) rest cs) := h some rfl
  have htext : (⟨front.getLast?, Text.size front, u ++ rest⟩ : Cursor).textTo
      (Reading.past (front ++ u) rest cs).cursor = u :=
    Moves.textTo_eq ⟨rfl, Text.size_append front u⟩
  rw [matchAt?, hrun, Option.map_some, htext]
  simp only [Reading.past, Text.size_append]

/-! ## Reading parts -/

theorem leads_literal (w front rest : Text) (cs : List Capture) :
    Leads (literal w) (Reading.past front (w ++ rest) cs) (Reading.past (front ++ w) rest cs) := by
  have h : Prefers 0 (literal w) (Reading.past front (w ++ rest) cs)
      (Reading.past (front ++ w) rest cs) :=
    .literal w front
  exact h.leads

theorem leads_single {f : Char → Bool} (hc : f c = true) (front rest : Text) (cs : List Capture) :
    Leads (char f) (Reading.past front ([c] ++ rest) cs) (Reading.past (front ++ [c]) rest cs) :=
  .char (step?_past hc)

theorem leads_wordEdge (h : front.getLast?.any CharClass.isWord ≠ rest.head?.any CharClass.isWord) :
    Leads wordEdge (Reading.past front rest cs) (Reading.past front rest cs) :=
  .wordEdge (by simpa [Cursor.atWordEdge, Reading.past] using h)

theorem leads_gap (hw : w ≠ [] ∧ ∀ c ∈ w, CharClass.isSpace c = true) (front rest : Text)
    (cs : List Capture) :
    Leads gap (Reading.past front (w ++ rest) cs) (Reading.past (front ++ w) rest cs) := by
  obtain ⟨hne, hspace⟩ := hw
  obtain ⟨c, w, rfl⟩ := List.exists_cons_of_ne_nil hne
  obtain ⟨hc, hw⟩ := List.forall_mem_cons.mp hspace
  have hmore : Leads (star space) (Reading.past (front ++ [c]) (w ++ rest) cs)
      (Reading.past (front ++ [c] ++ w) rest cs) := leads_many rest cs w (front ++ [c]) hw
  rw [List.append_assoc] at hmore
  exact .seq (leads_single hc front (w ++ rest) cs) hmore

/-- The pattern can be read from a place on. -/
def ReadsAt (p : Pattern) (t : Text) (n : Nat) : Prop :=
  ∃ front rest r, t = front ++ rest ∧ n = Text.size front ∧ Leads p (Reading.past front rest []) r

theorem ReadsAt.matchesAt {p : Pattern} {t : Text} {n : Nat} (h : p.ReadsAt t n)
    (hp : p.proper = true) : p.MatchesAt t n := by
  obtain ⟨front, rest, r, rfl, rfl, hleads⟩ := h
  exact matchesAt_of_leads hp hleads

/-- The pattern reads a text wherever it stands. -/
def ReadsText (p : Pattern) (w : Text) : Prop :=
  ∀ (front rest : Text) (cs : List Capture),
    Leads p (Reading.past front (w ++ rest) cs) (Reading.past (front ++ w) rest cs)

end Pattern

end ServiceGate
