/-
# Brackets that match

The kinds of bracket, the count of open ones of each kind, and what `closeIn` finds in a row of code
characters:

* `Neutral`: a row that closes what it opens changes no count and is passed over;
* `exists_closeIn`: where the count of a kind falls, there is a closer;
* `closeIn_lt`: of two searches of one row the one that waits for fewer closers ends first.

Nothing here looks at a text: rows of code characters are lists, and what is shown of them is used
of the text, of parts of it and of the text without comments alike.
-/
import ServiceGate.Proofs.Scan.Reading
import ServiceGate.Scan.Balance

namespace ServiceGate.Scan

/-- A kind of bracket. -/
inductive Bracket where
  | brace
  | square
  | paren
deriving DecidableEq, Repr

namespace Bracket

def opener : Bracket → Char
  | brace => '\x7b'
  | square => '['
  | paren => '('

def closer : Bracket → Char
  | brace => '\x7d'
  | square => ']'
  | paren => ')'

@[simp]
theorem closer?_opener (b : Bracket) : closer? b.opener = some b.closer := by
  cases b <;> rfl

@[simp]
theorem utf8Size_opener (b : Bracket) : b.opener.utf8Size = 1 := by
  cases b <;> rfl

@[simp]
theorem utf8Size_closer (b : Bracket) : b.closer.utf8Size = 1 := by
  cases b <;> rfl

theorem ne_of_ne {b b' : Bracket} (h : b ≠ b') :
    b.opener ≠ b'.opener ∧ b.opener ≠ b'.closer ∧ b.closer ≠ b'.opener ∧ b.closer ≠ b'.closer := by
  cases b <;> cases b' <;> first | exact absurd rfl h | decide

end Bracket

/-- A character that neither opens nor closes a group. -/
def isPlain (c : Char) : Bool := !isOpener c && !isCloser c

theorem isPlain_ne {c : Char} (h : isPlain c = true) (b : Bracket) :
    c ≠ b.opener ∧ c ≠ b.closer := by
  constructor <;> rintro rfl <;> cases b <;> exact absurd h (by decide)

/-! ## Counting -/

def Depths.count (d : Depths) : Bracket → Nat
  | .brace => d.braces
  | .square => d.squares
  | .paren => d.parens

section Count
variable {d d' : Depths} {c : Char}

theorem pred?_eq_some {m n : Nat} : pred? m = some n ↔ m = n + 1 := by
  cases m <;> simp [pred?, eq_comm]

/-- What one code character does to the count of one kind. -/
theorem Depths.count_track (h : d.track c = some d') (b : Bracket) :
    (c = b.opener ∧ d'.count b = d.count b + 1) ∨
    (c = b.closer ∧ d.count b = d'.count b + 1) ∨
    (c ≠ b.opener ∧ c ≠ b.closer ∧ d'.count b = d.count b) := by
  unfold Depths.track at h
  split at h
  · obtain rfl := Option.some.inj h
    cases b <;> simp [Bracket.opener, Bracket.closer, Depths.count]
  · obtain rfl := Option.some.inj h
    cases b <;> simp [Bracket.opener, Bracket.closer, Depths.count]
  · obtain rfl := Option.some.inj h
    cases b <;> simp [Bracket.opener, Bracket.closer, Depths.count]
  · obtain ⟨n, hn, rfl⟩ := Option.map_eq_some_iff.mp h
    cases b <;> simp [Bracket.opener, Bracket.closer, Depths.count, pred?_eq_some.mp hn]
  · obtain ⟨n, hn, rfl⟩ := Option.map_eq_some_iff.mp h
    cases b <;> simp [Bracket.opener, Bracket.closer, Depths.count, pred?_eq_some.mp hn]
  · obtain ⟨n, hn, rfl⟩ := Option.map_eq_some_iff.mp h
    cases b <;> simp [Bracket.opener, Bracket.closer, Depths.count, pred?_eq_some.mp hn]
  · obtain rfl := Option.some.inj h
    refine .inr (.inr ?_)
    cases b <;> simp_all [Bracket.opener, Bracket.closer]

theorem Depths.trackAll_append (d : Depths) (s t : Text) :
    d.trackAll (s ++ t) = (d.trackAll s).bind (·.trackAll t) := by
  induction s generalizing d with
  | nil => rfl
  | cons c s ih =>
      simp only [List.cons_append, Depths.trackAll]
      cases d.track c with
      | none => rfl
      | some d' => exact ih d'

theorem Depths.track_plain (h : isPlain c = true) (d : Depths) : d.track c = some d := by
  unfold Depths.track
  split <;> first | rfl | exact absurd h (by decide)

theorem trackAll_plain (d : Depths) : ∀ {w : Text}, (∀ c ∈ w, isPlain c = true) →
    d.trackAll w = some d
  | [], _ => rfl
  | c :: w, h => by
      obtain ⟨hc, hw⟩ := List.forall_mem_cons.mp h
      rw [Depths.trackAll, Depths.track_plain hc, Option.bind_some, trackAll_plain d hw]

theorem Depths.track_group (b : Bracket) (d : Depths) :
    (d.track b.opener).bind (·.track b.closer) = some d := by
  cases b <;> rfl

end Count

/-! ## Finding the closer -/

section Close
variable {b : Bracket} {cs : List (Nat × Char)} {n m depth : Nat}

theorem closeIn_opener (b : Bracket) (depth n : Nat) (cs : List (Nat × Char)) :
    closeIn b.opener b.closer depth ((n, b.opener) :: cs) =
      closeIn b.opener b.closer (depth + 1) cs := by
  simp [closeIn]

theorem closeIn_closer_zero (b : Bracket) (n : Nat) (cs : List (Nat × Char)) :
    closeIn b.opener b.closer 0 ((n, b.closer) :: cs) = some n := by
  cases b <;> rfl

theorem closeIn_closer_succ (b : Bracket) (depth n : Nat) (cs : List (Nat × Char)) :
    closeIn b.opener b.closer (depth + 1) ((n, b.closer) :: cs) =
      closeIn b.opener b.closer depth cs := by
  cases b <;> rfl

theorem closeIn_other {c : Char} (ho : c ≠ b.opener) (hc : c ≠ b.closer) (depth n : Nat)
    (cs : List (Nat × Char)) :
    closeIn b.opener b.closer depth ((n, c) :: cs) = closeIn b.opener b.closer depth cs := by
  simp [closeIn, ho, hc]

theorem closeIn_plain (b : Bracket) (depth : Nat) {us : List (Nat × Char)}
    (h : ∀ x ∈ us, isPlain x.2 = true) (cs : List (Nat × Char)) :
    closeIn b.opener b.closer depth (us ++ cs) = closeIn b.opener b.closer depth cs := by
  induction us with
  | nil => rfl
  | cons x us ih =>
      obtain ⟨ho, hc⟩ := isPlain_ne (h x List.mem_cons_self) b
      rw [List.cons_append, closeIn_other ho hc]
      exact ih fun y hy => h y (List.mem_cons_of_mem _ hy)

theorem closeIn_cons {x : Nat × Char} (h : closeIn b.opener b.closer depth (x :: cs) = some n) :
    x = (n, b.closer) ∨ ∃ k, closeIn b.opener b.closer k cs = some n := by
  obtain ⟨m, c⟩ := x
  by_cases ho : c = b.opener
  · subst ho
    rw [closeIn_opener] at h
    exact .inr ⟨_, h⟩
  by_cases hc : c = b.closer
  · subst hc
    cases depth with
    | zero =>
        rw [closeIn_closer_zero] at h
        obtain rfl := Option.some.inj h
        exact .inl rfl
    | succ depth =>
        rw [closeIn_closer_succ] at h
        exact .inr ⟨_, h⟩
  · rw [closeIn_other ho hc] at h
    exact .inr ⟨_, h⟩

theorem closeIn_append {us : List (Nat × Char)}
    (h : closeIn b.opener b.closer depth (us ++ cs) = some n) :
    (n, b.closer) ∈ us ∨ ∃ k, closeIn b.opener b.closer k cs = some n := by
  induction us generalizing depth with
  | nil => exact .inr ⟨depth, h⟩
  | cons x us ih =>
      obtain rfl | ⟨k, hk⟩ := closeIn_cons h
      · exact .inl List.mem_cons_self
      · exact (ih hk).imp_left (List.mem_cons_of_mem _)

theorem mem_of_closeIn (h : closeIn b.opener b.closer depth cs = some n) : (n, b.closer) ∈ cs := by
  rw [← List.append_nil cs] at h
  obtain h | ⟨k, h⟩ := closeIn_append h
  · exact h
  · cases h

/-- Where the count of a kind falls below what is open around a row, the row has the closer. -/
theorem exists_closeIn {d d' : Depths} (h : d.trackAll (cs.map (·.2)) = some d')
    (hd : d'.count b + depth < d.count b) :
    ∃ n, closeIn b.opener b.closer depth cs = some n := by
  induction cs generalizing d depth with
  | nil =>
      obtain rfl := Option.some.inj h
      omega
  | cons x cs ih =>
      obtain ⟨m, c⟩ := x
      obtain ⟨d₁, h₁, h₂⟩ := Option.bind_eq_some_iff.mp h
      obtain ⟨rfl, hcount⟩ | ⟨rfl, hcount⟩ | ⟨ho, hc, hcount⟩ := Depths.count_track h₁ b
      · rw [closeIn_opener]
        exact ih h₂ (by omega)
      · cases depth with
        | zero => exact ⟨m, closeIn_closer_zero b m cs⟩
        | succ depth =>
            rw [closeIn_closer_succ]
            exact ih h₂ (by omega)
      · rw [closeIn_other ho hc]
        exact ih h₂ (by omega)

/-- The search that waits for fewer closers ends first. -/
theorem closeIn_lt {i j : Nat} (hcs : cs.Pairwise fun x y => x.1 < y.1)
    (hn : closeIn b.opener b.closer (i + j + 1) cs = some n)
    (hm : closeIn b.opener b.closer i cs = some m) : m < n := by
  induction cs generalizing i with
  | nil => cases hn
  | cons x cs ih =>
      obtain ⟨k, c⟩ := x
      obtain ⟨hk, hrest⟩ := List.pairwise_cons.mp hcs
      by_cases ho : c = b.opener
      · subst ho
        rw [closeIn_opener] at hn hm
        exact ih hrest (by rwa [show i + 1 + j + 1 = i + j + 1 + 1 by omega]) hm
      by_cases hc : c = b.closer
      · subst hc
        rw [closeIn_closer_succ] at hn
        cases i with
        | zero =>
            rw [closeIn_closer_zero] at hm
            obtain rfl := Option.some.inj hm
            exact hk _ (mem_of_closeIn hn)
        | succ i =>
            rw [closeIn_closer_succ] at hm
            exact ih hrest (by rwa [show i + j + 1 = i + 1 + j by omega]) hm
      · rw [closeIn_other ho hc] at hn hm
        exact ih hrest hn hm

end Close

theorem matchingClose?_opener (b : Bracket) {p : Text} {o : Nat} (ho : o = Text.size p) (q : Text) :
    matchingClose? (p ++ b.opener :: q) o =
      closeIn b.opener b.closer 0 (codeOf (marksFrom .start (o + 1) q)) := by
  subst ho
  have hafter : Text.after (p ++ b.opener :: q) (Text.size p + 1) = q := by
    rw [← b.utf8Size_opener, Text.after_append_cons]
  rw [matchingClose?, Text.after_append]
  simp only [Bracket.closer?_opener, codeChars_eq, marks, hafter]

/-! ## Rows that close what they open -/

/-- A row of code characters that no count and no search takes notice of. -/
structure Neutral (cs : List (Nat × Char)) : Prop where
  trackAll : ∀ d : Depths, d.trackAll (cs.map (·.2)) = some d
  closeIn : ∀ (b : Bracket) (depth : Nat) (rest : List (Nat × Char)),
    closeIn b.opener b.closer depth (cs ++ rest) = closeIn b.opener b.closer depth rest

namespace Neutral

theorem nil : Neutral [] := ⟨fun _ => rfl, fun _ _ _ => rfl⟩

theorem append {cs cs' : List (Nat × Char)} (h : Neutral cs) (h' : Neutral cs') :
    Neutral (cs ++ cs') where
  trackAll d := by
    rw [List.map_append, Depths.trackAll_append, h.trackAll, Option.bind_some, h'.trackAll]
  closeIn b depth rest := by
    rw [List.append_assoc, h.closeIn, h'.closeIn]

theorem plain {n : Nat} {c : Char} (h : isPlain c = true) : Neutral [(n, c)] where
  trackAll d := by
    show (d.track c).bind some = some d
    rw [Depths.track_plain h, Option.bind_some]
  closeIn b depth rest := by
    obtain ⟨ho, hc⟩ := isPlain_ne h b
    rw [List.singleton_append, closeIn_other ho hc]

theorem group (b : Bracket) (n m : Nat) {cs : List (Nat × Char)} (h : Neutral cs) :
    Neutral ((n, b.opener) :: (cs ++ [(m, b.closer)])) where
  trackAll d := by
    obtain ⟨d₁, ho, hc⟩ := Option.bind_eq_some_iff.mp (Depths.track_group b d)
    rw [List.map_cons, List.map_append, List.map_singleton, Depths.trackAll, ho, Option.bind_some,
      Depths.trackAll_append, h.trackAll, Option.bind_some, Depths.trackAll, hc]
    rfl
  closeIn b' depth rest := by
    rw [List.cons_append, List.append_assoc, List.singleton_append]
    by_cases hb : b = b'
    · subst hb
      rw [closeIn_opener, h.closeIn, closeIn_closer_succ]
    · obtain ⟨h₁, h₂, h₃, h₄⟩ := Bracket.ne_of_ne hb
      rw [closeIn_other h₁ h₂, h.closeIn, closeIn_other h₃ h₄]

end Neutral

end ServiceGate.Scan
