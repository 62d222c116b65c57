/-
# What a search finds of what is there

A search takes the leftmost match, goes on behind it, and so on.  Where the pattern matches at a
place (`MatchesAt`) and yet no match is found that starts there, one that was found reaches over the
place (`exists_covering`), and there is no other one (`eq_of_covering`).

`takes` and `Only` tell from the form of a pattern that it takes a character at least, and that it
takes no others than those of a class.

The search is an induction along the text with the end of the last match as its state: a place in
front of that end is covered, and from there on the matcher is tried at every place.  So the only
way for a match to be passed over is to start inside of another one.
-/
import ServiceGate.Proofs.Pattern.Sound
import ServiceGate.Proofs.Text.Bounds

namespace ServiceGate

namespace Pattern

variable {p q : Pattern} {t u : Text} {n rounds : Nat} {m m' : Match}

/-! ## Matches and places -/

/-- A match of the pattern starts at a place of the text. -/
def MatchesAt (p : Pattern) (t : Text) (n : Nat) : Prop :=
  ∃ front rest, t = front ++ rest ∧ n = Text.size front ∧
    (p.matchAt? (t.length + 1) ⟨front.getLast?, n, rest⟩).isSome = true

theorem exists_covering_from (hp : ∀ u, Spells p u → u ≠ []) : ∀ (w : Text) {front rest : Text}
    {free : Nat}, free ≤ Text.size (front ++ w) →
      (p.matchAt? rounds ⟨(front ++ w).getLast?, Text.size (front ++ w), rest⟩).isSome = true →
        ∃ m ∈ p.allFrom rounds free front.getLast? (Text.size front) (w ++ rest),
          m.start ≤ Text.size (front ++ w) ∧ Text.size (front ++ w) < m.stop
  | [], front, rest, free, hfree, h => by
      rw [List.append_nil] at hfree h ⊢
      obtain ⟨m, hm⟩ := Option.isSome_iff_exists.mp h
      obtain ⟨hin, hstart⟩ := in_of_matchAt? hm
      have hpos : 0 < Text.size m.text := Nat.pos_of_ne_zero fun hzero =>
        hp _ hin.spells (Text.eq_nil_of_size hzero)
      have hstop := hin.stop
      refine ⟨m, ?_, by omega, by omega⟩
      cases rest with
      | nil =>
          rw [List.nil_append, allFrom, if_pos hfree, hm]
          exact List.mem_singleton_self m
      | cons c rest =>
          rw [List.nil_append, allFrom, if_pos hfree, hm]
          exact List.mem_cons_self
  | c :: w, front, rest, free, hfree, h => by
      have hnext : front ++ c :: w = (front ++ [c]) ++ w := by simp
      have hfront : Text.size front + c.utf8Size = Text.size (front ++ [c]) := by
        simp [Text.size_append, Text.size]
      have hbehind : some c = (front ++ [c]).getLast? := by simp
      have hle : Text.size front ≤ Text.size (front ++ c :: w) := by
        rw [Text.size_append]
        omega
      rw [List.cons_append, allFrom, hfront, hbehind]
      split
      · next m' hm' =>
          split at hm'
          · obtain ⟨-, hstart⟩ := in_of_matchAt? hm'
            by_cases hstop : m'.stop ≤ Text.size (front ++ c :: w)
            · rw [hnext] at h hstop ⊢
              obtain ⟨m, hm, hcover⟩ := exists_covering_from hp w hstop h
              exact ⟨m, List.mem_cons_of_mem m' hm, hcover⟩
            · exact ⟨m', List.mem_cons_self, by omega, by omega⟩
          · cases hm'
      · rw [hnext] at h hfree ⊢
        exact exists_covering_from hp w hfree h

/-- A place at which the pattern matches lies in a match that the search finds. -/
theorem exists_covering (hp : ∀ u, Spells p u → u ≠ []) (h : p.MatchesAt t n) :
    ∃ m ∈ p.all t, m.start ≤ n ∧ n < m.stop := by
  obtain ⟨front, rest, rfl, rfl, hm⟩ := h
  exact @exists_covering_from p _ hp front [] rest 0 (Nat.zero_le _) hm

theorem eq_or_stop_le (hm : m ∈ p.all t) (hm' : m' ∈ p.all t) :
    m = m' ∨ m.stop ≤ m'.start ∨ m'.stop ≤ m.start := by
  obtain ⟨i, hi, rfl⟩ := List.mem_iff_getElem.mp hm
  obtain ⟨j, hj, rfl⟩ := List.mem_iff_getElem.mp hm'
  have horder := List.pairwise_iff_getElem.mp (p.pairwise_all t)
  rcases Nat.lt_trichotomy i j with hlt | rfl | hlt
  · exact .inr (.inl (horder i j hi hj hlt))
  · exact .inl rfl
  · exact .inr (.inr (horder j i hj hi hlt))

/-- Only one match that the search finds reaches over a place. -/
theorem eq_of_covering (hm : m ∈ p.all t) (hm' : m' ∈ p.all t) (h : m.start ≤ n ∧ n < m.stop)
    (h' : m'.start ≤ n ∧ n < m'.stop) : m = m' :=
  (eq_or_stop_le hm hm').resolve_right (by omega)

theorem MatchesAt.exists_spells (h : p.MatchesAt t n) :
    ∃ front u back, t = front ++ (u ++ back) ∧ n = Text.size front ∧ Spells p u := by
  obtain ⟨front, rest, rfl, rfl, hm⟩ := h
  obtain ⟨m, hm⟩ := Option.isSome_iff_exists.mp hm
  obtain ⟨hin, hstart⟩ := in_of_matchAt? hm
  obtain ⟨front', back, ht, hfront⟩ := hin.cut
  rw [List.append_assoc] at ht
  obtain ⟨w, hw, -⟩ := Text.exists_middle ht (by omega)
  have hnil : w = [] := Text.eq_nil_of_size (by
    rw [hw, Text.size_append] at hfront
    omega)
  rw [hnil, List.append_nil] at hw
  subst hw
  exact ⟨front', m.text, back, ht, rfl, hin.spells⟩

/-! ## The characters that a pattern takes -/

/-- Whether every reading of a pattern takes a character. -/
def takes : Pattern → Bool
  | empty | textStart | lineStart | wordEdge | many _ _ => false
  | char _ => true
  | seq p q => p.takes || q.takes
  | alt p q => p.takes && q.takes
  | capture _ p => p.takes

theorem spells_ne_nil (h : Spells p u) (hp : p.takes = true) : u ≠ [] := by
  induction h with
  | empty | textStart | lineStart | wordEdge | manyNone | manyMore => cases hp
  | char => exact List.cons_ne_nil _ _
  | seq _ _ ih ih' =>
      intro hnil
      obtain ⟨hu, hv⟩ := List.append_eq_nil_iff.mp hnil
      rcases Bool.or_eq_true _ _ ▸ hp with hp | hp
      · exact ih hp hu
      · exact ih' hp hv
  | altFirst _ ih => exact ih (Bool.and_eq_true _ _ ▸ hp).1
  | altSecond _ ih => exact ih (Bool.and_eq_true _ _ ▸ hp).2
  | capture _ ih => exact ih hp

theorem start_lt_stop (h : m.In p t) (hp : p.takes = true) : m.start < m.stop := by
  have hpos : Text.size m.text ≠ 0 := fun hzero =>
    spells_ne_nil h.spells hp (Text.eq_nil_of_size hzero)
  rw [h.stop]
  omega

/-- A pattern takes characters of a class only. -/
def Only (f : Char → Bool) : Pattern → Prop
  | empty | textStart | lineStart | wordEdge => True
  | char p => ∀ c, p c = true → f c = true
  | seq p q | alt p q => p.Only f ∧ q.Only f
  | many _ p | capture _ p => p.Only f

variable {f : Char → Bool}

theorem Only.of_spells (h : Spells p u) (hp : p.Only f) : ∀ c ∈ u, f c = true := by
  induction h with
  | empty | textStart | lineStart | wordEdge | manyNone =>
      exact fun _ hc => absurd hc List.not_mem_nil
  | char hc =>
      intro c hmem
      rw [List.mem_singleton.mp hmem]
      exact hp _ hc
  | seq _ _ ih ih' => exact fun c hc => (List.mem_append.mp hc).elim (ih hp.1 c) (ih' hp.2 c)
  | altFirst _ ih => exact ih hp.1
  | altSecond _ ih => exact ih hp.2
  | manyMore _ _ ih ih' => exact fun c hc => (List.mem_append.mp hc).elim (ih hp c) (ih' hp c)
  | capture _ ih => exact ih hp

theorem only_literal : ∀ {t : Text}, (∀ c ∈ t, f c = true) → (literal t).Only f
  | [], _ => trivial
  | [c], h => fun d hd => by
      rw [beq_iff_eq.mp hd]
      exact h c (List.mem_singleton_self c)
  | c :: d :: t, h => by
      obtain ⟨hc, ht⟩ := List.forall_mem_cons.mp h
      refine ⟨fun x hx => ?_, only_literal ht⟩
      rw [beq_iff_eq.mp hx]
      exact hc

theorem only_anyOf : ∀ {ps : List Pattern}, (∀ p ∈ ps, p.Only f) → (anyOf ps).Only f
  | [], _ => fun _ hc => by cases hc
  | [p], h => h p List.mem_cons_self
  | p :: q :: ps, h => by
      obtain ⟨hp, hps⟩ := List.forall_mem_cons.mp h
      exact ⟨hp, only_anyOf hps⟩

theorem only_inOrder {f : Char → Bool} : ∀ {ps : List Pattern}, (∀ p ∈ ps, p.Only f) →
    (inOrder ps).Only f
  | [], _ => trivial
  | [p], h => h p List.mem_cons_self
  | p :: q :: ps, h => by
      obtain ⟨hp, hps⟩ := List.forall_mem_cons.mp h
      exact ⟨hp, only_inOrder hps⟩

theorem only_anyWord {words : List String} (h : ∀ w ∈ words, ∀ c ∈ w.toList, f c = true) :
    (anyWord words).Only f := by
  refine only_anyOf fun p hp => ?_
  obtain ⟨w, hw, rfl⟩ := List.mem_map.mp hp
  exact only_literal (h w hw)

end Pattern

end ServiceGate
