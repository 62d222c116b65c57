/-
# What a match is made of

`Spells p u` says which texts a pattern describes, one clause for each way to build a pattern; the
places that a pattern can name take no character.  `Leads p r r'` follows a reading of the pattern
from one place to another.  A run that succeeds has followed such a reading (`exists_leads`), and a
reading moves over a text that the pattern spells (`Leads.moves`).

So a match cuts the text it was found in: `Match.In p t m` gives the part in front, the matched
part, which the pattern spells, and each group in it.  All matches of a text are of this kind
(`in_of_mem_all`), and none starts before the one before it has ended (`pairwise_all`).
-/
import ServiceGate.Pattern.Match
import ServiceGate.Proofs.Text.Bounds

namespace ServiceGate

namespace Pattern

/-! ## The texts of a pattern -/

/-- The texts that a pattern describes. -/
inductive Spells : Pattern → Text → Prop
  | empty : Spells empty []
  | char {p : Char → Bool} {c : Char} : p c = true → Spells (char p) [c]
  | textStart : Spells textStart []
  | lineStart : Spells lineStart []
  | wordEdge : Spells wordEdge []
  | seq {p q : Pattern} {u v : Text} : Spells p u → Spells q v → Spells (seq p q) (u ++ v)
  | altFirst {p q : Pattern} {u : Text} : Spells p u → Spells (alt p q) u
  | altSecond {p q : Pattern} {u : Text} : Spells q u → Spells (alt p q) u
  | manyNone {greedy : Bool} {p : Pattern} : Spells (many greedy p) []
  | manyMore {greedy : Bool} {p : Pattern} {u v : Text} :
      Spells p u → Spells (many greedy p) v → Spells (many greedy p) (u ++ v)
  | capture {n : Nat} {p : Pattern} {u : Text} : Spells p u → Spells (capture n p) u

/-- The groups of a pattern, each with what it is to read. -/
def groups : Pattern → List (Nat × Pattern)
  | empty | char _ | textStart | lineStart | wordEdge => []
  | seq p q | alt p q => p.groups ++ q.groups
  | many _ p => p.groups
  | capture n p => (n, p) :: p.groups

/-- Whether every reading of a pattern keeps a group of a number. -/
def keeps (n : Nat) : Pattern → Bool
  | empty | char _ | textStart | lineStart | wordEdge | many _ _ => false
  | seq p q => p.keeps n || q.keeps n
  | alt p q => p.keeps n && q.keeps n
  | capture m p => m == n || p.keeps n

/-! ## Readings -/

/-- A reading of the pattern goes from one place to another. -/
inductive Leads : Pattern → Reading → Reading → Prop
  | empty {r : Reading} : Leads empty r r
  | char {p : Char → Bool} {r r' : Reading} : r.step? p = some r' → Leads (char p) r r'
  | textStart {r : Reading} : r.cursor.behind = none → Leads textStart r r
  | lineStart {r : Reading} : r.cursor.atLineStart = true → Leads lineStart r r
  | wordEdge {r : Reading} : r.cursor.atWordEdge = true → Leads wordEdge r r
  | seq {p q : Pattern} {r r₁ r' : Reading} : Leads p r r₁ → Leads q r₁ r' → Leads (seq p q) r r'
  | altFirst {p q : Pattern} {r r' : Reading} : Leads p r r' → Leads (alt p q) r r'
  | altSecond {p q : Pattern} {r r' : Reading} : Leads q r r' → Leads (alt p q) r r'
  | manyNone {greedy : Bool} {p : Pattern} {r : Reading} : Leads (many greedy p) r r
  | manyMore {greedy : Bool} {p : Pattern} {r r₁ r' : Reading} :
      Leads p r r₁ → Leads (many greedy p) r₁ r' → Leads (many greedy p) r r'
  | capture {n : Nat} {p : Pattern} {r r' : Reading} :
      Leads p r r' → Leads (capture n p) r (r'.keep n r.cursor)

section Run
variable {rounds : Nat} {k : Reading → Option Reading} {r r'' : Reading}

theorem orElse_eq_some {α : Type} {o : Option α} {f : Unit → Option α} {a : α}
    (h : o.orElse f = some a) : o = some a ∨ f () = some a := by
  cases o with
  | none => exact .inr h
  | some b => exact .inl h

theorem repeated_leads {p : Pattern} {body : (Reading → Option Reading) → Reading → Option Reading}
    (hbody : ∀ {k : Reading → Option Reading} {r r'' : Reading}, body k r = some r'' →
      ∃ r', Leads p r r' ∧ k r' = some r'') (greedy : Bool) :
    ∀ (rounds : Nat) {r : Reading}, repeated body greedy rounds k r = some r'' →
      ∃ r', Leads (many greedy p) r r' ∧ k r' = some r''
  | 0, r, h => ⟨r, .manyNone, h⟩
  | rounds + 1, r, h => by
      have hcases : body (fun r' => if r.cursor.offset < r'.cursor.offset
          then repeated body greedy rounds k r' else none) r = some r'' ∨ k r = some r'' := by
        rw [repeated] at h
        cases greedy with
        | true => exact orElse_eq_some h
        | false => exact (orElse_eq_some h).symm
      rcases hcases with hagain | hstop
      · obtain ⟨r₁, hr₁, hrest⟩ := hbody hagain
        split at hrest
        · obtain ⟨r', hr', hk⟩ := repeated_leads hbody greedy rounds hrest
          exact ⟨r', .manyMore hr₁ hr', hk⟩
        · cases hrest
      · exact ⟨r, .manyNone, hstop⟩

/-- A run that succeeds has come to a place from which the rest succeeds. -/
theorem exists_leads : ∀ (p : Pattern) {k : Reading → Option Reading} {r r'' : Reading},
    p.run rounds k r = some r'' → ∃ r', Leads p r r' ∧ k r' = some r''
  | .empty, _, r, _, h => ⟨r, .empty, h⟩
  | .char _, _, _, _, h => by
      obtain ⟨r', hr', hk⟩ := Option.bind_eq_some_iff.mp h
      exact ⟨r', .char hr', hk⟩
  | .textStart, _, r, _, h => by
      rw [run] at h
      split at h
      · next hstart => exact ⟨r, .textStart (Option.isNone_iff_eq_none.mp hstart), h⟩
      · cases h
  | .lineStart, _, r, _, h => by
      rw [run] at h
      split at h
      · next hline => exact ⟨r, .lineStart hline, h⟩
      · cases h
  | .wordEdge, _, r, _, h => by
      rw [run] at h
      split at h
      · next hedge => exact ⟨r, .wordEdge hedge, h⟩
      · cases h
  | .seq p q, _, _, _, h => by
      obtain ⟨r₁, hr₁, h⟩ := exists_leads p h
      obtain ⟨r', hr', hk⟩ := exists_leads q h
      exact ⟨r', .seq hr₁ hr', hk⟩
  | .alt p q, _, _, _, h => by
      rcases orElse_eq_some h with h | h
      · obtain ⟨r', hr', hk⟩ := exists_leads p h
        exact ⟨r', .altFirst hr', hk⟩
      · obtain ⟨r', hr', hk⟩ := exists_leads q h
        exact ⟨r', .altSecond hr', hk⟩
  | .many greedy p, _, _, _, h => repeated_leads (exists_leads p) greedy rounds h
  | .capture n p, _, r, _, h => by
      obtain ⟨r', hr', hk⟩ := exists_leads p h
      exact ⟨r'.keep n r.cursor, .capture hr', hk⟩

end Run

/-! ## Moving over a text -/

/-- One place lies behind another by the text `u`. -/
structure Moves (c : Cursor) (u : Text) (d : Cursor) : Prop where
  rest : c.rest = u ++ d.rest
  offset : d.offset = c.offset + Text.size u

namespace Moves

variable {c d e : Cursor} {u v : Text}

theorem refl (c : Cursor) : Moves c [] c := ⟨rfl, rfl⟩

theorem trans (h : Moves c u d) (h' : Moves d v e) : Moves c (u ++ v) e where
  rest := by rw [h.rest, h'.rest, List.append_assoc]
  offset := by rw [h'.offset, h.offset, Text.size_append, Nat.add_assoc]

theorem textTo_eq (h : Moves c u d) : c.textTo d = u := by
  have hsize : d.offset - c.offset = Text.size u := by
    rw [h.offset]
    omega
  rw [Cursor.textTo, hsize, h.rest, Text.before_append]

end Moves

/-- A kept group `g` of the pattern in a text that starts at offset `n`. -/
def GroupIn (p : Pattern) (n : Nat) (u : Text) (g : Capture) : Prop :=
  ∃ body a b, (g.group, body) ∈ p.groups ∧ Spells body g.text ∧ u = a ++ g.text ++ b ∧
    g.start = n + Text.size a ∧ g.stop = g.start + Text.size g.text

theorem GroupIn.extend {p q : Pattern} {n m : Nat} {u v w : Text} {g : Capture}
    (h : GroupIn p n u g) (hgroups : p.groups ⊆ q.groups) (hn : n = m + Text.size v) :
    GroupIn q m (v ++ u ++ w) g := by
  obtain ⟨body, a, b, hmem, hspells, hu, hstart, hstop⟩ := h
  refine ⟨body, v ++ a, b ++ w, hgroups hmem, hspells, by simp [hu], ?_, hstop⟩
  rw [hstart, hn, Text.size_append, Nat.add_assoc]

/-- A reading moves over a text that the pattern spells; the groups it keeps lie in that text. -/
theorem Leads.moves {p : Pattern} {r r' : Reading} (h : Leads p r r') :
    ∃ u new, Moves r.cursor u r'.cursor ∧ Spells p u ∧ r'.captures = new ++ r.captures ∧
      ∀ g ∈ new, GroupIn p r.cursor.offset u g := by
  induction h with
  | empty => exact ⟨[], [], .refl _, .empty, rfl, fun _ h => absurd h List.not_mem_nil⟩
  | textStart => exact ⟨[], [], .refl _, .textStart, rfl, fun _ h => absurd h List.not_mem_nil⟩
  | lineStart => exact ⟨[], [], .refl _, .lineStart, rfl, fun _ h => absurd h List.not_mem_nil⟩
  | wordEdge => exact ⟨[], [], .refl _, .wordEdge, rfl, fun _ h => absurd h List.not_mem_nil⟩
  | manyNone => exact ⟨[], [], .refl _, .manyNone, rfl, fun _ h => absurd h List.not_mem_nil⟩
  | @char p r r' hstep =>
      obtain ⟨d, hd, rfl⟩ := Option.map_eq_some_iff.mp hstep
      rw [Cursor.step?] at hd
      split at hd
      · cases hd
      · next c rest hrest =>
          split at hd
          · next hc =>
              obtain rfl := Option.some.inj hd
              exact ⟨[c], [], ⟨hrest, by simp [Text.size]⟩, .char hc, rfl,
                fun _ h => absurd h List.not_mem_nil⟩
          · cases hd
  | @seq p q r r₁ r' _ _ ih ih' =>
      obtain ⟨u, new, hu, hp, hnew, hin⟩ := ih
      obtain ⟨v, new', hv, hq, hnew', hin'⟩ := ih'
      refine ⟨u ++ v, new' ++ new, hu.trans hv, .seq hp hq, by rw [hnew', hnew, List.append_assoc],
        fun g hg => ?_⟩
      rcases List.mem_append.mp hg with hg | hg
      · have h := (hin' g hg).extend (q := .seq p q)
          (w := []) (List.subset_append_right _ _) hu.offset
        rwa [List.append_nil] at h
      · exact (hin g hg).extend (q := .seq p q) (v := []) (List.subset_append_left _ _) rfl
  | @altFirst p q r r' _ ih =>
      obtain ⟨u, new, hu, hp, hnew, hin⟩ := ih
      refine ⟨u, new, hu, .altFirst hp, hnew, fun g hg => ?_⟩
      have h := (hin g hg).extend (q := .alt p q) (v := []) (w := [])
        (List.subset_append_left _ _) rfl
      rwa [List.append_nil] at h
  | @altSecond p q r r' _ ih =>
      obtain ⟨u, new, hu, hp, hnew, hin⟩ := ih
      refine ⟨u, new, hu, .altSecond hp, hnew, fun g hg => ?_⟩
      have h := (hin g hg).extend (q := .alt p q) (v := []) (w := [])
        (List.subset_append_right _ _) rfl
      rwa [List.append_nil] at h
  | @manyMore greedy p r r₁ r' _ _ ih ih' =>
      obtain ⟨u, new, hu, hp, hnew, hin⟩ := ih
      obtain ⟨v, new', hv, hq, hnew', hin'⟩ := ih'
      refine ⟨u ++ v, new' ++ new, hu.trans hv, .manyMore hp hq,
        by rw [hnew', hnew, List.append_assoc], fun g hg => ?_⟩
      rcases List.mem_append.mp hg with hg | hg
      · have h := (hin' g hg).extend (q := .many greedy p) (w := []) (List.Subset.refl _) hu.offset
        rwa [List.append_nil] at h
      · exact (hin g hg).extend (q := .many greedy p) (v := []) (List.Subset.refl _) rfl
  | @capture n p r r' _ ih =>
      obtain ⟨u, new, hu, hp, hnew, hin⟩ := ih
      refine ⟨u, _ :: new, ⟨hu.rest, hu.offset⟩, .capture hp, by rw [Reading.keep, hnew]; rfl,
        fun g hg => ?_⟩
      rcases List.mem_cons.mp hg with rfl | hg
      · refine ⟨p, [], [], List.mem_cons_self, ?_, ?_, rfl, ?_⟩
        · rw [hu.textTo_eq]
          exact hp
        · rw [hu.textTo_eq]
          simp
        · rw [hu.textTo_eq]
          exact hu.offset
      · have h := (hin g hg).extend (q := .capture n p) (v := []) (w := [])
          (List.subset_cons_self _ _) rfl
        rwa [List.append_nil] at h

theorem Leads.keeps {n : Nat} {p : Pattern} {r r' : Reading} (h : Leads p r r') :
    (p.keeps n = true → ∃ g ∈ r'.captures, g.group = n) ∧ r.captures ⊆ r'.captures := by
  induction h with
  | empty | textStart | lineStart | wordEdge | manyNone =>
      exact ⟨(nomatch ·), List.Subset.refl _⟩
  | char hstep =>
      obtain ⟨d, -, rfl⟩ := Option.map_eq_some_iff.mp hstep
      exact ⟨(nomatch ·), List.Subset.refl _⟩
  | seq _ _ ih ih' =>
      refine ⟨fun h => ?_, List.Subset.trans ih.2 ih'.2⟩
      rcases Bool.or_eq_true _ _ ▸ h with h | h
      · obtain ⟨g, hg, hn⟩ := ih.1 h
        exact ⟨g, ih'.2 hg, hn⟩
      · exact ih'.1 h
  | altFirst _ ih => exact ⟨fun h => ih.1 (Bool.and_eq_true _ _ ▸ h).1, ih.2⟩
  | altSecond _ ih => exact ⟨fun h => ih.1 (Bool.and_eq_true _ _ ▸ h).2, ih.2⟩
  | manyMore _ _ ih ih' => exact ⟨(nomatch ·), List.Subset.trans ih.2 ih'.2⟩
  | capture _ ih =>
      refine ⟨fun h => ?_, List.subset_cons_of_subset _ ih.2⟩
      rcases Bool.or_eq_true _ _ ▸ h with h | h
      · exact ⟨_, List.mem_cons_self, beq_iff_eq.mp h⟩
      · obtain ⟨g, hg, hn⟩ := ih.1 h
        exact ⟨g, List.mem_cons_of_mem _ hg, hn⟩

end Pattern

/-! ## Matches -/

/-- A match of the pattern in a text. -/
structure Match.In (p : Pattern) (t : Text) (m : Match) : Prop where
  cut : ∃ front back, t = front ++ m.text ++ back ∧ m.start = Text.size front
  stop : m.stop = m.start + Text.size m.text
  spells : p.Spells m.text
  groups : ∀ g ∈ m.captures, p.GroupIn m.start m.text g
  kept : ∀ n, p.keeps n = true → ∃ g, m.group? n = some g

namespace Pattern

variable {p : Pattern} {rounds free n : Nat} {behind : Option Char} {t : Text} {m : Match}

theorem in_of_matchAt? {front rest : Text}
    (h : p.matchAt? rounds ⟨behind, Text.size front, rest⟩ = some m) :
    m.In p (front ++ rest) ∧ m.start = Text.size front := by
  obtain ⟨r, hr, rfl⟩ := Option.map_eq_some_iff.mp h
  obtain ⟨r', hleads, hr'⟩ := exists_leads p hr
  obtain rfl := Option.some.inj hr'
  obtain ⟨u, new, hu, hp, hnew, hin⟩ := hleads.moves
  have htext := hu.textTo_eq
  simp only at htext hnew hin
  rw [List.append_nil] at hnew
  refine ⟨⟨⟨front, r'.cursor.rest, ?_, rfl⟩, ?_, ?_, ?_, ?_⟩, rfl⟩
  · simp only [htext]
    rw [List.append_assoc, ← hu.rest]
  · simp only [htext]
    exact hu.offset
  · simp only [htext]
    exact hp
  · simp only [htext, hnew]
    exact hin
  · intro n hn
    obtain ⟨g, hg, hgn⟩ := hleads.keeps.1 hn
    refine Option.isSome_iff_exists.mp (List.find?_isSome.mpr ⟨g, hg, ?_⟩)
    exact beq_iff_eq.mpr hgn

/-- The matches of a text, those of its rest that starts behind `front`. -/
theorem in_of_mem_allFrom : ∀ (rest : Text) {front : Text} {free : Nat} {behind : Option Char},
    m ∈ p.allFrom rounds free behind (Text.size front) rest →
      m.In p (front ++ rest) ∧ free ≤ m.start ∧ Text.size front ≤ m.start
  | [], front, free, behind, h => by
      rw [allFrom] at h
      split at h
      · next hfree =>
          obtain ⟨hin, hstart⟩ := in_of_matchAt? (Option.mem_toList.mp h)
          exact ⟨hin, by omega, by omega⟩
      · cases h
  | c :: rest, front, free, behind, h => by
      have hfront : Text.size front + c.utf8Size = Text.size (front ++ [c]) := by
        simp [Text.size_append, Text.size]
      have hnext : front ++ c :: rest = (front ++ [c]) ++ rest := by simp
      rw [allFrom] at h
      split at h
      · next m' hm' =>
          split at hm'
          · next hfree =>
              obtain ⟨hin, hstart⟩ := in_of_matchAt? hm'
              rcases List.mem_cons.mp h with rfl | h
              · exact ⟨hin, by omega, by omega⟩
              · rw [hfront] at h
                obtain ⟨hin', hstop, hsize⟩ := in_of_mem_allFrom rest h
                rw [hin.stop] at hstop
                refine ⟨hnext ▸ hin', by omega, by omega⟩
          · cases hm'
      · rw [hfront] at h
        obtain ⟨hin', hstop, hsize⟩ := in_of_mem_allFrom rest h
        exact ⟨hnext ▸ hin', hstop, by omega⟩

theorem in_of_mem_all (h : m ∈ p.all t) : m.In p t :=
  (@in_of_mem_allFrom _ _ _ t [] _ _ h).1

theorem pairwise_allFrom : ∀ (rest : Text) {front : Text} {free : Nat} {behind : Option Char},
    (p.allFrom rounds free behind (Text.size front) rest).Pairwise fun m m' => m.stop ≤ m'.start
  | [], front, free, behind => by
      rw [allFrom]
      split
      · cases p.matchAt? rounds ⟨behind, Text.size front, []⟩ with
        | none => exact .nil
        | some m => exact List.pairwise_singleton _ _
      · exact .nil
  | c :: rest, front, free, behind => by
      have hfront : Text.size front + c.utf8Size = Text.size (front ++ [c]) := by
        simp [Text.size_append, Text.size]
      rw [allFrom, hfront]
      split
      · exact .cons (fun m' hm' => (in_of_mem_allFrom rest hm').2.1) (pairwise_allFrom rest)
      · exact pairwise_allFrom rest

theorem pairwise_all (p : Pattern) (t : Text) :
    (p.all t).Pairwise fun m m' => m.stop ≤ m'.start :=
  @pairwise_allFrom _ _ t [] _ _

theorem in_of_firstFrom? : ∀ (rest : Text) {front : Text} {behind : Option Char},
    p.firstFrom? rounds behind (Text.size front) rest = some m → m.In p (front ++ rest)
  | [], front, behind, h => (in_of_matchAt? h).1
  | c :: rest, front, behind, h => by
      have hfront : Text.size front + c.utf8Size = Text.size (front ++ [c]) := by
        simp [Text.size_append, Text.size]
      have hnext : front ++ c :: rest = (front ++ [c]) ++ rest := by simp
      rcases orElse_eq_some h with h | h
      · exact (in_of_matchAt? h).1
      · rw [hfront] at h
        exact hnext ▸ in_of_firstFrom? rest h

theorem in_of_first? (h : p.first? t = some m) : m.In p t :=
  @in_of_firstFrom? _ _ _ t [] _ h

end Pattern

/-! ## Groups of a match -/

namespace Match

variable {p : Pattern} {t : Text} {m : Match} {n : Nat} {g : Capture}

theorem In.group (h : m.In p t) (hg : m.group? n = some g) :
    g.group = n ∧ p.GroupIn m.start m.text g := by
  have hmem := List.mem_of_find?_eq_some hg
  have hgroup := List.find?_some hg
  exact ⟨beq_iff_eq.mp hgroup, h.groups g hmem⟩

theorem In.group_spells (h : m.In p t) (hg : m.group? n = some g) :
    ∃ body, (n, body) ∈ p.groups ∧ body.Spells g.text := by
  obtain ⟨rfl, body, a, b, hmem, hspells, -⟩ := h.group hg
  exact ⟨body, hmem, hspells⟩

theorem In.spells_group {body : Pattern} (h : m.In p t)
    (hbody : p.groups.filter (·.1 == n) = [(n, body)]) (hg : m.group? n = some g) :
    body.Spells g.text := by
  obtain ⟨body', hmem, hspells⟩ := h.group_spells hg
  have honly : (n, body') ∈ p.groups.filter (·.1 == n) :=
    List.mem_filter.mpr ⟨hmem, beq_self_eq_true n⟩
  rw [hbody] at honly
  rwa [← (Prod.mk.inj (List.mem_singleton.mp honly)).2]

theorem In.spells_groupText {body : Pattern} (h : m.In p t)
    (hbody : p.groups.filter (·.1 == n) = [(n, body)]) (hkept : p.keeps n = true) :
    body.Spells (m.groupText n) := by
  obtain ⟨g, hg⟩ := h.kept n hkept
  rw [groupText, hg]
  exact h.spells_group hbody hg

end Match

/-! ## What the words of patterns spell -/

namespace Pattern

variable {u : Text} {p q : Pattern}

theorem spells_seq (h : Spells (seq p q) u) : ∃ v w, u = v ++ w ∧ Spells p v ∧ Spells q w := by
  cases h with
  | seq hp hq => exact ⟨_, _, rfl, hp, hq⟩

theorem spells_capture {n : Nat} (h : Spells (.capture n p) u) : Spells p u := by
  cases h with
  | capture h => exact h

theorem spells_wordEdge (h : Spells wordEdge u) : u = [] := by
  cases h
  rfl

theorem spells_literal : ∀ {t u : Text}, Spells (literal t) u → u = t
  | [], _, h => by cases h; rfl
  | [c], _, h => by
      cases h with
      | char hc => rw [beq_iff_eq.mp hc]
  | c :: d :: t, _, h => by
      cases h with
      | seq hc ht =>
          cases hc with
          | char hc => rw [beq_iff_eq.mp hc, spells_literal ht]; rfl

theorem spells_many_char {greedy : Bool} {f : Char → Bool} (h : Spells (many greedy (char f)) u) :
    ∀ c ∈ u, f c = true := by
  generalize hp : many greedy (char f) = p at h
  induction h with
  | manyNone => exact fun _ hc => absurd hc List.not_mem_nil
  | manyMore hfirst _ _ ih =>
      obtain ⟨-, rfl⟩ := Pattern.many.inj hp
      cases hfirst with
      | char hf => exact List.forall_mem_cons.mpr ⟨hf, ih hp⟩
  | _ => cases hp

theorem spells_anyOf : ∀ (ps : List Pattern) {u : Text}, Spells (anyOf ps) u → ∃ p ∈ ps, Spells p u
  | [], _, h => by
      cases h with
      | char hc => cases hc
  | [p], _, h => ⟨p, List.mem_cons_self, h⟩
  | p :: q :: ps, _, h => by
      cases h with
      | altFirst h => exact ⟨p, List.mem_cons_self, h⟩
      | altSecond h =>
          obtain ⟨p', hp', h⟩ := spells_anyOf (q :: ps) h
          exact ⟨p', List.mem_cons_of_mem _ hp', h⟩

theorem spells_inOrder_append {qs : List Pattern} (hqs : qs ≠ []) :
    ∀ (ps : List Pattern) {u : Text}, Spells (inOrder (ps ++ qs)) u →
      ∃ v w, u = v ++ w ∧ Spells (inOrder ps) v ∧ Spells (inOrder qs) w
  | [], u, h => ⟨[], u, rfl, .empty, h⟩
  | [p], u, h => by
      obtain ⟨q, qs, rfl⟩ := List.exists_cons_of_ne_nil hqs
      exact spells_seq h
  | p :: p' :: ps, u, h => by
      obtain ⟨v, w, rfl, hp, h⟩ := spells_seq h
      obtain ⟨v', w', rfl, hps, h⟩ := spells_inOrder_append hqs (p' :: ps) h
      exact ⟨v ++ v', w', by rw [List.append_assoc], .seq hp hps, h⟩

theorem spells_anyWord {words : List String} (h : Spells (anyWord words) u) :
    u ∈ words.map String.toList := by
  obtain ⟨p, hp, h⟩ := spells_anyOf _ h
  obtain ⟨w, hw, rfl⟩ := List.mem_map.mp hp
  rw [spells_literal h]
  exact List.mem_map_of_mem hw

end Pattern

end ServiceGate
