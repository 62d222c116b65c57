/-
# A scan restarted behind an opening bracket

The search for a closer reads afresh from behind the opener, the blanked text is read from its
beginning; offsets of the two are used side by side.  Where the scanner stands in code and no region
is open, both see the same code:

* `visits` lists the marks of a text with the state in which the scanner came to each of them;
* `OpensAt t b o`: at offset `o` the whole scan reads an opener of kind `b` as code, outside of
  every region;
* `matchingClose?_of_opensAt`: the search goes over the code that the whole scan sees behind `o`.

`restart_agrees` is the main statement.  The closer of a balanced text exists because the count of
its kind has to fall again, and two groups of one kind stand apart or one inside the other because a
search that starts outside waits for one closer more.

The blanked text has no quote and opens no comment (`PureCode`), so it is read as code from end to
end. Apart from blanks and line feeds it is the code of the text, at the same offsets, and a search
for a closer finds in both the same one (`closeIn_blank`).
-/
import ServiceGate.Proofs.Scan.Matching
import ServiceGate.Scan.Blank

namespace ServiceGate.Scan

section

/-! ## Text that is nothing but code -/

/-- Text without a quote and without the beginning of a comment. -/
inductive PureCode : Text → Prop
  | nil : PureCode []
  | cons {c : Char} {t : Text} :
      isQuote c = false → opensComment c t.head? = false → PureCode t → PureCode (c :: t)

namespace PureCode

variable {t : Text} {s : State}

theorem marksFrom_eq (h : PureCode t) (hm : s.mode = .code) (hr : s.regions = []) (n : Nat) :
    marksFrom s n t = (t.indexed n).map fun x => ⟨x.1, x.2, .code⟩ := by
  induction h generalizing n with
  | nil => rfl
  | cons hq hc _ ih =>
      have hstep := State.step_plain hm hr hq hc
      rw [marksFrom_one n (by rw [hstep]), hstep]
      simp only [Text.indexed, List.map_cons, ih]

theorem codeOf_eq (h : PureCode t) (hm : s.mode = .code) (hr : s.regions = []) (n : Nat) :
    codeOf (marksFrom s n t) = t.indexed n := by
  rw [h.marksFrom_eq hm hr, codeOf, List.filterMap_map]
  exact List.filterMap_some

theorem replicate_append (h : PureCode t) (k : Nat) : PureCode (List.replicate k ' ' ++ t) := by
  induction k with
  | zero => exact h
  | succ k ih => exact .cons rfl rfl ih

end PureCode

/-! ## What blanking leaves -/

/-- What is left in front of the rest is pure code if the mark was none or opens nothing. -/
theorem PureCode.blank_append {m : Mark} {t : Text} (h : PureCode t)
    (hm : m.kind = .code → isQuote m.char = false ∧ opensComment m.char t.head? = false) :
    PureCode (m.blank ++ t) := by
  unfold Mark.blank
  split_ifs with hc
  · rcases hc with hk | hnl
    · exact .cons (hm hk).1 (hm hk).2 h
    · rw [hnl]
      exact .cons rfl rfl h
  · exact h.replicate_append _

theorem head?_flatMap_blank (s : State) (n : Nat) (t : Text) :
    ((marksFrom s n t).flatMap Mark.blank).head? = t.head? ∨
      ((marksFrom s n t).flatMap Mark.blank).head? = some ' ' := by
  have hmap := map_char_marksFrom s n t
  cases hms : marksFrom s n t with
  | nil =>
      rw [hms] at hmap
      exact .inl (by rw [← hmap]; rfl)
  | cons m ms =>
      rw [hms] at hmap
      rw [← hmap, List.flatMap_cons, Mark.blank]
      split_ifs
      · exact .inl rfl
      · obtain ⟨k, hk⟩ := Nat.exists_eq_succ_of_ne_zero (Nat.ne_of_gt m.char.utf8Size_pos)
        exact .inr (by rw [hk]; rfl)

theorem opensComment_flatMap_blank {c : Char} {t : Text} (h : opensComment c t.head? = false)
    (s : State) (n : Nat) :
    opensComment c ((marksFrom s n t).flatMap Mark.blank).head? = false := by
  obtain hhead | hhead := head?_flatMap_blank s n t
  · rw [hhead, h]
  · rw [hhead]
    simp [opensComment]

theorem pureCode_blank : ∀ (t : Text) (s : State) (n : Nat),
    PureCode ((marksFrom s n t).flatMap Mark.blank)
  | [], _, _ => .nil
  | [c], s, n => by
      refine PureCode.blank_append .nil fun hk => ?_
      obtain ⟨-, hq, hc, -⟩ := State.of_step_code hk
      exact ⟨hq, hc⟩
  | c :: d :: t, s, n => by
      cases hr : (s.step c (some d)).takesNext with
      | true =>
          have hk : (s.step c (some d)).kind ≠ .code := fun hk => by
            rw [(State.of_step_code hk).2.2.2] at hr
            cases hr
          rw [marksFrom_two n hr, List.flatMap_cons, List.flatMap_cons]
          have hrest := pureCode_blank t (s.step c (some d)).state (n + c.utf8Size + d.utf8Size)
          exact (hrest.blank_append fun h => absurd h hk).blank_append fun h => absurd h hk
      | false =>
          rw [marksFrom_one n (t := d :: t) hr, List.flatMap_cons]
          refine (pureCode_blank (d :: t) _ _).blank_append fun hk => ?_
          obtain ⟨-, hq, hc, -⟩ := State.of_step_code hk
          exact ⟨hq, opensComment_flatMap_blank hc _ _⟩

/-! ## Searching the blanked text -/

theorem closeIn_congr_cons {b : Bracket} {cs cs' : List (Nat × Char)} (x : Nat × Char)
    (h : ∀ depth, closeIn b.opener b.closer depth cs = closeIn b.opener b.closer depth cs')
    (depth : Nat) :
    closeIn b.opener b.closer depth (x :: cs) = closeIn b.opener b.closer depth (x :: cs') := by
  obtain ⟨n, c⟩ := x
  cases depth <;> simp only [closeIn, h]

theorem isPlain_of_mem_blank {m : Mark} (hk : m.kind ≠ .code) {c : Char} (h : c ∈ m.blank) :
    isPlain c = true := by
  unfold Mark.blank at h
  split_ifs at h with hc
  · obtain rfl := List.mem_singleton.mp h
    rw [hc.resolve_left hk]
    rfl
  · rw [List.eq_of_mem_replicate h]
    rfl

/-- A search goes over the blanked text as over the code of the text. -/
theorem closeIn_blank (b : Bracket) {ms : List Mark} {t : Text} {n : Nat}
    (h : ms.map (fun m => (m.offset, m.char)) = t.indexed n) (depth : Nat) :
    closeIn b.opener b.closer depth (Text.indexed n (ms.flatMap Mark.blank)) =
      closeIn b.opener b.closer depth (codeOf ms) := by
  induction ms generalizing t n depth with
  | nil => rfl
  | cons m ms ih =>
      cases t with
      | nil => cases h
      | cons c t =>
          obtain ⟨hm, hms⟩ := List.cons.inj h
          obtain ⟨rfl, rfl⟩ := Prod.mk.inj hm
          obtain ⟨n, c, k⟩ := m
          rw [List.flatMap_cons, Text.indexed_append, size_markBlank]
          by_cases hk : k = .code
          · subst hk
            rw [codeOf_cons_code]
            exact closeIn_congr_cons (n, c) (ih hms) depth
          · have hcode : codeOf (⟨n, c, k⟩ :: ms) = codeOf ms := by
              cases k with
              | code => exact absurd rfl hk
              | literal | comment => rfl
            rw [hcode, closeIn_plain, ih hms]
            intro x hx
            have hx : x.2 ∈ Mark.blank ⟨n, c, k⟩ := by
              rw [← map_snd_indexed (Mark.blank ⟨n, c, k⟩) n]
              exact List.mem_map_of_mem hx
            exact isPlain_of_mem_blank hk hx

end

/-! ## The states of a scan -/

/-- The marks of a text, each with the state in which the scanner came to its token. -/
def visitsFrom (s : State) (n : Nat) : Text → List (Mark × State)
  | [] => []
  | [c] => [(⟨n, c, (s.step c none).kind⟩, s)]
  | c :: d :: rest =>
    let r := s.step c (some d)
    let m := n + c.utf8Size
    if r.takesNext then
      (⟨n, c, r.kind⟩, s) :: (⟨m, d, r.kind⟩, s) :: visitsFrom r.state (m + d.utf8Size) rest
    else (⟨n, c, r.kind⟩, s) :: visitsFrom r.state m (d :: rest)

def visits (t : Text) : List (Mark × State) := visitsFrom .start 0 t

theorem visitsFrom_two {s : State} {c d : Char} {t : Text} (n : Nat)
    (h : (s.step c (some d)).takesNext = true) :
    visitsFrom s n (c :: d :: t) = (⟨n, c, (s.step c (some d)).kind⟩, s) ::
      (⟨n + c.utf8Size, d, (s.step c (some d)).kind⟩, s) ::
      visitsFrom (s.step c (some d)).state (n + c.utf8Size + d.utf8Size) t := by
  rw [visitsFrom]
  simp only [h, if_true]

theorem visitsFrom_one {s : State} {c : Char} {t : Text} (n : Nat)
    (h : (s.step c t.head?).takesNext = false) :
    visitsFrom s n (c :: t) = (⟨n, c, (s.step c t.head?).kind⟩, s) ::
      visitsFrom (s.step c t.head?).state (n + c.utf8Size) t := by
  cases t with
  | nil => rfl
  | cons d t =>
      simp only [List.head?_cons] at h ⊢
      rw [visitsFrom]
      simp only [h, Bool.false_eq_true, if_false]

theorem map_fst_visitsFrom : ∀ (t : Text) (s : State) (n : Nat),
    (visitsFrom s n t).map (·.1) = marksFrom s n t
  | [], _, _ => rfl
  | [c], _, _ => rfl
  | c :: d :: t, s, n => by
      cases hr : (s.step c (some d)).takesNext with
      | true =>
          rw [visitsFrom_two n hr, marksFrom_two n hr, List.map_cons, List.map_cons,
            map_fst_visitsFrom t]
      | false =>
          rw [visitsFrom_one n (t := d :: t) hr, marksFrom_one n (t := d :: t) hr, List.map_cons,
            map_fst_visitsFrom (d :: t)]

/-- A visit to a code character cuts the text there, and the run over the front ends in its state.
-/
theorem reads_of_visit : ∀ (t : Text) {s σ : State} {n : Nat} {m : Mark},
    (m, σ) ∈ visitsFrom s n t → m.kind = .code →
      ∃ p q ms, t = p ++ m.char :: q ∧ m.offset = n + Text.size p ∧
        Reads (m.char :: q) s n p ms σ ∧ (σ.step m.char q.head?).kind = .code
  | [], _, _, _, _, h, _ => absurd h List.not_mem_nil
  | [c], s, σ, n, m, h, hk => by
      obtain ⟨rfl, rfl⟩ := Prod.mk.inj (List.mem_singleton.mp h)
      exact ⟨[], [], [], rfl, by simp [Text.size], .nil, hk⟩
  | c :: d :: t, s, σ, n, m, h, hk => by
      cases hr : s.step c (some d) with
      | mk k s' takesNext =>
          cases takesNext with
          | true =>
              have hkind : k ≠ .code := fun hcode => by
                have hstep : (s.step c (some d)).kind = .code := by rw [hr]; exact hcode
                have hone := (State.of_step_code hstep).2.2.2
                rw [hr] at hone
                cases hone
              rw [visitsFrom_two n (by rw [hr]), hr] at h
              rcases List.mem_cons.mp h with h | h
              · obtain ⟨rfl, rfl⟩ := Prod.mk.inj h
                exact absurd hk hkind
              rcases List.mem_cons.mp h with h | h
              · obtain ⟨rfl, rfl⟩ := Prod.mk.inj h
                exact absurd hk hkind
              obtain ⟨p, q, ms, rfl, ho, hreads, hcode⟩ := reads_of_visit t h hk
              refine ⟨c :: d :: p, q, _, rfl, ?_, .two hr hreads, hcode⟩
              simp only [ho, Text.size, Nat.add_assoc]
          | false =>
              rw [visitsFrom_one n (t := d :: t) (by rw [List.head?_cons, hr]), List.head?_cons, hr]
                at h
              rcases List.mem_cons.mp h with h | h
              · obtain ⟨rfl, rfl⟩ := Prod.mk.inj h
                exact ⟨[], d :: t, [], rfl, by simp [Text.size], .nil, by
                  rw [List.head?_cons, hr]; exact hk⟩
              obtain ⟨p, q, ms, hp, ho, hreads, hcode⟩ := reads_of_visit (d :: t) h hk
              refine ⟨c :: p, q, _,
                by rw [hp]; rfl, ?_, .one (by rw [← hp]; exact hr) hreads, hcode⟩
              simp only [ho, Text.size, Nat.add_assoc]

/-! ## An opener outside of every region -/

/-- The whole scan reads an opener at offset `o` as code, with no region open. -/
def OpensAt (t : Text) (b : Bracket) (o : Nat) : Prop :=
  ∃ s, (⟨o, b.opener, .code⟩, s) ∈ visits t ∧ s.regions = []

section Opener
variable {t : Text} {b : Bracket} {o o' n n' : Nat}

/-- Behind the opener the whole scan goes on as one that starts there. -/
theorem OpensAt.cut (h : OpensAt t b o) :
    ∃ p q ms, t = p ++ b.opener :: q ∧ o = Text.size p ∧ ms.map (·.char) = p ∧
      marks t 0 = ms ++ ⟨o, b.opener, .code⟩ :: marksFrom .start (o + 1) q := by
  obtain ⟨σ, hvisit, hregions⟩ := h
  obtain ⟨p, q, ms, rfl, ho, hreads, hcode⟩ := reads_of_visit t hvisit rfl
  simp only [Nat.zero_add] at ho hreads hcode
  obtain ⟨hmode, hq, hc, hone⟩ := State.of_step_code hcode
  have hstep := State.step_plain hmode hregions hq hc
  have hmarks := hreads.marksFrom_eq
  have hsame : σ.Agrees .start := ⟨hmode, hregions⟩
  rw [marksFrom_one _ hone, hstep, Nat.zero_add, ← ho, Bracket.utf8Size_opener] at hmarks
  simp only [← marksFrom_agrees q (o + 1) hsame] at hmarks
  refine ⟨p, q, ms, rfl, ho, hreads.map_char, ?_⟩
  rw [marks_zero]
  exact hmarks

theorem OpensAt.code_cut (h : OpensAt t b o) :
    ∃ cs cs', codeOf (marks t 0) = cs ++ (o, b.opener) :: cs' ∧
      matchingClose? t o = closeIn b.opener b.closer 0 cs' := by
  obtain ⟨p, q, ms, rfl, rfl, -, hmarks⟩ := h.cut
  refine ⟨codeOf ms, codeOf (marksFrom .start (Text.size p + 1) q), ?_,
    matchingClose?_opener b rfl q⟩
  rw [hmarks, codeOf_append, codeOf_cons_code]

theorem OpensAt.matchingClose?_blank (h : OpensAt t b o) :
    matchingClose? (blank t) o = matchingClose? t o := by
  obtain ⟨p, q, ms, rfl, rfl, hp, hmarks⟩ := h.cut
  have hblank : blank (p ++ b.opener :: q) = ms.flatMap Mark.blank ++
      b.opener :: (marksFrom .start (Text.size p + 1) q).flatMap Mark.blank := by
    rw [blank, hmarks, List.flatMap_append, List.flatMap_cons]
    rfl
  have hsize : Text.size p = Text.size (ms.flatMap Mark.blank) := by
    rw [size_flatMap_markBlank, hp]
  rw [hblank, matchingClose?_opener b hsize, matchingClose?_opener b rfl,
    (pureCode_blank q .start _).codeOf_eq rfl rfl, closeIn_blank b (chars_marksFrom _ _ _)]

/-! ## Where the search ends -/

theorem mem_codeOf {c : Char} {ms : List Mark} :
    (n, c) ∈ codeOf ms ↔ ⟨n, c, .code⟩ ∈ ms := by
  rw [codeOf, List.mem_filterMap]
  constructor
  · rintro ⟨⟨m, d, k⟩, hm, h⟩
    split_ifs at h with hk
    obtain ⟨rfl, rfl⟩ := Prod.mk.inj (Option.some.inj h)
    exact (show k = .code from hk) ▸ hm
  · exact fun hm => ⟨_, hm, rfl⟩

theorem codeOf_sublist (ms : List Mark) :
    (codeOf ms).Sublist (ms.map fun m => (m.offset, m.char)) := by
  induction ms with
  | nil => exact .slnil
  | cons m ms ih =>
      obtain ⟨n, c, k⟩ := m
      cases k with
      | code => exact ih.cons_cons (n, c)
      | literal | comment => exact ih.cons (n, c)

theorem pairwise_chars (s : State) (n : Nat) (t : Text) :
    ((marksFrom s n t).map fun m => (m.offset, m.char)).Pairwise fun x y => x.1 < y.1 := by
  rw [chars_marksFrom]
  exact Text.pairwise_indexed n t

theorem pairwise_marksFrom (s : State) (n : Nat) (t : Text) :
    (marksFrom s n t).Pairwise fun m m' => m.offset < m'.offset :=
  (List.pairwise_map (R := fun x y : Nat × Char => x.1 < y.1)).mp (pairwise_chars s n t)

theorem pairwise_codeOf (s : State) (n : Nat) (t : Text) :
    (codeOf (marksFrom s n t)).Pairwise fun x y => x.1 < y.1 :=
  (pairwise_chars s n t).sublist (codeOf_sublist _)

theorem pairwise_code (t : Text) : (codeOf (marks t 0)).Pairwise fun x y => x.1 < y.1 :=
  pairwise_codeOf .start 0 _

section Row
variable {l₁ l₂ k₁ k₂ : List (Nat × Char)} {x y : Nat × Char}

theorem pairwise_around (h : (l₁ ++ x :: l₂).Pairwise fun x y => x.1 < y.1) :
    (∀ z ∈ l₁, z.1 < x.1) ∧ (∀ z ∈ l₂, x.1 < z.1) ∧ l₂.Pairwise fun x y => x.1 < y.1 := by
  obtain ⟨-, hx, hbetween⟩ := List.pairwise_append.mp h
  obtain ⟨hbehind, hrest⟩ := List.pairwise_cons.mp hx
  exact ⟨fun z hz => hbetween z hz x List.mem_cons_self, hbehind, hrest⟩

theorem exists_between (h : l₁ ++ x :: l₂ = k₁ ++ y :: k₂)
    (hs : (l₁ ++ x :: l₂).Pairwise fun x y => x.1 < y.1) (hlt : x.1 < y.1) :
    ∃ l, l₂ = l ++ y :: k₂ := by
  obtain ⟨l, rfl, hl⟩ | ⟨l, rfl, hl⟩ := List.append_eq_append_iff.mp h
  · cases l with
    | nil =>
        obtain ⟨rfl, -⟩ := List.cons.inj hl
        exact absurd hlt (Nat.lt_irrefl _)
    | cons z l => exact ⟨l, (List.cons.inj hl).2⟩
  · cases l with
    | nil =>
        obtain ⟨rfl, -⟩ := List.cons.inj hl
        exact absurd hlt (Nat.lt_irrefl _)
    | cons z l =>
        obtain ⟨rfl, -⟩ := List.cons.inj hl
        have hy := (pairwise_around hs).1 y (List.mem_append_right _ List.mem_cons_self)
        omega

end Row

theorem OpensAt.exists_close (h : OpensAt t b o) (hb : balanced t = true) :
    ∃ n, matchingClose? t o = some n ∧ o < n ∧ ⟨n, b.closer, .code⟩ ∈ marks t 0 := by
  obtain ⟨cs, cs', hcode, hclose⟩ := h.code_cut
  have htrack : Depths.trackAll ⟨0, 0, 0⟩ ((codeOf (marks t 0)).map (·.2)) = some ⟨0, 0, 0⟩ := by
    rw [balanced, Bool.and_eq_true, beq_iff_eq] at hb
    exact hb.1
  rw [hcode, List.map_append, Depths.trackAll_append] at htrack
  obtain ⟨d, -, htrack⟩ := Option.bind_eq_some_iff.mp htrack
  obtain ⟨d', hd', htrack⟩ := Option.bind_eq_some_iff.mp htrack
  have hcount : d'.count b = d.count b + 1 := by
    obtain ⟨-, h⟩ | ⟨h, -⟩ | ⟨h, -⟩ := Depths.count_track hd' b
    · exact h
    · cases b <;> cases h
    · exact absurd rfl h
  have hzero : Depths.count ⟨0, 0, 0⟩ b = 0 := by cases b <;> rfl
  obtain ⟨n, hn⟩ : ∃ n, closeIn b.opener b.closer 0 cs' = some n :=
    exists_closeIn htrack (by omega)
  have hmem := mem_of_closeIn hn
  have hsorted := pairwise_code t
  rw [hcode] at hsorted
  refine ⟨n, hclose.trans hn, (pairwise_around hsorted).2.1 _ hmem, ?_⟩
  rw [← mem_codeOf, hcode]
  exact List.mem_append_right _ (List.mem_cons_of_mem _ hmem)

theorem OpensAt.apart_or_inside (h : OpensAt t b o) (h' : OpensAt t b o') (hlt : o < o')
    (hn : matchingClose? t o = some n) (hn' : matchingClose? t o' = some n') :
    n < o' ∨ n' < n := by
  obtain ⟨cs, us, hcode, hclose⟩ := h.code_cut
  obtain ⟨cs', us', hcode', hclose'⟩ := h'.code_cut
  have hsorted := pairwise_code t
  rw [hcode] at hsorted hcode'
  obtain ⟨vs, rfl⟩ := exists_between hcode' hsorted hlt
  obtain ⟨-, -, hrest⟩ := pairwise_around hsorted
  obtain ⟨hvs, -, hus'⟩ := pairwise_around hrest
  rw [hclose] at hn
  rw [hclose'] at hn'
  obtain hmem | ⟨k, hk⟩ := closeIn_append hn
  · exact .inl (hvs _ hmem)
  · rw [closeIn_opener] at hk
    exact .inr (closeIn_lt hus' (by rwa [Nat.zero_add]) hn')

end Opener

/-- Behind an opener outside of every region the restarted scan and the scan of the whole text
agree; in a balanced text they find a closer, and groups of one kind do not cross. -/
theorem restart_agrees {t : Text} {b : Bracket} {o : Nat} (h : OpensAt t b o) :
    matchingClose? t o = matchingClose? (blank t) o ∧
      (balanced t = true →
        (∃ n, matchingClose? t o = some n ∧ o < n ∧ ⟨n, b.closer, .code⟩ ∈ marks t 0) ∧
        ∀ o' n n', OpensAt t b o' → o < o' → matchingClose? t o = some n →
          matchingClose? t o' = some n' → n < o' ∨ n' < n) :=
  ⟨h.matchingClose?_blank.symm, fun hb =>
    ⟨h.exists_close hb, fun _ _ _ h' hlt hn hn' => h.apart_or_inside h' hlt hn hn'⟩⟩

/-- Two calls, one an argument of the other, behind a template with a region; the inner one shows a
bracket in a string, and a comment one behind the outer. -/
theorem restart_agrees_calls :
    OpensAt "\x60$\x7ba\x7d\x60+f(g(')'),2)//(".toList .paren 8 ∧
      OpensAt "\x60$\x7ba\x7d\x60+f(g(')'),2)//(".toList .paren 10 ∧
      balanced "\x60$\x7ba\x7d\x60+f(g(')'),2)//(".toList = true ∧
      (∃ n, matchingClose? "\x60$\x7ba\x7d\x60+f(g(')'),2)//(".toList 8 = some n ∧ 8 < n ∧
        ⟨n, ')', .code⟩ ∈ marks "\x60$\x7ba\x7d\x60+f(g(')'),2)//(".toList 0) ∧
      (17 < 10 ∨ 14 < 17) := by
  have houter : OpensAt "\x60$\x7ba\x7d\x60+f(g(')'),2)//(".toList .paren 8 :=
    ⟨⟨.code, [], some '\x60'⟩, by decide, rfl⟩
  have hinner : OpensAt "\x60$\x7ba\x7d\x60+f(g(')'),2)//(".toList .paren 10 :=
    ⟨⟨.code, [], some '\x60'⟩, by decide, rfl⟩
  have hbalanced : balanced "\x60$\x7ba\x7d\x60+f(g(')'),2)//(".toList = true := by decide
  have hagrees := (restart_agrees houter).2 hbalanced
  exact ⟨houter, hinner, hbalanced, hagrees.1, hagrees.2 10 17 14 hinner (by decide) rfl rfl⟩

end ServiceGate.Scan
