/-
# A literal and its pieces

A literal whose commas all stand outside of template regions (`Undivided`) is made of pieces, each
unbroken, with commas between them (`exists_pieces`).  The other way round a literal that is written
so is read piece by piece, wherever it stands (`readAt?_ofPieces`): its entries are those that the
pieces are read as by themselves, at the places where they stand.

Both directions rest on the scan between the braces.  It is cut at the commas outside of groups, and
between two of them it starts and ends in code, outside of all regions if the literal is undivided;
that is what makes a piece unbroken.  An unbroken piece is scanned alike wherever it stands
(`read?_of_marks`), so its entry is the same, its place apart.
-/
import ServiceGate.Proofs.ObjectLiteral.Stretches
import ServiceGate.Proofs.ObjectLiteral.Written
import ServiceGate.Proofs.Scan.Unbroken

namespace ServiceGate

open Scan

variable {t rest x y p : Text} {ps : List Text} {s s' σ : State} {n k start stop close : Nat}
  {d d' : Depths} {ms more : List Mark} {o : ObjectLiteral}

namespace ObjectLiteral

/-! ## Pieces with commas between them -/

def joined : List Text → Text
  | [] => []
  | p :: ps => p ++ ps.flatMap (',' :: ·)

def ofPieces (ps : List Text) : Text := '\x7b' :: (joined ps ++ ['\x7d'])

theorem joined_cons_cons (p q : Text) (ps : List Text) :
    joined (p :: q :: ps) = p ++ ',' :: joined (q :: ps) := by
  simp [joined]

theorem joined_append (ps₁ : List Text) (p : Text) (ps₂ : List Text) :
    joined (ps₁ ++ p :: ps₂) = ps₁.flatMap (· ++ [',']) ++ p ++ ps₂.flatMap (',' :: ·) := by
  induction ps₁ with
  | nil => rfl
  | cons q ps₁ ih =>
      cases ps₁ with
      | nil => simp [joined]
      | cons r ps₁ =>
          rw [List.cons_append, List.cons_append, joined_cons_cons, ← List.cons_append, ih]
          simp

theorem ofPieces_append (ps₁ : List Text) (p : Text) (ps₂ : List Text) :
    ofPieces (ps₁ ++ p :: ps₂) = '\x7b' :: ps₁.flatMap (· ++ [',']) ++ p ++
      (ps₂.flatMap (',' :: ·) ++ ['\x7d']) := by
  rw [ofPieces, joined_append]
  simp

theorem size_opened (x front : Text) :
    Text.size (x ++ '\x7b' :: front) = Text.size x + 1 + Text.size front := by
  rw [Text.size_append, Text.size, Nat.add_assoc]
  rfl

/-- The text around a piece stays as it is when another piece is put in its place. -/
theorem exists_around (x : Text) (ps₁ ps₂ : List Text) (y : Text) : ∃ before behind,
    (∀ p, x ++ ofPieces (ps₁ ++ p :: ps₂) ++ y = before ++ p ++ behind) ∧
      Text.size before = Text.size x + 1 + Text.size (ps₁.flatMap (· ++ [','])) ∧
      behind = ps₂.flatMap (',' :: ·) ++ '\x7d' :: y := by
  refine ⟨x ++ '\x7b' :: ps₁.flatMap (· ++ [',']), _, fun p => ?_, size_opened _ _, rfl⟩
  rw [ofPieces_append]
  simp

/-- Two pieces are written like one with a comma in it. -/
theorem ofPieces_comma (ps₁ : List Text) (p q : Text) (ps₂ : List Text) :
    ofPieces (ps₁ ++ p :: q :: ps₂) = ofPieces (ps₁ ++ (p ++ ',' :: q) :: ps₂) := by
  rw [ofPieces_append, ofPieces_append]
  simp

theorem size_ofPieces (ps : List Text) : Text.size (ofPieces ps) = 1 + Text.size
    (joined ps) + 1 := by
  rw [ofPieces, Text.size, Text.size_append, Nat.add_assoc]
  rfl

theorem detached_flatMap (ps : List Text) (k : Bracket) (y : Text) :
    Detached (ps.flatMap (',' :: ·) ++ k.closer :: y) := by
  cases ps with
  | nil => exact detached_closer k y
  | cons p ps => exact fun c => by simp [opensComment]

/-! ## Cutting unbroken text -/

/-- Cutting at commas passes over what has none outside of its groups. -/
theorem pieces_of_within : ∀ {ms : List Mark} {d : Depths}, d.within (codeText ms) = some d' →
    (∀ m ∈ ms, m.offset < close) → ∀ more : List Mark,
      pieces close d.total start (ms ++ more) = pieces close d'.total start more
  | [], _, h, _, _ => by
      obtain rfl := Option.some.inj h
      rfl
  | ⟨k, c, kind⟩ :: ms, d, h, hclose, more => by
      obtain ⟨hk, hclose⟩ := List.forall_mem_cons.mp hclose
      rw [List.cons_append, pieces, if_neg (Nat.not_le_of_lt hk)]
      rw [codeText_cons] at h
      by_cases hkind : kind = .code
      · rw [if_pos hkind, Depths.within] at h
        split_ifs at h with hcut
        obtain ⟨d₁, hd₁, h⟩ := Option.bind_eq_some_iff.mp h
        have htotal := Depths.total_track hd₁
        have hcomma : (c == ',' && d.total == 0) = false := by
          rw [Bool.and_eq_false_iff, beq_eq_false_iff_ne, beq_eq_false_iff_ne, ne_eq, ne_eq,
            Depths.total_eq_zero]
          exact not_and_or.mp hcut
        rw [← pieces_of_within h hclose more, htotal, hkind]
        simp only [bne_self_eq_false, Bool.false_eq_true, if_false, hcomma]
        split_ifs
        · rfl
        · rfl
        · rw [Int.add_zero]
      · have hskip : (kind != .code) = true := bne_iff_ne.mpr hkind
        rw [if_neg hkind] at h
        rw [if_pos hskip, pieces_of_within h hclose more]

/-- The spans of pieces, the first of which starts at an offset. -/
def spans (n : Nat) : List Text → List (Nat × Nat)
  | [] => []
  | p :: ps => (n, n + Text.size p) :: spans (n + Text.size p + 1) ps

theorem step_comma (hs : s.Agrees .start) (next : Option Char) :
    s.step ',' next = ⟨.code, s, false⟩ :=
  State.step_plain hs.1 hs.2 rfl rfl

/-- Unbroken pieces with commas between them are read back into code and cut into themselves. -/
theorem reads_joined : ∀ (ps : List Text) {p : Text} {s : State} {n : Nat},
    (∀ q ∈ p :: ps, Unbroken q) → s.Agrees .start → Detached rest →
      ∃ ms s', Reads rest s n (joined (p :: ps)) ms s' ∧ s'.Agrees .start ∧
        Depths.zero.trackAll (codeText ms) = some .zero ∧
        ∀ more, (∀ m ∈ more.head?, n + Text.size (joined (p :: ps)) ≤ m.offset) →
          pieces (n + Text.size (joined (p :: ps))) 0 n (ms ++ more) = spans n (p :: ps)
  | [], p, s, n, hps, hs, hrest => by
      obtain ⟨ms, s', hms, hs', hwithin⟩ := (hps p List.mem_cons_self).reads hs hrest n
      have hjoined : joined [p] = p := List.append_nil p
      rw [hjoined]
      refine ⟨ms, s', hms, hs', Depths.trackAll_of_within hwithin, fun more hmore => ?_⟩
      have hpass := @pieces_of_within n _ _ _ _ hwithin (offset_lt_of_reads hms) more
      refine hpass.trans ?_
      cases more with
      | nil => rfl
      | cons m more =>
          rw [pieces, if_pos (hmore m rfl)]
          rfl
  | q :: ps, p, s, n, hps, hs, hrest => by
      obtain ⟨hp, hps⟩ := List.forall_mem_cons.mp hps
      have hcomma : Detached (',' :: joined (q :: ps) ++ rest) := fun c => by simp [opensComment]
      obtain ⟨ms, s₁, hms, hs₁, hwithin⟩ := hp.reads hs hcomma n
      obtain ⟨ms', s', hms', hs', htrack, hpieces⟩ :=
        reads_joined ps (n := n + Text.size p + ','.utf8Size) hps hs₁ hrest
      have hsize : n + Text.size (joined (p :: q :: ps)) =
          n + Text.size p + 1 + Text.size (joined (q :: ps)) := by
        rw [joined_cons_cons, Text.size_append, Text.size, show ','.utf8Size = 1 from rfl]
        omega
      rw [hsize, joined_cons_cons]
      refine ⟨_, s', hms.append (.one (step_comma hs₁ _) hms'), hs', ?_, fun more hmore => ?_⟩
      · rw [codeText_append, Depths.trackAll_append, Depths.trackAll_of_within hwithin,
          Option.bind_some, codeText_cons, if_pos rfl]
        exact htrack
      · have hbefore : ∀ m ∈ ms, m.offset < n + Text.size p + 1 + Text.size (joined (q :: ps)) :=
          fun m hm => by
            have := offset_lt_of_reads hms m hm
            omega
        have hpass := @pieces_of_within n _ _ _ _ hwithin hbefore
          (⟨n + Text.size p, ',', .code⟩ :: (ms' ++ more))
        rw [List.append_assoc, List.cons_append]
        refine hpass.trans ?_
        rw [Depths.total_eq_zero.mpr rfl, pieces_comma (by omega)]
        exact congrArg _ (hpieces more hmore)

end ObjectLiteral

/-! ## Reading a piece -/

namespace ObjectEntry

def ofPiece? (p : Text) : Option ObjectEntry := read? p 0 (Text.size p)

/-- A piece that is scanned as by itself is read so, wherever it stands. -/
theorem read?_of_marks {ms : List Mark} (hms : marks (p ++ rest) 0 = marks p 0 ++ ms)
    (hbehind : ∀ m ∈ ms, Text.size p ≤ m.offset) (x : Text) :
    read? (x ++ p ++ rest) (Text.size x) (Text.size x + Text.size p) =
      (ofPiece? p).map (·.moved (Text.size x)) := by
  have hread : read? (p ++ rest) 0 (Text.size p) = read? p 0 (Text.size p) := by
    rw [read?, read?, firstSignificant?_of_marks hms hbehind (Nat.le_refl _)]
    simp only [Text.between_append_left (Nat.le_refl (Text.size p))]
  rw [List.append_assoc, ofPiece?, ← hread, ← Nat.add_zero (Text.size x), Nat.add_assoc,
    Nat.zero_add]
  exact read?_append_right x (p ++ rest) 0 (Text.size p)

theorem read?_piece (hp : Unbroken p) (hrest : Detached rest) (x : Text) :
    read? (x ++ p ++ rest) (Text.size x) (Text.size x + Text.size p) =
      (ofPiece? p).map (·.moved (Text.size x)) := by
  obtain ⟨ms, s', hms, -⟩ := hp.reads (s := .start) ⟨rfl, rfl⟩ hrest 0
  have hmarks : marks (p ++ rest) 0 = marks p 0 ++ marksFrom s' (0 + Text.size p) rest := by
    rw [marks_zero, marks_zero, hms.marksFrom_eq, ← hms.eq_marksFrom]
  refine read?_of_marks hmarks (fun m hm => ?_) x
  have hle := le_offset_of_mem_marksFrom hm
  omega

/-- The entries of pieces, the first of which starts at an offset. -/
def ofPieces (n : Nat) : List Text → List ObjectEntry
  | [] => []
  | p :: ps => ((ofPiece? p).map (·.moved n)).toList ++ ofPieces (n + Text.size p + 1) ps

theorem ofPieces_append (ps₁ ps₂ : List Text) : ∀ n : Nat, ofPieces n (ps₁ ++ ps₂) =
    ofPieces n ps₁ ++ ofPieces (n + Text.size (ps₁.flatMap (· ++ [',']))) ps₂ := by
  induction ps₁ with
  | nil => exact fun n => rfl
  | cons p ps₁ ih =>
      intro n
      rw [List.cons_append, ofPieces, ofPieces, ih, List.append_assoc, List.flatMap_cons,
        Text.size_append, Text.size_append]
      congr 3
      have hcomma : Text.size [','] = 1 := rfl
      omega

theorem filterMap_spans : ∀ (ps : List Text) {p x : Text}, (∀ q ∈ p :: ps, Unbroken q) →
    Detached rest → (ObjectLiteral.spans (Text.size x) (p :: ps)).filterMap
      (fun z => read? (x ++ ObjectLiteral.joined (p :: ps) ++ rest) z.1 z.2) =
        ofPieces (Text.size x) (p :: ps)
  | [], p, x, hps, hrest => by
      have hread := read?_piece (hps p List.mem_cons_self) hrest x
      have hjoined : ObjectLiteral.joined [p] = p := List.append_nil p
      rw [ObjectLiteral.spans, ObjectLiteral.spans, hjoined, ofPieces, ofPieces, List.append_nil,
        List.filterMap_cons]
      simp only [hread, List.filterMap_nil]
      cases ofPiece? p <;> rfl
  | q :: ps, p, x, hps, hrest => by
      obtain ⟨hp, hps⟩ := List.forall_mem_cons.mp hps
      have hcomma : Detached (',' :: (ObjectLiteral.joined (q :: ps) ++ rest)) :=
        fun c => by simp [opensComment]
      have hread := read?_piece hp hcomma x
      have ih := filterMap_spans ps (x := x ++ p ++ [',']) hps hrest
      have hsize : Text.size (x ++ p ++ [',']) = Text.size x + Text.size p + 1 := by
        rw [Text.size_append, Text.size_append]
        rfl
      have htext : x ++ ObjectLiteral.joined (p :: q :: ps) ++ rest =
          x ++ p ++ ',' :: (ObjectLiteral.joined (q :: ps) ++ rest) := by
        rw [ObjectLiteral.joined_cons_cons]
        simp
      have htext' : x ++ p ++ [','] ++ ObjectLiteral.joined (q :: ps) ++ rest =
          x ++ p ++ ',' :: (ObjectLiteral.joined (q :: ps) ++ rest) := by simp
      rw [hsize, htext'] at ih
      rw [ObjectLiteral.spans, htext, List.filterMap_cons, ofPieces, ← ih]
      simp only [hread]
      cases ofPiece? p <;> rfl

end ObjectEntry

namespace ObjectLiteral

/-! ## Reading a literal -/

/-- Between the braces unbroken pieces are scanned with every bracket closed, and cut into
themselves. -/
theorem exists_marks_ofPieces (hne : ps ≠ []) (hps : ∀ p ∈ ps, Unbroken p) (x y : Text) : ∃ ms ms',
    marks (x ++ ofPieces ps ++ y) (Text.size x + 1) =
        ms ++ ⟨Text.size x + 1 + Text.size (joined ps), '\x7d', .code⟩ :: ms' ∧
      Depths.zero.trackAll (codeText ms) = some .zero ∧
      pieces (Text.size x + 1 + Text.size (joined ps)) 0 (Text.size x + 1)
        (marks (x ++ ofPieces ps ++ y) (Text.size x + 1)) = spans (Text.size x + 1) ps := by
  obtain ⟨p, ps, rfl⟩ := List.exists_cons_of_ne_nil hne
  have htext : x ++ ofPieces (p :: ps) ++ y = x ++ '\x7b' :: (joined (p :: ps) ++ '\x7d' :: y) := by
    simp [ofPieces]
  obtain ⟨ms, s', hms, hs', htrack, hpieces⟩ :=
    reads_joined ps (s := .start) (n := Text.size x + 1) hps ⟨rfl, rfl⟩ (detached_closer .brace y)
  have hstep : s'.step '\x7d' y.head? = ⟨.code, s', false⟩ := State.step_plain hs'.1 hs'.2 rfl rfl
  have hmarks := hms.marksFrom_eq
  rw [marksFrom_one _ (by rw [Bracket.closer, hstep]), Bracket.closer, hstep] at hmarks
  have hbehind := Text.after_append_cons x '\x7b' (joined (p :: ps) ++ '\x7d' :: y)
  have hinner : marks (x ++ ofPieces (p :: ps) ++ y) (Text.size x + 1) =
      marksFrom .start (Text.size x + 1) (joined (p :: ps) ++ '\x7d' :: y) := by
    rw [marks, htext]
    exact congrArg _ hbehind
  refine ⟨ms, _, hinner.trans hmarks, htrack, ?_⟩
  rw [hinner, hmarks, hpieces _ fun m hm => by rw [← Option.some.inj hm]]

/-- A literal of unbroken pieces is read with the entries of the pieces. -/
theorem readAt?_ofPieces (hne : ps ≠ []) (hps : ∀ p ∈ ps, Unbroken p) (x y : Text) :
    readAt? (x ++ ofPieces ps ++ y) (Text.size x) =
      some ⟨Text.size x, Text.size x + 1 + Text.size (joined ps),
        ObjectEntry.ofPieces (Text.size x + 1) ps⟩ := by
  obtain ⟨ms, ms', hinner, htrack, hpieces⟩ := exists_marks_ofPieces hne hps x y
  obtain ⟨p, ps, rfl⟩ := List.exists_cons_of_ne_nil hne
  have htext : x ++ ofPieces (p :: ps) ++ y =
      x ++ Bracket.brace.opener :: (joined (p :: ps) ++ Bracket.brace.closer :: y) := by
    simp [ofPieces, Bracket.opener, Bracket.closer]
  have hopen : Text.size (x ++ ['\x7b']) = Text.size x + 1 := by
    rw [Text.size_append]
    rfl
  have hmarks : marks (x ++ ofPieces (p :: ps) ++ y) (Text.size x + 1) =
      marksFrom .start (Text.size x + 1) (joined (p :: ps) ++ Bracket.brace.closer :: y) := by
    have hbehind := Text.after_append_cons x Bracket.brace.opener
      (joined (p :: ps) ++ Bracket.brace.closer :: y)
    rw [Bracket.utf8Size_opener] at hbehind
    rw [marks, htext, hbehind]
  have hclose : matchingClose? (x ++ ofPieces (p :: ps) ++ y) (Text.size x) =
      some (Text.size x + 1 + Text.size (joined (p :: ps))) := by
    have hpass := closeIn_of_trackAll .brace
      (codeOf (⟨Text.size x + 1 + Text.size (joined (p :: ps)), '\x7d', .code⟩ :: ms')) htrack
    rw [htext, matchingClose?_opener .brace rfl, ← hmarks, hinner, codeOf_append]
    refine hpass.trans ?_
    rw [codeOf_cons_code]
    exact closeIn_closer_zero .brace _ _
  have hafter : (x ++ ofPieces (p :: ps) ++ y).after (Text.size x) =
      '\x7b' :: (joined (p :: ps) ++ '\x7d' :: y) := by
    rw [htext, Text.after_append]
    rfl
  have hentries := ObjectEntry.filterMap_spans ps (x := x ++ ['\x7b']) hps
    (detached_closer .brace y)
  have htext' : x ++ ['\x7b'] ++ joined (p :: ps) ++ Bracket.brace.closer :: y =
      x ++ ofPieces (p :: ps) ++ y := by
    simp [ofPieces, Bracket.closer]
  rw [hopen, htext'] at hentries
  rw [readAt?, hafter]
  simp only [hclose, Option.map_some, hpieces]
  rw [hentries]

/-! ## The pieces of a literal -/

/-- No piece of the literal starts inside a region of a template. -/
def Undivided (t : Text) (o : ObjectLiteral) : Prop :=
  ∀ z ∈ pieces o.closeAt 0 (o.openAt + 1) (marks t (o.openAt + 1)),
    (State.start.after (t.between (o.openAt + 1) z.1)).regions = []

instance (t : Text) (o : ObjectLiteral) : Decidable (o.Undivided t) :=
  inferInstanceAs (Decidable (∀ z ∈ pieces o.closeAt 0 (o.openAt + 1) _, _))

/-- What stands between the braces of a literal is read up to the closing one. -/
theorem exists_inner (h : readAt? t n = some o) : ∃ x w y ms ms' s,
    t = x ++ '\x7b' :: (w ++ '\x7d' :: y) ∧ n = Text.size x ∧ o.openAt = n ∧
      o.closeAt = n + 1 + Text.size w ∧ Reads ('\x7d' :: y) .start (n + 1) w ms s ∧ s.mode = .code ∧
        marks t (n + 1) = ms ++ ⟨o.closeAt, '\x7d', .code⟩ :: ms' := by
  rw [readAt?] at h
  split at h
  · next inner hafter =>
      obtain ⟨close, hclose, rfl⟩ := Option.map_eq_some_iff.mp h
      obtain ⟨b, x, w, y, rfl, rfl, hsize⟩ := exists_of_matchingClose? hclose
      obtain rfl : b = .brace := by
        rw [Text.after_append] at hafter
        cases b
        · rfl
        · cases (List.cons.inj hafter).1
        · cases (List.cons.inj hafter).1
      have hmarks : marks (x ++ Bracket.brace.opener :: (w ++ Bracket.brace.closer :: y))
          (Text.size x + 1) = marksFrom .start (Text.size x + 1)
          (w ++ Bracket.brace.closer :: y) := by
        have hbehind :=
          Text.after_append_cons x Bracket.brace.opener (w ++ Bracket.brace.closer :: y)
        rw [Bracket.utf8Size_opener] at hbehind
        rw [marks, hbehind]
      have hmem := hclose
      rw [matchingClose?_opener .brace rfl] at hmem
      obtain ⟨ms, ms', hcut⟩ := List.append_of_mem (mem_codeOf.mp (mem_of_closeIn hmem))
      obtain ⟨p, q, σ, σ', hinner, hp, hpre, hstep, -⟩ := cut_marksFrom hcut
      obtain ⟨v, rfl, hv⟩ := Text.exists_middle hinner (by omega)
      obtain rfl : v = [] := Text.eq_nil_of_size (by rw [Text.size_append] at hp; omega)
      rw [List.append_nil] at hpre
      exact ⟨x, w, y, ms, ms', σ, rfl, rfl, rfl, hsize, hpre.congr_head rfl,
        (State.of_step_code (by rw [hstep])).1, by rw [hmarks, hcut]; rfl⟩
  · cases h

theorem exists_pieces_cons (close : Nat) : ∀ (ms : List Mark) (depth : Int) (start : Nat),
    ∃ stop zs, pieces close depth start ms = (start, stop) :: zs
  | [], _, start => ⟨close, [], rfl⟩
  | m :: ms, depth, start => by
      rw [pieces]
      split_ifs
      · exact ⟨close, [], rfl⟩
      · exact exists_pieces_cons close ms _ _
      · exact exists_pieces_cons close ms _ _
      · exact exists_pieces_cons close ms _ _
      · exact ⟨_, _, rfl⟩
      · exact exists_pieces_cons close ms _ _

/-- The rest of a literal, from code outside of templates on, is made of unbroken pieces. -/
theorem exists_joined {rest w pre : Text} {s s' : State} {n : Nat} {mspre ms : List Mark}
    (hpre : Reads (w ++ rest) .start n pre mspre s) (hs : s.Agrees .start)
    (hw : Reads rest s (n + Text.size pre) w ms s') (hs' : s'.Agrees .start)
    (htrack : Depths.zero.trackAll (codeText ms) = some .zero)
    (hcut : ∀ z ∈ pieces (n + Text.size (pre ++ w)) 0 (n + Text.size pre) ms,
      (State.start.after ((pre ++ w).before (z.1 - n))).regions = []) :
    ∃ p ps, w = joined (p :: ps) ∧ ∀ q ∈ p :: ps, Unbroken q := by
  rcases Depths.within_or_cut htrack with hwithin | ⟨ms₁, k, ms₂, rfl, hwithin, htrack'⟩
  · refine ⟨w, [], (List.append_nil w).symm, fun q hq => ?_⟩
    obtain rfl := List.mem_singleton.mp hq
    exact hw.unbroken hs hs' hwithin
  · obtain ⟨p, q, σ, σ', rfl, hk, hp, hstep, hq⟩ := hw.cut
    have hcomma : ','.utf8Size = 1 := rfl
    -- the comma leaves the state alone, and the next piece tells that no region is open
    obtain rfl : σ' = σ := by
      obtain ⟨mode, regions, last⟩ := σ
      obtain rfl : mode = .code := (State.of_step_code (by rw [hstep])).1
      have hplain := @step_ordinary regions last ',' (q ++ rest).head? rfl rfl rfl
      rw [hplain] at hstep
      exact ((Step.mk.inj hstep).2.1).symm
    obtain ⟨msfront, hfront⟩ : ∃ ms, Reads (q ++ rest) .start n (pre ++ p ++ [',']) ms σ' := by
      refine ⟨_, .append (.append (hpre.congr_head ?_) (hp.congr_head rfl)) (.one hstep .nil)⟩
      cases p <;> rfl
    have hsize : Text.size (pre ++ p ++ [',']) = Text.size pre + Text.size p + 1 := by
      rw [Text.size_append, Text.size_append]
      rfl
    have htext : pre ++ (p ++ ',' :: q) = pre ++ p ++ [','] ++ q := by simp
    have hpieces : pieces (n + Text.size (pre ++ (p ++ ',' :: q))) 0 (n + Text.size pre)
        (ms₁ ++ ⟨k, ',', .code⟩ :: ms₂) = (n + Text.size pre, k) ::
          pieces (n + Text.size (pre ++ (p ++ ',' :: q))) 0 (k + 1) ms₂ := by
      have hclose : k < n + Text.size (pre ++ (p ++ ',' :: q)) := by
        rw [htext, Text.size_append, hsize]
        omega
      have hpass := @pieces_of_within (n + Text.size pre)
        (n + Text.size (pre ++ (p ++ ',' :: q))) _ _ _ hwithin
        (fun m hm => by
          have := offset_lt_of_reads hp m hm
          omega) (⟨k, ',', .code⟩ :: ms₂)
      refine hpass.trans ?_
      rw [Depths.total_eq_zero.mpr rfl, pieces_comma hclose]
    rw [hpieces] at hcut
    obtain ⟨-, hcut⟩ := List.forall_mem_cons.mp hcut
    have hregions : σ'.regions = [] := by
      obtain ⟨stop, zs, hzs⟩ :=
        exists_pieces_cons (n + Text.size (pre ++ (p ++ ',' :: q))) ms₂ 0 (k + 1)
      have hfirst := hcut (k + 1, stop) (by rw [hzs]; exact List.mem_cons_self)
      have hoffset : k + 1 - n = Text.size (pre ++ p ++ [',']) := by omega
      simp only at hfirst
      rwa [htext, hoffset, Text.before_append, hfront.after_alone] at hfirst
    have hσ : σ'.Agrees .start := ⟨(State.of_step_code (by rw [hstep])).1, hregions⟩
    have hstart : k + 1 = n + Text.size (pre ++ p ++ [',']) := by omega
    rw [hcomma, hstart] at hq
    rw [htext, hstart] at hcut
    obtain ⟨p', ps, rfl, hps⟩ := exists_joined hfront hσ hq hs' htrack' hcut
    exact ⟨p, p' :: ps, (joined_cons_cons p p' ps).symm,
      List.forall_mem_cons.mpr ⟨hp.unbroken hs hσ hwithin, hps⟩⟩
termination_by w.length
decreasing_by
  subst_vars
  simp only [List.length_append, List.length_cons]
  omega

/-- An undivided literal with balance between its braces is made of unbroken pieces. -/
theorem exists_pieces (h : readAt? t n = some o)
    (hbalanced : balanced (t.between (o.openAt + 1) o.closeAt) = true) (hcut : o.Undivided t) :
    ∃ x ps y, t = x ++ ofPieces ps ++ y ∧ n = Text.size x ∧ ps ≠ [] ∧ ∀ p ∈ ps, Unbroken p := by
  obtain ⟨x, w, y, ms, ms', s, rfl, rfl, hopen, hclose, hw, hs, hmarks⟩ := exists_inner h
  have hsize : Text.size (x ++ ['\x7b']) = Text.size x + 1 := by
    rw [Text.size_append]
    rfl
  have htext : x ++ '\x7b' :: (w ++ '\x7d' :: y) = x ++ ['\x7b'] ++ w ++ '\x7d' :: y := by simp
  have hbetween : (x ++ '\x7b' :: (w ++ '\x7d' :: y)).between (Text.size x + 1)
      (Text.size x + 1 + Text.size w) = w := by
    rw [htext, ← hsize, Text.between_append]
  rw [hopen, hclose, hbetween, balanced, Bool.and_eq_true, beq_iff_eq, Bool.not_eq_true']
    at hbalanced
  obtain ⟨htrack, hliteral⟩ := hbalanced
  have hcode : (codeChars w 0).map (·.2) = codeText (marksFrom .start 0 w) := by
    rw [codeChars_eq, marks_zero, codeText]
  rw [hcode, codeText_marksFrom w .start 0 (Text.size x + 1), ← hw.eq_marksFrom] at htrack
  rw [finalState, hw.after_alone, State.inLiteral, Bool.or_eq_false_iff, Bool.not_eq_false',
    List.isEmpty_iff] at hliteral
  have hs' : s.Agrees .start := ⟨hs, hliteral.2⟩
  obtain ⟨p, ps, rfl, hps⟩ := @exists_joined _ _ [] _ _ (Text.size x + 1) _ _ .nil ⟨rfl, rfl⟩ hw hs'
    htrack fun z hz => by
      have hz' : z ∈ pieces o.closeAt 0 (o.openAt + 1)
          (marks (x ++ '\x7b' :: (w ++ '\x7d' :: y)) (o.openAt + 1)) := by
        rw [hopen, hmarks, hclose, pieces_append_left]
        · exact hz
        · exact fun m hm => Nat.le_of_eq (congrArg Mark.offset (Option.some.inj hm))
      have hpiece := hcut z hz'
      have hle := (le_of_mem_pieces (Nat.le_add_right _ _) hz).1
      rw [hopen] at hpiece
      by_cases hstart : Text.size x + 1 ≤ z.1
      · have hz : z.1 = Text.size (x ++ ['\x7b']) + (z.1 - (Text.size x + 1)) := by omega
        have hopen' : Text.size x + 1 = Text.size (x ++ ['\x7b']) + 0 := by omega
        have hpart : ∀ k, Text.between w 0 k = Text.before w k := fun k => by
          rw [Text.between, Text.between?, if_pos (Nat.zero_le k), Text.after?_zero,
            Option.bind_some, Nat.sub_zero, Text.before]
        simp only [List.nil_append] at hle ⊢
        rw [htext, hz, hopen', List.append_assoc, Text.between_append_right,
          Text.between_append_left, hpart] at hpiece
        · rwa [← hopen'] at hpiece
        · omega
      · rw [Nat.sub_eq_zero_of_le (Nat.le_of_not_le hstart), Text.before, Text.before?_zero]
        rfl
  exact ⟨x, p :: ps, y, by simp [ofPieces], rfl, List.cons_ne_nil _ _, hps⟩

end ObjectLiteral

end ServiceGate
