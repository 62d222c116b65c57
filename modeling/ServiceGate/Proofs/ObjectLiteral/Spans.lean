/-
# Where the parts of a literal stand

A piece of a literal ends at a comma or at a brace, and neither makes a sign of two characters with
what stands in front of it, so a piece is read by itself whatever the text around it is
(`read?_between`). Its spans then are those of its shape, and the pieces stand apart.

A value may open a literal of its own.  The scan of the outer literal comes to that brace inside of
regions of templates at most, so the search for the outer closer passes the inner one first
(`closeAt_lt`), and going down through the values comes to an end: `laidOut_of_readAt?`.
-/
import ServiceGate.Proofs.Checked.ObjectLiteral
import ServiceGate.Proofs.ObjectLiteral.Piece
import ServiceGate.Proofs.Scan.Inside

namespace ServiceGate

open Scan

variable {p q t front rest w x : Text} {s σ : State} {n close : Nat} {ms : List Mark}
  {z : Nat × Nat} {e : ObjectEntry} {o inner : ObjectLiteral}

/-! ## In front of a comma or a closing brace -/

/-- The text goes on with what a piece ends at. -/
def Delimited (t : Text) : Prop := ∃ c r, t = c :: r ∧ (c = ',' ∨ c = '\x7d')

namespace Scan

theorem State.step_delimited (s : State) (c : Char) {d : Char} (hd : d = ',' ∨ d = '\x7d') :
    (s.step c (some d)).kind = (s.step c none).kind := by
  have hslash : (some d == some '/') = false := by rcases hd with rfl | rfl <;> rfl
  have hstar : (some d == some '*') = false := by rcases hd with rfl | rfl <;> rfl
  have hbrace : (some d == some '\x7b') = false := by rcases hd with rfl | rfl <;> rfl
  unfold State.step
  split
  · rfl
  · simp [State.stepBlockComment, hslash]
  · simp only [State.stepString, hbrace, Bool.and_false]
    split_ifs <;> rfl
  · simp [State.stepCode, hslash, hstar]

theorem marksFrom_delimited (hq : Delimited q) : ∀ (p : Text) (s : State) (n : Nat),
    ∃ ms, marksFrom s n (p ++ q) = marksFrom s n p ++ ms ∧ ∀ m ∈ ms, n + Text.size p ≤ m.offset
  | [], s, n => ⟨marksFrom s n q, rfl, fun _ hm => le_offset_of_mem_marksFrom hm⟩
  | [c], s, n => by
      obtain ⟨d, r, rfl, hd⟩ := hq
      have hkind := s.step_delimited c hd
      cases htakes : (s.step c (some d)).takesNext with
      | true =>
          refine ⟨⟨n + c.utf8Size, d, (s.step c none).kind⟩ ::
            marksFrom (s.step c (some d)).state (n + c.utf8Size + d.utf8Size) r, ?_, fun m hm => ?_⟩
          · rw [List.singleton_append, marksFrom_two n htakes, hkind]
            rfl
          · rcases List.mem_cons.mp hm with rfl | hm
            · exact Nat.le_refl _
            · have := le_offset_of_mem_marksFrom hm
              rw [Text.size, Text.size]
              omega
      | false =>
          refine ⟨marksFrom (s.step c (some d)).state (n + c.utf8Size) (d :: r), ?_, fun m hm => ?_⟩
          · rw [List.singleton_append, marksFrom_one n (t := d :: r) htakes, List.head?_cons, hkind]
            rfl
          · exact le_offset_of_mem_marksFrom hm
  | c :: c' :: p, s, n => by
      cases htakes : (s.step c (some c')).takesNext with
      | true =>
          obtain ⟨ms, hms, hbehind⟩ :=
            marksFrom_delimited hq p (s.step c (some c')).state (n + c.utf8Size + c'.utf8Size)
          refine ⟨ms, ?_, fun m hm => ?_⟩
          · rw [List.cons_append, List.cons_append, marksFrom_two n htakes, marksFrom_two n htakes,
              hms]
            rfl
          · have := hbehind m hm
            simp only [Text.size]
            omega
      | false =>
          obtain ⟨ms, hms, hbehind⟩ :=
            marksFrom_delimited hq (c' :: p) (s.step c (some c')).state (n + c.utf8Size)
          refine ⟨ms, ?_, fun m hm => ?_⟩
          · rw [List.cons_append, marksFrom_one n (t := c' :: p ++ q) htakes,
              marksFrom_one n (t := c' :: p) htakes]
            rw [List.cons_append] at hms ⊢
            rw [List.head?_cons, List.head?_cons, hms]
            rfl
          · have := hbehind m hm
            simp only [Text.size] at this ⊢
            omega

end Scan

/-- A piece is read by itself wherever it stands. -/
theorem ObjectEntry.read?_between (hrest : Delimited rest) (x w : Text) :
    read? (x ++ w ++ rest) (Text.size x) (Text.size x + Text.size w) =
      (ofPiece? w).map (·.moved (Text.size x)) := by
  obtain ⟨ms, hms, hbehind⟩ := marksFrom_delimited hrest w .start 0
  refine read?_of_marks (by rw [marks_zero, marks_zero, hms]) (fun m hm => ?_) x
  rw [← Nat.zero_add (Text.size w)]
  exact hbehind m hm

theorem ObjectEntry.Shape.keyAt (h : Shape w e) : w.IsBoundary e.keyAt ∧
    e.keyAt ≤ e.valueStart := by
  cases h with
  | field hfront hz =>
      obtain ⟨-, -, -, -⟩ := hfront
      rw [List.append_assoc, Text.size_append]
      exact ⟨Text.isBoundary_append _ _, Nat.le_add_right _ _⟩
  | shorthand => exact ⟨Text.isBoundary_append _ _, Nat.le_refl _⟩
  | method =>
      rw [Text.size_append]
      exact ⟨Text.isBoundary_append _ _, Nat.le_add_right _ _⟩

/-! ## Pieces in order -/

namespace ObjectLiteral

/-- The pieces stand apart, between the braces. -/
theorem pieces_apart (close : Nat) : ∀ {ms : List Mark} {depth : Int} {start : Nat},
    (ms.Pairwise fun m m' => m.offset < m'.offset) → (∀ m ∈ ms, start ≤ m.offset) → start ≤ close →
      (pieces close depth start ms).Pairwise (fun z z' => z.2 < z'.1) ∧
        ∀ z ∈ pieces close depth start ms, start ≤ z.1 ∧ z.1 ≤ z.2 ∧ z.2 ≤ close
  | [], _, start, _, _, hle =>
      ⟨List.pairwise_singleton _ _, by simpa [pieces] using hle⟩
  | m :: ms, depth, start, hms, hstart, hle => by
      obtain ⟨hfirst, hms⟩ := List.pairwise_cons.mp hms
      obtain ⟨hm, hstart⟩ := List.forall_mem_cons.mp hstart
      rw [pieces]
      split_ifs with hclose
      · exact ⟨List.pairwise_singleton _ _, by simpa using hle⟩
      · exact pieces_apart close hms hstart hle
      · exact pieces_apart close hms hstart hle
      · exact pieces_apart close hms hstart hle
      · obtain ⟨hapart, hspans⟩ := @pieces_apart close ms depth (m.offset + 1) hms hfirst (by omega)
        refine ⟨List.pairwise_cons.mpr ⟨fun z hz => ?_, hapart⟩, List.forall_mem_cons.mpr ⟨?_, ?_⟩⟩
        · have := (hspans z hz).1
          dsimp only
          omega
        · dsimp only
          omega
        · intro z hz
          have := hspans z hz
          omega
      · exact pieces_apart close hms hstart hle

/-- The scan of a literal comes to every piece of it in code, and behind the piece stands a comma or
the closing brace. -/
theorem exists_piece (h : readAt? t n = some o)
    (hz : z ∈ pieces o.closeAt 0 (n + 1) (marks t (n + 1))) :
    ∃ (x front w rest : Text) (ms : List Mark) (σ : State),
      t = x ++ '\x7b' :: (front ++ (w ++ rest)) ∧ n = Text.size x ∧ z.1 = n + 1 + Text.size front ∧
        z.2 = z.1 + Text.size w ∧ Delimited rest ∧ Reads (w ++ rest) .start (n + 1) front ms σ ∧
        σ.mode = .code := by
  obtain ⟨x, body, y, -, -, -, rfl, rfl, -, hclose, -⟩ := exists_inner h
  have hmarks : marks (x ++ '\x7b' :: (body ++ '\x7d' :: y)) (Text.size x + 1) =
      marksFrom .start (Text.size x + 1) (body ++ '\x7d' :: y) := by
    have hbehind := Text.after_append_cons x '\x7b' (body ++ '\x7d' :: y)
    rw [marks]
    exact congrArg _ hbehind
  rw [hmarks] at hz
  have hcomma : ','.utf8Size = 1 := rfl
  obtain ⟨front, v, ms, σ, hfront, hstart, hreads, hσ⟩ : ∃ front v ms σ,
      body ++ '\x7d' :: y = front ++ v ∧ z.1 = Text.size x + 1 + Text.size front ∧
        Reads v .start (Text.size x + 1) front ms σ ∧ σ.mode = .code := by
    rcases (of_mem_pieces hz).1 with hstart | ⟨i, hi, hstart⟩
    · exact ⟨[], _, [], .start, rfl, hstart, .nil, rfl⟩
    · obtain ⟨ms, ms', hcut⟩ := List.append_of_mem hi
      obtain ⟨p, v, σ, σ', hbody, rfl, hp, hstep, -⟩ := cut_marksFrom hcut
      refine ⟨p ++ [','], v, _, σ', by rw [hbody]; simp, ?_, hp.append (.one hstep .nil), ?_⟩
      · rw [hstart, Text.size_append, Text.size, hcomma, Text.size]
        omega
      · have hkind : (σ.step ',' v.head?).kind = .code := by rw [hstep]
        have hmode := State.mode_of_step_code hkind
        rwa [hstep] at hmode
  obtain ⟨g, rest, hg, hstop, hrest⟩ : ∃ g rest, body ++ '\x7d' :: y = g ++ rest ∧
      z.2 = Text.size x + 1 + Text.size g ∧ Delimited rest := by
    rcases (of_mem_pieces hz).2 with hstop | hstop
    · exact ⟨body, _, rfl, hstop.trans hclose, _, _, rfl, .inr rfl⟩
    · obtain ⟨ms, ms', hcut⟩ := List.append_of_mem hstop
      obtain ⟨p, q, -, -, hbody, hk, -⟩ := cut_marksFrom hcut
      exact ⟨p, _, hbody, hk, _, _, rfl, .inl rfl⟩
  have hle := ((pieces_apart o.closeAt (pairwise_marksFrom _ _ _)
    (fun m hm => le_offset_of_mem_marksFrom hm) (by omega)).2 z hz).2.1
  obtain ⟨w, rfl, rfl⟩ := Text.exists_middle (hfront.symm.trans hg) (by omega)
  refine ⟨x, front, w, rest, ms, σ, by rw [hfront], rfl, hstart, ?_, hrest, hreads, hσ⟩
  rw [hstop, hstart, Text.size_append]
  omega

/-- What is read in a piece is an entry of the piece by itself. -/
theorem exists_shape (h : readAt? t n = some o)
    (hz : z ∈ pieces o.closeAt 0 (n + 1) (marks t (n + 1)))
    (he : ObjectEntry.read? t z.1 z.2 = some e) :
    ∃ (x front w rest : Text) (ms : List Mark) (σ : State) (e' : ObjectEntry),
      t = x ++ '\x7b' :: (front ++ (w ++ rest)) ∧ n = Text.size x ∧ z.1 = n + 1 + Text.size front ∧
        z.2 = z.1 + Text.size w ∧ Delimited rest ∧ Reads (w ++ rest) .start (n + 1) front ms σ ∧
        σ.mode = .code ∧ ObjectEntry.Shape w e' ∧ e = e'.moved z.1 := by
  obtain ⟨x, front, w, rest, ms, σ, rfl, rfl, hstart, hstop, hrest, hreads, hσ⟩ := exists_piece h hz
  have htext : x ++ '\x7b' :: (front ++ (w ++ rest)) = x ++ '\x7b' :: front ++ w ++ rest := by simp
  have hsize : z.1 = Text.size (x ++ '\x7b' :: front) := hstart.trans (size_opened x front).symm
  rw [htext, hstop, hsize, ObjectEntry.read?_between hrest] at he
  obtain ⟨e', he', rfl⟩ := Option.map_eq_some_iff.mp he
  exact ⟨x, front, w, rest, ms, σ, e', rfl, rfl, hstart, hstop, hrest, hreads, hσ,
    ObjectEntry.shape_of_ofPiece? he', by rw [hsize]⟩

/-- An entry lies in its piece, and its parts are parts of the text. -/
theorem spans_of_read? (h : readAt? t n = some o)
    (hz : z ∈ pieces o.closeAt 0 (n + 1) (marks t (n + 1)))
    (he : ObjectEntry.read? t z.1 z.2 = some e) :
    (t.IsBoundary e.keyAt ∧ t.IsBoundary e.valueStart ∧ t.IsBoundary e.valueStop) ∧
      z.1 ≤ e.keyAt ∧ e.keyAt ≤ e.valueStart ∧ e.valueStart ≤ e.valueStop ∧ e.valueStop ≤ z.2 := by
  obtain ⟨x, front, w, rest, ms, σ, e', rfl, rfl, hstart, hstop, -, -, -, hshape, rfl⟩ :=
    exists_shape h hz he
  have hplace : ∀ {k}, w.IsBoundary k →
      (x ++ '\x7b' :: (front ++ (w ++ rest))).IsBoundary (z.1 + k) := fun {k} hk => by
    have hmoved := (hk.append (x ++ '\x7b' :: front)).append_right rest
    rw [Text.size_append, Text.size, show '\x7b'.utf8Size = 1 from rfl, ← Nat.add_assoc, ← hstart]
      at hmoved
    simpa using hmoved
  obtain ⟨hkey, hle⟩ := hshape.keyAt
  obtain ⟨f, value, trail, rfl, hvalue, hvalueStop, -⟩ := hshape.spans
  have hsize := Text.size_append (f ++ value) trail
  have hsize' := Text.size_append f value
  refine ⟨⟨hplace hkey, hplace (k := e'.valueStart) ?_, hplace (k := e'.valueStop) ?_⟩, ?_⟩
  · rw [hvalue, List.append_assoc]
    exact Text.isBoundary_append _ _
  · rw [hvalueStop]
    exact Text.isBoundary_append _ _
  · dsimp only [ObjectEntry.moved]
    omega

theorem openAt_lt_closeAt (h : readAt? t n = some o) : n + 1 ≤ o.closeAt := by
  obtain ⟨_, w, _, _, _, _, -, -, -, hclose, -⟩ := exists_inner h
  omega

/-! ## Literals in literals -/

theorem matchingClose?_of_readAt? (h : readAt? t n = some o) :
    o.openAt = n ∧ matchingClose? t n = some o.closeAt := by
  rw [readAt?] at h
  split at h
  · obtain ⟨close, hclose, rfl⟩ := Option.map_eq_some_iff.mp h
    exact ⟨rfl, hclose⟩
  · cases h

/-- Where the scan of a text comes to a brace inside of regions, the search that started outside of
them ends behind the closer of the brace. -/
theorem closeIn_lt_of_reads {y f : Text} {close' k : Nat}
    (hclose : closeIn '\x7b' '\x7d' 0 (codeOf (marksFrom .start n (front ++ (f ++ '\x7b' :: y)))) =
      some close)
    (hclose' : closeIn '\x7b' '\x7d' 0 (codeOf (marksFrom .start (k + 1) y)) = some close')
    (hfront : Reads (f ++ '\x7b' :: y) .start n front ms σ) (hσ : σ.mode = .code) (hf : Smooth f)
    (hk : k = n + Text.size front + Text.size f) (hlt : k < close) : close' < close := by
  obtain ⟨msf, σf, hreads, hσf, hwithin⟩ := hf ('\x7b' :: y) .start (n + Text.size front) ⟨rfl, rfl⟩
  obtain ⟨σ', hreads', hin⟩ := hreads.inside (k := σ.regions.head?.getD 0)
    (inside_start ⟨rfl, rfl⟩ hσ fun d hd => by rw [Option.mem_def.mp hd]; rfl)
    (Depths.trackAll_of_within (hwithin .zero)) (Nat.zero_le _)
  have hstep : σf.step '\x7b' y.head? = ⟨.code, σf, false⟩ := State.step_plain hσf.1 hσf.2 rfl rfl
  obtain ⟨hkind, htakes, hin⟩ := State.step_inside hin '\x7b' y.head?
    fun _ _ => by decide
  rw [hstep] at hkind htakes hin
  rw [hfront.marksFrom_eq, hreads'.marksFrom_eq, ← hk, marksFrom_one _ htakes, hkind,
    ← List.append_assoc, codeOf_append] at hclose
  rw [← marksFrom_agrees y (k + 1) hσf.symm] at hclose'
  have hafter := closeIn_inside y hin (by rw [openBraces, if_pos rfl, if_pos rfl]; omega) hclose'
  rcases closeIn_append (b := .brace) hclose with hmem | ⟨depth, hrest⟩
  · rcases List.mem_append.mp (mem_codeOf.mp hmem) with hmem | hmem
    · have := offset_lt_of_reads hfront _ hmem
      dsimp only at this
      omega
    · have := offset_lt_of_reads hreads _ hmem
      dsimp only at this
      omega
  · have hrest := (closeIn_opener .brace depth k _).symm.trans hrest
    refine closeIn_lt (b := .brace) (i := 0) (j := depth) (pairwise_codeOf _ _ _) ?_ hafter
    rwa [Nat.zero_add]

/-- What a value opens is closed before the literal. -/
theorem closeAt_lt (h : readAt? t n = some o)
    (hz : z ∈ pieces o.closeAt 0 (n + 1) (marks t (n + 1)))
    (he : ObjectEntry.read? t z.1 z.2 = some e) (hinner : e.object? t = some inner) :
    inner.openAt = e.valueStart ∧ inner.closeAt < o.closeAt := by
  have hstops := (le_of_mem_pieces (openAt_lt_closeAt h) hz).2
  obtain ⟨x, front, w, rest, ms, σ, e', rfl, rfl, hstart, hstop, ⟨d, r, rfl, hd⟩, hreads, hσ,
      hshape, rfl⟩ :=
    exists_shape h hz he
  obtain ⟨f, value, trail, rfl, hvalue, -, hf, -⟩ := hshape.spans
  obtain ⟨hopen, hclose'⟩ := matchingClose?_of_readAt? hinner
  obtain ⟨-, hclose⟩ := matchingClose?_of_readAt? h
  obtain ⟨x', body, y, -, -, -, htext, hsize, -⟩ := exists_inner hinner
  have hat : (ObjectEntry.moved z.1 e').valueStart = Text.size (x ++ '\x7b' :: front ++ f) := by
    simp only [ObjectEntry.moved, Text.size_append, Text.size, hstart, hvalue,
      show '\x7b'.utf8Size = 1 from rfl]
    omega
  have hcut : x ++ '\x7b' :: (front ++ (f ++ value ++ trail ++ d :: r)) =
      x ++ '\x7b' :: front ++ f ++ (value ++ trail ++ d :: r) := by simp
  obtain ⟨rfl, hy⟩ := Text.append_inj_of_size (hcut.symm.trans htext) (hat.symm.trans hsize)
  -- the brace stands in the piece, not behind it
  have hpos : 0 < Text.size (value ++ trail) := by
    cases hvt : value ++ trail with
    | nil =>
        rw [hvt] at hy
        obtain ⟨rfl, -⟩ := List.cons.inj hy
        rcases hd with hd | hd <;> cases hd
    | cons c v => exact Nat.add_pos_left c.utf8Size_pos _
  have hinside : f ++ value ++ trail ++ d :: r = f ++ '\x7b' :: (body ++ '\x7d' :: y) := by
    rw [← hy]
    simp
  rw [hinside] at hreads hclose
  rw [htext, hat] at hclose'
  refine ⟨hopen, closeIn_lt_of_reads ((matchingClose?_opener .brace rfl _).symm.trans hclose)
    ((matchingClose?_opener .brace rfl _).symm.trans hclose') hreads hσ hf ?_ ?_⟩
  · rw [← hat, ← hvalue, ← hstart]
    rfl
  · rw [← hat]
    simp only [ObjectEntry.moved, hvalue, Text.size_append] at hstop hpos ⊢
    omega

/-! ## The layout of a literal -/

/-- The braces of a literal stand in the text, its entries in order between them, and what a value
opens is closed inside. -/
structure LaidOut (t : Text) (o : ObjectLiteral) : Prop where
  openBrace : t.byteAt? o.openAt = some 0x7b
  closeBrace : t.byteAt? o.closeAt = some 0x7d
  openAt_lt : o.openAt < o.closeAt
  places : ∀ e ∈ o.entries, t.IsBoundary e.keyAt ∧ t.IsBoundary e.valueStart ∧
    t.IsBoundary e.valueStop
  order : ∀ e ∈ o.entries, o.openAt < e.keyAt ∧ e.keyAt ≤ e.valueStart ∧
    e.valueStart ≤ e.valueStop ∧ e.valueStop ≤ o.closeAt
  apart : o.entries.Pairwise fun e e' => e.valueStop < e'.keyAt
  nested : ∀ e ∈ o.entries, ∀ inner ∈ e.object? t,
    o.openAt < inner.openAt ∧ inner.closeAt < o.closeAt

/-- A literal that is the value of an entry of another one. -/
def ValueOf (t : Text) (inner o : ObjectLiteral) : Prop := ∃ e ∈ o.entries, e.object? t = some inner

theorem bytes_of_readAt? (h : readAt? t n = some o) :
    t.byteAt? o.openAt = some 0x7b ∧ t.byteAt? o.closeAt = some 0x7d := by
  obtain ⟨x, w, y, -, -, -, rfl, rfl, hopen, hclose, -⟩ := exists_inner h
  have htext : x ++ '\x7b' :: (w ++ '\x7d' :: y) = x ++ '\x7b' :: w ++ '\x7d' :: y := by simp
  have hsize : o.closeAt = Text.size (x ++ '\x7b' :: w) + 0 :=
    hclose.trans (size_opened x w).symm
  constructor
  · rw [hopen, ← Nat.add_zero (Text.size x), Text.byteAt?_append]
    rfl
  · rw [htext, hsize, Text.byteAt?_append]
    rfl

theorem entries_of_readAt? (h : readAt? t n = some o) : o.entries =
    (pieces o.closeAt 0 (n + 1) (marks t (n + 1))).filterMap fun z =>
    ObjectEntry.read? t z.1 z.2 := by
  rw [readAt?] at h
  split at h
  · obtain ⟨close, hclose, rfl⟩ := Option.map_eq_some_iff.mp h
    rfl
  · cases h

theorem LaidOut.of_readAt? (h : readAt? t n = some o) : o.LaidOut t := by
  have hentries := entries_of_readAt? h
  have hopen := (matchingClose?_of_readAt? h).1
  have hbraces := bytes_of_readAt? h
  have hlt := openAt_lt_closeAt h
  obtain ⟨hapart, hspans⟩ := @pieces_apart o.closeAt _ 0 _
    (pairwise_marksFrom .start (n + 1) (t.after (n + 1)))
    (fun m hm => le_offset_of_mem_marksFrom hm) hlt
  have hmem : ∀ {e}, e ∈ o.entries → ∃ z ∈ pieces o.closeAt 0 (n + 1) (marks t (n + 1)),
      ObjectEntry.read? t z.1 z.2 = some e := fun he => by
    rw [hentries] at he
    exact List.mem_filterMap.mp he
  refine ⟨hbraces.1, hbraces.2,
    by omega, fun e he => ?_, fun e he => ?_, ?_, fun e he inner hinner => ?_⟩
  · obtain ⟨z, hz, hread⟩ := hmem he
    exact (spans_of_read? h hz hread).1
  · obtain ⟨z, hz, hread⟩ := hmem he
    have horder := (spans_of_read? h hz hread).2
    have hpiece := hspans z hz
    omega
  · rw [hentries, List.pairwise_filterMap]
    refine hapart.imp_of_mem fun hz hz' hbefore e he e' he' => ?_
    have horder := (spans_of_read? h hz he).2
    have horder' := (spans_of_read? h hz' he').2
    omega
  · obtain ⟨z, hz, hread⟩ := hmem he
    obtain ⟨hstart, hclose⟩ := closeAt_lt h hz hread hinner
    have horder := (spans_of_read? h hz hread).2
    have hpiece := hspans z hz
    exact ⟨by omega, hclose⟩

/-- A literal is laid out in order, and the way down through its values comes to an end. -/
theorem laidOut_of_readAt? (h : readAt? t n = some o) : o.LaidOut t ∧ Acc (ValueOf t) o := by
  refine ⟨.of_readAt? h, ?_⟩
  -- a literal inside of another one is shorter
  induction hwidth : o.closeAt - o.openAt using Nat.strongRecOn generalizing o n with
  | ind width ih =>
      refine ⟨o, fun inner ⟨e, he, hinner⟩ => ?_⟩
      obtain ⟨hopen, hclose⟩ := (LaidOut.of_readAt? h).nested e he inner hinner
      have hlt := (LaidOut.of_readAt? hinner).openAt_lt
      exact ih _ (by omega) hinner rfl

/-- A literal in a literal, with brackets that do not match and a piece that is no entry. -/
def mismatched : Text := "x = \x7b a: \x7b b: (1] \x7d, \x60c\x60, d: [2 \x7d;".toList

theorem laidOut_of_readAt?_mismatched : ∃ o inner, readAt? mismatched 4 = some o ∧
    o.keys = ["a".toList, "d".toList] ∧ ValueOf mismatched inner o ∧ inner.keys = ["b".toList] ∧
    o.LaidOut mismatched ∧ Acc (ValueOf mismatched) o := by
  have hread : readAt? mismatched 4 =
      some ⟨4, 32, [⟨['a'], 6, 9, 19⟩, ⟨['d'], 26, 29, 31⟩]⟩ := by decide
  exact ⟨_, ⟨9, 18, [⟨['b'], 11, 14, 17⟩]⟩, hread, rfl, ⟨_, List.mem_cons_self, by decide⟩, rfl,
    laidOut_of_readAt? hread⟩

end ObjectLiteral

end ServiceGate
