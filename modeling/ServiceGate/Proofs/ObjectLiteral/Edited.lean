/-
# Edits of a literal's contents

A literal that is well nested and that no region divides is made of pieces with the contents that
are read of it, and what its values open is well nested again (`isLiteral_of_nested`).

Two edits are followed through to the contents.  A literal that is a value can be replaced by
another one, and the other contents stay as they are (`IsLiteral.exists_value`); and an entry that
is added comes last (`IsLiteral.exists_insertEntry`).

The edits nest: an operation stands in a path, the path in `paths`, and `paths` in the
specification, and an edit of the innermost literal is an edit of each literal around it.
`Exchanged` and `Appended` record what one level hands to the next: the text is composed as before,
the names are the same or one more, and every other field has the value that it had.  Only the first
field of a name is read, so an exchange asks for no other field of that name.
-/
import ServiceGate.Proofs.ObjectLiteral.Contents

namespace ServiceGate

open Scan

variable {t u v w x y p front trail written key : Text} {ps : List Text} {n m : Nat}
  {e : ObjectEntry}
  {es es' : List ObjectEntry} {o inner : ObjectLiteral} {cs : List (Text × Content)}
  {gs : List (Nat × Nat)}

/-! ## Well-nested literals -/

theorem Scan.WellNested.characters (hw : ∀ c ∈ w, isQuote c = false ∧ isPlain c = true ∧ c ≠ '/')
    (ht : WellNested (n + Text.size w) t gs) : WellNested n (w ++ t) gs := by
  induction w generalizing n with
  | nil => exact ht
  | cons c w ih =>
      obtain ⟨⟨hquote, hplain, hslash⟩, hw⟩ := List.forall_mem_cons.mp hw
      refine .ordinary hquote hplain (by simp [opensComment, hslash]) (ih hw ?_)
      rwa [Nat.add_assoc, ← Text.size]

theorem Scan.WellNested.braced (h : WellNested n w gs) : Braced ('\x7b' :: (w ++ ['\x7d'])) := by
  obtain ⟨l, hl⟩ := h.runs [] none detached_nil
  obtain ⟨ms, hms, hneutral⟩ := hl 0
  refine ⟨w, rfl, ?_, ?_⟩
  · have hafter : State.start.after w = ⟨.code, [], l⟩ := hms.after_alone
    rw [hafter]
    exact ⟨rfl, rfl⟩
  · have hmarks : ms = marksFrom .start 0 w := hms.eq_marksFrom
    rw [← hmarks]
    exact hneutral.trackAll .zero

theorem Braced.balanced (h : Braced ('\x7b' :: (w ++ ['\x7d']))) : balanced w = true := by
  obtain ⟨w', hw, hends, htrack⟩ := h
  obtain rfl := List.append_cancel_right (List.cons.inj hw).2
  exact balanced_iff.mpr ⟨htrack, hends.inLiteral_eq⟩

theorem Scan.Unbroken.exists_close (h : Unbroken ('\x7b' :: v)) : ∃ close < Text.size ('\x7b' :: v),
    ∀ x rest : Text, Detached rest →
      matchingClose? (x ++ '\x7b' :: (v ++ rest)) (Text.size x) = some (Text.size x + close) := by
  have hopen : State.start.step '\x7b' v.head? = ⟨.code, .start, false⟩ :=
    State.step_plain rfl rfl rfl rfl
  have hone : '\x7b'.utf8Size = 1 := rfl
  have hends := h.ends
  have htrack := Depths.trackAll_of_within h.within
  rw [State.after_one (by rw [hopen]), hopen] at hends
  rw [marksFrom_one _ (by rw [hopen]), hopen, codeText_cons, if_pos rfl] at htrack
  replace htrack : (⟨1, 0, 0⟩ : Depths).trackAll (codeText (marksFrom .start 1 v)) = some .zero :=
  htrack
  obtain ⟨close, hclose⟩ : ∃ close, closeIn Bracket.brace.opener Bracket.brace.closer 0
      (codeOf (marksFrom .start 1 v)) = some close := exists_closeIn htrack Nat.zero_lt_one
  have hlt : close < Text.size ('\x7b' :: v) := by
    obtain hmem := mem_codeOf.mp (mem_of_closeIn hclose)
    have hreads : Reads [] .start 1 v (marksFrom .start 1 v) _ := reads_of_last v 1 fun _ _ _ _ =>
      rfl
    have := offset_lt_of_reads hreads _ hmem
    rw [Text.size, hone]
    exact this
  refine ⟨close, hlt, fun x rest hrest => ?_⟩
  have hreads := @reads_of_detached .start rest v (Text.size x + 1) hends.1 hrest
  have hshift : marksFrom .start (Text.size x + 1) v = (marksFrom .start 1 v).map
      (Mark.shift (Text.size x)) :=
    marksFrom_shift (Text.size x) v .start 1
  have hfound := @closeIn_map Bracket.brace.opener Bracket.brace.closer (Text.size x)
    (codeOf (marksFrom .start 1 v)) 0
  rw [hclose, Option.map_some, ← codeOf_shift, ← hshift] at hfound
  have hmatch := matchingClose?_opener .brace (p := x) rfl (v ++ rest)
  rw [hreads.marksFrom_eq, codeOf_append] at hmatch
  exact hmatch.trans (closeIn_append_left _ hfound)

theorem closed_flatMap (hps : ∀ p ∈ ps, Unbroken p) : Closed (ps.flatMap (· ++ [','])) := by
  induction ps with
  | nil => exact .nil
  | cons p ps ih =>
      obtain ⟨hp, hps⟩ := List.forall_mem_cons.mp hps
      refine Closed.append (fun rest s n hs => ?_) (ih hps)
      have hcomma : Detached (',' :: rest) := fun c => by simp [opensComment]
      obtain ⟨ms, s', hms, hs', hwithin⟩ := hp.reads hs hcomma n
      refine ⟨_, s', hms.append (.one (ObjectLiteral.step_comma hs' _) .nil), hs', fun d => ?_⟩
      have hzero := Depths.trackAll_over d (Depths.trackAll_of_within hwithin)
      rw [Depths.zero_over] at hzero
      rw [codeText_append, Depths.trackAll_append, hzero]
      rfl

theorem exists_value_of_nested {pre z post : Text}
    (hw : WellNested m (pre ++ (front ++ '\x7b' :: z) ++ post) gs) (hpre : Closed pre)
    (hfront : Smooth front) (hp : Unbroken (front ++ '\x7b' :: z)) (hpost : Detached post) :
    ∃ v trail k gs', z = v ++ '\x7d' :: trail ∧ WellNested k v gs' := by
  have htext : pre ++ (front ++ '\x7b' :: z) ++ post = (pre ++ front) ++ '\x7b' :: (z ++ post) := by
    simp
  obtain ⟨ms₁, s₁, hms₁, hs₁, -⟩ := hpre (front ++ '\x7b' :: (z ++ post)) .start m ⟨rfl, rfl⟩
  obtain ⟨ms₂, s₂, hms₂, hs₂, -⟩ := hfront ('\x7b' :: (z ++ post)) s₁ (m + Text.size pre) hs₁
  have hstep : s₂.step '\x7b' (z ++ post).head? = ⟨.code, s₂, false⟩ :=
    State.step_plain hs₂.1 hs₂.2 rfl rfl
  have hmarks := (hms₁.append hms₂).marksFrom_eq
  rw [marksFrom_one _ (by rw [hstep]), hstep] at hmarks
  rw [htext] at hw
  obtain ⟨close, k, p', v, q, gs', hcut, hplace, hv⟩ :=
    hw.groupAt_of_mark (m := ⟨m + Text.size (pre ++ front), '\x7b', .code⟩)
    (by rw [hmarks]; simp) rfl rfl
  obtain ⟨hoffset, -⟩ := Prod.mk.inj hplace
  obtain ⟨rfl, hrest⟩ := Text.append_inj_of_size hcut (by dsimp only at hoffset; omega)
  obtain ⟨hopener, hrest⟩ := List.cons.inj hrest
  obtain rfl : k = .brace := by
    cases k
    · rfl
    · cases hopener
    · cases hopener
  obtain ⟨close', hlt, hclose⟩ := (hfront.unbroken_of_append hp).exists_close
  have hmatch := hclose [] post hpost
  have hgroup := matchingClose?_group .brace [] q hv
  rw [List.nil_append] at hmatch hgroup
  rw [hrest] at hmatch
  have hsize := Option.some.inj (hmatch.symm.trans hgroup)
  have hone : '\x7d'.utf8Size = 1 := rfl
  have hone' : '\x7b'.utf8Size = 1 := rfl
  have hvalue : (v ++ ['\x7d']) ++ q = z ++ post := by
    rw [hrest]
    simp [Bracket.closer]
  obtain ⟨trail, rfl, -⟩ := Text.exists_middle hvalue (by
    simp only [Text.size, Text.size_append] at hlt hsize ⊢
    omega)
  exact ⟨v, trail, _, gs', by simp, hv⟩

namespace ObjectLiteral

open ObjectEntry

theorem exists_held : ∀ {ps : List Text}, (∀ p ∈ ps, ∃ c, Piece p c) →
    ∃ qs : List (Text × Option (Text × Content)), qs.map (·.1) = ps ∧ ∀ q ∈ qs, Piece q.1 q.2
  | [], _ => ⟨[], rfl, fun _ h => absurd h List.not_mem_nil⟩
  | p :: ps, h => by
      obtain ⟨⟨c, hc⟩, hps⟩ := List.forall_mem_cons.mp h
      obtain ⟨qs, rfl, hqs⟩ := exists_held hps
      exact ⟨(p, c) :: qs, rfl, List.forall_mem_cons.mpr ⟨hc, hqs⟩⟩

/-- What the piece of an entry opens, in well-nested source, is well nested. -/
theorem exists_opened {ps₁ ps₂ : List Text} (hw : WellNested m (joined (ps₁ ++ p :: ps₂)) gs)
    (hps : ∀ q ∈ ps₁ ++ p :: ps₂, Unbroken q) (he : Shape p e)
    (hhead : (p.after e.valueStart).head? = some '\x7b') :
    ∃ front v trail k gs', p = front ++ ('\x7b' :: (v ++ ['\x7d'])) ++ trail ∧
    Opening front e.key e.keyAt ∧
      e.valueStart = Text.size front ∧ WellNested k v gs' := by
  have hp := hps p (by simp)
  obtain ⟨front, z, rfl, hopening, hstart⟩ := he.opening_of_head hhead
  rw [joined_append] at hw
  have hpost : Detached (ps₂.flatMap (',' :: ·)) := by
    cases ps₂ with
    | nil => exact detached_nil
    | cons q ps₂ => exact fun c => by simp [opensComment]
  obtain ⟨v, trail, k, gs', rfl, hv⟩ := exists_value_of_nested hw
    (closed_flatMap fun q hq => hps q (List.mem_append_left _ hq)) hopening.smooth hp hpost
  exact ⟨front, v, trail, k, gs', by simp, hopening, hstart, hv⟩

theorem isLiteral_ofPieces (hne : ps ≠ []) (hps : ∀ p ∈ ps, Unbroken p)
    (hw : WellNested m (joined ps) gs)
    (h : readAt? (x ++ ofPieces ps ++ y) (Text.size x) = some o) :
    IsLiteral (o.source (x ++ ofPieces ps ++ y)) (o.contents (x ++ ofPieces ps ++ y)) := by
  obtain ⟨qs, rfl, hqs⟩ : ∃ qs : List (Text × Option (Text × Content)), qs.map (·.1) = ps ∧
      ∀ q ∈ qs, Piece q.1 q.2 := exists_held fun p hp => by
    obtain ⟨ps₁, ps₂, rfl⟩ := List.append_of_mem hp
    cases he : ofPiece? p with
    | none => exact ⟨none, .noEntry (hps p hp) he⟩
    | some e =>
        have hshape := shape_of_ofPiece? he
        by_cases hhead : (p.after e.valueStart).head? = some '\x7b'
        · obtain ⟨front, v, trail, k, gs', rfl, hopening, -, hv⟩ :=
            exists_opened hw hps hshape hhead
          exact ⟨_, .object hopening hv.braced (hps _ hp)⟩
        · exact ⟨_, .value (hps p hp) hshape hhead⟩
  have hliteral : IsLiteral (ofPieces (qs.map (·.1))) (qs.filterMap (·.2)) :=
    ⟨qs, by simpa using hne, hqs, rfl, rfl⟩
  obtain ⟨o', ho', hsource, hcontents⟩ := hliteral.exists_readAt? x y
  obtain rfl := Option.some.inj (h.symm.trans ho')
  rw [hsource, hcontents]
  exact hliteral

theorem nested_ofPieces (hps : ∀ p ∈ ps, Unbroken p) (hw : WellNested m (joined ps) gs) :
    ∀ e ∈ ObjectEntry.ofPieces (Text.size x + 1) ps,
      ∀ inner ∈ e.object? (x ++ ofPieces ps ++ y), ∃ k gs', WellNested k
        ((x ++ ofPieces ps ++ y).between (inner.openAt + 1) inner.closeAt) gs' := by
  intro e he inner hinner
  obtain ⟨es₁, es₂, hes⟩ := List.append_of_mem he
  obtain ⟨ps₁, p, ps₂, e', rfl, he', rfl, -, -⟩ := exists_piece_of_append hes
  have hshape := shape_of_ofPiece? he'
  obtain ⟨before, behind, htext, hsize, hbehind⟩ := exists_around x ps₁ ps₂ y
  rw [← hsize, htext] at hinner
  rw [htext]
  by_cases hhead : (p.after e'.valueStart).head? = some '\x7b'
  · obtain ⟨front, v, trail, k, gs', rfl, -, hstart, hv⟩ := exists_opened hw hps hshape hhead
    refine ⟨k, gs', ?_⟩
    have htext' : before ++ (front ++ '\x7b' :: (v ++ ['\x7d']) ++ trail) ++ behind =
        (before ++ front) ++ '\x7b' :: (v ++ ['\x7d']) ++ (trail ++ behind) := by simp
    obtain ⟨o', ho', hopen, hclose⟩ := hv.braced.exists_readAt? (before ++ front)
      (trail ++ behind)
    rw [htext', Option.mem_def, ObjectEntry.object?, ObjectEntry.moved, hstart,
      ← Text.size_append, ho'] at hinner
    obtain rfl := Option.some.inj hinner
    have hcloseAt : o'.closeAt = Text.size (before ++ front) + 1 + Text.size v := by
      simp only [Text.size, Text.size_append, show '\x7b'.utf8Size = 1 from rfl,
        show '\x7d'.utf8Size = 1 from rfl] at hclose ⊢
      omega
    have hinside : before ++ (front ++ '\x7b' :: (v ++ ['\x7d']) ++ trail) ++ behind =
        (before ++ front) ++ '\x7b' :: (v ++ ('\x7d' :: (trail ++ behind))) := by simp
    rwa [hinside, hopen, hcloseAt, between_behind]
  · have hdelimited : Delimited behind := hbehind ▸ delimited_flatMap ps₂ ⟨_, _, rfl, .inr rfl⟩
    have hnone := ObjectLiteral.readAt?_of_head (head?_value hshape hhead hdelimited before)
    exact absurd (hinner.symm.trans hnone) (by simp)

/-- Of a well-nested literal that no region divides the pieces hold what is read of them, and what a
value opens is well nested again. -/
theorem isLiteral_of_nested (h : readAt? t n = some o)
    (hw : WellNested m (t.between (o.openAt + 1) o.closeAt) gs) (hcut : o.Undivided t) :
    IsLiteral (o.source t) (o.contents t) ∧ ∀ e ∈ o.entries, ∀ inner ∈ e.object? t,
      ∃ k gs', WellNested k (t.between (inner.openAt + 1) inner.closeAt) gs' := by
  obtain ⟨x, ps, y, rfl, rfl, hne, hps⟩ := exists_pieces h hw.braced.balanced hcut
  obtain rfl := Option.some.inj ((readAt?_ofPieces hne hps x y).symm.trans h)
  have hjoined : Text.between (x ++ ofPieces ps ++ y) (Text.size x + 1)
      (Text.size x + 1 + Text.size (joined ps)) = joined ps := by
    have htext : x ++ ofPieces ps ++ y = x ++ '\x7b' :: (joined ps ++ '\x7d' :: y) := by
      simp [ofPieces]
    rw [htext, between_behind]
  rw [hjoined] at hw
  exact ⟨isLiteral_ofPieces hne hps hw h, nested_ofPieces hps hw⟩

end ObjectLiteral

/-! ## Edits -/

/-- The key of an entry with the literal that its value is. -/
def Content.seen (c : Text × Content) : Text × Option Text := (c.1, c.2.object?)

namespace ObjectLiteral

/-- The text with another literal in the place of this one. -/
def replaced (t : Text) (o : ObjectLiteral) (v : Text) : Text := t.splice o.openAt (o.closeAt + 1) v

theorem replaced_eq (hopen : o.openAt = Text.size x) (hclose : o.closeAt + 1 = Text.size (x ++ w))
    (v y : Text) :
    o.replaced (x ++ w ++ y) v = x ++ v ++ y := by
  rw [replaced, Text.splice, hopen, hclose, Text.after_append, List.append_assoc x w y,
    Text.before_append]

theorem replaced_within (h : readAt? t n = some o) (hv : o.source t = v) : ∃ x y, t = x ++ v ++ y ∧
    n = Text.size x ∧ ∀ v', o.replaced t v' = x ++ v' ++ y := by
  obtain ⟨x, y, ht, hn, hopen, hclose, -⟩ := exists_source h
  rw [hv] at ht hclose
  exact ⟨x, y, ht, hn, fun v' => by rw [ht, replaced_eq hopen hclose]⟩

open ObjectEntry

theorem isSome_ofPiece? {c : Option (Text × Content)} (h : Piece p c) :
    (ofPiece? p).isSome = c.isSome := by
  have hclose : Delimited ['\x7d'] := ⟨_, _, rfl, .inr rfl⟩
  rw [← h.holds hclose [], Option.isSome_map]

theorem length_ofPieces : ∀ {qs : List (Text × Option (Text × Content))} {n : Nat},
    (∀ q ∈ qs, Piece q.1 q.2) →
    (ObjectEntry.ofPieces n (qs.map (·.1))).length = (qs.filterMap (·.2)).length
  | [], _, _ => rfl
  | (p, c) :: qs, n, h => by
      obtain ⟨hp, hqs⟩ := List.forall_mem_cons.mp h
      have hsome := isSome_ofPiece? hp
      rw [List.map_cons, ObjectEntry.ofPieces, List.length_append, length_ofPieces hqs,
        List.filterMap_cons]
      cases c with
      | none =>
          rw [Option.isSome_none, Option.isSome_eq_false_iff, Option.isNone_iff_eq_none] at hsome
          simp [hsome]
      | some c =>
          obtain ⟨e, he⟩ := Option.isSome_iff_exists.mp hsome
          simp only at he
          simp [he, Nat.add_comm]

theorem Piece.exchange (hfront : Opening front key m) (hv : Braced v) (hw : Braced w)
    (hp : Unbroken (front ++ v ++ trail)) : Piece (front ++ w ++ trail)
    (some (key, .object w)) := by
  have htrail : Unbroken trail := by
    rw [List.append_assoc] at hp
    exact hv.smooth.unbroken_of_append (hfront.smooth.unbroken_of_append hp)
  refine .object hfront hw ?_
  rw [List.append_assoc]
  exact hfront.smooth.append_unbroken (hw.smooth.append_unbroken htrail)

/-- The piece of an entry that opens a literal, and the place of that literal in the text. -/
theorem exists_object_piece {c : Option (Text × Content)} (hp : Piece p c)
    (he : ofPiece? p = some e) (hrest : Delimited y)
    (hinner : (e.moved (Text.size x)).object? (x ++ p ++ y) = some inner) :
    ∃ front v trail, p = front ++ v ++ trail ∧ c = some (e.key, .object v) ∧
    Opening front e.key e.keyAt ∧
      Braced v ∧ inner.openAt = Text.size (x ++ front) ∧
      inner.closeAt + 1 = Text.size (x ++ front ++ v) := by
  cases hp with
  | noEntry _ hnone => exact absurd (he.symm.trans hnone) (by simp)
  | value _ hshape hhead =>
      obtain rfl := Option.some.inj (he.symm.trans hshape.ofPiece?_eq)
      have hnone := ObjectLiteral.readAt?_of_head (head?_value hshape hhead hrest x)
      exact absurd (hinner.symm.trans hnone) (by simp)
  | @object front key v trail keyAt hfront hv _ =>
      have hheaded : Headed (v ++ trail) := by
        obtain ⟨w, rfl, -⟩ := hv
        exact fun c hc => Option.some.inj hc ▸ by decide
      rw [List.append_assoc, hfront.ofPiece?_eq hheaded] at he
      obtain rfl := Option.some.inj he
      obtain ⟨o, ho, hopen, hclose⟩ := hv.exists_readAt? (x ++ front) (trail ++ y)
      have htext : x ++ (front ++ v ++ trail) ++ y = x ++ front ++ v ++ (trail ++ y) := by simp
      rw [htext, ObjectEntry.object?, ObjectEntry.moved, ← Text.size_append, ho] at hinner
      obtain rfl := Option.some.inj hinner
      exact ⟨front, v, trail, rfl, rfl, hfront, hv, hopen, by rw [hclose, Text.size_append _ v]⟩

/-- A literal in the place of one that is a value: the other contents stay. -/
theorem IsLiteral.exists_value (h : readAt? t n = some o) (hv : IsLiteral (o.source t) cs)
    (hes : o.entries = es ++ e :: es') (hinner : e.object? t = some inner) (hw : Braced w) :
    ∃ v, inner.replaced t w = o.replaced t v ∧
      IsLiteral v (es.map (·.holds t) ++ (e.key, .object w) :: es'.map (·.holds t)) := by
  obtain ⟨qs, hne, hqs, hsource, rfl⟩ := id hv
  obtain ⟨x, y, rfl, rfl, hreplaced⟩ := replaced_within h hsource
  have hcontents := (hsource ▸ hv).contents_eq h
  obtain rfl := Option.some.inj ((readAt?_ofPieces (by simpa using hne) (fun p hp => by
    obtain ⟨q, hq, rfl⟩ := List.mem_map.mp hp
    exact (hqs q hq).unbroken) x y).symm.trans h)
  obtain ⟨ps₁, p, ps₂, e', hps, he', rfl, rfl, rfl⟩ := exists_piece_of_append hes
  obtain ⟨qs₁, qs₂', rfl, rfl, hqs₂⟩ := List.map_eq_append_iff.mp hps
  obtain ⟨⟨p', c⟩, qs₂, rfl, rfl, rfl⟩ := List.map_eq_cons_iff.mp hqs₂
  obtain ⟨before, behind, haround, hsize, hbehind⟩ :=
    exists_around x (qs₁.map (·.1)) (qs₂.map (·.1)) y
  have htext : ∀ q d, x ++ ofPieces ((qs₁ ++ (q, d) :: qs₂).map (·.1)) ++ y = before ++ q ++
      behind := by
    intro q d
    rw [List.map_append, List.map_cons, haround]
  have hdelimited : Delimited behind := hbehind ▸ delimited_flatMap _ ⟨_, _, rfl, .inr rfl⟩
  rw [← hsize, htext] at hinner
  obtain ⟨front, v, trail, rfl, rfl, hfront, hbraced, hopen, hclose⟩ :=
    exists_object_piece (hqs (p', c) (List.mem_append_right _ List.mem_cons_self)) he' hdelimited
    hinner
  have hexchange := Piece.exchange hfront hbraced hw
    (hqs (_, some (e'.key, .object v)) (List.mem_append_right _ List.mem_cons_self)).unbroken
  refine ⟨ofPieces ((qs₁ ++ (front ++ w ++ trail, some (e'.key, .object w)) :: qs₂).map (·.1)), ?_,
    _, by simp, fun q hq => ?_, rfl, ?_⟩
  · have hcut : ∀ v, before ++ (front ++ v ++ trail) ++ behind = before ++ front ++ v ++
        (trail ++ behind) :=
      fun v => by simp
    rw [hreplaced, htext, htext, hcut, hcut, replaced_eq hopen hclose]
  · rcases List.mem_append.mp hq with hq | hq
    · exact hqs q (by simp [hq])
    · rcases List.mem_cons.mp hq with rfl | hq
      · exact hexchange
      · exact hqs q (by simp [hq])
  · rw [contents, hes, List.map_append, List.map_cons, List.filterMap_append, List.filterMap_cons]
      at hcontents
    obtain ⟨hleft, hright⟩ := List.append_inj hcontents (by
      rw [List.length_map, length_ofPieces fun q hq => hqs q (by simp [hq])])
    rw [hleft, (List.cons.inj hright).2, List.filterMap_append, List.filterMap_cons]
    rfl

theorem isSome_behindValue? (h : readAt? t n = some o) (he : e ∈ o.entries)
    (hinner : e.object? t = some inner) :
    (behindValue? t e).isSome = true := by
  rw [entries_of_readAt? h] at he
  obtain ⟨z, hz, hread⟩ := List.mem_filterMap.mp he
  obtain ⟨x, front, w, rest, -, -, e', rfl, rfl, hstart, -, hrest, -, -, hshape, rfl⟩ :=
    exists_shape h hz hread
  have htext : x ++ '\x7b' :: (front ++ (w ++ rest)) = (x ++ '\x7b' :: front) ++ w ++ rest := by
    simp
  have hsize : z.1 = Text.size (x ++ '\x7b' :: front) := hstart.trans (size_opened x front).symm
  rw [htext, hsize] at hinner ⊢
  have hhead : (w.after e'.valueStart).head? = some '\x7b' := by
    by_contra hhead
    exact absurd (hinner.symm.trans (readAt?_of_head (head?_value hshape hhead hrest _))) (by simp)
  obtain ⟨f, v, rfl, hopening, hvalue⟩ := hshape.opening_of_head hhead
  have hheaded : Headed ('\x7b' :: v) := fun c hc => Option.some.inj hc ▸ by decide
  -- the value goes on behind its brace, which is marked first
  have hlt : e'.valueStart < e'.valueStop := by
    obtain ⟨u, hu, hspaces⟩ := exists_trimEnd ('\x7b' :: v)
    have heq := Option.some.inj (hshape.ofPiece?_eq.symm.trans (hopening.ofPiece?_eq hheaded))
    rw [hvalue, heq, Text.size_append]
    refine Nat.lt_add_of_pos_right (Nat.pos_of_ne_zero fun hzero => ?_)
    rw [Text.eq_nil_of_size hzero, List.nil_append] at hu
    exact absurd (hspaces '\x7b' (hu ▸ List.mem_cons_self)) (by decide)
  obtain ⟨before, hbefore⟩ : ∃ u, u = x ++ '\x7b' :: front := ⟨_, rfl⟩
  rw [← hbefore]
  have hafter :
      Text.after (before ++ (f ++ '\x7b' :: v) ++ rest) (Text.size before + e'.valueStart) =
      '\x7b' :: (v ++ rest) := by
    have hcut : before ++ (f ++ '\x7b' :: v) ++ rest = (before ++ f) ++ '\x7b' :: (v ++ rest) := by
      simp
    rw [hvalue, ← Text.size_append, hcut, Text.after_append]
  obtain ⟨ms, hms⟩ :=
    exists_marksFrom_cons .start (Text.size before + e'.valueStart) '\x7b' (v ++ rest)
  rw [behindValue?, ObjectEntry.moved, marks, hafter, hms, Option.isSome_map,
    List.takeWhile_cons_of_pos (by simpa using hlt), List.filter_cons_of_pos rfl]
  exact Option.isSome_iff_ne_none.mpr (List.getLast?_eq_none_iff.not.mpr (List.cons_ne_nil _ _))

theorem exists_braced_cut (h : Unbroken ('\x7b' :: w)) (hv : Braced v)
    (hcut : '\x7b' :: w ++ x = v ++ y) :
    ∃ z, '\x7b' :: w = v ++ z := by
  obtain ⟨close, -, hclose⟩ := h.exists_close
  obtain ⟨o, ho⟩ : ∃ o, readAt? ('\x7b' :: w) 0 = some o := by
    have hmatch := hclose [] [] detached_nil
    rw [List.append_nil] at hmatch
    have hsome := isSome_readAt? (t := '\x7b' :: w) (n := 0)
      (by rw [Text.after, Text.after?_zero]; rfl)
    rw [show matchingClose? ('\x7b' :: w) 0 = _ from hmatch] at hsome
    exact Option.isSome_iff_exists.mp hsome
  obtain ⟨x', z, hz, hnil, -, hclose', -⟩ := exists_source ho
  obtain rfl := Text.eq_nil_of_size hnil.symm
  rw [List.nil_append] at hz hclose'
  obtain ⟨o', ho', -, hclose''⟩ := hv.exists_readAt? [] y
  obtain ⟨o₁, ho₁, hmoved⟩ := readAt?_source ho
  have hread := readAt?_append_left (settled_source ho) ho₁ (z ++ x)
  rw [← List.append_assoc, ← hz, hcut] at hread
  obtain rfl := Option.some.inj (hread.symm.trans ho')
  have hsize : Text.size (o.source ('\x7b' :: w)) = Text.size v := by
    have := congrArg closeAt hmoved
    rw [moved] at this
    rw [Text.size, Nat.zero_add] at hclose''
    dsimp only at this
    omega
  rw [hz, List.append_assoc] at hcut
  exact ⟨z, by rw [hz, (Text.append_inj_of_size hcut hsize).1]⟩

theorem exists_cut_piece {c : Option (Text × Content)} (hp : Piece (p ++ x) c)
    (he : ofPiece? (p ++ x) = some e) (hshape : Shape p { e with valueStop := Text.size p })
    (hunbroken : Unbroken p) (hx : Idle x) :
    ∃ d d', c = some d ∧ Piece p (some d') ∧ Content.seen d' = Content.seen d := by
  obtain ⟨f, value, trail, hcut, hstart, -⟩ := hshape.spans
  dsimp only at hstart
  have hafter : p.after e.valueStart = value ++ trail := by
    rw [hcut, hstart, List.append_assoc, Text.after_append]
  have hafter' : (p ++ x).after e.valueStart = value ++ trail ++ x := by
    rw [hcut, hstart, List.append_assoc, List.append_assoc, Text.after_append, List.append_assoc]
  generalize hq : p ++ x = q at hp he hafter'
  cases hp with
  | noEntry _ hnone => exact absurd (he.symm.trans hnone) (by simp)
  | @value _ e' _ hshape' hhead =>
      obtain rfl := Option.some.inj (he.symm.trans hshape'.ofPiece?_eq)
      refine ⟨_, _, rfl, .value hunbroken hshape fun hbrace => hhead ?_, ?_⟩
      · dsimp only at hbrace
        rw [hafter] at hbrace
        rw [hafter', List.head?_append, hbrace]
        rfl
      · dsimp only [Content.seen]
        split_ifs <;> rfl
  | @object front key v rest keyAt hfront hv _ =>
      refine ⟨_, (key, .object v), rfl, ?_, rfl⟩
      obtain ⟨b, rfl, -⟩ := id hv
      have hheaded : Headed ('\x7b' :: (b ++ ['\x7d']) ++ rest) := fun c hc =>
        Option.some.inj hc ▸ by decide
      rw [List.append_assoc front, hfront.ofPiece?_eq hheaded] at he
      obtain rfl := Option.some.inj he
      rw [hcut, List.append_assoc f, List.append_assoc f, List.append_assoc front] at hq
      obtain ⟨rfl, hrest⟩ := Text.append_inj_of_size hq hstart.symm
      rw [List.append_assoc f] at hcut
      subst hcut
      cases hvalue : value ++ trail with
      | nil =>
          rw [hvalue, List.nil_append] at hrest
          obtain ⟨ms, hms⟩ := exists_marksFrom_cons .start 0 '\x7b' (b ++ ['\x7d'] ++ rest)
          have hidle := hx.marks
          rw [hrest, List.cons_append, hms] at hidle
          exact absurd (hidle _ List.mem_cons_self)
            (by rintro (hk | hspace) <;> [cases hk; cases hspace])
      | cons c z =>
          rw [hvalue] at hrest hunbroken
          obtain rfl := (List.cons.inj hrest).1
          obtain ⟨z', hz'⟩ :=
            exists_braced_cut (hfront.smooth.unbroken_of_append hunbroken) hv hrest
          rw [hz', ← List.append_assoc] at hunbroken ⊢
          exact .object hfront hv hunbroken

theorem piece_entry (hlead : Spaces lead) (hkey : Key written key) (hw : Braced w) (hx : Idle x) :
    Piece (lead ++ Spec.entry written w ++ x) (some (key, .object w)) := by
  have hopening : Opening (lead ++ (written ++ ([] ++ ':' :: [' ']))) key (Text.size lead) :=
    .mk (idle_of_spaces hlead) hkey (fun c hc => absurd hc List.not_mem_nil)
      fun c hc => List.mem_singleton.mp hc ▸ by decide
  have htext : lead ++ Spec.entry written w ++ x = lead ++ (written ++ ([] ++ ':' :: [' '])) ++ w ++
      x := by
    simp [Spec.entry]
  have hunbroken := (ofPiece?_entry hlead hkey hw hx).1
  rw [htext] at hunbroken ⊢
  exact .object hopening hw hunbroken

/-- An entry that is added comes last.  The others stay, unless the last one of them has nothing
that counts for a value. -/
theorem IsLiteral.exists_insertEntry (h : readAt? t n = some o) (hv : IsLiteral (o.source t) cs)
    (hkey : Key written key) (hw : Braced w) : ∃ v cs', o.insertEntry t (Spec.entry written w) =
    o.replaced t v ∧
      IsLiteral v (cs' ++ [(key, .object w)]) ∧
        (cs'.map Content.seen = cs.map Content.seen ∨ cs' = [] ∧ ∀ c ∈ cs.getLast?,
          c.2 = .blank) := by
  obtain ⟨qs, hne, hqs, hsource, rfl⟩ := id hv
  obtain ⟨x, y, rfl, rfl, hreplaced⟩ := replaced_within h hsource
  have hcontents := (hsource ▸ hv).contents_eq h
  have hps : ∀ p ∈ qs.map (·.1), Unbroken p := fun p hp => by
    obtain ⟨q, hq, rfl⟩ := List.mem_map.mp hp
    exact (hqs q hq).unbroken
  rcases ObjectLiteral.exists_insertEntry hps h (by simpa using hne) (Spec.entry written w) with
    ⟨hlast, hout⟩ | ⟨ps₁, u, tail, ps₂, e, lead, hcut, he, hu, htail, hshape, hnone, hlead, hout⟩
  · have hspace : Spaces [' '] := fun c hc => List.mem_singleton.mp hc ▸ by decide
    have hpiece := piece_entry hspace hkey hw (idle_of_spaces hspace)
    refine ⟨_, [], hout.trans (hreplaced _).symm,
      ⟨[(' ' :: (Spec.entry written w ++ [' ']), some (key, .object w))], List.cons_ne_nil _ _, ?_,
        rfl, rfl⟩,
      .inr ⟨rfl, fun c hc => ?_⟩⟩
    · exact fun q hq => List.mem_singleton.mp hq ▸ hpiece
    · rw [← hcontents, contents, List.getLast?_map] at hc
      obtain ⟨last, hlast', rfl⟩ := Option.map_eq_some_iff.mp hc
      have hnone := hlast last hlast'
      rw [holds, content]
      cases hinner : last.object? (x ++ ofPieces (qs.map (·.1)) ++ y) with
      | none => simp only [hnone, Option.isSome_none, Bool.false_eq_true, if_false]
      | some inner =>
          have hsome := isSome_behindValue? h (List.mem_of_getLast? hlast') hinner
          rw [hnone] at hsome
          cases hsome
  · obtain ⟨qs₁, qs₂', rfl, rfl, hqs₂⟩ := List.map_eq_append_iff.mp hcut
    obtain ⟨⟨p, c⟩, qs₂, rfl, rfl, rfl⟩ := List.map_eq_cons_iff.mp hqs₂
    obtain ⟨d, d', rfl, hpiece, hseen⟩ :=
      exists_cut_piece (hqs (u ++ tail, c) (List.mem_append_right _ List.mem_cons_self)) he hshape
      hu htail
    have hbehind : qs₂.filterMap (·.2) = [] := List.filterMap_eq_nil_iff.mpr fun q hq => by
      have hnone := hnone q.1 (List.mem_map_of_mem hq)
      have hsome := isSome_ofPiece? (hqs q (by simp [hq]))
      rw [hnone, Option.isSome_none] at hsome
      exact Option.isNone_iff_eq_none.mp (Option.isSome_eq_false_iff.mp hsome.symm)
    refine ⟨_, qs₁.filterMap (·.2) ++ [d'], hout.trans (hreplaced _).symm,
      ⟨qs₁ ++ (u, some d') :: (lead ++ Spec.entry written w ++ tail, some (key, .object w)) :: qs₂,
        by simp, ?_, by simp, ?_⟩, .inl ?_⟩
    · intro q hq
      rcases List.mem_append.mp hq with hq | hq
      · exact hqs q (List.mem_append_left _ hq)
      rcases List.mem_cons.mp hq with rfl | hq
      · exact hpiece
      rcases List.mem_cons.mp hq with rfl | hq
      · exact piece_entry hlead hkey hw htail
      · exact hqs q (List.mem_append_right _ (List.mem_cons_of_mem _ hq))
    · rw [List.filterMap_append, List.filterMap_cons, List.filterMap_cons, hbehind]
      simp
    · rw [List.filterMap_append, List.filterMap_cons, hbehind, List.map_append, List.map_append]
      simp [hseen]

end ObjectLiteral

/-! ## Fields -/

/-- The key of an entry with the literal that its value is, as it is written. -/
def ObjectEntry.field (t : Text) (e : ObjectEntry) : Text × Option Text :=
  (e.key, (e.object? t).map (·.source t))

namespace ObjectLiteral

/-- The keys of a literal with the literals that their values are. -/
def fields (v : Text) : List (Text × Option Text) := (contentsOf v).map Content.seen

def value? (v key : Text) : Option Text := ((fields v).find? (·.1 == key)).bind (·.2)

def names (v : Text) : List Text := (fields v).map (·.1)

def hasField (v key : Text) : Bool := (names v).any (· == key)

/-- The text is a literal with what is read of it. -/
def Composed (v : Text) : Prop := IsLiteral v (contentsOf v)

/-- The last value, if there is one, has something that counts. -/
def Filled (v : Text) : Prop := ∀ c ∈ (contentsOf v).getLast?, c.2 ≠ .blank

theorem IsLiteral.composed (h : IsLiteral v cs) : Composed v := by
  rwa [Composed, h.contentsOf_eq]

theorem IsLiteral.fields_eq (h : IsLiteral v cs) : fields v = cs.map Content.seen := by
  rw [fields, h.contentsOf_eq]

theorem seen_holds (t : Text) (e : ObjectEntry) : Content.seen (e.holds t) = e.field t := by
  rw [Content.seen, ObjectEntry.holds, ObjectEntry.object?_content]
  rfl

/-- The literal is well-nested source between its braces. -/
def Nested (t : Text) (o : ObjectLiteral) : Prop :=
  ∃ n gs, WellNested n (t.between (o.openAt + 1) o.closeAt) gs

theorem Nested.composed (hw : o.Nested t) (h : readAt? t n = some o) (hcut : o.Undivided t) :
    Composed (o.source t) := by
  obtain ⟨m, gs, hw⟩ := hw
  exact (isLiteral_of_nested h hw hcut).1.composed

theorem Nested.object? (hw : o.Nested t) (h : readAt? t n = some o) (hcut : o.Undivided t)
    (he : e ∈ o.entries) (hinner : e.object? t = some inner) : inner.Nested t := by
  obtain ⟨m, gs, hw⟩ := hw
  exact (isLiteral_of_nested h hw hcut).2 e he inner hinner

theorem Nested.value (hw : o.Nested t) (h : readAt? t n = some o) (hcut : o.Undivided t)
    (hvalue : (o.get? key).bind (·.object? t) = some inner) : (∃ m, readAt? t m = some inner) ∧
    inner.Nested t := by
  obtain ⟨e, he, hinner⟩ := Option.bind_eq_some_iff.mp hvalue
  exact ⟨⟨_, hinner⟩, hw.object? h hcut (List.mem_of_find?_eq_some he) hinner⟩

theorem fields_of_readAt? (h : readAt? v 0 = some o) : fields v = o.entries.map (·.field v) := by
  rw [fields, contentsOf, h, Option.map_some, Option.getD_some, contents, List.map_map]
  exact List.map_congr_left fun e _ => seen_holds v e

theorem fields_source (h : readAt? t n = some o) : fields (o.source t) =
    o.entries.map (·.field t) := by
  rw [fields, contentsOf_source h, contents, List.map_map]
  exact List.map_congr_left fun e _ => seen_holds t e

theorem value?_source (h : readAt? t n = some o) (key : Text) :
    value? (o.source t) key = ((o.get? key).bind (·.object? t)).map (·.source t) := by
  rw [value?, fields_source h, List.find?_map, get?]
  change ((o.entries.find? (·.key == key)).map (·.field t)).bind (·.2) = _
  cases o.entries.find? (·.key == key) <;> rfl

theorem exists_of_value? (h : readAt? t n = some o) (hvalue : value? (o.source t) key = some v) :
    ∃ e inner, o.get? key = some e ∧ e.object? t = some inner ∧ inner.source t = v := by
  rw [value?_source h] at hvalue
  obtain ⟨inner, hinner, rfl⟩ := Option.map_eq_some_iff.mp hvalue
  obtain ⟨e, he, hinner⟩ := Option.bind_eq_some_iff.mp hinner
  exact ⟨e, inner, he, hinner, rfl⟩

theorem names_source (h : readAt? t n = some o) : names (o.source t) = o.keys := by
  rw [names, fields_source h, List.map_map]
  rfl

theorem hasField_source (h : readAt? t n = some o) (key : Text) :
    hasField (o.source t) key = o.hasKey key := by
  rw [hasField, names_source h, keys, List.any_map, hasKey, get?, List.isSome_find?]
  rfl

theorem find?_of_hasField (h : hasField v key = false) : (fields v).find? (·.1 == key) = none := by
  rw [hasField, names, List.any_map, List.any_eq_false] at h
  exact List.find?_eq_none.mpr fun f hf => h f hf

theorem value?_of_hasField (h : hasField v key = false) : value? v key = none := by
  rw [value?, find?_of_hasField h, Option.bind_none]

theorem filled_source (h : readAt? t n = some o) : Filled (o.source t) ↔
    ∀ last ∈ o.entries.getLast?, (behindValue? t last).isSome = true := by
  rw [Filled, contentsOf_source h, contents, List.getLast?_map]
  cases hlast : o.entries.getLast? with
  | none => simp
  | some last =>
      have hcontent : last.content t ≠ .blank ↔ (behindValue? t last).isSome = true := by
        cases hinner : last.object? t with
        | some inner =>
            rw [ObjectEntry.content_of_object? hinner,
              isSome_behindValue? h (List.mem_of_getLast? hlast) hinner]
            simp
        | none =>
            rw [ObjectEntry.content_of_none hinner]
            split_ifs with hsome <;> simp [hsome]
      simpa [ObjectEntry.holds] using hcontent

/-- A literal in the place of one that is a value: the other fields stay. -/
theorem exists_exchanged (h : readAt? t n = some o) (hv : Composed (o.source t))
    (hes : o.entries = es ++ e :: es') (hinner : e.object? t = some inner) (hw : Braced w) :
    ∃ v, inner.replaced t w = o.replaced t v ∧ Composed v ∧
      fields v = es.map (·.field t) ++ (e.key, some w) :: es'.map (·.field t) ∧
        (Filled (o.source t) → Filled v) := by
  obtain ⟨v, hreplaced, hliteral⟩ := IsLiteral.exists_value h hv hes hinner hw
  refine ⟨v, hreplaced, hliteral.composed, ?_, fun hfilled => ?_⟩
  · rw [hliteral.fields_eq, List.map_append, List.map_cons, List.map_map, List.map_map]
    congr 1
    · exact List.map_congr_left fun e _ => seen_holds t e
    · exact congrArg _ (List.map_congr_left fun e _ => seen_holds t e)
  · rw [Filled, hliteral.contentsOf_eq]
    rw [Filled, contentsOf_source h, contents, hes, List.map_append, List.map_cons] at hfilled
    intro c hc
    rw [List.getLast?_append_of_ne_nil _ (List.cons_ne_nil _ _)] at hc hfilled
    cases hlast : es'.map (·.holds t) with
    | nil =>
        rw [hlast] at hc
        exact Option.some.inj hc ▸ Content.noConfusion
    | cons d ds =>
        rw [hlast, List.getLast?_cons_cons] at hc hfilled
        exact hfilled c hc

theorem composed_empty : Composed "\x7b\x7d".toList :=
  ⟨[([], none)], List.cons_ne_nil _ _, by
    simpa using ObjectEntry.Piece.noEntry (p := []) (by decide) (by decide), by decide, by decide⟩

theorem fields_empty : fields "\x7b\x7d".toList = [] := by decide

theorem filled_empty : Filled "\x7b\x7d".toList := by
  rw [Filled, show contentsOf "\x7b\x7d".toList = [] by decide]
  exact fun c hc => nomatch hc

theorem composed_braced (hkey : Key written key) (hw : Braced w) :
    Composed (Spec.braced [Spec.entry written w]) ∧ fields (Spec.braced [Spec.entry written w]) =
    [(key, some w)] ∧
      Filled (Spec.braced [Spec.entry written w]) := by
  have hspace : Spaces [' '] := fun c hc => List.mem_singleton.mp hc ▸ by decide
  have hpiece := piece_entry hspace hkey hw (idle_of_spaces hspace)
  have hliteral : IsLiteral (Spec.braced [Spec.entry written w]) [(key, .object w)] := by
    refine ⟨[(' ' :: (Spec.entry written w ++ [' ']), some (key, .object w))], List.cons_ne_nil _ _,
      ?_, ?_, rfl⟩
    · exact fun q hq => List.mem_singleton.mp hq ▸ hpiece
    · simp [Spec.braced, Text.join, ofPieces, joined]
  refine ⟨hliteral.composed, hliteral.fields_eq, ?_⟩
  rw [Filled, hliteral.contentsOf_eq]
  exact fun c hc => Option.some.inj hc ▸ Content.noConfusion

/-- A literal with another literal for the first value of a key. -/
structure Exchanged (u v key w : Text) : Prop where
  composed : Composed v
  names : names v = names u
  value : value? v key = some w
  others : ∀ k, k ≠ key → value? v k = value? u k
  filled : Filled u → Filled v

theorem exists_exchanged_value (h : readAt? t n = some o) (hv : Composed (o.source t))
    (he : o.get? key = some e) (hinner : e.object? t = some inner) (hw : Braced w) :
    ∃ v, inner.replaced t w = o.replaced t v ∧ Exchanged (o.source t) v key w := by
  obtain ⟨hkey, es, es', hes, hnone⟩ := List.find?_eq_some_iff_append.mp he
  obtain ⟨v, hreplaced, hcomposed, hfields, hfilled⟩ := exists_exchanged h hv hes hinner hw
  have hold : fields (o.source t) = es.map (·.field t) ++ e.field t :: es'.map (·.field t) := by
    rw [fields_source h, hes, List.map_append, List.map_cons]
  refine ⟨v, hreplaced, hcomposed, ?_, ?_, fun k hk => ?_, hfilled⟩
  · rw [names, names, hfields, hold, List.map_append, List.map_append]
    rfl
  · have hfront : (es.map (·.field t)).find? (·.1 == key) = none := by
      rw [List.find?_map, Option.map_eq_none_iff, List.find?_eq_none]
      exact fun a ha => by simpa [ObjectEntry.field] using hnone a ha
    simp [value?, hfields, List.find?_append, hfront, beq_iff_eq.mp hkey]
  · have hne : (e.key == k) = false := beq_eq_false_iff_ne.mpr fun heq =>
      hk (heq.symm.trans (beq_iff_eq.mp hkey))
    have hne' : ((e.field t).1 == k) = false := hne
    simp only [value?, hfields, hold, List.find?_append, List.find?_cons, hne, hne']

/-- A literal with one more field behind the others. -/
structure Appended (u v key w : Text) : Prop where
  composed : Composed v
  filled : Filled v
  fields : fields v = fields u ++ [(key, some w)]

theorem Appended.names (h : Appended u v key w) : names v = names u ++ [key] := by
  rw [ObjectLiteral.names, h.fields, List.map_append]
  rfl

theorem Appended.value (h : Appended u v key w) (hnone : hasField u key = false) :
    value? v key = some w := by
  have hfront : (ObjectLiteral.fields u).find? (·.1 == key) = none := find?_of_hasField hnone
  simp [value?, h.fields, List.find?_append, hfront]

theorem Appended.others (h : Appended u v key w) {k : Text} (hk : k ≠ key) :
    value? v k = value? u k := by
  have hne : (key == k) = false := beq_eq_false_iff_ne.mpr hk.symm
  simp only [value?, h.fields, List.find?_append, List.find?_cons, hne, List.find?_nil,
    Option.or_none]

theorem exists_appended (h : readAt? t n = some o) (hv : Composed (o.source t))
    (hkey : Key written key) (hw : Braced w) : ∃ v, o.insertEntry t (Spec.entry written w) =
    o.replaced t v ∧
      (Appended (o.source t) v key w ∨ ¬ Filled (o.source t) ∧
        Appended "\x7b\x7d".toList v key w) := by
  obtain ⟨v, cs, hout, hliteral, hcs⟩ := IsLiteral.exists_insertEntry h hv hkey hw
  have hfilled : Filled v := by
    rw [Filled, hliteral.contentsOf_eq, List.getLast?_concat]
    exact fun c hc => Option.some.inj hc ▸ Content.noConfusion
  have hfields : fields v = cs.map Content.seen ++ [(key, some w)] := by
    rw [hliteral.fields_eq, List.map_append]
    rfl
  refine ⟨v, hout, ?_⟩
  rcases hcs with hseen | ⟨rfl, hblank⟩
  · exact .inl ⟨hliteral.composed, hfilled, hfields.trans (congrArg (· ++ [(key, some w)]) hseen)⟩
  · cases hlast : (contentsOf (o.source t)).getLast? with
    | none =>
        rw [List.getLast?_eq_none_iff] at hlast
        exact .inl ⟨hliteral.composed, hfilled, hfields.trans (by rw [fields, hlast])⟩
    | some c => exact .inr ⟨fun h => h c hlast (hblank c hlast), hliteral.composed, hfilled,
        hfields⟩

theorem exists_inserted (h : readAt? t n = some o) (hv : Composed (o.source t))
    (hkey : Key written key) (hw : Braced w) : ∃ v, o.insertEntry t (Spec.entry written w) =
    o.replaced t v ∧ Composed v ∧
      hasField v key = true ∧ (hasField (o.source t) key = false → value? v key = some w) := by
  obtain ⟨v, hout, happended⟩ := exists_appended h hv hkey hw
  have hread : ∀ {u : Text}, Appended u v key w → hasField v key = true := fun hu =>
    List.any_eq_true.mpr ⟨key, hu.names ▸ List.mem_append_right _ List.mem_cons_self,
      beq_self_eq_true key⟩
  refine ⟨v, hout, ?_⟩
  rcases happended with happended | ⟨-, happended⟩
  · exact ⟨happended.composed, hread happended, happended.value⟩
  · exact ⟨happended.composed, hread happended, fun _ => happended.value rfl⟩

end ObjectLiteral

end ServiceGate
