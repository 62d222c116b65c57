/-
# What a literal holds

The contents of a literal are its keys, each with what its value is: nothing that counts, a literal
of its own, or something else.  `IsLiteral v cs` says that the text `v` is made of unbroken pieces
with the contents `cs`; such a text has them wherever it stands (`IsLiteral.exists_readAt?`).

The contents of a literal that is read in a text are those of its source, the text between its
braces and the braces themselves (`contentsOf_source`).

Contents are what the repairs of a specification are reasoned about with: they say nothing of
places, so they stay when text is put in further up, and they can be read of the source of a literal
alone.  A value that opens a literal is told apart from one that only begins like one: the literal
must be the whole piece up to white space, and the search for its closer must end in the piece
(`Settled.matchingClose?_of_append`).
-/
import ServiceGate.Proofs.ObjectLiteral.Values

namespace ServiceGate

open Scan

variable {t v w x y p rest front trail key : Text} {n close : Nat} {e : ObjectEntry}
  {o : ObjectLiteral}

/-! ## Contents -/

/-- What the value of an entry is. -/
inductive Content
  /-- Nothing but comments and white space. -/
  | blank
  | plain
  /-- A literal, as it is written. -/
  | object (v : Text)
deriving DecidableEq

def Content.object? : Content → Option Text
  | object v => some v
  | _ => none

def ObjectLiteral.source (t : Text) (o : ObjectLiteral) : Text := t.between o.openAt (o.closeAt + 1)

namespace ObjectEntry

def content (t : Text) (e : ObjectEntry) : Content :=
  match e.object? t with
  | some o => .object (o.source t)
  | none => if (ObjectLiteral.behindValue? t e).isSome then .plain else .blank

def holds (t : Text) (e : ObjectEntry) : Text × Content := (e.key, e.content t)

theorem content_of_object? (h : e.object? t = some o) : e.content t = .object (o.source t) := by
  rw [content, h]

theorem content_of_none (h : e.object? t = none) :
    e.content t = if (ObjectLiteral.behindValue? t e).isSome then .plain else .blank := by
  rw [content, h]

theorem object?_content (t : Text) (e : ObjectEntry) :
    (e.content t).object? = (e.object? t).map (·.source t) := by
  cases h : e.object? t with
  | some o => rw [content_of_object? h]; rfl
  | none =>
      rw [content_of_none h]
      split_ifs <;> rfl

/-- A piece of a literal, and the entry that it is. -/
inductive Piece : Text → Option (Text × Content) → Prop
  | noEntry {p : Text} : Unbroken p → ofPiece? p = none → Piece p none
  | value {p : Text} {e : ObjectEntry} : Unbroken p → Shape p e →
      (p.after e.valueStart).head? ≠ some '\x7b' →
      Piece p (some (e.key, if (ObjectLiteral.behindValue? p e).isSome then .plain else .blank))
  | object {front key v trail : Text} {keyAt : Nat} : Opening front key keyAt → Braced v →
      Unbroken (front ++ v ++ trail) → Piece (front ++ v ++ trail) (some (key, .object v))

end ObjectEntry

namespace ObjectLiteral

open ObjectEntry

/-- The contents of a literal that was read in a text. -/
def contents (t : Text) (o : ObjectLiteral) : List (Text × Content) := o.entries.map (·.holds t)

/-- A literal made of pieces that hold these contents. -/
def IsLiteral (v : Text) (cs : List (Text × Content)) : Prop :=
  ∃ qs : List (Text × Option (Text × Content)), qs ≠ [] ∧ (∀ q ∈ qs, Piece q.1 q.2) ∧
    v = ofPieces (qs.map (·.1)) ∧ cs = qs.filterMap (·.2)

end ObjectLiteral

/-! ## Reading the contents -/

theorem Delimited.detached (h : Delimited rest) : Detached rest := by
  obtain ⟨c, r, rfl, rfl | rfl⟩ := h
  · intro d
    simp [opensComment]
  · exact detached_closer .brace r

theorem delimited_flatMap (ps : List Text) (h : Delimited rest) :
    Delimited (ps.flatMap (',' :: ·) ++ rest) := by
  cases ps with
  | nil => exact h
  | cons p ps => exact ⟨',', _, rfl, .inl rfl⟩

namespace ObjectEntry

theorem Piece.unbroken {c : Option (Text × Content)} (h : Piece p c) : Unbroken p := by
  cases h with
  | noEntry h => exact h
  | value h => exact h
  | object _ _ h => exact h

theorem head?_value (hp : Shape p e) (hhead : (p.after e.valueStart).head? ≠ some '\x7b')
    (hrest : Delimited rest) (x : Text) :
    ((x ++ p ++ rest).after (Text.size x + e.valueStart)).head? ≠ some '\x7b' := by
  obtain ⟨front, value, trail, rfl, hstart, -⟩ := hp.spans
  have htext : x ++ (front ++ value ++ trail) ++ rest = (x ++ front) ++
      (value ++ trail ++ rest) := by simp
  rw [hstart, ← Text.size_append, htext, Text.after_append]
  rw [hstart, List.append_assoc, Text.after_append] at hhead
  cases hvalue : value ++ trail with
  | nil =>
      obtain ⟨c, r, rfl, rfl | rfl⟩ := hrest
      · exact fun h => absurd (Option.some.inj h) (by decide)
      · exact fun h => absurd (Option.some.inj h) (by decide)
  | cons c w =>
      rw [hvalue] at hhead
      exact hhead

theorem Piece.holds {c : Option (Text × Content)} (h : Piece p c) (hrest : Delimited rest)
    (x : Text) :
    (ofPiece? p).map (fun e => (e.moved (Text.size x)).holds (x ++ p ++ rest)) = c := by
  cases h with
  | noEntry _ hnone => rw [hnone, Option.map_none]
  | @value _ e hp he hhead =>
      have hnone : (e.moved (Text.size x)).object? (x ++ p ++ rest) = none :=
        ObjectLiteral.readAt?_of_head (head?_value he hhead hrest x)
      rw [he.ofPiece?_eq, Option.map_some, ObjectEntry.holds, content_of_none hnone,
        ObjectLiteral.behindValue?_piece hp he hrest.detached, Option.isSome_map]
      rfl
  | @object front key v trail keyAt hfront hv _ =>
      have hheaded : Headed (v ++ trail) := by
        obtain ⟨w, rfl, -⟩ := hv
        exact fun c hc => Option.some.inj hc ▸ by decide
      obtain ⟨o, ho, hopen, hclose⟩ := hv.exists_readAt? (x ++ front) (trail ++ rest)
      have htext : x ++ (front ++ v ++ trail) ++ rest = x ++ front ++ v ++ (trail ++ rest) := by
        simp
      rw [List.append_assoc front, hfront.ofPiece?_eq hheaded, Option.map_some,
        ← List.append_assoc front,
        htext, ObjectEntry.holds, content_of_object? (o := o) ?_, ObjectLiteral.source, hopen,
        hclose, Text.between_append]
      · rfl
      · rw [object?, moved, ← Text.size_append, ho]

end ObjectEntry

namespace ObjectLiteral

open ObjectEntry

variable {cs ds : List (Text × Content)} {qs : List (Text × Option (Text × Content))}

/-- The entries of pieces hold what the pieces hold. -/
theorem holds_ofPieces (hrest : Delimited rest) :
    ∀ (qs : List (Text × Option (Text × Content))) (x : Text),
    (∀ q ∈ qs, Piece q.1 q.2) → (ObjectEntry.ofPieces (Text.size x) (qs.map (·.1))).map
      (·.holds (x ++ joined (qs.map (·.1)) ++ rest)) = qs.filterMap (·.2)
  | [], _, _ => rfl
  | [(p, c)], x, h => by
      have hp := (h (p, c) List.mem_cons_self).holds hrest x
      have htext : x ++ joined [p] ++ rest = x ++ p ++ rest := by simp [joined]
      simp only [List.map_cons, List.map_nil, htext, ObjectEntry.ofPieces, List.append_nil]
      rw [List.filterMap_cons, List.filterMap_nil, ← hp]
      cases ofPiece? p <;> rfl
  | (p, c) :: (q, d) :: qs, x, h => by
      have ih := holds_ofPieces hrest ((q, d) :: qs) (x ++ p ++ [','])
        fun r hr => h r (List.mem_cons_of_mem _ hr)
      have hp := (h (p, c) List.mem_cons_self).holds
        (delimited_flatMap (q :: qs.map (·.1)) hrest) x
      have hcomma : Text.size [','] = 1 := rfl
      have htext : x ++ joined (p :: q :: qs.map (·.1)) ++ rest =
          x ++ p ++ [','] ++ joined (q :: qs.map (·.1)) ++ rest := by
        rw [joined_cons_cons]
        simp
      have htext' : x ++ joined (p :: q :: qs.map (·.1)) ++ rest =
          x ++ p ++ ((q :: qs.map (·.1)).flatMap (',' :: ·) ++ rest) := by
        simp [joined]
      rw [Text.size_append, Text.size_append, hcomma] at ih
      simp only [List.map_cons] at ih ⊢
      rw [ObjectEntry.ofPieces.eq_2, List.map_append]
      rw [List.filterMap_cons, htext, ih, ← htext, htext', ← hp]
      cases ofPiece? p <;> rfl

theorem IsLiteral.braced (h : IsLiteral v cs) : Braced v := by
  obtain ⟨qs, hne, hqs, rfl, -⟩ := h
  refine .ofPieces (by simpa using hne) fun p hp => ?_
  obtain ⟨q, hq, rfl⟩ := List.mem_map.mp hp
  exact (hqs q hq).unbroken

/-- Wherever the text stands it is read as a literal with these contents. -/
theorem IsLiteral.exists_readAt? (h : IsLiteral v cs) (x y : Text) : ∃ o,
    readAt? (x ++ v ++ y) (Text.size x) = some o ∧ o.source (x ++ v ++ y) = v ∧
      o.contents (x ++ v ++ y) = cs := by
  obtain ⟨o, ho, hopen, hclose⟩ := h.braced.exists_readAt? x y
  refine ⟨o, ho, by rw [source, hopen, hclose, Text.between_append], ?_⟩
  obtain ⟨qs, hne, hqs, rfl, rfl⟩ := h
  have hread := @readAt?_ofPieces (qs.map (·.1)) (by simpa using hne) (fun p hp => by
    obtain ⟨q, hq, rfl⟩ := List.mem_map.mp hp
    exact (hqs q hq).unbroken) x y
  obtain rfl := Option.some.inj (ho.symm.trans hread)
  have htext : x ++ ofPieces (qs.map (·.1)) ++ y = x ++ ['\x7b'] ++ joined (qs.map (·.1)) ++
      '\x7d' :: y := by
    simp [ofPieces]
  have hsize : Text.size x + 1 = Text.size (x ++ ['\x7b']) := by
    rw [Text.size_append]
    rfl
  rw [contents, htext, hsize]
  exact holds_ofPieces ⟨_, _, rfl, .inr rfl⟩ qs _ hqs

/-- The contents of a text that is a literal by itself. -/
def contentsOf (v : Text) : List (Text × Content) := ((readAt? v 0).map (·.contents v)).getD []

theorem IsLiteral.contentsOf_eq (h : IsLiteral v cs) : contentsOf v = cs := by
  obtain ⟨o, ho, -, hcs⟩ := h.exists_readAt? [] []
  rw [List.nil_append, List.append_nil] at ho hcs
  rw [contentsOf, show readAt? v 0 = some o from ho, Option.map_some, Option.getD_some, hcs]

theorem IsLiteral.contents_eq (h : IsLiteral v cs)
    (ho : readAt? (x ++ v ++ y) (Text.size x) = some o) :
    o.contents (x ++ v ++ y) = cs := by
  obtain ⟨o', ho', -, hcs⟩ := h.exists_readAt? x y
  obtain rfl := Option.some.inj (ho.symm.trans ho')
  exact hcs

end ObjectLiteral

/-! ## The source of a literal -/

namespace Scan

/-- A search that does not end in the rest of a row ends in front of it. -/
theorem closeIn_of_append {b : Bracket} {more : List (Nat × Char)}
    (hmore : ∀ z ∈ more, z.1 ≠ close) :
    ∀ {cs : List (Nat × Char)} {depth : Nat},
      closeIn b.opener b.closer depth (cs ++ more) = some close →
        closeIn b.opener b.closer depth cs = some close
  | [], _, h => absurd rfl (hmore _ (mem_of_closeIn h))
  | (k, c) :: cs, depth, h => by
      rw [List.cons_append] at h
      by_cases ho : c = b.opener
      · subst ho
        rw [closeIn_opener] at h ⊢
        exact closeIn_of_append hmore h
      by_cases hc : c = b.closer
      · subst hc
        cases depth with
        | zero => rwa [closeIn_closer_zero] at h ⊢
        | succ depth =>
            rw [closeIn_closer_succ] at h ⊢
            exact closeIn_of_append hmore h
      · rw [closeIn_other ho hc] at h ⊢
        exact closeIn_of_append hmore h

theorem Settled.matchingClose?_of_append {q : Text} (hp : Settled p)
    (hopen : (p.after n).head? = some '\x7b') (h : matchingClose? (p ++ q) n = some close)
    (hclose : close < Text.size p) :
    matchingClose? p n = some close := by
  obtain ⟨w, hafter⟩ := List.head?_eq_some_iff.mp hopen
  obtain ⟨hwhole, hle⟩ := after_append_left hafter q
  obtain ⟨ms, hms, hbehind⟩ := hp.marks_append (n := n + 1) hle q
  have hcode : codeChars (p ++ q) (n + 1) = codeChars p (n + 1) ++ codeOf ms := by
    rw [codeChars_eq, codeChars_eq, hms, codeOf_append]
  rw [matchingClose?, hwhole] at h
  rw [matchingClose?, hafter]
  dsimp only [closer?] at h ⊢
  rw [hcode] at h
  refine closeIn_of_append (b := .brace) (fun z hz => ?_) h
  have := hbehind _ (mem_codeOf.mp hz)
  dsimp only at this
  omega

end Scan

namespace ObjectLiteral

theorem exists_source (h : readAt? t n = some o) : ∃ x y, t = x ++ o.source t ++ y ∧
    n = Text.size x ∧ o.openAt = Text.size x ∧ o.closeAt + 1 = Text.size (x ++ o.source t) ∧
      ∃ w, o.source t = '\x7b' :: (w ++ ['\x7d']) := by
  obtain ⟨x, w, y, -, -, -, rfl, rfl, hopen, hclose, -⟩ := exists_inner h
  have hsource : o.source (x ++ '\x7b' :: (w ++ '\x7d' :: y)) = '\x7b' :: (w ++ ['\x7d']) := by
    have htext : x ++ '\x7b' :: (w ++ '\x7d' :: y) = x ++ '\x7b' :: (w ++ ['\x7d']) ++ y := by simp
    have hsize : o.closeAt + 1 = Text.size x + Text.size ('\x7b' :: (w ++ ['\x7d'])) := by
      simp only [hclose, Text.size, Text.size_append, show '\x7b'.utf8Size = 1 from rfl,
        show '\x7d'.utf8Size = 1 from rfl]
      omega
    rw [source, hopen, hsize, htext, Text.between_append]
  refine ⟨x, y, by rw [hsource]; simp, rfl, hopen, ?_, w, hsource⟩
  rw [hsource]
  simp only [hclose, Text.size, Text.size_append, show '\x7b'.utf8Size = 1 from rfl,
    show '\x7d'.utf8Size = 1 from rfl]
  omega

theorem settled_source (h : readAt? t n = some o) : Settled (o.source t) := by
  obtain ⟨-, -, -, -, -, -, w, hw⟩ := exists_source h
  rw [hw]
  intro c hc
  rw [← List.cons_append, List.getLast?_concat] at hc
  exact Option.some.inj hc ▸ rfl

theorem readAt?_source (h : readAt? t n = some o) :
    ∃ o', readAt? (o.source t) 0 = some o' ∧ o = o'.moved n := by
  obtain ⟨x, y, ht, rfl, hopen, hclose, w, hw⟩ := exists_source h
  have hsettled := settled_source h
  have hright := readAt?_append_right x (o.source t ++ y) 0
  rw [← List.append_assoc, ← ht, Nat.add_zero, h] at hright
  obtain ⟨o', ho', ho⟩ := Option.map_eq_some_iff.mp hright.symm
  have hcloseAt : o'.closeAt < Text.size (o.source t) := by
    have := congrArg closeAt ho
    rw [moved] at this
    rw [Text.size_append] at hclose
    dsimp only at this
    omega
  have hmatch := hsettled.matchingClose?_of_append (n := 0)
    (by rw [hw, Text.after, Text.after?_zero]; rfl) (matchingClose?_of_readAt? ho').2 hcloseAt
  rw [readAt?_append_of_closes hsettled (by rw [hmatch]; rfl)] at ho'
  exact ⟨o', ho', ho.symm⟩

theorem behindValue?_within (hp : Settled p) (hstart : e.valueStart ≤ Text.size p)
    (hstop : e.valueStop ≤ Text.size p) (x y : Text) :
    behindValue? (x ++ (p ++ y)) (e.moved (Text.size x)) =
      (behindValue? p e).map (Text.size x + ·) := by
  obtain ⟨ms, hms, hbehind⟩ := hp.marks_append hstart y
  have hnone : ms.takeWhile (fun m => m.offset < e.valueStop) = [] := by
    refine List.takeWhile_eq_nil_iff.mpr fun h => ?_
    have hle := hbehind _ (List.get_mem _ ⟨0, h⟩)
    simp only [decide_eq_true_eq]
    omega
  have hmarks : (marks (p ++ y) e.valueStart).takeWhile (fun m => m.offset < e.valueStop) =
      (marks p e.valueStart).takeWhile fun m => m.offset < e.valueStop := by
    rw [hms, List.takeWhile_append, hnone, List.append_nil]
    split_ifs with hall
    · exact ((List.takeWhile_prefix _).eq_of_length hall).symm
    · rfl
  exact ObjectEntry.behindValue?_moved hmarks x

theorem object?_within (ho : readAt? v 0 = some o) (hv : Settled v)
    (hsize : o.closeAt < Text.size v) (he : e ∈ o.entries) (y : Text) :
    e.object? (v ++ y) = e.object? v := by
  have hwhole := readAt?_append_left hv ho y
  cases hinner : e.object? (v ++ y) with
  | none =>
      cases halone : e.object? v with
      | none => rfl
      | some inner => exact absurd (hinner.symm.trans (readAt?_append_left hv halone y)) (by simp)
  | some inner =>
      have hlt := (LaidOut.of_readAt? hwhole).nested e he inner hinner
      obtain ⟨hopen, hmatch⟩ := matchingClose?_of_readAt? hinner
      have hlt' := openAt_lt_closeAt hinner
      have hhead : ((v ++ y).after e.valueStart).head? = some '\x7b' := by
        by_contra hne
        rw [ObjectEntry.object?, readAt?_of_head hne] at hinner
        cases hinner
      rw [head?_after_append_left (by omega)] at hhead
      have hclose := hv.matchingClose?_of_append hhead hmatch (by omega)
      rw [← hinner]
      exact readAt?_append_of_closes hv (by rw [hclose]; rfl) y

/-- The contents of a literal are those of its source. -/
theorem contentsOf_source (h : readAt? t n = some o) : contentsOf (o.source t) = o.contents t := by
  obtain ⟨o', ho', hmoved⟩ := readAt?_source h
  have hsettled := settled_source h
  obtain ⟨x, y, ht, rfl, -, hclose, -⟩ := exists_source h
  have hsize : o'.closeAt < Text.size (o.source t) := by
    have hcloseAt := congrArg closeAt hmoved
    rw [moved] at hcloseAt
    rw [Text.size_append] at hclose
    dsimp only at hcloseAt
    omega
  generalize o.source t = v at *
  subst ht hmoved
  rw [contentsOf, ho', Option.map_some, Option.getD_some, contents, contents, moved, List.map_map]
  refine List.map_congr_left fun e he => ?_
  have hlaid := (LaidOut.of_readAt? ho').order e he
  have hobject : (e.moved (Text.size x)).object? (x ++ v ++ y) =
      (e.object? v).map (·.moved (Text.size x)) := by
    rw [List.append_assoc, ObjectEntry.object?_moved, object?_within ho' hsettled hsize he]
  have hbehind := behindValue?_within (e := e) hsettled (by omega) (by omega) x y
  rw [← List.append_assoc] at hbehind
  rw [Function.comp_apply, ObjectEntry.holds, ObjectEntry.holds, ObjectEntry.content,
    ObjectEntry.content, hobject, hbehind, Option.isSome_map]
  cases hinner : e.object? v with
  | none => rfl
  | some inner =>
      have hlt := (LaidOut.of_readAt? ho').nested e he inner hinner
      have hsource : (inner.moved (Text.size x)).source (x ++ v ++ y) = inner.source v := by
        rw [source, moved, List.append_assoc, Nat.add_assoc, Text.between_append_right,
          Text.between_append_left (by omega), source]
      rw [Option.map_some, ObjectEntry.moved]
      exact congrArg (fun w => (e.key, Content.object w)) hsource.symm

end ObjectLiteral
end ServiceGate
