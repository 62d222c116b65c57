/-
# A literal with an entry added

A literal made of unbroken pieces is written anew with one more piece behind the piece of its last
entry; what followed the last character of that entry that counts goes behind the new one
(`exists_insertEntry`).  A literal without entries, or whose last entry has nothing that counts for
a value, keeps no piece.

So the entry is read back behind the others, which keep their values (`readAt?_insertEntry`); where
a comma in a template region divides the literal, it is not (`not_always_appended`).

The proof divides by whether the literal is written anew.  Without entries the new entry is the one
piece of a new literal (`readWith_alone`).  Otherwise the piece of the last entry is cut behind its
last character that counts, the new entry is a piece of its own behind the cut, and comments and
white space that followed the old entry follow the new one (`readWith_behind`).
-/
import ServiceGate.Proofs.Checked.ObjectLiteral
import ServiceGate.Proofs.ObjectLiteral.Braced
import ServiceGate.Proofs.ObjectLiteral.Piece
import ServiceGate.Proofs.ObjectLiteral.Pieces

/-!
## What adding an entry keeps

A text `Keeps` another one if it has all its characters that are no white space, in order.  Adding
an entry keeps the text for whatever entry exactly if the last entry has a value that counts, or
there is nothing but white space between the braces (`keeps_iff`): a literal whose pieces are
spreads, computed keys or comments has no entries, and it is written anew.
-/

namespace ServiceGate

open Scan

variable {t u v p w q new entry : Text} {n : Nat} {o : ObjectLiteral} {last : ObjectEntry}

namespace Text

def dense (t : Text) : Text := t.filter (!CharClass.isSpace ·)

/-- Every character that is no white space is still there, in order. -/
def Keeps (t u : Text) : Prop := (dense t).Sublist (dense u)

instance (t u : Text) : Decidable (Keeps t u) := inferInstanceAs (Decidable (List.Sublist _ _))

theorem dense_append (t u : Text) : dense (t ++ u) = dense t ++ dense u := List.filter_append ..

theorem dense_eq_nil_iff : dense t = [] ↔ ∀ c ∈ t, CharClass.isSpace c = true := by
  rw [dense, List.filter_eq_nil_iff]
  simp

theorem Keeps.refl (t : Text) : Keeps t t := List.Sublist.refl _

theorem Keeps.trans (h : Keeps t u) (h' : Keeps u v) : Keeps t v := List.Sublist.trans h h'

theorem keeps_exchange (h : Keeps w new) (p q : Text) : Keeps (p ++ w ++ q) (p ++ new ++ q) := by
  rw [Keeps, dense_append, dense_append, dense_append, dense_append]
  exact ((List.Sublist.refl _).append h).append (List.Sublist.refl _)

theorem keeps_insertAt (h : t.IsBoundary n) (new : Text) : Keeps t (t.insertAt n new) := by
  obtain ⟨p, q, rfl, rfl⟩ := isBoundary_iff.mp h
  have hkept := @keeps_exchange [] new (List.nil_sublist _) p q
  rw [List.append_nil] at hkept
  rwa [insertAt, splice, before_append, after_append]

end Text

namespace ObjectLiteral

open Text (Keeps dense)

/-- Adding an entry takes nothing away: the last entry has a value that counts, or there is nothing
between the braces. -/
def Spares (t : Text) (o : ObjectLiteral) : Prop :=
  (∃ last ∈ o.entries.getLast?, (behindValue? t last).isSome = true) ∨
    ∀ c ∈ t.between (o.openAt + 1) o.closeAt, CharClass.isSpace c = true

instance (t : Text) (o : ObjectLiteral) : Decidable (o.Spares t) :=
  decidable_of_iff (o.entries.getLast?.any (fun last => (behindValue? t last).isSome) = true ∨
    ∀ c ∈ t.between (o.openAt + 1) o.closeAt, CharClass.isSpace c = true)
    (or_congr_left
      (by rw [Option.any_eq_true]; exact ⟨fun ⟨l, hl, h⟩ => ⟨l, hl, h⟩, fun ⟨l, hl, h⟩ =>
        ⟨l, hl, h⟩⟩))

theorem keeps_anew_iff (ho : readAt? t n = some o) (new : Text) :
    Keeps t (t.splice o.openAt (o.closeAt + 1) ('\x7b' :: (new ++ ['\x7d']))) ↔
      (dense (t.between (o.openAt + 1) o.closeAt)).Sublist (dense new) := by
  obtain ⟨x, w, y, -, -, -, rfl, rfl, hopen, hclose, -⟩ := exists_inner ho
  have h₁ : '\x7b'.utf8Size = 1 := rfl
  have h₂ : '\x7d'.utf8Size = 1 := rfl
  have htext : x ++ '\x7b' :: (w ++ '\x7d' :: y) = (x ++ ['\x7b']) ++ w ++ ('\x7d' :: y) := by simp
  have hinner : (x ++ '\x7b' :: (w ++ '\x7d' :: y)).between (Text.size x + 1)
      (Text.size x + 1 + Text.size w) = w := by
    have hbetween := Text.between_append (x ++ ['\x7b']) w ('\x7d' :: y)
    rw [Text.size_append, Text.size, h₁] at hbetween
    rw [htext]
    exact hbetween
  have hwhole : x ++ '\x7b' :: (w ++ '\x7d' :: y) = (x ++ ('\x7b' :: (w ++ ['\x7d']))) ++ y := by
    simp
  have hbehind : Text.size x + 1 + Text.size w +
      1 = Text.size (x ++ ('\x7b' :: (w ++ ['\x7d']))) := by
    simp only [Text.size_append, Text.size]
    omega
  rw [hopen, hclose, hinner, Text.splice, Text.before_append, hwhole, hbehind, Text.after_append,
    ← hwhole]
  have hbrace : ∀ z : Text, dense (x ++ ('\x7b' :: (z ++ ['\x7d'])) ++ y) =
      dense x ++ ['\x7b'] ++ (dense z ++ ('\x7d' :: dense y)) := fun z => by
    rw [Text.dense_append, Text.dense_append, List.append_assoc, ← List.singleton_append,
      Text.dense_append, Text.dense_append]
    simp [dense, show CharClass.isSpace '\x7b' = false by
      decide, show CharClass.isSpace '\x7d' = false by decide]
  rw [Keeps, hwhole, hbrace, hbrace, List.append_sublist_append_left,
    List.append_sublist_append_right]

theorem insertEntry_of_none (h : ∀ last ∈ o.entries.getLast?, behindValue? t last = none) :
    o.insertEntry t entry = replaceWith t o entry := by
  rw [insertEntry]
  split
  · rfl
  · next last hlast =>
      rw [h last hlast]

theorem insertEntry_of_some (hlast : o.entries.getLast? = some last)
    (hm : behindValue? t last = some n) :
    o.insertEntry t entry = t.insertAt n (separator t o last ++ entry) := by
  rw [insertEntry, hlast]
  simp only [hm]

theorem Spares.keeps (h : o.Spares t) (ho : readAt? t n = some o) (entry : Text) :
    Keeps t (o.insertEntry t entry) := by
  by_cases hlast : ∃ last ∈ o.entries.getLast?, (behindValue? t last).isSome = true
  · obtain ⟨last, hl, hm⟩ := hlast
    obtain ⟨m, hm⟩ := Option.isSome_iff_exists.mp hm
    rw [insertEntry_of_some hl hm]
    exact Text.keeps_insertAt (isBoundary_of_behindValue? hm) _
  · have hnone : ∀ last ∈ o.entries.getLast?, behindValue? t last = none := fun last hl =>
      Option.not_isSome_iff_eq_none.mp fun hm => hlast ⟨last, hl, hm⟩
    have hanew := keeps_anew_iff ho (' ' :: (entry ++ [' ']))
    rw [insertEntry_of_none hnone, replaceWith,
      show "\x7b ".toList ++ entry ++ " \x7d".toList = '\x7b' ::
          (' ' :: (entry ++ [' ']) ++ ['\x7d']) by simp,
      hanew, Text.dense_eq_nil_iff.mpr (h.resolve_left hlast)]
    exact List.nil_sublist _

/-- Adding an entry keeps the text for whatever entry exactly if the literal is spared. -/
theorem keeps_iff (ho : readAt? t n = some o) :
    (∀ entry, Keeps t (o.insertEntry t entry)) ↔ o.Spares t := by
  refine ⟨fun h => ?_, fun h entry => h.keeps ho entry⟩
  by_cases hlast : ∃ last ∈ o.entries.getLast?, (behindValue? t last).isSome = true
  · exact .inl hlast
  · have hnone : ∀ last ∈ o.entries.getLast?, behindValue? t last = none := fun last hl =>
      Option.not_isSome_iff_eq_none.mp fun hm => hlast ⟨last, hl, hm⟩
    -- an entry of nothing tells what is lost
    have hempty := h []
    rw [insertEntry_of_none hnone, replaceWith,
      show "\x7b ".toList ++ [] ++ " \x7d".toList = '\x7b' :: ([' ', ' '] ++ ['\x7d']) by rfl,
      keeps_anew_iff ho] at hempty
    exact .inr (Text.dense_eq_nil_iff.mp (List.sublist_nil.mp hempty))

end ObjectLiteral

end ServiceGate

namespace ServiceGate

open Scan

variable {t rest x y p u v entry lead tail written key : Text} {ps ps₁ ps₂ : List Text}
  {n k m : Nat} {e last : ObjectEntry} {o : ObjectLiteral}

/-! ## The last entry -/

namespace ObjectEntry

theorem ofPieces_of_none (h : ∀ p ∈ ps, ofPiece? p = none) (n : Nat) : ofPieces n ps = [] := by
  induction ps generalizing n with
  | nil => rfl
  | cons p ps ih =>
      obtain ⟨hp, hps⟩ := List.forall_mem_cons.mp h
      rw [ofPieces, hp, ih hps]
      rfl

/-- An entry is of a piece, between those of the entries in front of it and those of the entries
behind it. -/
theorem exists_piece_of_append : ∀ {ps : List Text} {n : Nat} {as bs : List ObjectEntry},
    ofPieces n ps = as ++ e :: bs → ∃ ps₁ p ps₂ e', ps = ps₁ ++ p :: ps₂ ∧ ofPiece? p = some e' ∧
      e = e'.moved (n + Text.size (ps₁.flatMap (· ++ [',']))) ∧ ofPieces n ps₁ = as ∧
        ofPieces (n + Text.size (ps₁.flatMap (· ++ [','])) + Text.size p + 1) ps₂ = bs
  | [], _, as, _, h => by cases as <;> cases h
  | p :: ps, n, as, bs, h => by
      have hcomma : Text.size [','] = 1 := rfl
      have hnext : ∀ ps₁ : List Text, n + Text.size ((p :: ps₁).flatMap (· ++ [','])) =
          n + Text.size p + 1 + Text.size (ps₁.flatMap (· ++ [','])) := fun ps₁ => by
        rw [List.flatMap_cons, Text.size_append, Text.size_append]
        omega
      rw [ofPieces] at h
      cases he : ofPiece? p with
      | none =>
          rw [he] at h
          obtain ⟨ps₁, q, ps₂, e', rfl, he', rfl, has, hbs⟩ := exists_piece_of_append h
          refine ⟨p :: ps₁, q, ps₂, e', rfl, he', by rw [hnext], ?_, by rw [hnext, hbs]⟩
          rw [ofPieces, he, has]
          rfl
      | some e₀ =>
          rw [he] at h
          cases as with
          | nil =>
              obtain ⟨rfl, rfl⟩ := List.cons.inj h
              exact ⟨[], p, ps, e₀, rfl, he, rfl, rfl, rfl⟩
          | cons a as =>
              obtain ⟨rfl, hrest⟩ := List.cons.inj h
              obtain ⟨ps₁, q, ps₂, e', rfl, he', rfl, has, hbs⟩ :=
                @exists_piece_of_append ps _ as bs hrest
              refine ⟨p :: ps₁, q, ps₂, e', rfl, he', by rw [hnext], ?_, by rw [hnext, hbs]⟩
              rw [ofPieces, he, has]
              rfl

theorem ofPiece?_of_ofPieces_nil : ∀ {ps : List Text} {n : Nat}, ofPieces n ps = [] →
    ∀ p ∈ ps, ofPiece? p = none
  | [], _, _, _, hp => absurd hp List.not_mem_nil
  | q :: ps, n, h, p, hp => by
      obtain ⟨hfirst, hrest⟩ := List.append_eq_nil_iff.mp h
      rcases List.mem_cons.mp hp with rfl | hp
      · simpa using hfirst
      · exact ofPiece?_of_ofPieces_nil hrest p hp

theorem ofPieces_last (he : ofPiece? p = some e) (hps : ∀ q ∈ ps, ofPiece? q = none)
    (ps₁ : List Text) (n : Nat) : ofPieces n (ps₁ ++ p :: ps) =
      ofPieces n ps₁ ++ [e.moved (n + Text.size (ps₁.flatMap (· ++ [','])))] := by
  rw [ofPieces_append, ofPieces, he, ofPieces_of_none hps]
  rfl

theorem exists_last_piece (h : (ofPieces n ps).getLast? = some last) : ∃ ps₁ p ps₂ e,
    ps = ps₁ ++ p :: ps₂ ∧ ofPiece? p = some e ∧ (∀ q ∈ ps₂, ofPiece? q = none) ∧
    last = e.moved (n + Text.size (ps₁.flatMap (· ++ [',']))) ∧ ofPieces n ps = ofPieces n ps₁ ++
    [last] := by
  obtain ⟨es, hes⟩ := List.getLast?_eq_some_iff.mp h
  obtain ⟨ps₁, p, ps₂, e, hps, he, hlast, rfl, hnil⟩ := exists_piece_of_append hes
  exact ⟨ps₁, p, ps₂, e, hps, he, ofPiece?_of_ofPieces_nil hnil, hlast, hes⟩

end ObjectEntry

namespace ObjectLiteral

open ObjectEntry

theorem behindValue?_piece (hp : Unbroken p) (he : Shape p e) (hrest : Detached rest) (x : Text) :
    behindValue? (x ++ p ++ rest) (e.moved (Text.size x)) =
      (behindValue? p e).map (Text.size x + ·) := by
  obtain ⟨front, value, trail, hcut, hstart, hstop, hfront, -⟩ := he.spans
  rw [List.append_assoc] at hcut
  have hstop' : e.valueStop ≤ Text.size front + Text.size (value ++ trail) := by
    rw [hstop, Text.size_append, Text.size_append]
    omega
  -- the scan of the value, in front of what follows the piece and alone
  have hends : (State.start.after (value ++ trail)).mode = .code := by
    obtain ⟨ms, s, hms, hs, -⟩ := hfront (value ++ trail) .start 0 ⟨rfl, rfl⟩
    have hafter := hms.after_eq
    rw [← hcut] at hafter
    rw [← (State.after_agrees (value ++ trail) hs).1, ← hafter]
    exact hp.ends.1
  have hreads := @reads_of_detached .start rest (value ++ trail) (Text.size front) hends hrest
  have hnone :
      (marksFrom (State.start.after (value ++ trail)) (Text.size front + Text.size (value ++ trail))
      rest).takeWhile (fun m => m.offset < e.valueStop) = [] := by
    refine List.takeWhile_eq_nil_iff.mpr fun h => ?_
    have hle := le_offset_of_mem_marksFrom (List.get_mem _ ⟨0, h⟩)
    simp only [decide_eq_true_eq]
    omega
  have hmarks : (marks (p ++ rest) e.valueStart).takeWhile (fun m => m.offset < e.valueStop) =
      (marks p e.valueStart).takeWhile fun m => m.offset < e.valueStop := by
    rw [hcut, hstart, List.append_assoc, marks, marks, Text.after_append, Text.after_append,
      hreads.marksFrom_eq, List.takeWhile_append, hnone, List.append_nil]
    split_ifs with hall
    · exact ((List.takeWhile_prefix _).eq_of_length hall).symm
    · rfl
  rw [List.append_assoc]
  exact behindValue?_moved hmarks x

theorem exists_separator (t : Text) (o : ObjectLiteral) (last : ObjectEntry) :
    ∃ lead, separator t o last = ',' :: lead ∧ Spaces lead := by
  rw [separator]
  split_ifs
  · refine ⟨'\n' :: lineIndent t last.keyAt, rfl,
      List.forall_mem_cons.mpr ⟨by decide, fun c hc => ?_⟩⟩
    have hindent := List.mem_takeWhile_imp hc
    simp only [Text.isIndent, Bool.or_eq_true, beq_iff_eq] at hindent
    rcases hindent with rfl | rfl <;> decide
  · exact ⟨[' '], rfl, fun c hc => List.mem_singleton.mp hc ▸ by decide⟩

theorem replaceWith_ofPieces (hopen : o.openAt = Text.size x)
    (hclose : o.closeAt + 1 = Text.size (x ++ ofPieces ps)) (y entry : Text) :
    replaceWith (x ++ ofPieces ps ++ y) o entry = x ++ ofPieces [' ' :: (entry ++ [' '])] ++ y := by
  rw [replaceWith, Text.splice, hclose, hopen, Text.after_append, List.append_assoc x,
    Text.before_append]
  simp [ofPieces, joined]

/-- A literal made of unbroken pieces is written anew, with the entry in the place of its pieces or
as one more piece. -/
theorem exists_insertEntry (hps : ∀ p ∈ ps, Unbroken p)
    (ho : readAt? (x ++ ofPieces ps ++ y) (Text.size x) = some o) (hne : ps ≠ []) (entry : Text) :
    (∀ last ∈ o.entries.getLast?, behindValue? (x ++ ofPieces ps ++ y) last = none) ∧
        o.insertEntry (x ++ ofPieces ps ++ y) entry = x ++ ofPieces [' ' :: (entry ++ [' '])] ++ y ∨
      ∃ ps₁ u tail ps₂ e lead, ps = ps₁ ++ (u ++ tail) :: ps₂ ∧ ofPiece? (u ++ tail) = some e ∧
        Unbroken u ∧ Idle tail ∧ Shape u { e with valueStop := Text.size u } ∧
        (∀ q ∈ ps₂, ofPiece? q = none) ∧ Spaces lead ∧
        o.insertEntry (x ++ ofPieces ps ++ y) entry =
          x ++ ofPieces (ps₁ ++ u :: (lead ++ entry ++ tail) :: ps₂) ++ y := by
  rw [readAt?_ofPieces hne hps] at ho
  have hentries : o.entries = ObjectEntry.ofPieces (Text.size x + 1) ps := by
    rw [← Option.some.inj ho]
  have hopen : o.openAt = Text.size x := by rw [← Option.some.inj ho]
  have hclose : o.closeAt + 1 = Text.size (x ++ ofPieces ps) := by
    rw [← Option.some.inj ho, Text.size_append, size_ofPieces]
    simp only
    omega
  have hreplace := replaceWith_ofPieces hopen hclose y entry
  cases hlast : o.entries.getLast? with
  | none =>
      refine .inl ⟨fun last h => (by cases h),
        (insertEntry_of_none fun last h => ?_).trans hreplace⟩
      rw [hlast] at h
      cases h
  | some last =>
      rw [hentries] at hlast
      obtain ⟨ps₁, p, ps₂, e, rfl, he, hnone, rfl, -⟩ := exists_last_piece hlast
      rw [← hentries] at hlast
      obtain ⟨before, behind, htext, hsize, hbehind⟩ := exists_around x ps₁ ps₂ y
      have hp := hps p (by simp)
      have hshape := shape_of_ofPiece? he
      have hmoved := behindValue?_piece hp hshape (hbehind ▸ detached_flatMap ps₂ .brace y) before
      rw [← hsize] at hlast ⊢
      rw [htext] at hreplace ⊢
      cases hm : behindValue? p e with
      | none =>
          rw [hm] at hmoved
          refine .inl ⟨fun _ h => Option.some.inj h ▸ hmoved,
            (insertEntry_of_none fun last h => ?_).trans hreplace⟩
          rw [hlast] at h
          exact Option.some.inj h ▸ hmoved
      | some m =>
          obtain ⟨u, tail, rfl, rfl, htail, hu, -, hshape'⟩ := hshape.cut hp hm
          rw [hm, Option.map_some] at hmoved
          have hcut : before ++ (u ++ tail) ++ behind = before ++ u ++ (tail ++ behind) := by simp
          have hinsert := @insertEntry_of_some _ entry _ _ _ hlast hmoved
          obtain ⟨lead, hsep, hlead⟩ := exists_separator (before ++ (u ++ tail) ++ behind) o
            (e.moved (Text.size before))
          rw [hsep] at hinsert
          refine .inr ⟨ps₁, u, tail, ps₂, e, lead, rfl, he, hu, htail, hshape', hnone, hlead,
            hinsert.trans ?_⟩
          have hwhole : x ++ ofPieces (ps₁ ++ u :: (lead ++ entry ++ tail) :: ps₂) ++ y =
              before ++ u ++ (',' :: lead ++ entry) ++ (tail ++ behind) := by
            rw [ofPieces_comma, htext]
            simp
          have hplace : Text.size before + Text.size u = Text.size (before ++ u) :=
            (Text.size_append _ _).symm
          rw [hwhole, hcut, Text.insertAt, Text.splice]
          simp only [hplace, Text.before_append, Text.after_append]

end ObjectLiteral

/-! ## The entries of the new literal -/

namespace ObjectEntry

/-- An entry behind white space, with comments and white space behind it, is read as what it is. -/
theorem ofPiece?_entry (hlead : Spaces lead) (hkey : Key written key) (hv : Braced v)
    (htail : Idle tail) :
    Unbroken (lead ++ Spec.entry written v ++ tail) ∧
      ∃ stop, ofPiece? (lead ++ Spec.entry written v ++ tail) =
        some ⟨key, Text.size lead, Text.size (lead ++ (written ++ [':', ' '])), stop⟩ := by
  have htext : lead ++ Spec.entry written v ++ tail =
      lead ++ (written ++ ([] ++ ':' :: [' '])) ++ (v ++ tail) := by
    simp [Spec.entry]
  have hopening : Opening (lead ++ (written ++ ([] ++ ':' :: [' ']))) key (Text.size lead) :=
    .mk (idle_of_spaces hlead) hkey (fun c hc => absurd hc List.not_mem_nil)
      fun c hc => List.mem_singleton.mp hc ▸ by decide
  have hheaded : Headed (v ++ tail) := by
    obtain ⟨w, rfl, -⟩ := hv
    exact fun c hc => Option.some.inj hc ▸ by decide
  rw [htext, hopening.ofPiece?_eq hheaded]
  exact ⟨(hopening.smooth.append (hv.smooth.append htail.smooth)).unbroken, _, rfl⟩

/-- The value of the entry is read as the literal that was written, wherever its piece stands. -/
theorem exists_entry (hlead : Spaces lead) (hkey : Key written key) (hv : Braced v)
    (htail : Idle tail) (x rest : Text) : ∃ e inner,
    ofPiece? (lead ++ Spec.entry written v ++ tail) = some e ∧ e.key = key ∧
      (e.moved (Text.size x)).object? (x ++ (lead ++ Spec.entry written v ++ tail) ++ rest) =
      some inner ∧
      Text.between (x ++ (lead ++ Spec.entry written v ++ tail) ++ rest) inner.openAt
      (inner.closeAt + 1) = v := by
  obtain ⟨-, stop, he⟩ := ofPiece?_entry hlead hkey hv htail
  have htext : x ++ (lead ++ Spec.entry written v ++ tail) ++ rest =
      (x ++ (lead ++ (written ++ [':', ' ']))) ++ v ++ (tail ++ rest) := by
    simp [Spec.entry]
  obtain ⟨inner, hinner, hopen, hclose⟩ :=
    hv.exists_readAt? (x ++ (lead ++ (written ++ [':', ' ']))) (tail ++ rest)
  refine ⟨_, inner, he, rfl, ?_, ?_⟩
  · rw [htext, object?, moved, ← hinner, Text.size_append x]
  · rw [htext, hopen, hclose, Text.between_append]

theorem valueStop_le (he : ofPiece? p = some e) : e.valueStop ≤ Text.size p := by
  obtain ⟨front, value, trail, rfl, -, hstop, -⟩ := (shape_of_ofPiece? he).spans
  rw [hstop, Text.size_append _ trail]
  exact Nat.le_add_right _ _

theorem valueStop_le_of_mem : ∀ {ps : List Text} {n : Nat}, e ∈ ofPieces n ps →
    e.valueStop ≤ n + Text.size (ps.flatMap (· ++ [',']))
  | [], _, h => absurd h List.not_mem_nil
  | p :: ps, n, h => by
      have hcomma : Text.size [','] = 1 := rfl
      rw [List.flatMap_cons, Text.size_append, Text.size_append]
      rcases List.mem_append.mp h with h | h
      · obtain ⟨e', he', rfl⟩ := Option.map_eq_some_iff.mp (Option.mem_toList.mp h)
        have hle := valueStop_le he'
        simp only [moved]
        omega
      · have hle := valueStop_le_of_mem h
        omega

theorem value_moved (h : e.valueStop ≤ Text.size p) (x rest : Text) :
    (e.moved (Text.size x)).value (x ++ p ++ rest) = e.value p := by
  rw [value, moved, List.append_assoc, Text.between_append_right, Text.between_append_left h, value]

theorem Shape.value_cut (h : Shape (u ++ tail) e)
    (hu : Shape u { e with valueStop := Text.size u }) :
    ∃ spaces, Spaces spaces ∧
      e.value (u ++ tail) ++ spaces = ({ e with valueStop := Text.size u } : ObjectEntry).value u ++
      tail := by
  obtain ⟨front, value, trail, hcut, hstart, hstop, -, htrail⟩ := h.spans
  obtain ⟨front', value', trail', rfl, hstart', hstop', -, -⟩ := hu.spans
  simp only at hstart' hstop'
  obtain rfl : trail' = [] :=
    Text.eq_nil_of_size (by rw [Text.size_append _ trail'] at hstop'; omega)
  rw [List.append_nil] at hcut ⊢
  obtain ⟨rfl, hrest⟩ : front = front' ∧ value ++ trail = value' ++ tail := by
    rw [List.append_assoc, List.append_assoc] at hcut
    obtain ⟨w, rfl, hw⟩ := Text.exists_middle hcut (by omega)
    obtain rfl : w = [] := Text.eq_nil_of_size (by rw [Text.size_append] at hstart; omega)
    exact ⟨List.append_nil _, hw.symm⟩
  refine ⟨trail, htrail, ?_⟩
  have hold : e.value (front ++ value' ++ tail) = value := by
    rw [hcut, ObjectEntry.value, hstart, hstop, Text.size_append, Text.between_append]
  rw [hold, hrest, ObjectEntry.value, hstart, between_to_end]

end ObjectEntry

/-- Two entries of a key, in two texts, with the same value up to comments and white space behind
it. -/
structure SameEntry (t out : Text) (e e' : ObjectEntry) : Prop where
  key : e'.key = e.key
  value : ∃ spaces tail, Spaces spaces ∧ Idle tail ∧ e.value t ++ spaces = e'.value out ++ tail

theorem ObjectEntry.Shape.sameEntry_cut (h : Shape (u ++ tail) e)
    (hu : Shape u { e with valueStop := Text.size u }) (hle : e.valueStop ≤ Text.size (u ++ tail))
    (htail : Idle tail) (x rest rest' : Text) :
    SameEntry (x ++ (u ++ tail) ++ rest) (x ++ u ++ rest') (e.moved (Text.size x))
      (({ e with valueStop := Text.size u } : ObjectEntry).moved (Text.size x)) := by
  obtain ⟨spaces, hspaces, hvalue⟩ := h.value_cut hu
  refine ⟨rfl, spaces, tail, hspaces, htail, ?_⟩
  rw [value_moved hle, hvalue, value_moved (Nat.le_refl _)]

namespace ObjectLiteral

theorem sameEntry_of_eq (h : e.value t = e.value rest) : SameEntry t rest e e :=
  ⟨rfl, [], [], fun c hc => absurd hc List.not_mem_nil, idle_nil, by rw [h]⟩

theorem unbroken_exchange {ps₁ ps₂ : List Text} (hps : ∀ q ∈ ps₁ ++ p :: ps₂, Unbroken q)
    (hu : Unbroken u) (hv : Unbroken v) : ∀ q ∈ ps₁ ++ u :: v :: ps₂, Unbroken q := by
  simp only [List.forall_mem_append, List.forall_mem_cons] at hps ⊢
  exact ⟨hps.1, hu, hv, hps.2.2⟩

/-- A literal `o` of `t` is read in `out` with one entry more: the entries `es` of `o`, the last one
up to what stands behind its value, and an entry of the key whose value is the literal `v`. -/
structure ReadWith (o : ObjectLiteral) (t out v key : Text) (n : Nat) (o' : ObjectLiteral)
    (es : List ObjectEntry) (new : ObjectEntry) (inner : ObjectLiteral) : Prop where
  read : readAt? out n = some o'
  entries : o'.entries = es ++ [new]
  keys : o'.keys = o.keys ++ [key]
  same : List.Forall₂ (SameEntry t out) o.entries es
  firsts : es.dropLast = o.entries.dropLast
  values : ∀ e ∈ es.dropLast, e.value out = e.value t
  object : new.object? out = some inner
  span : out.between inner.openAt (inner.closeAt + 1) = v

/-- The entry alone between the braces of a literal that has none. -/
theorem readWith_alone (ho : o.entries = []) (hkey : Key written key) (hv : Braced v)
    (t x y : Text) : ∃ o' new inner, ReadWith o t
      (x ++ ofPieces [' ' :: (Spec.entry written v ++ [' '])] ++ y) v key (Text.size x)
      o' [] new inner := by
  have hspace : Spaces [' '] := fun c hc => List.mem_singleton.mp hc ▸ by decide
  have hidle := idle_of_spaces hspace
  have hpiece : ' ' :: (Spec.entry written v ++ [' ']) =
      [' '] ++ Spec.entry written v ++ [' '] := rfl
  obtain ⟨hunbroken, -⟩ := ObjectEntry.ofPiece?_entry hspace hkey hv hidle
  obtain ⟨e, inner, he, hekey, hinner, hspan⟩ :=
    ObjectEntry.exists_entry hspace hkey hv hidle (x ++ ['\x7b']) ('\x7d' :: y)
  have hread := @readAt?_ofPieces [[' '] ++ Spec.entry written v ++ [' ']]
    (List.cons_ne_nil _ _) (fun q hq => List.mem_singleton.mp hq ▸ hunbroken) x y
  have htext : x ++ ofPieces [[' '] ++ Spec.entry written v ++ [' ']] ++ y =
      x ++ ['\x7b'] ++ ([' '] ++ Spec.entry written v ++ [' ']) ++ '\x7d' :: y := by
    simp [ofPieces, joined]
  have hsize : Text.size x + 1 = Text.size (x ++ ['\x7b']) := by
    rw [Text.size_append]
    rfl
  rw [hpiece]
  refine ⟨_, e.moved (Text.size (x ++ ['\x7b'])), inner, hread, ?_, ?_, by rw [ho]; exact .nil,
    by rw [ho], fun _ h => absurd h List.not_mem_nil, by rw [htext, hinner], by rw [htext, hspan]⟩
  · simp only [ObjectEntry.ofPieces, he, hsize]
    rfl
  · simp only [keys, ObjectEntry.ofPieces, he, ho, ← hekey]
    rfl

/-- The entry behind the part `u` of the piece of the last entry, which ends with the last character
of its value that counts. -/
theorem readWith_behind (ho : o.entries = ObjectEntry.ofPieces (Text.size x + 1)
      (ps₁ ++ (u ++ tail) :: ps₂)) (hps : ∀ p ∈ ps₁ ++ (u ++ tail) :: ps₂, Unbroken p)
    (he : ObjectEntry.ofPiece? (u ++ tail) = some e) (hu : Unbroken u) (htail : Idle tail)
    (hshape : ObjectEntry.Shape u { e with valueStop := Text.size u })
    (hnone : ∀ q ∈ ps₂, ObjectEntry.ofPiece? q = none)
    (hlead : Spaces lead) (hkey : Key written key) (hv : Braced v) (y : Text) :
    ∃ o' es new inner, ReadWith o (x ++ ofPieces (ps₁ ++ (u ++ tail) :: ps₂) ++ y)
      (x ++ ofPieces (ps₁ ++ u :: (lead ++ Spec.entry written v ++ tail) :: ps₂) ++ y) v key
      (Text.size x) o' es new inner := by
  obtain ⟨before, behind, haround, hsize, -⟩ := exists_around x ps₁ ps₂ y
  have htext : x ++ ofPieces (ps₁ ++ u :: (lead ++ Spec.entry written v ++ tail) :: ps₂) ++ y =
      before ++ u ++ [','] ++ (lead ++ Spec.entry written v ++ tail) ++ behind := by
    rw [ofPieces_comma, haround]
    simp
  have hpart : Text.size before + Text.size u + 1 = Text.size (before ++ u ++ [',']) := by
    rw [Text.size_append, Text.size_append]
    rfl
  obtain ⟨hunbroken, -⟩ := ObjectEntry.ofPiece?_entry hlead hkey hv htail
  obtain ⟨new, inner, hnew, hnewKey, hinner, hspan⟩ :=
    ObjectEntry.exists_entry hlead hkey hv htail (before ++ u ++ [',']) behind
  have hread := @readAt?_ofPieces (ps₁ ++ u :: (lead ++ Spec.entry written v ++ tail) :: ps₂)
    (by simp) (unbroken_exchange hps hu hunbroken) x y
  -- the entries in front, the last one and the new one
  obtain ⟨as, has⟩ : ∃ as, as = ObjectEntry.ofPieces (Text.size x + 1) ps₁ := ⟨_, rfl⟩
  have hes : o.entries = as ++ [e.moved (Text.size before)] := by
    rw [ho, has, ObjectEntry.ofPieces_last he hnone, ← hsize]
  have hnews : ObjectEntry.ofPieces (Text.size x + 1)
      (ps₁ ++ u :: (lead ++ Spec.entry written v ++ tail) :: ps₂) =
      as ++ [({ e with valueStop := Text.size u } : ObjectEntry).moved (Text.size before)] ++
        [new.moved (Text.size (before ++ u ++ [',']))] := by
    rw [has, ObjectEntry.ofPieces_append, ObjectEntry.ofPieces, ← hsize, hshape.ofPiece?_eq, hpart,
      ObjectEntry.ofPieces, hnew, ObjectEntry.ofPieces_of_none hnone]
    simp
  have hvalues : ∀ e' ∈ as, e'.value (before ++ u ++ [','] ++
      (lead ++ Spec.entry written v ++ tail) ++ behind) =
        e'.value (before ++ (u ++ tail) ++ behind) := fun e' he' => by
    have hle := ObjectEntry.valueStop_le_of_mem (has ▸ he')
    rw [← hsize] at hle
    simp only [ObjectEntry.value, List.append_assoc, Text.between_append_left hle]
  rw [htext] at hread
  rw [htext, haround]
  refine ⟨_, _, _, inner, hread, hnews, ?_, ?_, ?_, ?_, hinner, hspan⟩
  · simp only [keys, hnews, hes, ← hnewKey]
    simp [ObjectEntry.moved]
  · rw [hes]
    refine List.rel_append
      (List.forall₂_same.mpr fun e' he' => sameEntry_of_eq (hvalues e' he').symm) (.cons ?_ .nil)
    have hcut := (ObjectEntry.shape_of_ofPiece? he).sameEntry_cut hshape
      (ObjectEntry.valueStop_le he) htail before behind
      ([','] ++ (lead ++ Spec.entry written v ++ tail) ++ behind)
    simpa only [List.append_assoc] using hcut
  · rw [hes, List.dropLast_concat, List.dropLast_concat]
  · rw [List.dropLast_concat]
    exact hvalues

/-- A new entry is read back behind the others, which keep their keys and their values up to
comments and white space behind the last one. -/
theorem readAt?_insertEntry (ho : readAt? t n = some o)
    (hbalanced : balanced (t.between (o.openAt + 1) o.closeAt) = true) (hcut : o.Undivided t)
    (hlast : ∀ last ∈ o.entries.getLast?, (behindValue? t last).isSome = true)
    (hkey : IsKeyName key ∧ written = key ∨ written = Quoted.encode key)
    (hv : balanced v = true) (hhead : v.head? = some '\x7b')
    (hclose : matchingClose? v 0 = some (Text.size v - 1)) :
    ∃ o' es new inner, readAt? (o.insertEntry t (Spec.entry written v)) n = some o' ∧
      o'.entries = es ++ [new] ∧ o'.keys = o.keys ++ [key] ∧
      List.Forall₂ (SameEntry t (o.insertEntry t (Spec.entry written v))) o.entries es ∧
      es.dropLast = o.entries.dropLast ∧
      (∀ e ∈ es.dropLast, e.value (o.insertEntry t (Spec.entry written v)) = e.value t) ∧
      new.object? (o.insertEntry t (Spec.entry written v)) = some inner ∧
      (o.insertEntry t (Spec.entry written v)).between inner.openAt (inner.closeAt + 1) = v := by
  have hbraced := braced_of_balanced hv hhead hclose
  have hkey : Key written key := by
    rcases hkey with ⟨hname, rfl⟩ | rfl
    · exact .name hname
    · exact .encode key
  obtain ⟨x, ps, y, rfl, rfl, hne, hps⟩ := exists_pieces ho hbalanced hcut
  have hread : ∃ o' es new inner, ReadWith o (x ++ ofPieces ps ++ y)
      (o.insertEntry (x ++ ofPieces ps ++ y) (Spec.entry written v)) v key (Text.size x)
      o' es new inner := by
    rcases exists_insertEntry hps ho hne (Spec.entry written v) with
      ⟨hnone, hout⟩ | ⟨ps₁, u, tail, ps₂, e, lead, rfl, he, hu, htail, hshape, hnone, hlead, hout⟩
    · -- the literal has no entries, for the last one would have a value
      have hnil : o.entries = [] := by
        rw [← List.getLast?_eq_none_iff, Option.eq_none_iff_forall_ne_some]
        intro last hl
        have hsome := hlast last hl
        rw [hnone last hl] at hsome
        cases hsome
      rw [hout]
      obtain ⟨o', new, inner, h⟩ := readWith_alone hnil hkey hbraced (x ++ ofPieces ps ++ y) x y
      exact ⟨o', [], new, inner, h⟩
    · rw [hout]
      rw [readAt?_ofPieces hne hps] at ho
      exact readWith_behind (Option.some.inj ho ▸ rfl) hps he hu htail hshape hnone hlead hkey
        hbraced y
  obtain ⟨o', es, new, inner, h⟩ := hread
  exact ⟨o', es, new, inner, h.read, h.entries, h.keys, h.same, h.firsts, h.values, h.object,
    h.span⟩

/-- A literal with a comma in a group in a template, a comment and a spread. -/
def spread : Text :=
  "const o = \x7b a: 1, b: \x60$\x7bf(x, y)\x7d // z\x60 /* c */, ...rest \x7d;".toList

theorem readAt?_insertEntry_spread :
    ∃ o, readAt? spread 10 = some o ∧ o.keys = ["a".toList, "b".toList] ∧ o.Undivided spread ∧
      ∃ o' inner : ObjectLiteral,
      readAt? (o.insertEntry spread (Spec.entry "k".toList "\x7b l: 2 \x7d".toList)) 10 = some o' ∧
        o'.keys = ["a".toList, "b".toList, "k".toList] ∧
        (o.insertEntry spread (Spec.entry "k".toList "\x7b l: 2 \x7d".toList)).between inner.openAt
          (inner.closeAt + 1) = "\x7b l: 2 \x7d".toList := by
  obtain ⟨o, ho⟩ : ∃ o, readAt? spread 10 = some o := Option.isSome_iff_exists.mp (by decide)
  have hat : ∀ o ∈ readAt? spread 10, o.keys = ["a".toList, "b".toList] ∧ o.Undivided spread ∧
      balanced (spread.between (o.openAt + 1) o.closeAt) = true ∧
      ∀ last ∈ o.entries.getLast?, (behindValue? spread last).isSome = true := by decide
  obtain ⟨hkeys, hcut, hbalanced, hlast⟩ := hat o ho
  obtain ⟨o', es, new, inner, ho', -, hkeys', -, -, -, -, hinner⟩ :=
    @readAt?_insertEntry _ "\x7b l: 2 \x7d".toList _ "k".toList _ _ ho hbalanced hcut hlast
      (.inl ⟨⟨by decide, by decide⟩, rfl⟩) (by decide) (by decide) (by decide)
  exact ⟨o, ho, hkeys, hcut, o', inner, ho', by rw [hkeys', hkeys]; rfl, hinner⟩

/-- A template in whose region a comma stands in no group. -/
def divided : Text := "const o = \x7b a: \x60$\x7bx, b: y\x7d // z\x60 \x7d;".toList

/-- The comma in the region is taken for the end of a piece, and what follows the region for a
comment. -/
theorem not_always_appended :
    ¬ ∀ (t v written key : Text) (n : Nat) (o : ObjectLiteral), readAt? t n = some o →
      balanced (t.between (o.openAt + 1) o.closeAt) = true →
      (∀ last ∈ o.entries.getLast?, (behindValue? t last).isSome = true) →
      (IsKeyName key ∧ written = key ∨ written = Quoted.encode key) →
      balanced v = true → v.head? = some '\x7b' → matchingClose? v 0 = some (Text.size v - 1) →
        ∃ o', readAt? (o.insertEntry t (Spec.entry written v)) n = some o' ∧
        o'.keys = o.keys ++ [key] := by
  intro h
  obtain ⟨o, ho⟩ : ∃ o, readAt? divided 10 = some o := Option.isSome_iff_exists.mp (by decide)
  have hat : ∀ o ∈ readAt? divided 10, balanced (divided.between (o.openAt + 1) o.closeAt) = true ∧
      (∀ last ∈ o.entries.getLast?, (behindValue? divided last).isSome = true) ∧
      ∀ o' ∈ readAt? (o.insertEntry divided (Spec.entry "k".toList "\x7b\x7d".toList)) 10,
        o'.keys ≠ o.keys ++ ["k".toList] := by decide
  obtain ⟨hbalanced, hlast, hkeys⟩ := hat o ho
  obtain ⟨o', ho', hkeys'⟩ :=
    h divided "\x7b\x7d".toList "k".toList "k".toList 10 o ho hbalanced hlast
    (.inl ⟨⟨by decide, by decide⟩, rfl⟩) (by decide) (by decide) (by decide)
  exact hkeys o' ho' hkeys'

end ObjectLiteral

end ServiceGate
