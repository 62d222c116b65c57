/-
# One entry and its piece

What a piece is read as by itself is told by what it is made of (`Shape`): comments and white space,
a key, and then a colon with a value, a parenthesis, or nothing.  Up to its value a piece is smooth,
so the value can be exchanged (`Opening.ofPiece?_eq`).  Behind the last character of the value that
counts the piece can be cut: what is in front is a piece with the same key (`Shape.cut`), and what
is behind it is comments and white space.

`Shape` is the inverse of the reader, and the two directions are shown apart: a piece of a shape is
read as its entry (`Shape.ofPiece?_eq`), and what is read as an entry has a shape
(`shape_of_ofPiece?`).  A key is a name or a quoted text; a quoted key ends at its quote even if the
scanner sees the string end elsewhere, which it does not (`exists_quotedBody`).
-/
import ServiceGate.Proofs.ObjectLiteral.Layout
import ServiceGate.Proofs.ObjectLiteral.Pieces
import ServiceGate.Proofs.ObjectLiteral.Uncommented
import ServiceGate.Proofs.Scan.Idle
import ServiceGate.ObjectLiteral.Insert

namespace ServiceGate

open Scan

variable {t u p g w z rest written key front : Text} {s s' : State}
  {n k m keyAt behindKey stop a b : Nat}
  {c quote : Char} {ms : List Mark} {e : ObjectEntry} {o : ObjectLiteral}

/-! ## White space at the ends -/

/-- Nothing but white space. -/
def Spaces (t : Text) : Prop := ∀ c ∈ t, CharClass.isSpace c = true

/-- The text does not start with white space. -/
def Headed (t : Text) : Prop := ∀ c ∈ t.head?, CharClass.isSpace c = false

theorem trimStart_spaces (h : Spaces t) (hu : Headed u) : (t ++ u).trimStart = u := by
  rw [Text.trimStart, List.dropWhile_append_of_pos h]
  cases u with
  | nil => rfl
  | cons c u => exact trimStart_head (hu c rfl)

theorem exists_trimStart (t : Text) : ∃ u, t = u ++ t.trimStart ∧ Spaces u ∧
    Headed t.trimStart := by
  refine ⟨t.takeWhile CharClass.isSpace, List.takeWhile_append_dropWhile.symm,
    fun c hc => List.mem_takeWhile_imp hc, fun c hc => ?_⟩
  have hhead := List.head?_dropWhile_not CharClass.isSpace t
  rwa [← Text.trimStart, Option.mem_def.mp hc] at hhead

theorem exists_trimEnd (t : Text) : ∃ u, t = t.trimEnd ++ u ∧ Spaces u := by
  refine ⟨(t.reverse.takeWhile CharClass.isSpace).reverse, ?_, fun c hc =>
    List.mem_takeWhile_imp (List.mem_reverse.mp hc)⟩
  rw [Text.trimEnd, Text.trimEndWhere, ← List.reverse_append, List.takeWhile_append_dropWhile,
    List.reverse_reverse]

theorem trimEnd_last (hc : CharClass.isSpace c = false) (w : Text) :
    Text.trimEnd (w ++ [c]) = w ++ [c] := by
  have h := @trimEnd_append w [] _ hc (fun c hc => absurd hc List.not_mem_nil)
  rwa [List.append_nil] at h

/-! ## Keys -/

/-- A key and the way it is written: it is read back in front of what is no part of a name, and so
is the state, and its last mark counts. -/
structure Key (written key : Text) : Prop where
  readKey? : ∀ rest, (∀ c ∈ rest.head?, CharClass.isName c = false) →
    ObjectEntry.readKey? (written ++ rest) = some (key, Text.size written)
  head : ∃ c w, written = c :: w ∧ CharClass.isSpace c = false ∧ c ≠ '/' ∧ c ≠ '\x7b'
  reads : ∀ (rest : Text) (s : State) (n : Nat), s.Agrees .start → ∃ ms m s',
    Reads rest s n written (ms ++ [m]) s' ∧ s'.Agrees .start ∧
      (∀ d : Depths, d.within (codeText (ms ++ [m])) = some d) ∧ ¬ m.Idle

theorem Key.smooth (h : Key written key) : Smooth written := by
  intro rest s n hs
  obtain ⟨ms, m, s', hms, hs', hd, -⟩ := h.reads rest s n hs
  exact ⟨_, s', hms, hs', hd⟩

theorem smooth_of_soft (h : ∀ c ∈ t, isSoft c = true) : Smooth t := by
  induction t with
  | nil => exact .nil
  | cons c t ih =>
      obtain ⟨hc, ht⟩ := List.forall_mem_cons.mp h
      obtain ⟨hq, hp, hcomma, hslash⟩ := isSoft_iff.mp hc
      exact Smooth.append (t := [c]) (.plain hq hp hslash hcomma) (ih ht)

theorem Key.name (h : IsKeyName key) : Key key key where
  readKey? rest hrest := by
    obtain ⟨c, w, rfl⟩ := List.exists_cons_of_ne_nil h.ne_nil
    obtain ⟨hc, -⟩ := List.forall_mem_cons.mp h.chars
    have hquote : (c == '\'' || c == '"') = false := by
      simp only [Bool.or_eq_false_iff, beq_eq_false_iff_ne]
      exact ⟨CharClass.isName_ne hc (by decide), CharClass.isName_ne hc (by decide)⟩
    have htake : (c :: w ++ rest).takeWhile CharClass.isName = c :: w := by
      rw [List.takeWhile_append_of_pos h.chars]
      cases rest with
      | nil => exact List.append_nil _
      | cons d rest =>
          rw [List.takeWhile_cons_of_neg (by rw [hrest d rfl]; exact Bool.false_ne_true),
            List.append_nil]
    rw [List.cons_append, ObjectEntry.readKey?, hquote, hc, ← List.cons_append, htake]
    rfl
  head := by
    obtain ⟨c, w, rfl⟩ := List.exists_cons_of_ne_nil h.ne_nil
    have hc := h.chars c List.mem_cons_self
    refine ⟨c, w, rfl, ?_, CharClass.isName_ne hc (by decide), CharClass.isName_ne hc (by decide)⟩
    by_contra hspace
    rw [CharClass.isName_of_isSpace (Bool.not_eq_false _ ▸ hspace)] at hc
    cases hc
  reads rest s n hs := by
    obtain ⟨w, c, rfl⟩ := List.eq_nil_or_concat key |>.resolve_left h.ne_nil
    have hc : CharClass.isName c = true := h.chars c (by simp)
    obtain ⟨hq, hp, hcomma, hslash⟩ := isSoft_iff.mp (isSoft_of_isName hc)
    obtain ⟨ms, s', hms, hs', hd⟩ :=
      smooth_of_soft (t := w) (fun d hd => isSoft_of_isName (h.chars d (by simp [hd])))
      ([c] ++ rest) s n hs
    have hstep : s'.step c rest.head? = _ :=
      State.step_plain hs'.1 hs'.2 hq (by simp [opensComment, hslash])
    refine ⟨ms, _, s', List.concat_eq_append ▸ hms.append (.one hstep .nil), hs', fun d => ?_, ?_⟩
    · rw [codeText_append, Depths.within_append, hd, Option.bind_some, codeText_cons, if_pos rfl,
        Depths.within_cons fun h => hcomma h.1, Depths.track_plain hp]
      rfl
    · rintro (hk | hspace)
      · cases hk
      · rw [CharClass.isName_of_isSpace hspace] at hc
        cases hc

theorem exists_quotedBody (h : Quoted.decodeRest? quote n t = some (key, m)) :
    ∃ b v, t = b ++ quote :: v ∧ m = n + Text.size b + quote.utf8Size ∧ QuotedBody quote b ∧
      ∀ rest, Quoted.decodeRest? quote n (b ++ quote :: rest) = some (key, m) := by
  fun_induction Quoted.decodeRest? quote n t generalizing key m with
  | case1 => cases h
  | case2 => cases h
  | case3 n c hc d rest ih =>
      obtain ⟨⟨k, m'⟩, hr, hm⟩ := Option.map_eq_some_iff.mp h
      obtain ⟨rfl, rfl⟩ := Prod.mk.inj hm
      obtain ⟨b, v, rfl, rfl, hb, hread⟩ := ih hr
      obtain rfl := beq_iff_eq.mp hc
      refine ⟨'\\' :: d :: b, v, rfl, by simp only [Text.size]; omega, .escape hb, fun rest => ?_⟩
      rw [List.cons_append, List.cons_append, Quoted.decodeRest?, if_pos hc, hread]
      rfl
  | case4 n c rest hc hquote =>
      obtain ⟨rfl, rfl⟩ := Prod.mk.inj (Option.some.inj h)
      obtain rfl := beq_iff_eq.mp hquote
      refine ⟨[], rest, rfl, rfl, .nil, fun rest => ?_⟩
      rw [List.nil_append, Quoted.decodeRest?_of_ne hc, if_pos hquote]
  | case5 n c rest hc hquote ih =>
      obtain ⟨⟨k, m'⟩, hr, hm⟩ := Option.map_eq_some_iff.mp h
      obtain ⟨rfl, rfl⟩ := Prod.mk.inj hm
      obtain ⟨b, v, rfl, rfl, hb, hread⟩ := ih hr
      refine ⟨c :: b, v, rfl, by simp only [Text.size]; omega,
        .char (fun h => hquote (beq_iff_eq.mpr h)) (fun h => hc (beq_iff_eq.mpr h)) hb, fun rest =>
        ?_⟩
      rw [List.cons_append, Quoted.decodeRest?_of_ne hc, if_neg hquote, hread]
      rfl

theorem exists_key (h : ObjectEntry.readKey? t = some (key, k)) :
    ∃ written rest, t = written ++ rest ∧ k = Text.size written ∧ Key written key := by
  cases t with
  | nil => cases h
  | cons c t =>
      rw [ObjectEntry.readKey?] at h
      split_ifs at h with hquote hname
      · obtain ⟨b, v, rfl, rfl, hb, hread⟩ := exists_quotedBody h
        have hkey : ∀ rest, ObjectEntry.readKey? (c :: (b ++ [c]) ++ rest) =
            some (key, Text.size (c :: (b ++ [c]))) := fun rest => by
          have hrest : c :: (b ++ [c]) ++ rest = c :: (b ++ c :: rest) := by simp
          rw [hrest, ObjectEntry.readKey?, if_pos hquote, Quoted.decode?, hread]
          simp only [Text.size, Text.size_append, Option.some.injEq, Prod.mk.injEq, true_and]
          omega
        have hq : isQuote c = true ∧ c ≠ '\x60' ∧ c ≠ '\\' ∧ CharClass.isSpace c = false ∧ c ≠ '/' ∧
            c ≠ '\x7b' := by
          rw [Bool.or_eq_true, beq_iff_eq, beq_iff_eq] at hquote
          rcases hquote with rfl | rfl <;> decide
        obtain ⟨hq₁, hq₂, hq₃, hspace, hslash, hbrace⟩ := hq
        refine ⟨c :: (b ++ [c]), v,
          by simp, ?_, ⟨fun rest _ => hkey rest, ⟨c, _, rfl, hspace, hslash, hbrace⟩,
          fun rest s n hs => ?_⟩⟩
        · simp only [Text.size, Text.size_append]
          omega
        · obtain ⟨mode, regions, last⟩ := s
          obtain ⟨rfl, rfl⟩ := hs
          refine ⟨⟨n, c, .literal⟩ :: literals (n + c.utf8Size) b, _, ⟨.code, [], some c⟩,
            .one (step_quote hq₁) ((hb.reads hq₂ ([c] ++ rest) [] (some c) _).append
              (.one (step_string_close hq₃) .nil)), ⟨rfl, rfl⟩, fun d => ?_, ?_⟩
          · have hnone : codeText (⟨n, c, .literal⟩ :: literals (n + c.utf8Size) b ++
                [⟨n + c.utf8Size + Text.size b, c, .literal⟩]) = [] := by
              rw [codeText, codeOf_append, codeOf_cons_literal, codeOf_literals]
              rfl
            rw [hnone]
            rfl
          · rintro (hk | hs)
            · cases hk
            · rw [hspace] at hs
              cases hs
      · obtain ⟨rfl, rfl⟩ := Prod.mk.inj (Option.some.inj h)
        have hwritten : (c :: t).takeWhile CharClass.isName ≠ [] := by
          rw [List.takeWhile_cons_of_pos hname]
          exact List.cons_ne_nil _ _
        exact ⟨_, (c :: t).dropWhile CharClass.isName, List.takeWhile_append_dropWhile.symm, rfl,
          .name ⟨hwritten, fun d hd => List.mem_takeWhile_imp hd⟩⟩

theorem Key.encode (key : Text) : Key (Quoted.encode key) key := by
  have hread : ObjectEntry.readKey? (Quoted.encode key) =
      some (key, Text.size (Quoted.encode key)) := by
    have hdecode := Quoted.decode?_encode key []
    rw [List.append_nil] at hdecode
    exact hdecode
  obtain ⟨written, rest, hcut, hsize, hkey⟩ := exists_key hread
  have hrest : rest = [] := by
    have := congrArg Text.size hcut
    rw [Text.size_append] at this
    exact Text.eq_nil_of_size (by omega)
  rw [hrest, List.append_nil] at hcut
  rwa [hcut]

/-! ## What a piece is made of -/

namespace ObjectEntry

/-- What stands in front of a value that follows a colon: comments and white space, the key, and the
colon with white space around it. -/
inductive Opening : Text → Text → Nat → Prop
  | mk {g written key s s' : Text} : Idle g → Key written key → Spaces s → Spaces s' →
      Opening (g ++ (written ++ (s ++ ':' :: s'))) key (Text.size g)

/-- A piece and the entry that it holds: a value behind a colon, a key that stands for itself, or a
method. -/
inductive Shape : Text → ObjectEntry → Prop
  | field {front key z : Text} {keyAt : Nat} : Opening front key keyAt → Headed z →
      Shape (front ++ z) ⟨key, keyAt, Text.size front, Text.size (front ++ z.trimEnd)⟩
  | shorthand {g written key s : Text} : Idle g → Key written key → Spaces s →
      Shape (g ++ (written ++ s)) ⟨key, Text.size g, Text.size g, Text.size (g ++ written)⟩
  | method {g written key s r : Text} : Idle g → Key written key → Spaces s →
      Shape (g ++ (written ++ (s ++ '(' :: r)))
        ⟨key, Text.size g, Text.size (g ++ written),
          Text.size (g ++ (written ++ (s ++ '(' :: r).trimEnd))⟩

theorem isName_head_of_spaces {d : Char} {r : Text} (hs : Spaces t)
    (hd : CharClass.isName d = false) :
    ∀ c ∈ (t ++ d :: r).head?, CharClass.isName c = false := by
  intro c hc
  cases t with
  | nil => exact Option.some.inj hc ▸ hd
  | cons e t => exact Option.some.inj hc ▸ CharClass.isName_of_isSpace (hs e List.mem_cons_self)

/-- What a piece is read as behind the comments and the white space that it opens with. -/
theorem ofPiece?_lead {d : Char} (hg : Idle g) (hd : CharClass.isSpace d = false)
    (hslash : opensComment d w.head? = false) :
    ofPiece? (g ++ d :: w) = (readKey? (d :: w)).bind fun key =>
      (valueSpan? (Text.size g) (Text.size g + key.2) (Text.size (g ++ d :: w))
        (Text.between (d :: w) key.2 (Text.size (d :: w)))).map fun x =>
        ⟨key.1, Text.size g, x.1, x.2⟩ := by
  have hpos := d.utf8Size_pos
  have hsize : Text.size (g ++ d :: w) = Text.size g + Text.size (d :: w) := Text.size_append _ _
  refine read?_of_cut (r := []) (by rw [List.append_nil]) hsize ?_
  obtain ⟨ms, s, hms, hs, hidle⟩ := hg.reads (s := .start) ⟨rfl, rfl⟩ (d :: w) 0
  obtain ⟨hkind, hone⟩ := State.step_first hs hslash
  have hskip : ∀ {ms more : List Mark}, (∀ m ∈ ms, m.Idle) →
      (∀ m ∈ ms, m.offset < Text.size (g ++ d :: w)) →
      firstSignificant (Text.size (g ++ d :: w)) (ms ++ more) =
        firstSignificant (Text.size (g ++ d :: w)) more := by
    intro ms more hms hlt
    induction ms with
    | nil => rfl
    | cons m ms ih =>
        obtain ⟨hm, hms⟩ := List.forall_mem_cons.mp hms
        obtain ⟨hm', hlt⟩ := List.forall_mem_cons.mp hlt
        rw [List.cons_append, firstSignificant_cons, if_pos hm', if_neg, ih hms hlt]
        rintro ⟨hk, hc⟩
        rcases hm with hm | hm
        · exact hk hm
        · rw [hc] at hm
          cases hm
  rw [firstSignificant?, marks_zero, hms.marksFrom_eq,
    ← firstSignificant, Nat.zero_add]
  rw [hskip hidle fun m hm => by
      have := offset_lt_of_reads hms m hm
      omega, marksFrom_one _ hone, firstSignificant_cons,
        if_pos (by rw [hsize, Text.size]; simp only; omega),
    if_pos ⟨hkind, hd⟩]

theorem valueSpan?_colon (keyAt behindKey stop : Nat) (ht : Spaces t) (hu : Spaces u)
    (hz : Headed z) :
    valueSpan? keyAt behindKey stop (t ++ ':' :: (u ++ z)) =
      some (stop - Text.size z, stop - Text.size z + Text.size z.trimEnd) := by
  have hcolon : Headed (':' :: (u ++ z)) := fun c hc => Option.some.inj hc ▸ by decide
  rw [valueSpan?, trimStart_spaces ht hcolon]
  simp only [trimStart_spaces hu hz]

theorem valueSpan?_paren (keyAt behindKey stop : Nat) (ht : Spaces t) :
    valueSpan? keyAt behindKey stop (t ++ '(' :: u) =
      some (behindKey, behindKey + Text.size (t ++ '(' :: u).trimEnd) := by
  have hparen : Headed ('(' :: u) := fun c hc => Option.some.inj hc ▸ by decide
  rw [valueSpan?, trimStart_spaces ht hparen]
  rfl

theorem valueSpan?_spaces (keyAt behindKey stop : Nat) (ht : Spaces t) :
    valueSpan? keyAt behindKey stop t = some (keyAt, behindKey) := by
  have htrim := trimStart_spaces ht (u := []) fun c hc => by cases hc
  rw [List.append_nil] at htrim
  rw [valueSpan?, htrim]

/-- A piece of a shape is read as the entry. -/
theorem Shape.ofPiece?_eq (h : Shape p e) : ofPiece? p = some e := by
  have hread : ∀ {g written key r : Text}, Idle g → Key written key →
      (∀ c ∈ r.head?, CharClass.isName c = false) → ofPiece? (g ++ (written ++ r)) =
        (valueSpan? (Text.size g) (Text.size (g ++ written)) (Text.size (g ++ (written ++ r)))
          r).map
          fun x => ⟨key, Text.size g, x.1, x.2⟩ := by
    intro g written key r hg hkey hr
    obtain ⟨d, w, rfl, hd, hslash, -⟩ := hkey.head
    rw [List.cons_append, ofPiece?_lead hg hd (by simp [opensComment, hslash]), ← List.cons_append,
      hkey.readKey? r hr, Option.bind_some, between_to_end, Text.size_append g (d :: w)]
  cases h with
  | @field front key z keyAt hfront hz =>
      obtain ⟨hg, hkey, hs, hs'⟩ := hfront
      rename_i g written s s'
      have htext : g ++ (written ++ (s ++ ':' :: s')) ++ z = g ++
          (written ++ (s ++ ':' :: (s' ++ z))) := by simp
      rw [htext, hread hg hkey (isName_head_of_spaces hs (by decide)),
        valueSpan?_colon _ _ _ hs hs' hz, ← htext]
      simp only [Option.map_some, Text.size_append _ z, Text.size_append _ z.trimEnd,
        Nat.add_sub_cancel]
  | @shorthand g written key s hg hkey hs =>
      have hhead : ∀ c ∈ s.head?, CharClass.isName c = false := fun c hc =>
        CharClass.isName_of_isSpace (hs c (List.mem_of_mem_head? hc))
      rw [hread hg hkey hhead, valueSpan?_spaces _ _ _ hs]
      rfl
  | @method g written key s r hg hkey hs =>
      rw [hread hg hkey (isName_head_of_spaces hs (by decide)), valueSpan?_paren _ _ _ hs]
      simp only [Option.map_some, Text.size_append, Nat.add_assoc]

theorem exists_of_valueSpan? {x : Nat × Nat} (h : valueSpan? keyAt behindKey stop t = some x) :
    (∃ s s' z, t = s ++ ':' :: (s' ++ z) ∧ Spaces s ∧ Spaces s' ∧ Headed z) ∨ Spaces t ∨
      ∃ s r, t = s ++ '(' :: r ∧ Spaces s := by
  obtain ⟨s, hcut, hs, -⟩ := exists_trimStart t
  rw [valueSpan?] at h
  split at h
  · next hnil =>
      rw [hnil, List.append_nil] at hcut
      exact .inr (.inl (hcut ▸ hs))
  · next after hcolon =>
      obtain ⟨s', hafter, hs', hz⟩ := exists_trimStart after
      rw [hcolon] at hcut
      exact .inl ⟨s, s', _, by rw [← hafter]; exact hcut, hs, hs', hz⟩
  · next hparen =>
      rw [hparen] at hcut
      exact .inr (.inr ⟨s, _, hcut, hs⟩)
  · cases h

theorem shape_of_ofPiece? (h : ofPiece? p = some e) : Shape p e := by
  have hfirst : ∃ k, firstSignificant? p 0 (Text.size p) = some k := by
    rw [ofPiece?, read?] at h
    obtain ⟨k, hk, -⟩ := Option.bind_eq_some_iff.mp h
    exact ⟨k, hk⟩
  have hreads : Reads [] .start 0 p (marksFrom .start 0 p) (State.start.after p) :=
    reads_of_last p 0 fun _ _ _ _ => rfl
  obtain ⟨k, hk⟩ := hfirst
  rw [firstSignificant?, marks_zero] at hk
  obtain ⟨m, hm, -⟩ := Option.map_eq_some_iff.mp hk
  have hne : ∃ m ∈ marksFrom .start 0 p, ¬ m.Idle :=
    ⟨m, (List.takeWhile_prefix _).subset (List.mem_of_find?_eq_some hm),
      Mark.not_idle_iff.mpr (by have hfound := List.find?_some hm; exact hfound)⟩
  obtain ⟨g, d, w, ms₁, m, ms₂, σ, rfl, -, hidle, hcount, -, rfl, hg, hσ, hkind⟩ :=
    hreads.cut_first rfl hne
  have hg : Idle g := hg.idle ⟨rfl, rfl⟩ hσ hidle
  obtain ⟨hcode, hspace⟩ := not_or.mp hcount
  have hopens : opensComment m.char w.head? = false := by
    by_contra hopen
    simp only [opensComment, Bool.not_eq_false, Bool.and_eq_true, Bool.or_eq_true, beq_iff_eq]
      at hopen
    obtain ⟨mode, regions, last⟩ := σ
    obtain rfl : mode = .code := hσ
    rw [List.append_nil] at hkind
    obtain ⟨hslash, hnext | hnext⟩ :=
      hopen <;> rw [hslash, hnext] at hkind <;> exact hcode hkind.symm
  have hread := ofPiece?_lead hg (Bool.not_eq_true _ ▸ hspace) hopens
  rw [h] at hread
  obtain ⟨⟨key, k⟩, hfound, hvalue⟩ := Option.bind_eq_some_iff.mp hread.symm
  obtain ⟨x, hx, -⟩ := Option.map_eq_some_iff.mp hvalue
  obtain ⟨written, r, hcut, rfl, hkey⟩ := exists_key hfound
  rw [hcut, between_to_end] at hx
  rw [hcut] at h ⊢
  -- the piece has a shape, and that is read as one entry only
  suffices hshape : ∃ e', Shape (g ++ (written ++ r)) e' by
    obtain ⟨e', hshape⟩ := hshape
    obtain rfl : e' = e := Option.some.inj (hshape.ofPiece?_eq.symm.trans h)
    exact hshape
  rcases exists_of_valueSpan? hx with ⟨s, s', z, rfl, hs, hs', hz⟩ | hs | ⟨s, r, rfl, hs⟩
  · have hfield := Shape.field (.mk hg hkey hs hs') hz
    exact ⟨_, by simpa using hfield⟩
  · exact ⟨_, .shorthand hg hkey hs⟩
  · exact ⟨_, .method hg hkey hs⟩

/-! ## Up to the value and behind it -/

theorem Opening.smooth (h : Opening front key keyAt) : Smooth front := by
  obtain ⟨hg, hkey, hs, hs'⟩ := h
  exact hg.smooth.append (hkey.smooth.append ((idle_of_spaces hs).smooth.append
    (Smooth.append (t := [':']) (.plain rfl rfl (by decide) (by decide))
      (idle_of_spaces hs').smooth)))

theorem Opening.ofPiece?_eq (h : Opening front key keyAt) (hz : Headed z) : ofPiece? (front ++ z) =
    some ⟨key, keyAt, Text.size front, Text.size (front ++ z.trimEnd)⟩ :=
  (Shape.field h hz).ofPiece?_eq

theorem Shape.spans (h : Shape p e) : ∃ front value trail, p = front ++ value ++ trail ∧
    e.valueStart = Text.size front ∧ e.valueStop = Text.size (front ++ value) ∧ Smooth front ∧
      Spaces trail := by
  cases h with
  | @field front key z keyAt hfront hz =>
      obtain ⟨trail, hcut, htrail⟩ := exists_trimEnd z
      exact ⟨front, z.trimEnd, trail,
        by rw [List.append_assoc, ← hcut], rfl, rfl, hfront.smooth, htrail⟩
  | @shorthand g written key s hg hkey hs =>
      exact ⟨g, written, s, by simp, rfl, rfl, hg.smooth, hs⟩
  | @method g written key s r hg hkey hs =>
      obtain ⟨trail, hcut, htrail⟩ := exists_trimEnd (s ++ '(' :: r)
      refine ⟨g ++ written, (s ++ '(' :: r).trimEnd, trail, ?_, rfl, by rw [List.append_assoc],
        hg.smooth.append hkey.smooth, htrail⟩
      rw [List.append_assoc, ← hcut, List.append_assoc]

theorem Shape.opening_of_head (h : Shape p e) (hhead : (p.after e.valueStart).head? = some '\x7b') :
    ∃ front w, p = front ++ '\x7b' :: w ∧ Opening front e.key e.keyAt ∧
    e.valueStart = Text.size front := by
  cases h with
  | @field front key z keyAt hfront hz =>
      rw [Text.after_append] at hhead
      obtain ⟨w, rfl⟩ : ∃ w, z = '\x7b' :: w := by
        cases z with
        | nil => cases hhead
        | cons c w => exact ⟨w, by rw [Option.some.inj hhead]⟩
      exact ⟨front, w, rfl, hfront, rfl⟩
  | @shorthand g written key s hg hkey hs =>
      obtain ⟨d, w, rfl, -, -, hne⟩ := hkey.head
      rw [Text.after_append] at hhead
      exact absurd (Option.some.inj hhead) hne
  | @method g written key s r hg hkey hs =>
      rw [← List.append_assoc, Text.after_append] at hhead
      cases s with
      | nil => exact absurd (Option.some.inj hhead) (by decide)
      | cons d s =>
          have hd := hs d List.mem_cons_self
          rw [Option.some.inj hhead] at hd
          exact absurd hd (by decide)

theorem exists_of_getLast?_filter {α : Type} {f : α → Bool} {as : List α} {x : α}
    (h : (as.filter f).getLast? = some x) :
    ∃ bs cs, as = bs ++ x :: cs ∧ f x = true ∧ ∀ c ∈ cs, f c = false := by
  rw [← List.head?_reverse, ← List.filter_reverse, List.head?_filter, List.find?_eq_some_iff_append]
    at h
  obtain ⟨hx, cs, bs, hcut, hcs⟩ := h
  refine ⟨bs.reverse, cs.reverse, ?_, hx, fun c hc => ?_⟩
  · have hrev := congrArg List.reverse hcut
    simpa using hrev
  · simpa using hcs c (List.mem_reverse.mp hc)

/-- The place behind the last character of a value that counts moves along, where the value is read
alike. -/
theorem behindValue?_moved
    (hmarks : (marks t e.valueStart).takeWhile (fun m => m.offset < e.valueStop) =
      (marks p e.valueStart).takeWhile fun m => m.offset < e.valueStop) (x : Text) :
    ObjectLiteral.behindValue? (x ++ t) (e.moved (Text.size x)) =
      (ObjectLiteral.behindValue? p e).map (Text.size x + ·) := by
  have hshift : (fun m : Mark => decide (m.offset < Text.size x + e.valueStop)) ∘
      Mark.shift (Text.size x) =
      fun m => decide (m.offset < e.valueStop) := by
    funext m
    simp [Mark.shift]
  rw [ObjectLiteral.behindValue?, ObjectEntry.moved]
  simp only [marks_append_right]
  rw [List.takeWhile_map, List.filter_map, List.getLast?_map, Option.map_map,
    ObjectLiteral.behindValue?, Option.map_map, hshift, hmarks]
  congr 1
  funext m
  simp [Mark.shift, Nat.add_assoc]

theorem Shape.exists_last (h : Shape p e) (hm : ObjectLiteral.behindValue? p e = some m) :
    ∃ ms₁ l ms₂, marksFrom .start 0 p = ms₁ ++ l :: ms₂ ∧ ¬ l.Idle ∧ (∀ x ∈ ms₂, x.Idle) ∧
      m = l.offset + l.char.utf8Size ∧ e.valueStart ≤ l.offset := by
  obtain ⟨front, value, trail, rfl, hstart, hstop, hfront, htrail⟩ := h.spans
  obtain ⟨msf, s, hmsf, hs, -⟩ := hfront (value ++ trail) .start 0 ⟨rfl, rfl⟩
  have hwhole := hmsf.marksFrom_eq
  rw [← List.append_assoc, Nat.zero_add, ← marksFrom_agrees _ _ hs] at hwhole
  -- the marks of the value and those of the white space behind it
  have hchars : (marksFrom .start (Text.size front) (value ++ trail)).map (fun m =>
      (m.offset, m.char)) =
      Text.indexed (Text.size front) value ++ Text.indexed (Text.size (front ++ value)) trail := by
    rw [chars_marksFrom, Text.indexed_append, Text.size_append]
  obtain ⟨msv, mst, hcut, hmsv, hmst⟩ := List.map_eq_append_iff.mp hchars
  have hmst : ∀ x ∈ mst, x.Idle := fun x hx => by
    have hmem : (x.offset, x.char) ∈ Text.indexed (Text.size (front ++ value)) trail := by
      rw [← hmst]
      exact List.mem_map_of_mem (f := fun m : Mark => (m.offset, m.char)) hx
    obtain ⟨u, v, hcut, -⟩ := Text.exists_of_mem_indexed hmem
    exact .inr (htrail _ (by rw [hcut]; exact List.mem_append_right _ List.mem_cons_self))
  have hmsv : ∀ x ∈ msv, x.offset < e.valueStop := fun x hx => by
    have hmem : (x.offset, x.char) ∈ Text.indexed (Text.size front) value := by
      rw [← hmsv]
      exact List.mem_map_of_mem (f := fun m : Mark => (m.offset, m.char)) hx
    obtain ⟨u, v, hvalue, hoffset⟩ := Text.exists_of_mem_indexed hmem
    have hpos := x.char.utf8Size_pos
    simp only at hoffset hvalue
    rw [hstop, hoffset, Text.size_append, hvalue, Text.size_append, Text.size]
    omega
  rw [ObjectLiteral.behindValue?, hstart, marks, List.append_assoc, Text.after_append] at hm
  obtain ⟨l, hl, rfl⟩ := Option.map_eq_some_iff.mp hm
  have hnone : (mst.takeWhile fun x => x.offset < e.valueStop).filter
      (fun x => x.kind != .comment && !CharClass.isSpace x.char) = [] :=
    List.filter_eq_nil_iff.mpr fun x hx => by
      rw [← Mark.not_idle_iff, not_not]
      exact hmst x ((List.takeWhile_prefix _).subset hx)
  rw [hcut, List.takeWhile_append_of_pos fun x hx => by simpa using hmsv x hx, List.filter_append,
    hnone, List.append_nil] at hl
  obtain ⟨ms₁, ms₂, rfl, hcount, hidle⟩ := exists_of_getLast?_filter hl
  refine ⟨msf ++ ms₁, l, ms₂ ++ mst, by rw [hwhole, hcut]; simp, Mark.not_idle_iff.mpr hcount,
    List.forall_mem_append.mpr ⟨fun x hx => ?_, hmst⟩, rfl, ?_⟩
  · have hx := hidle x hx
    by_contra hne
    rw [Mark.not_idle_iff.mp hne] at hx
    cases hx
  · rw [hstart]
    exact le_offset_of_mem_marksFrom (s := .start) (t := value ++ trail) (by rw [hcut]; simp)

/-- The text goes on behind a part with a character that is no white space, and no mark that counts
stands further back. -/
structure LastAt (p u : Text) (c : Char) : Prop where
  cut : ∃ tail, p = u ++ c :: tail
  char : CharClass.isSpace c = false
  marks : ∀ x ∈ marksFrom .start 0 p, ¬ x.Idle → x.offset ≤ Text.size u

namespace LastAt

variable {f r : Text}

theorem exists_parts (h : LastAt p u c) (hp : p = f ++ z) (hle : Text.size f ≤ Text.size u) :
    ∃ w tail, u = f ++ w ∧ z = w ++ c :: tail := by
  obtain ⟨tail, hcut⟩ := h.cut
  obtain ⟨w, hu, hz⟩ := Text.exists_middle (hp.symm.trans hcut) hle
  exact ⟨w, tail, hu, hz⟩

theorem field {keyAt : Nat} (h : LastAt (front ++ z) u c) (hfront : Opening front key keyAt)
    (hz : Headed z) (hle : Text.size front ≤ Text.size u) :
    Shape (u ++ [c]) ⟨key, keyAt, Text.size front, Text.size (u ++ [c])⟩ := by
  obtain ⟨w, tail, rfl, rfl⟩ := h.exists_parts rfl hle
  have hw : Headed (w ++ [c]) := fun d hd => hz d (by
    cases w with
    | nil => exact hd
    | cons e w => exact hd)
  have hshape := Shape.field hfront hw
  rwa [trimEnd_last h.char, ← List.append_assoc] at hshape

/-- The last character that counts is the last one of the key. -/
theorem shorthand (h : LastAt (g ++ (written ++ w)) u c) (hg : Idle g) (hkey : Key written key)
    (hw : Spaces w) : Shape (u ++ [c]) ⟨key, Text.size g, Text.size g, Text.size (u ++ [c])⟩ := by
  obtain ⟨ms, s₁, hms, hs₁, -⟩ := hg.reads (s := .start) ⟨rfl, rfl⟩ (written ++ w) 0
  obtain ⟨ms', x, s₂, hms', -, -, hx⟩ := hkey.reads w s₁ (0 + Text.size g) hs₁
  obtain ⟨y, rfl, hy, -⟩ := hms'.offset_last
  have hle := h.marks x (by rw [hms.marksFrom_eq, hms'.marksFrom_eq]; simp) hx
  obtain ⟨v, tail, rfl, hv⟩ := h.exists_parts (f := g ++ y) (z := x.char :: w) (by simp)
    (by rw [Text.size_append]; omega)
  cases v with
  | nil =>
      obtain ⟨hchar, rfl⟩ := List.cons.inj hv
      have hshape := Shape.shorthand (s := []) hg hkey fun c hc => absurd hc List.not_mem_nil
      rw [List.append_nil, hchar, ← List.append_assoc] at hshape
      rwa [List.append_nil]
  | cons d v =>
      obtain ⟨-, rfl⟩ := List.cons.inj hv
      have hspace := hw c (by simp)
      rw [h.char] at hspace
      cases hspace

/-- The parenthesis of a method counts, so the last character that does stands behind it. -/
theorem method (h : LastAt (g ++ (written ++ (w ++ '(' :: r))) u c) (hg : Idle g)
    (hkey : Key written key) (hw : Spaces w) :
    Shape (u ++ [c]) ⟨key, Text.size g, Text.size (g ++ written), Text.size (u ++ [c])⟩ := by
  have hsmooth := hg.smooth.append (hkey.smooth.append (idle_of_spaces hw).smooth)
  obtain ⟨ms, s₁, hms, hs₁, -⟩ := hsmooth ('(' :: r) .start 0 ⟨rfl, rfl⟩
  obtain ⟨hkind, hone⟩ := @State.step_first _ '(' r.head? hs₁ (by simp [opensComment])
  have htext : g ++ (written ++ (w ++ '(' :: r)) = g ++ (written ++ w) ++ '(' :: r := by simp
  have hparen := h.marks ⟨0 + Text.size (g ++ (written ++ w)), '(', (s₁.step '(' r.head?).kind⟩
    (by rw [htext, hms.marksFrom_eq, marksFrom_one _ hone]; simp)
    (not_or.mpr ⟨hkind, by simp only; decide⟩)
  obtain ⟨v, tail, rfl, hv⟩ := h.exists_parts htext (by simpa using hparen)
  obtain ⟨r', hr'⟩ : ∃ r', v ++ [c] = '(' :: r' := by
    cases v with
    | nil => exact ⟨[], by rw [(List.cons.inj hv).1]; rfl⟩
    | cons d v => exact ⟨v ++ [c], by rw [(List.cons.inj hv).1]; rfl⟩
  have hshape := Shape.method (r := r') hg hkey hw
  rw [← hr', ← List.append_assoc w, trimEnd_last h.char] at hshape
  simpa using hshape

end LastAt

/-- Up to the last character that counts a piece has the same shape, with its value ending there. -/
theorem Shape.upTo (h : Shape p e) (hlast : LastAt p u c) (hle : e.valueStart ≤ Text.size u) :
    Shape (u ++ [c]) { e with valueStop := Text.size (u ++ [c]) } := by
  cases h with
  | field hfront hz => exact hlast.field hfront hz hle
  | shorthand hg hkey hs => exact hlast.shorthand hg hkey hs
  | method hg hkey hs => exact hlast.method hg hkey hs

/-- Behind its last character that counts a piece is cut: what is in front of it is a piece with the
same key and the same place for its value. -/
theorem Shape.cut (hp : Unbroken p) (h : Shape p e) (hm : ObjectLiteral.behindValue? p e = some m) :
    ∃ u tail, p = u ++ tail ∧ m = Text.size u ∧ Idle tail ∧ Unbroken u ∧
    e.valueStart < Text.size u ∧
      Shape u { e with valueStop := Text.size u } := by
  obtain ⟨msa, l, msb, hmarks, hl, hmsb, rfl, hstart⟩ := h.exists_last hm
  obtain ⟨u, c, tail, ms₁, l', ms₂, rfl, hms, hu, hl', hms₂, hoffset, rfl, hunbroken, htail⟩ :=
    hp.cut_last ⟨l, by rw [hmarks]; simp, hl⟩
  obtain ⟨rfl, rfl, rfl⟩ := eq_of_last (hmarks.symm.trans hms) hl hmsb hl' hms₂
  have hsize : Text.size (u ++ [l.char]) = l.offset + l.char.utf8Size := by
    rw [Text.size_append, hoffset]
    rfl
  have hpos := l.char.utf8Size_pos
  have hlast : LastAt (u ++ [l.char] ++ tail) u l.char := by
    refine ⟨⟨tail, by simp⟩, ?_, fun x hx hcount => ?_⟩
    · rw [← Bool.not_eq_true]
      exact (not_or.mp hl).2
    · rw [hmarks, show msa ++ l :: msb = (msa ++ [l]) ++ msb by simp] at hx
      rcases List.mem_append.mp hx with hx | hx
      · have hreads : Reads [] .start 0 (u ++ [l.char]) (msa ++ [l]) _ :=
          hu ▸ reads_of_last _ 0 fun _ _ _ _ => rfl
        obtain ⟨w, hw, -, hbefore⟩ := hreads.offset_last
        obtain ⟨rfl, -⟩ := List.append_inj' hw rfl
        rcases List.mem_append.mp hx with hx | hx
        · exact (Nat.zero_add (Text.size u) ▸ hbefore x hx).le
        · exact (List.mem_singleton.mp hx ▸ hoffset).le
      · exact absurd (hmsb x hx) hcount
  exact ⟨u ++ [l.char], tail, rfl, hsize.symm, htail, hunbroken, by omega,
    h.upTo hlast (by omega)⟩

end ObjectEntry

end ServiceGate
