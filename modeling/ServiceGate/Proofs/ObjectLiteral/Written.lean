/-
# Object literals that were written

An object literal is read back as the fields it was written from.  `Solid top t` says that a text is
a row of characters, strings and groups, all closed, and for `top = true` without a comma outside of
the groups.  `Body t kvs` says that `t`, between two braces, holds fields with the keys and values
`kvs`: solid keys and values with white space around them, and commas in between.

Wherever such a literal stands, `readAt?_body` finds in it one entry for each field, with its key
and with its value in place; so what is nested in a value can be read in turn.

The scan of solid text is a `Row` of marks, and rows are what the two loops over marks pass over:
the search for the closing brace because every group in a row is closed (`Row.neutral`), the cut at
commas because a row at the top holds none outside of its groups (`Row.pieces_append`).  `Solid`
quantifies over the text that follows, so solid texts can be put behind one another and into groups
and literals without scanning them again.

Reading the entries back is an induction on `Body` (`Body.entries`), one field at a time, with the
text in front of the field and the text behind the literal both left open.
-/
import Mathlib.Data.List.Forall2
import Mathlib.Data.List.TakeWhile
import ServiceGate.ObjectLiteral.Basic
import ServiceGate.Proofs.CharClass
import ServiceGate.Proofs.Scan.WellNested

namespace ServiceGate

open Scan

/-! ## Rows of marks -/

/-- A row of marks in which every group is closed, for `top = true` without a comma outside of the
groups. -/
inductive Row : Bool → List Mark → Prop
  | nil {top : Bool} : Row top []
  | skip {top : Bool} {m : Mark} {ms : List Mark} :
      m.kind ≠ .code ∨ isPlain m.char = true ∧ (top = true → m.char ≠ ',') → Row top ms →
      Row top (m :: ms)
  | group {top : Bool} {ms ms' : List Mark} {n n' : Nat} (b : Bracket) :
      Row false ms → Row top ms' →
      Row top (⟨n, b.opener, .code⟩ :: (ms ++ ⟨n', b.closer, .code⟩ :: ms'))

namespace Row

variable {top : Bool} {ms ms' : List Mark} {m : Mark}

theorem append (h : Row top ms) (h' : Row top ms') : Row top (ms ++ ms') := by
  induction h with
  | nil => exact h'
  | skip hm _ ih => exact .skip hm (ih h')
  | group b hin _ _ ih =>
      rw [List.cons_append, List.append_assoc, List.cons_append]
      exact .group b hin (ih h')

theorem literal (hm : m.kind = .literal) (h : Row top ms) : Row top (m :: ms) :=
  .skip (.inl (by rw [hm]; exact Kind.noConfusion)) h

theorem ofLiterals (n : Nat) (t : Text) : Row top (literals n t) := by
  induction t generalizing n with
  | nil => exact .nil
  | cons c t ih => exact .literal rfl (ih _)

theorem toFalse (h : Row top ms) : Row false ms := by
  induction h with
  | nil => exact .nil
  | skip hm _ ih => exact .skip (hm.imp_right fun hp => ⟨hp.1, fun h => by cases h⟩) ih
  | group b hin _ _ ih => exact .group b hin ih

theorem neutral (h : Row top ms) : Neutral (codeOf ms) := by
  induction h with
  | nil => exact .nil
  | @skip top m ms hm _ ih =>
      obtain ⟨n, c, k⟩ := m
      cases k with
      | code =>
          rw [codeOf_cons_code]
          exact .append (.plain (hm.resolve_left fun h => h rfl).1) ih
      | literal => rwa [codeOf_cons_literal]
      | comment => rwa [codeOf_cons_comment]
  | @group top ms ms' n n' b _ _ ih ih' =>
      have hgroup := (Neutral.group b n n' ih).append ih'
      simpa using hgroup

/-- Cutting at commas passes over a row, at depth zero if it has no comma outside of its groups. -/
theorem pieces_append {close start : Nat} (h : Row top ms) {depth : Int}
    (hdepth : 0 < depth ∨ 0 ≤ depth ∧ top = true) (hclose : ∀ m ∈ ms, m.offset < close)
    (rest : List Mark) :
    ObjectLiteral.pieces close depth start (ms ++ rest) =
      ObjectLiteral.pieces close depth start rest := by
  induction h generalizing depth rest with
  | nil => rfl
  | @skip top m ms hm _ ih =>
      obtain ⟨hoffset, hrest⟩ := List.forall_mem_cons.mp hclose
      rw [List.cons_append, ObjectLiteral.pieces, if_neg (by omega)]
      rcases hm with hk | ⟨hp, hcomma⟩
      · rw [if_pos (by simpa using hk)]
        exact ih hdepth hrest rest
      · have hp' : isOpener m.char = false ∧ isCloser m.char = false := by
          simpa [isPlain, Bool.and_eq_true, Bool.not_eq_true'] using hp
        have hcut : (m.char == ',' && depth == 0) = false := by
          rcases hdepth with h | ⟨-, h⟩
          · rw [beq_eq_false_iff_ne.mpr (show depth ≠ 0 by omega), Bool.and_false]
          · rw [beq_eq_false_iff_ne.mpr (hcomma h), Bool.false_and]
        rw [hp'.1, hp'.2, hcut, ih hdepth hrest rest]
        simp
  | @group top ms ms' n n' b _ _ ih ih' =>
      obtain ⟨hopen, hrest⟩ := List.forall_mem_cons.mp hclose
      have hin : ∀ m ∈ ms, m.offset < close := fun m hm => hrest m (List.mem_append_left _ hm)
      obtain ⟨hcloser, hout⟩ := List.forall_mem_cons.mp fun m hm =>
        hrest m (List.mem_append_right _ hm)
      have hopener : isOpener b.opener = true := by cases b <;> rfl
      have hcl : isOpener b.closer = false ∧ isCloser b.closer = true := by
        cases b <;> exact ⟨rfl, rfl⟩
      rw [List.cons_append, ObjectLiteral.pieces, if_neg (by simpa using hopen), List.append_assoc,
        List.cons_append, hopener]
      simp only [bne_self_eq_false, Bool.false_eq_true, if_false, if_true]
      rw [@ih (depth + 1) (.inl (by omega)) hin, ObjectLiteral.pieces,
        if_neg (by simpa using hcloser), hcl.1, hcl.2]
      simp only [bne_self_eq_false, Bool.false_eq_true, if_false, if_true]
      rw [show depth + 1 - 1 = depth by omega]
      exact ih' hdepth hout rest

end Row

/-! ## Solid text -/

/-- From code outside of every region the text is read back into such code as a row. -/
def Solid (top : Bool) (t : Text) : Prop :=
  ∀ (rest : Text) (l : Option Char) (n : Nat), ∃ ms l',
    Reads rest ⟨.code, [], l⟩ n t ms ⟨.code, [], l'⟩ ∧ Row top ms

/-- A character that stands for itself: no quote, no bracket, no comma, no slash. -/
def isSoft (c : Char) : Bool := !isQuote c && isPlain c && c != ',' && c != '/'

theorem isSoft_iff {c : Char} :
    isSoft c = true ↔ isQuote c = false ∧ isPlain c = true ∧ c ≠ ',' ∧ c ≠ '/' := by
  rw [isSoft, Bool.and_eq_true, Bool.and_eq_true, Bool.and_eq_true, Bool.not_eq_true', bne_iff_ne,
    bne_iff_ne, and_assoc, and_assoc]

namespace Solid

variable {top : Bool} {t u : Text} {c q : Char}

theorem nil : Solid top [] := fun _ l _ => ⟨[], l, .nil, .nil⟩

theorem toFalse (h : Solid top t) : Solid false t := by
  intro rest l n
  obtain ⟨ms, l', hms, hrow⟩ := h rest l n
  exact ⟨ms, l', hms, hrow.toFalse⟩

theorem append (h : Solid top t) (h' : Solid top u) : Solid top (t ++ u) := by
  intro rest l n
  obtain ⟨ms, l₁, hms, hrow⟩ := h (u ++ rest) l n
  obtain ⟨ms', l', hms', hrow'⟩ := h' rest l₁ (n + Text.size t)
  exact ⟨ms ++ ms', l', hms.append hms', hrow.append hrow'⟩

theorem plain (hq : isQuote c = false) (hp : isPlain c = true) (hs : c ≠ '/')
    (hcomma : top = true → c ≠ ',') : Solid top [c] := by
  intro rest l n
  have hstep : State.step ⟨.code, [], l⟩ c rest.head? = _ :=
    step_ordinary hq hp (by simp [opensComment, hs])
  exact ⟨_, l, .one hstep .nil, .skip (.inr ⟨hp, hcomma⟩) .nil⟩

theorem ofSoft (h : ∀ c ∈ t, isSoft c = true) : Solid top t := by
  induction t with
  | nil => exact .nil
  | cons c t ih =>
      obtain ⟨hc, ht⟩ := List.forall_mem_cons.mp h
      obtain ⟨hq, hp, hcomma, hs⟩ := isSoft_iff.mp hc
      exact append (t := [c]) (.plain hq hp hs fun _ => hcomma) (ih ht)

theorem quoted (hq : q = '\'' ∨ q = '"') (h : QuotedBody q t) : Solid top (q :: (t ++ [q])) :=
  fun rest l n => ⟨_, some q, h.reads_string hq rest [] l n, .ofLiterals n _⟩

theorem group (b : Bracket) (h : Solid false t) : Solid top (b.opener :: (t ++ [b.closer])) := by
  intro rest l n
  have hstate : ∀ l : Option Char, (⟨.code, b.enter [], l⟩ : State) = ⟨.code, [], l⟩ := by
    cases b <;> exact fun _ => rfl
  obtain ⟨ms, l', hms, hrow⟩ := h ([b.closer] ++ rest) l (n + b.opener.utf8Size)
  have hopen : State.step ⟨.code, [], l⟩ b.opener (t ++ [b.closer] ++ rest).head? = _ :=
    step_opener b
  have hclose : State.step ⟨.code, b.enter [], l'⟩ b.closer rest.head? = _ := step_closer b
  rw [hstate] at hopen hclose
  exact ⟨_, l', .one hopen (hms.append (.one hclose .nil)), .group b hrow .nil⟩

end Solid

/-! ## Fields -/

/-- White space between the parts of a literal: blanks and line feeds. -/
def Blank (t : Text) : Prop := ∀ c ∈ t, c = ' ' ∨ c = '\n'

instance (t : Text) : Decidable (Blank t) :=
  inferInstanceAs (Decidable (∀ c ∈ t, c = ' ' ∨ c = '\n'))

/-- A key, the way it is written, and a value: the key is read back, both are solid, and they begin
and end with something visible. -/
structure Item (written key value : Text) : Prop where
  key : ∀ rest, ObjectEntry.readKey? (written ++ ':' :: rest) = some (key, Text.size written)
  keyHead : ∃ c w, written = c :: w ∧ CharClass.isSpace c = false ∧ c ≠ '/'
  keySolid : Solid true written
  valueSolid : Solid true value
  valueHead : ∃ c w, value = c :: w ∧ CharClass.isSpace c = false
  valueLast : ∃ w c, value = w ++ [c] ∧ CharClass.isSpace c = false

/-- A field as it is written, with the white space around it. -/
structure Field where
  lead : Text
  /-- The key as it is written. -/
  written : Text
  key : Text
  value : Text
  trail : Text

namespace Field

def text (f : Field) : Text := f.lead ++ (f.written ++ (':' :: ' ' :: (f.value ++ f.trail)))

/-- White space around an item. -/
structure Ok (f : Field) : Prop extends Item f.written f.key f.value where
  lead : Blank f.lead
  trail : Blank f.trail

end Field

/-- An entry of a key whose value is read in place. -/
def EntryOf (out : Text) (e : ObjectEntry) (kv : Text × Text) : Prop :=
  e.key = kv.1 ∧ ∃ p q, out = p ++ kv.2 ++ q ∧ e.valueStart = Text.size p

/-- What stands between two braces holds fields with these keys and values; a comma may follow the
last one. -/
inductive Body : Text → List (Text × Text) → Prop
  | none {t : Text} : Blank t → Body t []
  | last {f : Field} : f.Ok → Body f.text [(f.key, f.value)]
  | cons {f : Field} {t : Text} {kvs : List (Text × Text)} :
      f.Ok → Body t kvs → Body (f.text ++ ',' :: t) ((f.key, f.value) :: kvs)

/-! ## Reading a field -/

section Read
variable {s : State} {t rest : Text} {f : Field} {n stop : Nat} {c : Char}

theorem isSoft_blank {c : Char} (h : c = ' ' ∨ c = '\n') : isSoft c = true := by
  rcases h with rfl | rfl <;> rfl

theorem isSpace_blank {c : Char} (h : c = ' ' ∨ c = '\n') : CharClass.isSpace c = true := by
  rcases h with rfl | rfl <;> rfl

theorem Blank.solid {top : Bool} (h : Blank t) : Solid top t :=
  .ofSoft fun c hc => isSoft_blank (h c hc)

theorem Field.Ok.solid (h : f.Ok) : Solid true f.text :=
  h.lead.solid.append (h.keySolid.append (Solid.append (t := [':', ' '])
    (.ofSoft (by decide)) (h.valueSolid.append h.trail.solid)))

theorem Body.solid {kvs : List (Text × Text)} (h : Body t kvs) : Solid false t := by
  induction h with
  | none ht => exact ht.solid
  | last hf => exact hf.solid.toFalse
  | cons hf _ ih =>
      exact hf.solid.toFalse.append (Solid.append (t := [','])
        (.plain rfl rfl (by decide) fun h => by cases h) ih)

/-- Behind white space the first character that is neither space nor the start of a comment is
significant. -/
theorem find?_lead (hm : s.mode = .code) (hr : s.regions = []) (hc : CharClass.isSpace c = false)
    (hslash : c ≠ '/') :
    ∀ {lead : Text} {n : Nat}, Blank lead → n + Text.size lead < stop →
      (((marksFrom s n (lead ++ c :: rest)).takeWhile fun m => m.offset < stop).find? fun m =>
        m.kind != .comment && !CharClass.isSpace m.char).map (·.offset) = some (n + Text.size lead)
  | [], n, _, hstop => by
      rw [Text.size, Nat.add_zero] at hstop
      obtain ⟨hkind, hone⟩ := @State.step_first s c rest.head? ⟨hm, hr⟩
        (by simp [opensComment, hslash])
      have hkind' : ((s.step c rest.head?).kind != .comment) = true := by simpa using hkind
      rw [List.nil_append, marksFrom_one n hone, List.takeWhile_cons_of_pos (by simpa using hstop),
        List.find?_cons_of_pos (by simp [hkind', hc])]
      rfl
  | d :: lead, n, hlead, hstop => by
      obtain ⟨hd, hlead⟩ := List.forall_mem_cons.mp hlead
      rw [Text.size] at hstop
      obtain ⟨hq, -, -, hs⟩ := isSoft_iff.mp (isSoft_blank hd)
      have hstep : s.step d (lead ++ c :: rest).head? = _ :=
        State.step_plain hm hr hq (by simp [opensComment, hs])
      rw [List.cons_append, marksFrom_one n (by rw [hstep]), hstep,
        List.takeWhile_cons_of_pos (by simp only [decide_eq_true_eq]; omega),
        List.find?_cons_of_neg (by simp [isSpace_blank hd]),
        find?_lead hm hr hc hslash hlead (by omega), Text.size, Nat.add_assoc]

theorem trimStart_head {c : Char} {w : Text} (h : CharClass.isSpace c = false) :
    Text.trimStart (c :: w) = c :: w := by
  rw [Text.trimStart, List.dropWhile_cons_of_neg (by rw [h]; exact Bool.false_ne_true)]

theorem trimEnd_append {w trail : Text} {c : Char} (h : CharClass.isSpace c = false)
    (htrail : Blank trail) : Text.trimEnd ((w ++ [c]) ++ trail) = w ++ [c] := by
  have hspaces : ∀ d ∈ trail.reverse, CharClass.isSpace d = true := fun d hd =>
    isSpace_blank (htrail d (List.mem_reverse.mp hd))
  rw [Text.trimEnd, Text.trimEndWhere, List.reverse_append,
    List.dropWhile_append_of_pos hspaces, List.reverse_append]
  rw [List.reverse_singleton, List.singleton_append,
    List.dropWhile_cons_of_neg (by rw [h]; exact Bool.false_ne_true), List.reverse_cons,
    List.reverse_reverse]

theorem read?_field {p q : Text} (hf : f.Ok) :
    ∃ e, ObjectEntry.read? (p ++ f.text ++ q) (Text.size p) (Text.size p + Text.size f.text) =
    some e ∧
      EntryOf (p ++ f.text ++ q) e (f.key, f.value) := by
  obtain ⟨c, w, hwritten, hspace, hslash⟩ := hf.keyHead
  obtain ⟨v, z, hvalue, hz⟩ := hf.valueHead
  obtain ⟨y, b, hlast, hb⟩ := hf.valueLast
  have hkeyAt : ObjectEntry.firstSignificant? (p ++ f.text ++ q) (Text.size p)
      (Text.size p + Text.size f.text) = some (Text.size p + Text.size f.lead) := by
    have hrest : f.text ++ q = f.lead ++ c :: (w ++ ':' :: ' ' :: (f.value ++ f.trail) ++ q) := by
      simp [Field.text, hwritten]
    rw [ObjectEntry.firstSignificant?, marks, List.append_assoc, Text.after_append, hrest]
    refine find?_lead rfl rfl hspace hslash hf.lead ?_
    have hpos := c.utf8Size_pos
    simp only [Field.text, hwritten, Text.size_append, Text.size]
    omega
  have hpiece : Text.between (p ++ f.text ++ q) (Text.size p + Text.size f.lead)
      (Text.size p + Text.size f.text) = f.written ++ ':' :: ' ' :: (f.value ++ f.trail) := by
    have hcut : p ++ f.text ++ q =
        (p ++ f.lead) ++ (f.written ++ ':' :: ' ' :: (f.value ++ f.trail)) ++ q := by
      simp [Field.text]
    have hstop : Text.size p + Text.size f.text = Text.size (p ++ f.lead) +
        Text.size (f.written ++ ':' :: ' ' :: (f.value ++ f.trail)) := by
      simp only [Field.text, Text.size_append]
      omega
    rw [hcut, hstop, ← Text.size_append, Text.between_append]
  have hbehind : Text.between (p ++ f.text ++ q)
      (Text.size p + Text.size f.lead + Text.size f.written) (Text.size p + Text.size f.text) =
      ':' :: ' ' :: (f.value ++ f.trail) := by
    have hcut : p ++ f.text ++ q =
        (p ++ f.lead ++ f.written) ++ (':' :: ' ' :: (f.value ++ f.trail)) ++ q := by
      simp [Field.text]
    have hstop : Text.size p + Text.size f.text = Text.size (p ++ f.lead ++ f.written) +
        Text.size (':' :: ' ' :: (f.value ++ f.trail)) := by
      simp only [Field.text, Text.size_append]
      omega
    rw [hcut, hstop, ← Text.size_append, ← Text.size_append, Text.between_append]
  have hspan : ObjectEntry.valueSpan? (Text.size p + Text.size f.lead)
      (Text.size p + Text.size f.lead + Text.size f.written) (Text.size p + Text.size f.text)
      (':' :: ' ' :: (f.value ++ f.trail)) =
      some (Text.size p + Text.size f.text - Text.size (f.value ++ f.trail),
        Text.size p + Text.size f.text - Text.size (f.value ++ f.trail) + Text.size f.value) := by
    have htrim : Text.trimStart (' ' :: (f.value ++ f.trail)) = f.value ++ f.trail := by
      rw [Text.trimStart, List.dropWhile_cons_of_pos (by rfl), hvalue, List.cons_append,
        List.dropWhile_cons_of_neg (by rw [hz]; exact Bool.false_ne_true)]
    have hend : Text.trimEnd (f.value ++ f.trail) = f.value := by
      rw [hlast]
      exact trimEnd_append hb hf.trail
    rw [ObjectEntry.valueSpan?, trimStart_head (by rfl)]
    show some (_, _) = _
    simp only [htrim, hend]
  refine ⟨⟨f.key, Text.size p + Text.size f.lead,
      Text.size p + Text.size f.text - Text.size (f.value ++ f.trail),
      Text.size p + Text.size f.text - Text.size (f.value ++ f.trail) + Text.size f.value⟩, ?_, rfl,
    p ++ f.lead ++ f.written ++ [':', ' '], f.trail ++ q, by simp [Field.text], ?_⟩
  · rw [ObjectEntry.read?, hkeyAt, Option.bind_eq_bind, Option.bind_some, hpiece, hf.key]
    show (ObjectEntry.valueSpan? _ _ _ (Text.between _ (_ + _) _)).bind _ = _
    rw [hbehind, hspan]
    rfl
  · show Text.size p + Text.size f.text - Text.size (f.value ++ f.trail) = _
    simp only [Field.text, Text.size_append, Text.size]
    omega

theorem read?_blank {p q : Text} (ht : Blank t) :
    ObjectEntry.read? (p ++ t ++ q) (Text.size p) (Text.size p + Text.size t) = none := by
  obtain ⟨ms, l, hms, -⟩ := (ht.solid : Solid true t) q none (Text.size p)
  have hnone : ObjectEntry.firstSignificant? (p ++ t ++ q) (Text.size p)
      (Text.size p + Text.size t) = none := by
    rw [ObjectEntry.firstSignificant?, marks, List.append_assoc, Text.after_append, State.start,
      hms.marksFrom_eq, Option.map_eq_none_iff, List.find?_eq_none]
    intro m hm
    have hmem : m ∈ ms := by
      have hchars := chars_marksFrom ⟨.code, [], l⟩ (Text.size p + Text.size t) q
      have hfar : ∀ m ∈ marksFrom ⟨.code, [], l⟩ (Text.size p + Text.size t) q,
          ¬ m.offset < Text.size p + Text.size t := fun m hm => by
        have hidx : (m.offset, m.char) ∈ Text.indexed (Text.size p + Text.size t) q := by
          rw [← hchars]
          exact List.mem_map_of_mem (f := fun m : Mark => (m.offset, m.char)) hm
        have hle : Text.size p + Text.size t ≤ m.offset := Text.le_of_mem_indexed hidx
        omega
      rcases List.mem_append.mp ((List.takeWhile_prefix _).subset hm) with h | h
      · exact h
      · exact absurd (by simpa using List.mem_takeWhile_imp hm) (hfar m h)
    have hchar : m.char ∈ t := hms.map_char ▸ List.mem_map_of_mem hmem
    simp [isSpace_blank (ht _ hchar)]
  rw [ObjectEntry.read?, hnone]
  rfl

theorem offset_lt_of_reads {s' : State} {ms : List Mark} (h : Reads rest s n t ms s') :
    ∀ m ∈ ms, m.offset < n + Text.size t := by
  induction h with
  | nil => exact fun m hm => absurd hm List.not_mem_nil
  | @one s s' s'' n c t k ms hstep _ ih =>
      have hc := c.utf8Size_pos
      refine List.forall_mem_cons.mpr ⟨?_, fun m hm => ?_⟩
      · show n < _
        simp only [Text.size]
        omega
      · have h := ih m hm
        simp only [Text.size]
        omega
  | @two s s' s'' n c d t k ms hstep _ ih =>
      have hc := c.utf8Size_pos
      have hd := d.utf8Size_pos
      refine List.forall_mem_cons.mpr ⟨?_, List.forall_mem_cons.mpr ⟨?_, fun m hm => ?_⟩⟩
      · show n < _
        simp only [Text.size]
        omega
      · show n + c.utf8Size < _
        simp only [Text.size]
        omega
      · have h := ih m hm
        simp only [Text.size]
        omega

theorem pieces_comma {close start : Nat} {ms : List Mark} (h : n < close) :
    ObjectLiteral.pieces close 0 start (⟨n, ',', .code⟩ :: ms) =
      (start, n) :: ObjectLiteral.pieces close 0 (n + 1) ms := by
  rw [ObjectLiteral.pieces, if_neg (by simpa using h)]
  rfl

/-- The pieces of a body are read as the entries of its fields. -/
theorem Body.entries {kvs : List (Text × Text)} (h : Body t kvs) : ∀ {p q : Text} (l : Option Char),
    List.Forall₂ (EntryOf (p ++ t ++ '\x7d' :: q))
      ((ObjectLiteral.pieces (Text.size p + Text.size t) 0 (Text.size p)
        (marksFrom ⟨.code, [], l⟩ (Text.size p) (t ++ '\x7d' :: q))).filterMap fun (start, stop) =>
          ObjectEntry.read? (p ++ t ++ '\x7d' :: q) start stop) kvs := by
  -- what is left in front of the closing brace is one piece
  have hlast : ∀ {t p q : Text} (l : Option Char), Solid true t →
      ObjectLiteral.pieces (Text.size p + Text.size t) 0 (Text.size p)
        (marksFrom ⟨.code, [], l⟩ (Text.size p) (t ++ '\x7d' :: q)) =
        [(Text.size p, Text.size p + Text.size t)] := by
    intro t p q l ht
    obtain ⟨ms, l', hms, hrow⟩ := ht ('\x7d' :: q) l (Text.size p)
    have hbrace : (State.step ⟨.code, [], l'⟩ '\x7d' q.head?).takesNext = false := rfl
    rw [hms.marksFrom_eq, hrow.pieces_append (.inr ⟨Int.le_refl 0, rfl⟩) (offset_lt_of_reads hms),
      marksFrom_one _ hbrace, ObjectLiteral.pieces, if_pos (Nat.le_refl _)]
  induction h with
  | @none t ht =>
      intro p q l
      rw [hlast l ht.solid]
      simp only [List.filterMap_cons, read?_blank ht]
      exact .nil
  | @last f hf =>
      intro p q l
      obtain ⟨e, he, hentry⟩ := read?_field (p := p) (q := '\x7d' :: q) hf
      rw [hlast l hf.solid]
      simp only [List.filterMap_cons, he]
      exact .cons hentry .nil
  | @cons f t kvs hf _ ih =>
      intro p q l
      obtain ⟨ms, l', hms, hrow⟩ := hf.solid (',' :: (t ++ '\x7d' :: q)) l (Text.size p)
      obtain ⟨e, he, hentry⟩ := read?_field (p := p) (q := ',' :: (t ++ '\x7d' :: q)) hf
      have hcomma : State.step ⟨.code, [], l'⟩ ',' (t ++ '\x7d' :: q).head? = _ :=
        step_ordinary rfl rfl rfl
      have hout : p ++ (f.text ++ ',' :: t) ++ '\x7d' :: q =
          (p ++ f.text ++ [',']) ++ t ++ '\x7d' :: q := by simp
      have hout' : p ++ (f.text ++ ',' :: t) ++ '\x7d' :: q =
          p ++ f.text ++ ',' :: (t ++ '\x7d' :: q) := by simp
      have hclose : Text.size p + Text.size (f.text ++ ',' :: t) =
          Text.size (p ++ f.text ++ [',']) + Text.size t := by
        simp only [Text.size_append, Text.size]
        omega
      have hstart : Text.size p + Text.size f.text + ','.utf8Size =
          Text.size (p ++ f.text ++ [',']) := by
        simp only [Text.size_append, Text.size]
        omega
      have hpieces : ObjectLiteral.pieces (Text.size p + Text.size (f.text ++ ',' :: t)) 0
          (Text.size p)
          (marksFrom ⟨.code, [], l⟩ (Text.size p) (f.text ++ ',' :: t ++ '\x7d' :: q)) =
          (Text.size p, Text.size p + Text.size f.text) ::
            ObjectLiteral.pieces (Text.size (p ++ f.text ++ [',']) + Text.size t) 0
              (Text.size (p ++ f.text ++ [',']))
              (marksFrom ⟨.code, [], l'⟩ (Text.size (p ++ f.text ++ [',']))
                (t ++ '\x7d' :: q)) := by
        have hpos : ','.utf8Size = 1 := rfl
        have hbefore : ∀ m ∈ ms, m.offset < Text.size p + Text.size (f.text ++ ',' :: t) :=
          fun m hm => by
          have hm := offset_lt_of_reads hms m hm
          simp only [Text.size_append, Text.size]
          omega
        rw [List.append_assoc, List.cons_append, hms.marksFrom_eq,
          hrow.pieces_append (.inr ⟨Int.le_refl 0, rfl⟩) hbefore, marksFrom_one _ (by rw [hcomma]),
          hcomma,
          pieces_comma (by simp only [Text.size_append, Text.size]; omega), hclose, ← hstart]
        rfl
      rw [hpieces, hout']
      simp only [List.filterMap_cons, he]
      refine .cons hentry ?_
      have hrest := ih (p := p ++ f.text ++ [',']) (q := q) l'
      rwa [← hout, hout'] at hrest

/-- Where a body stands between braces, the literal is read with an entry for each of its fields. -/
theorem readAt?_body {kvs : List (Text × Text)} (h : Body t kvs) (p q : Text) :
    ∃ o, ObjectLiteral.readAt? (p ++ ('\x7b' :: (t ++ ['\x7d'])) ++ q) (Text.size p) = some o ∧
      List.Forall₂ (EntryOf (p ++ ('\x7b' :: (t ++ ['\x7d'])) ++ q)) o.entries kvs := by
  have hout : p ++ ('\x7b' :: (t ++ ['\x7d'])) ++ q = p ++ '\x7b' :: (t ++ '\x7d' :: q) := by simp
  have hin : p ++ ('\x7b' :: (t ++ ['\x7d'])) ++ q = (p ++ ['\x7b']) ++ t ++ '\x7d' :: q := by simp
  have hstart : Text.size p + 1 = Text.size (p ++ ['\x7b']) := by
    simp only [Text.size_append, Text.size]
    rfl
  have hclose : matchingClose? (p ++ '\x7b' :: (t ++ '\x7d' :: q)) (Text.size p) =
      some (Text.size (p ++ ['\x7b']) + Text.size t) := by
    obtain ⟨ms, l, hms, hrow⟩ := h.solid ('\x7d' :: q) none (Text.size p + 1)
    have hbrace : (State.step ⟨.code, [], l⟩ '\x7d' q.head?) = ⟨.code, ⟨.code, [], l⟩, false⟩ := rfl
    have hopen := matchingClose?_opener .brace (p := p) rfl (t ++ '\x7d' :: q)
    rw [State.start, hms.marksFrom_eq, marksFrom_one _ (by rw [hbrace]), hbrace, codeOf_append,
      hrow.neutral.closeIn, codeOf_cons_code] at hopen
    rw [← hstart]
    exact hopen.trans (closeIn_closer_zero .brace _ _)
  have hentries := h.entries (p := p ++ ['\x7b']) (q := q) none
  have hmarks : marks (p ++ '\x7b' :: (t ++ '\x7d' :: q)) (Text.size p + 1) =
      marksFrom ⟨.code, [], none⟩ (Text.size (p ++ ['\x7b'])) (t ++ '\x7d' :: q) := by
    have hafter : Text.after (p ++ '\x7b' :: (t ++ '\x7d' :: q)) (Text.size p + 1) =
        t ++ '\x7d' :: q := Text.after_append_cons p '\x7b' _
    rw [marks, hafter, hstart]
    rfl
  rw [← hin, hout] at hentries
  rw [hout, ObjectLiteral.readAt?, Text.after_append, hclose, hmarks, hstart]
  exact ⟨_, rfl, hentries⟩

end Read

end ServiceGate
