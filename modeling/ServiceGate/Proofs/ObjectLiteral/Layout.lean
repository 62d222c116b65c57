/-
# Ways to write an object literal

The keys and values that the specification is written from, and the two layouts of its literals: on
one line with single blanks (`body_braced`), and with a line for each field that ends with a comma
(`body_lines`).

`IsObject v es` says that a text is a literal with the keys and values `es`, in whichever layout.  A
value is quoted text or a literal in turn, so what is said of a literal is said of everything that
the specification is written from, level by level.
-/
import ServiceGate.Proofs.ObjectLiteral.Quoted
import ServiceGate.Proofs.ObjectLiteral.Written
import ServiceGate.Spec.Render

namespace ServiceGate

open Scan

variable {written key value t : Text} {c : Char}

/-! ## Keys -/

theorem mem_signs_of_not_soft (h : isSoft c = false) : c ∈ CharClass.signs := by
  by_contra hmem
  have hne : ∀ d ∈ CharClass.signs, c ≠ d := fun d hd heq => hmem (heq ▸ hd)
  have hopener : isOpener c = false := by
    simp only [isOpener, closer?]
    split
    · exact absurd rfl (hne '\x7b' (by decide))
    · exact absurd rfl (hne '[' (by decide))
    · exact absurd rfl (hne '(' (by decide))
    · rfl
  have hcloser : isCloser c = false := by
    simp only [isCloser, Bool.or_eq_false_iff, beq_eq_false_iff_ne]
    exact ⟨⟨hne '\x7d' (by decide), hne ']' (by decide)⟩, hne ')' (by decide)⟩
  have hquote : isQuote c = false := by
    simp only [isQuote, Bool.or_eq_false_iff, beq_eq_false_iff_ne]
    exact ⟨⟨hne '\'' (by decide), hne '"' (by decide)⟩, hne '\x60' (by decide)⟩
  have hsoft : isSoft c = true :=
    isSoft_iff.mpr ⟨hquote, by rw [isPlain, hopener, hcloser]; rfl, hne ',' (by decide),
      hne '/' (by decide)⟩
  rw [hsoft] at h
  cases h

theorem isSoft_of_isName (h : CharClass.isName c = true) : isSoft c = true := by
  by_contra hsoft
  exact CharClass.isName_ne h (mem_signs_of_not_soft (Bool.not_eq_true _ ▸ hsoft)) rfl

/-- A text that is a name. -/
structure IsKeyName (t : Text) : Prop where
  ne_nil : t ≠ []
  chars : ∀ c ∈ t, CharClass.isName c = true

theorem readKey?_name (h : IsKeyName t) (rest : Text) :
    ObjectEntry.readKey? (t ++ ':' :: rest) = some (t, Text.size t) := by
  obtain ⟨c, w, rfl⟩ := List.exists_cons_of_ne_nil h.ne_nil
  obtain ⟨hc, hw⟩ := List.forall_mem_cons.mp h.chars
  have hquote : (c == '\'' || c == '"') = false := by
    simp only [Bool.or_eq_false_iff, beq_eq_false_iff_ne]
    exact ⟨CharClass.isName_ne hc (by decide), CharClass.isName_ne hc (by decide)⟩
  have htake : (c :: w ++ ':' :: rest).takeWhile CharClass.isName = c :: w := by
    rw [List.takeWhile_append_of_pos h.chars, List.takeWhile_cons_of_neg (by decide),
      List.append_nil]
  rw [List.cons_append, ObjectEntry.readKey?, hquote, hc, ← List.cons_append, htake]
  rfl

theorem solid_encode {top : Bool} (t : Text) : Solid top (Quoted.encode t) := by
  have h : Solid top _ := .quoted (.inl rfl) (Quoted.quotedBody_escape t)
  exact h

/-! ## Items -/

/-- A value that can stand in an item. -/
structure IsValue (v : Text) : Prop where
  solid : Solid true v
  head : ∃ c w, v = c :: w ∧ CharClass.isSpace c = false
  last : ∃ w c, v = w ++ [c] ∧ CharClass.isSpace c = false

theorem isValue_encode (t : Text) : IsValue (Quoted.encode t) :=
  ⟨solid_encode t, ⟨'\'', _, rfl, rfl⟩,
    ⟨'\'' :: t.flatMap Quoted.escape, '\'', by simp [Quoted.encode], rfl⟩⟩

/-- A literal with these keys and values. -/
def IsObject (v : Text) (kvs : List (Text × Text)) : Prop :=
  ∃ body, v = '\x7b' :: (body ++ ['\x7d']) ∧ Body body kvs

theorem IsObject.isValue {kvs : List (Text × Text)} (h : IsObject value kvs) : IsValue value := by
  obtain ⟨body, rfl, hbody⟩ := h
  exact ⟨.group .brace hbody.solid, ⟨'\x7b', _, rfl, rfl⟩, ⟨'\x7b' :: body, '\x7d', rfl, rfl⟩⟩

/-- A literal is read wherever it stands. -/
theorem IsObject.readAt? {kvs : List (Text × Text)} (h : IsObject value kvs) {p q out : Text}
    (hout : out = p ++ value ++ q) :
    ∃ o, ObjectLiteral.readAt? out (Text.size p) = some o ∧
      List.Forall₂ (EntryOf out) o.entries kvs := by
  obtain ⟨body, rfl, hbody⟩ := h
  subst hout
  exact readAt?_body hbody p q

theorem IsObject.object? {kvs : List (Text × Text)} (h : IsObject value kvs) {e : ObjectEntry}
    {out : Text} (he : EntryOf out e (key, value)) :
    ∃ o, e.object? out = some o ∧ List.Forall₂ (EntryOf out) o.entries kvs := by
  obtain ⟨-, p, q, hout, hstart⟩ := he
  rw [ObjectEntry.object?, hstart]
  exact h.readAt? hout

theorem item_name (hk : IsKeyName key) (hv : IsValue value) : Item key key value where
  key := readKey?_name hk
  keyHead := by
    obtain ⟨c, w, rfl⟩ := List.exists_cons_of_ne_nil hk.ne_nil
    have hc := hk.chars c List.mem_cons_self
    refine ⟨c, w, rfl, ?_, CharClass.isName_ne hc (by decide)⟩
    rw [← Bool.not_eq_true]
    intro hspace
    rw [CharClass.isName_of_isSpace hspace] at hc
    cases hc
  keySolid := .ofSoft fun c hc => isSoft_of_isName (hk.chars c hc)
  valueSolid := hv.solid
  valueHead := hv.head
  valueLast := hv.last

theorem item_encode (key : Text) (hv : IsValue value) : Item (Quoted.encode key) key value where
  key rest := by
    have hread := Quoted.decode?_encode key (':' :: rest)
    rw [Quoted.encode, List.cons_append, List.cons_append] at hread ⊢
    exact hread
  keyHead := ⟨'\'', _, rfl, rfl, by decide⟩
  keySolid := solid_encode key
  valueSolid := hv.solid
  valueHead := hv.head
  valueLast := hv.last

/-! ## Layouts -/

/-- An entry of a literal, as it is written. -/
structure Entry where
  written : Text
  key : Text
  value : Text
  item : Item written key value

namespace Entry

def text (e : Entry) : Text := Spec.entry e.written e.value

def pair (e : Entry) : Text × Text := (e.key, e.value)

def field (e : Entry) (lead trail : Text) : Field := ⟨lead, e.written, e.key, e.value, trail⟩

theorem text_field (e : Entry) (lead trail : Text) :
    (e.field lead trail).text = lead ++ e.text ++ trail := by
  simp [field, Field.text, text, Spec.entry]

theorem field_ok (e : Entry) {lead trail : Text} (hlead : Blank lead) (htrail : Blank trail) :
    (e.field lead trail).Ok :=
  { e.item with lead := hlead, trail := htrail }

end Entry

theorem blank_one : Blank [' '] := by decide

theorem body_inline : ∀ {es : List Entry}, es ≠ [] →
    Body (' ' :: (Text.join ", ".toList (es.map (·.text)) ++ [' '])) (es.map (·.pair))
  | [], h => absurd rfl h
  | [e], _ => by
      have h := Body.last (e.field_ok blank_one blank_one)
      rw [e.text_field] at h
      simpa [Text.join, List.intercalate, Entry.pair, Entry.field] using h
  | e :: e' :: es, _ => by
      have hrest := body_inline (List.cons_ne_nil e' es)
      have h := Body.cons (e.field_ok blank_one (fun c hc => absurd hc List.not_mem_nil)) hrest
      rw [e.text_field] at h
      have hjoin : Text.join ", ".toList ((e :: e' :: es).map (·.text)) =
          e.text ++ ", ".toList ++ Text.join ", ".toList ((e' :: es).map (·.text)) := by
        simp [Text.join, List.intercalate]
      rw [hjoin]
      simpa [Entry.pair, Entry.field] using h

theorem isObject_braced (es : List Entry) (h : es ≠ []) :
    IsObject (Spec.braced (es.map (·.text))) (es.map (·.pair)) :=
  ⟨_, by simp [Spec.braced], body_inline h⟩

/-- A part on a line of its own with a comma behind it. -/
def line (indent part : Text) : Text := indent ++ part ++ ",\n".toList

def lined (indent outer : Text) (parts : List Text) : Text :=
  '\x7b' :: ((['\n'] ++ parts.flatMap (line indent) ++ outer) ++ ['\x7d'])

section Lines
variable {α : Type} {written key value : α → Text} {indent outer : Text}

theorem body_lines (hindent : Blank indent) (houter : Blank outer) :
    ∀ {lead : Text}, Blank lead → ∀ as : List α, (∀ a ∈ as, Item (written a) (key a) (value a)) →
      Body (lead ++ (as.map fun a => Spec.entry (written a) (value a)).flatMap (line indent) ++
        outer)
        (as.map fun a => (key a, value a))
  | lead, hlead, [], _ => by
      refine Body.none fun c hc => ?_
      rw [List.map_nil, List.flatMap_nil, List.append_nil] at hc
      exact (List.mem_append.mp hc).elim (hlead c) (houter c)
  | lead, hlead, a :: as, h => by
      obtain ⟨ha, has⟩ := List.forall_mem_cons.mp h
      have hline : Blank ['\n'] := by decide
      have hrest := body_lines hindent houter hline as has
      have hblank : Blank (lead ++ indent) := fun c hc =>
        (List.mem_append.mp hc).elim (hlead c) (hindent c)
      have hfield : (Field.mk (lead ++ indent) (written a) (key a) (value a) []).Ok :=
        { ha with lead := hblank, trail := fun c hc => absurd hc List.not_mem_nil }
      have hbody := Body.cons hfield hrest
      simpa [Field.text, Spec.entry, line] using hbody

/-- A literal with a line for each of its entries. -/
theorem isObject_lined (written key : α → Text) (hindent : Blank indent) (houter : Blank outer)
    {as : List α}
    (h : ∀ a ∈ as, Item (written a) (key a) (value a)) :
    IsObject (lined indent outer (as.map fun a => Spec.entry (written a) (value a)))
      (as.map fun a => (key a, value a)) :=
  ⟨_, rfl, body_lines hindent houter (by decide) as h⟩

end Lines

end ServiceGate
