/-
# Documents that are read back

A document is written for a value, and the value is read back from it (`read?_render`), if the
document can say it (`IsPlain`): every value but `other`, which stands for what no one reads.  The
pieces are

    a string, escaped character by character   -- `codePoints?_encode`, `characters?_map_toNat`
    a number, digit by digit                   -- `readNumber?_toDigits`
    a value, and the items and fields of one   -- `readValue?_renderAt`

Reading is bounded by a depth; a value needs no more of it than it has characters
(`weight_le_length`).
-/
import ServiceGate.Json.Read
import ServiceGate.Json.Render
import Mathlib.Data.List.TakeDrop

namespace ServiceGate

variable {c e : Char} {t u rest lead : Text} {n p depth k : Nat}

/-! ## Strings -/

namespace Json

theorem codePoints?_plain (hquote : c ≠ '"') (hslash : c ≠ '\\') (hcontrol : ¬ c.toNat < 0x20)
    (rest : Text) :
    codePoints? (c :: rest) = (codePoints? rest).map fun r => (c.toNat :: r.1, r.2) := by
  rw [codePoints?.eq_def]
  split
  · next h => exact absurd (List.cons.inj h).1 hquote
  · next h => exact absurd (List.cons.inj h).1 hslash
  · next h => exact absurd (List.cons.inj h).1 hslash
  · next h =>
      obtain ⟨rfl, rfl⟩ := List.cons.inj h
      rw [if_neg (not_or.mpr ⟨hslash, hcontrol⟩)]
      cases codePoints? rest <;> rfl
  · next h => cases h

theorem codePoints?_letter (hp : escaped? e = some p) (rest : Text) :
    codePoints? ('\\' :: e :: rest) = (codePoints? rest).map fun r => (p :: r.1, r.2) := by
  rw [codePoints?.eq_def]
  split
  · next h => cases (List.cons.inj h).1
  · next h =>
      obtain rfl := (List.cons.inj (List.cons.inj h).2).1
      cases hp
  · next h =>
      obtain ⟨rfl, rfl⟩ := List.cons.inj (List.cons.inj h).2
      rw [hp]
      cases codePoints? rest <;> rfl
  · next hnone h =>
      obtain ⟨rfl, rfl⟩ := List.cons.inj h
      exact absurd rfl (hnone e rest rfl)
  · next h => cases h

theorem unit?_hexDigit : ∀ n < 0x20, unit? '0' '0' (hexDigit (n / 16))
    (hexDigit (n % 16)) = some n := by
  decide

theorem codePoints?_control (hn : n < 0x20) (rest : Text) :
    codePoints? ('\\' :: 'u' :: '0' :: '0' :: hexDigit (n / 16) :: hexDigit (n % 16) :: rest) =
      (codePoints? rest).map fun r => (n :: r.1, r.2) := by
  rw [codePoints?, unit?_hexDigit n hn]
  cases codePoints? rest <;> rfl

/-- Every character is read back from what is written for it. -/
theorem codePoints?_escape (c : Char) (rest : Text) :
    codePoints? (escape c ++ rest) = (codePoints? rest).map fun r => (c.toNat :: r.1, r.2) := by
  rw [escape]
  split_ifs with hquote hslash hbackspace hfeed hline hreturn htab hcontrol
  -- a character with a letter of its own
  any_goals
    subst c
    exact codePoints?_letter rfl rest
  · exact codePoints?_control hcontrol rest
  · exact codePoints?_plain hquote hslash hcontrol rest

theorem codePoints?_encode (t rest : Text) :
    codePoints? (t.flatMap escape ++ '"' :: rest) = some (t.map Char.toNat, rest) := by
  induction t with
  | nil => rfl
  | cons c t ih => rw [List.flatMap_cons, List.append_assoc, codePoints?_escape, ih]; rfl

/-- The code points of a text make the text: none of them is a half of a pair. -/
theorem characters?_map_toNat (t : Text) : characters? (t.map Char.toNat) = some t := by
  induction t with
  | nil => rfl
  | cons c t ih =>
      have hvalid : isHighHalf c.toNat = false ∧ isLowHalf c.toNat = false := by
        have hscalar : c.toNat < 0xD800 ∨ 0xDFFF < c.toNat ∧ c.toNat < 0x110000 := c.valid
        simp only [isHighHalf, isLowHalf, Bool.and_eq_false_iff, decide_eq_false_iff_not]
        omega
      rw [List.map_cons, characters?.eq_def]
      simp only [hvalid, Bool.false_eq_true, if_false, ih, Option.map_some, Char.ofNat_toNat]

end Json

namespace JsonValue

/-! ## Numbers -/

/-- What stands behind a value in a document. -/
def IsBehind (rest : Text) : Prop := ∀ c ∈ rest.head?, c = ',' ∨ c = '\n'

theorem isAsciiDigit_of_mem (h : c ∈ Nat.toDigits 10 n) : CharClass.isAsciiDigit c = true := by
  have hdigit := Nat.isDigit_of_mem_toDigits (by decide) (by decide) h
  simp only [Char.isDigit, Bool.and_eq_true, decide_eq_true_eq] at hdigit
  rw [CharClass.isAsciiDigit, Bool.and_eq_true, decide_eq_true_iff, decide_eq_true_iff]
  exact hdigit

theorem exists_toDigits (n : Nat) : ∃ d ds, Nat.toDigits 10 n = d :: ds ∧
    CharClass.isAsciiDigit d = true := by
  obtain ⟨d, ds, hds⟩ := List.exists_cons_of_ne_nil (Nat.toDigits_ne_nil (n := n) (b := 10))
  exact ⟨d, ds, hds, isAsciiDigit_of_mem (n := n) (hds ▸ List.mem_cons_self)⟩

theorem IsBehind.not_digit (h : IsBehind rest) : ∀ c ∈ rest.head?,
    CharClass.isAsciiDigit c = false := by
  intro c hc
  rcases h c hc with rfl | rfl <;> decide

theorem digits_append {ds : Text} (hds : ∀ c ∈ ds, CharClass.isAsciiDigit c = true)
    (hrest : ∀ c ∈ rest.head?, CharClass.isAsciiDigit c = false) :
    digits (ds ++ rest) = (ds, rest) := by
  rw [digits, List.span_eq_takeWhile_dropWhile, List.takeWhile_append_of_pos hds,
    List.dropWhile_append_of_pos hds]
  cases rest with
  | nil => simp
  | cons c rest => simp [hrest c rfl]

theorem head?_toDigits (hn : n ≠ 0) : (Nat.toDigits 10 n).head? ≠ some '0' := by
  induction n using Nat.strongRecOn with
  | _ n ih =>
      by_cases hlt : n < 10
      · have hdigit : ∀ n < 10, n ≠ 0 → n.digitChar ≠ '0' := by decide
        rw [Nat.toDigits_of_lt_base hlt, List.head?_cons, ne_eq, Option.some.injEq]
        exact hdigit n hlt hn
      · rw [Nat.toDigits_of_base_le (by decide) (Nat.le_of_not_lt hlt), List.head?_append]
        obtain ⟨d, ds, hds, -⟩ := exists_toDigits (n / 10)
        have hhead := ih (n / 10) (by omega) (by omega)
        rwa [hds] at hhead ⊢

theorem wholePart?_toDigits (n : Nat) (hrest : IsBehind rest) :
    wholePart? (Nat.toDigits 10 n ++ rest) = some (Nat.toDigits 10 n, rest) := by
  rw [wholePart?, digits_append (fun c => isAsciiDigit_of_mem) hrest.not_digit]
  split
  · next h => exact absurd (Prod.mk.inj h).1 Nat.toDigits_ne_nil
  · next h =>
      obtain ⟨hdigits, rfl⟩ := Prod.mk.inj h
      rw [hdigits]
  · next h =>
      -- more than one digit, and a zero in front
      obtain ⟨hdigits, -⟩ := Prod.mk.inj h
      have hn : n ≠ 0 := by
        rintro rfl
        cases hdigits
      exact absurd (by rw [hdigits]; rfl) (head?_toDigits hn)
  · next h =>
      obtain ⟨rfl, rfl⟩ := Prod.mk.inj h
      rfl

theorem readNumber?_toDigits (n : Nat) (hrest : IsBehind rest) :
    readNumber? (Nat.toDigits 10 n ++ rest) = some (.number n, rest) := by
  have hfraction : behindFraction? rest = some rest := by
    rw [behindFraction?.eq_def]
    split
    · next c rest => exact absurd (hrest '.' rfl) (by decide)
    · rfl
  have hexponent : behindExponent? rest = some rest := by
    cases rest with
    | nil => rfl
    | cons c rest =>
        rw [behindExponent?, if_neg]
        rintro (rfl | rfl) <;> exact absurd (hrest _ rfl) (by decide)
  have hvalue : valueOf (Nat.toDigits 10 n) = n := Nat.ofDigitChars_toDigits (by decide) (by decide)
  rw [readNumber?, wholePart?_toDigits n hrest]
  · simp [hfraction, hexponent, hvalue]
  · intro t h
    obtain ⟨d, ds, hds, hd⟩ := exists_toDigits n
    rw [hds, List.cons_append] at h
    rw [(List.cons.inj h).1] at hd
    exact absurd hd (by decide)

/-! ## Values -/

mutual

/-- A value that a document can say. -/
def IsPlain : JsonValue → Prop
  | .list vs => AllPlain vs
  | .object kvs => FieldsPlain kvs
  | .other => False
  | _ => True

/-- Items that a document can say. -/
def AllPlain : List JsonValue → Prop
  | [] => True
  | v :: vs => IsPlain v ∧ AllPlain vs

/-- Fields that a document can say. -/
def FieldsPlain : List (Text × JsonValue) → Prop
  | [] => True
  | (_, v) :: kvs => IsPlain v ∧ FieldsPlain kvs

end

mutual

def weight : JsonValue → Nat
  | .list vs => itemsWeight vs + 1
  | .object kvs => fieldsWeight kvs + 1
  | _ => 1

def itemsWeight : List JsonValue → Nat
  | [] => 0
  | v :: vs => weight v + itemsWeight vs + 1

/-- How deep the fields of an object have to be read. -/
def fieldsWeight : List (Text × JsonValue) → Nat
  | [] => 0
  | (_, v) :: kvs => weight v + fieldsWeight kvs + 1

end

mutual

theorem weight_le_length (k : Nat) : ∀ v : JsonValue, weight v ≤ (renderAt k v).length
  | .null => by simp [weight, renderAt]
  | .bool true => by simp [weight, renderAt]
  | .bool false => by simp [weight, renderAt]
  | .number n => Nat.length_toDigits_pos
  | .text t => by simp [weight, renderAt, Json.encode]
  | .list [] => by simp [weight, itemsWeight, renderAt]
  | .list (v :: vs) => by
      have hv := weight_le_length (k + 1) v
      have hvs := itemsWeight_le_length (k + 1) vs
      simp only [weight, itemsWeight, renderAt, List.length_append, List.length_cons]
      omega
  | .object [] => by simp [weight, fieldsWeight, renderAt]
  | .object ((key, v) :: kvs) => by
      have hv := weight_le_length (k + 1) v
      have hkvs := fieldsWeight_le_length (k + 1) kvs
      simp only [weight, fieldsWeight, renderAt, List.length_append, List.length_cons]
      omega
  | .other => by simp [weight, renderAt]

theorem itemsWeight_le_length (k : Nat) : ∀ vs : List JsonValue,
    itemsWeight vs ≤ (renderItems k vs).length
  | [] => Nat.zero_le _
  | v :: vs => by
      have hv := weight_le_length k v
      have hvs := itemsWeight_le_length k vs
      simp only [itemsWeight, renderItems, List.length_append, List.length_cons]
      omega

theorem fieldsWeight_le_length (k : Nat) :
    ∀ kvs : List (Text × JsonValue), fieldsWeight kvs ≤ (renderFields k kvs).length
  | [] => Nat.zero_le _
  | (key, v) :: kvs => by
      have hv := weight_le_length k v
      have hkvs := fieldsWeight_le_length k kvs
      simp only [fieldsWeight, renderFields, List.length_append, List.length_cons]
      omega

end

/-! ## White space -/

theorem skipBlank_append (hlead : ∀ c ∈ lead, isBlank c = true) (t : Text) :
    skipBlank (lead ++ t) = skipBlank t :=
  List.dropWhile_append_of_pos hlead

theorem skipBlank_cons (hc : isBlank c = false) (t : Text) : skipBlank (c :: t) = c :: t := by
  rw [skipBlank, List.dropWhile_cons, hc, if_neg Bool.false_ne_true]

theorem isBlank_newLine (k : Nat) : ∀ c ∈ newLine k, isBlank c = true :=
  List.forall_mem_cons.mpr ⟨rfl, fun c hc => by rw [(List.mem_replicate.mp hc).2]; rfl⟩

theorem readValue?_blank (hlead : ∀ c ∈ lead, isBlank c = true) (depth : Nat) (t : Text) :
    readValue? depth (lead ++ t) = readValue? depth t := by
  cases depth with
  | zero => rfl
  | succ depth => rw [readValue?, readValue?, skipBlank_append hlead]

theorem isBlank_of_isAsciiDigit (h : CharClass.isAsciiDigit c = true) : isBlank c = false := by
  refine Bool.eq_false_iff.mpr fun hblank => ?_
  simp only [isBlank, Bool.or_eq_true, beq_iff_eq] at hblank
  rcases hblank with ((rfl | rfl) | rfl) | rfl <;> exact absurd h (by decide)

theorem exists_head_renderAt (k : Nat) (v : JsonValue) :
    ∃ c t, renderAt k v = c :: t ∧ isBlank c = false ∧ c ≠ ']' := by
  rcases v with _ | _ | n | t | vs | kvs | _
  · exact ⟨'n', _, rfl, rfl, by decide⟩
  · next b => cases b <;> exact ⟨_, _, rfl, rfl, by decide⟩
  · obtain ⟨d, ds, hds, hd⟩ := exists_toDigits n
    refine ⟨d, ds, hds, isBlank_of_isAsciiDigit hd, ?_⟩
    rintro rfl
    exact absurd hd (by decide)
  · exact ⟨'"', _, rfl, rfl, by decide⟩
  · cases vs <;> exact ⟨'[', _, rfl, rfl, by decide⟩
  · rcases kvs with _ | ⟨⟨_, _⟩, _⟩ <;> exact ⟨'\x7b', _, rfl, rfl, by decide⟩
  · exact ⟨'n', _, rfl, rfl, by decide⟩

/-! ## Reading values -/

theorem readValue?_digit (hc : CharClass.isAsciiDigit c = true) (depth : Nat) (t : Text) :
    readValue? (depth + 1) (c :: t) = readNumber? (c :: t) := by
  rw [readValue?, skipBlank_cons (isBlank_of_isAsciiDigit hc)]
  split
  case h_7 => rfl
  -- no other value starts with a digit
  all_goals
    next h =>
      rw [(List.cons.inj h).1] at hc
      exact absurd hc (by decide)

theorem readValue?_quote (depth : Nat) (t : Text) : readValue? (depth + 1) ('"' :: t) =
    (Json.codePoints? t).map fun r =>
    (((Json.characters? r.1).map JsonValue.text).getD .other, r.2) := by
  rw [readValue?, skipBlank_cons rfl]
  show (Json.codePoints? t).bind _ = _
  cases Json.codePoints? t <;> rfl

/-- A list behind its opening bracket and the blanks there. -/
def listFrom? (depth : Nat) (t : Text) : Option (JsonValue × Text) :=
  match t with
  | ']' :: rest => some (.list [], rest)
  | rest => do
    let (items, rest) ← readItems? depth rest
    return (.list items, rest)

/-- An object behind its opening brace and the blanks there. -/
def objectFrom? (depth : Nat) (t : Text) : Option (JsonValue × Text) :=
  match t with
  | '\x7d' :: rest => some (.object [], rest)
  | rest => do
    let (kvs, rest) ← readFields? depth rest
    return (ofFields kvs, rest)

theorem readValue?_bracket (hskip : skipBlank t = c :: u) (hc : c ≠ ']') (depth : Nat) :
    readValue? (depth + 1) ('[' :: t) =
      (readItems? depth (c :: u)).map fun r => (.list r.1, r.2) := by
  have hread : readValue? (depth + 1) ('[' :: t) = listFrom? depth (skipBlank t) := by
    rw [readValue?, skipBlank_cons rfl]
    rfl
  rw [hread, hskip, listFrom?]
  · cases readItems? depth (c :: u) <;> rfl
  · exact fun rest h => hc (List.cons.inj h).1

theorem readValue?_brace (hskip : skipBlank t = '"' :: u) (depth : Nat) :
    readValue? (depth + 1) ('\x7b' :: t) =
      (readFields? depth ('"' :: u)).map fun r => (ofFields r.1, r.2) := by
  have hread : readValue? (depth + 1) ('\x7b' :: t) = objectFrom? depth (skipBlank t) := by
    rw [readValue?, skipBlank_cons rfl]
    rfl
  have hobject : objectFrom? depth ('"' :: u) =
      (readFields? depth ('"' :: u)).bind fun r => some (ofFields r.1, r.2) := rfl
  rw [hread, hskip, hobject]
  cases readFields? depth ('"' :: u) <;> rfl

/-! ## Reading the parts of a value -/

/-- The items of a list from a value on that has been read. -/
def itemsFrom? (depth : Nat) (v : JsonValue) (rest : Text) : Option (List JsonValue × Text) :=
  match skipBlank rest with
  | ',' :: rest => (readItems? depth rest).map fun r => (v :: r.1, r.2)
  | ']' :: rest => some ([v], rest)
  | _ => none

theorem readItems?_succ (depth : Nat) (t : Text) :
    readItems? (depth + 1) t = (readValue? depth t).bind fun r => itemsFrom? depth r.1 r.2 := by
  rw [readItems?]
  cases readValue? depth t with
  | none => rfl
  | some r =>
      show (match skipBlank r.2 with | ',' :: rest => _ | ']' :: rest => _ | _ => _) =
          itemsFrom? depth r.1 r.2
      rw [itemsFrom?]
      split
      · next rest _ => cases readItems? depth rest <;> rfl
      · rfl
      · rfl

/-- The fields of an object from a field on whose key and value have been read. -/
def fieldsFrom? (depth : Nat) (field : Option Text × JsonValue) (rest : Text) :
    Option (List (Option Text × JsonValue) × Text) :=
  match skipBlank rest with
  | ',' :: rest => (readFields? depth rest).map fun r => (field :: r.1, r.2)
  | '\x7d' :: rest => some ([field], rest)
  | _ => none

theorem readFields?_key (hlead : ∀ c ∈ lead, isBlank c = true) (depth : Nat) (key rest : Text) :
    readFields? (depth + 1) (lead ++ (Json.encode key ++ (": ".toList ++ rest))) =
      (readValue? depth rest).bind fun r => fieldsFrom? depth (some key, r.1) r.2 := by
  have hkey : Json.encode key ++ (": ".toList ++ rest) =
      '"' :: (key.flatMap Json.escape ++ '"' :: (':' :: ([' '] ++ rest))) := by
    rw [Json.encode, List.append_assoc]
    rfl
  rw [readFields?, skipBlank_append hlead, hkey, skipBlank_cons rfl]
  show (Json.codePoints? _).bind _ = _
  rw [Json.codePoints?_encode, Option.bind_some]
  show (readValue? depth ([' '] ++ rest)).bind _ = _
  rw [readValue?_blank (by simp [isBlank])]
  cases readValue? depth rest with
  | none => rfl
  | some r =>
      show (match skipBlank r.2 with | ',' :: rest => _ | '\x7d' :: rest => _ | _ => _) =
        fieldsFrom? depth _ r.2
      rw [fieldsFrom?, Json.characters?_map_toNat]
      split
      · next rest _ => cases readFields? depth rest <;> rfl
      · rfl
      · rfl

theorem ofFields_map (kvs : List (Text × JsonValue)) :
    ofFields (kvs.map fun kv => (some kv.1, kv.2)) = .object kvs := by
  have hall : ∀ f : Option Text × JsonValue → Option (Text × JsonValue),
      (∀ k v, f (some k, v) = some (k, v)) →
      (kvs.map fun kv => (some kv.1, kv.2)).mapM f = some kvs := fun f hf => by
    induction kvs with
    | nil => rfl
    | cons kv kvs ih => rw [List.map_cons, List.mapM_cons, ih, hf]; rfl
  rw [ofFields, hall _ fun _ _ => rfl]

theorem isBehind_newLine (k : Nat) (rest : Text) : IsBehind (newLine k ++ rest) :=
  fun _ hc => .inr (Option.some.inj hc).symm

theorem isBehind_nil : IsBehind [] := fun _ hc => by cases hc

theorem isBehind_comma (rest : Text) : IsBehind (',' :: rest) :=
  fun _ hc => .inl (Option.some.inj hc).symm

theorem isBehind_renderItems (k j : Nat) (vs : List JsonValue) (rest : Text) :
    IsBehind (renderItems k vs ++ (newLine j ++ rest)) := by
  cases vs with
  | nil => exact isBehind_newLine j rest
  | cons v vs => exact isBehind_comma _

theorem isBehind_renderFields (k j : Nat) (kvs : List (Text × JsonValue)) (rest : Text) :
    IsBehind (renderFields k kvs ++ (newLine j ++ rest)) := by
  cases kvs with
  | nil => exact isBehind_newLine j rest
  | cons kv kvs => exact isBehind_comma _

mutual

/-- A value is read from what is written for it, at whatever depth it stands. -/
theorem readValue?_renderAt (k : Nat) : ∀ (v : JsonValue) {depth : Nat} {rest : Text}, IsPlain v →
    weight v ≤ depth → IsBehind rest → readValue? depth (renderAt k v ++ rest) = some (v, rest)
  | .null, depth + 1, rest, _, _, _ => rfl
  | .bool true, depth + 1, rest, _, _, _ => rfl
  | .bool false, depth + 1, rest, _, _, _ => rfl
  | .number n, depth + 1, rest, _, _, hrest => by
      obtain ⟨d, ds, hds, hd⟩ := exists_toDigits n
      have hnumber := readNumber?_toDigits n hrest
      rw [hds, List.cons_append] at hnumber
      rw [renderAt, hds, List.cons_append, readValue?_digit hd, hnumber]
  | .text t, depth + 1, rest, _, _, _ => by
      have hdocument : renderAt k (.text t) ++ rest = '"' ::
          (t.flatMap Json.escape ++ '"' :: rest) := by
        simp only [renderAt, Json.encode, List.cons_append, List.append_assoc, List.nil_append]
      rw [hdocument, readValue?_quote, Json.codePoints?_encode, Option.map_some,
        Json.characters?_map_toNat]
      rfl
  | .list [], depth + 1, rest, _, _, _ => rfl
  | .list (v :: vs), depth + 2, rest, hplain, hdepth, hrest => by
      obtain ⟨hv, hvs⟩ := hplain
      rw [weight, itemsWeight] at hdepth
      obtain ⟨c, t, hhead, hblank, hbracket⟩ := exists_head_renderAt (k + 1) v
      have hitems : readItems? (depth + 1) (renderAt (k + 1) v ++ (renderItems (k + 1) vs ++
          (newLine k ++ ']' :: rest))) = some (v :: vs, rest) := by
        rw [readItems?_succ,
          readValue?_renderAt (k + 1) v hv (by omega) (isBehind_renderItems _ _ _ _),
          Option.bind_some, itemsFrom?_renderItems (k + 1) k v vs hvs (by omega)]
      have hdocument : renderAt k (.list (v :: vs)) ++ rest = '[' :: (newLine (k + 1) ++
          (renderAt (k + 1) v ++ (renderItems (k + 1) vs ++ (newLine k ++ ']' :: rest)))) := by
        simp only [renderAt, List.cons_append, List.append_assoc, List.nil_append]
      rw [hhead, List.cons_append] at hdocument hitems
      rw [hdocument, readValue?_bracket ((skipBlank_append (isBlank_newLine _) _).trans
        (skipBlank_cons hblank _)) hbracket, hitems]
      rfl
  | .object [], depth + 1, rest, _, _, _ => rfl
  | .object ((key, v) :: kvs), depth + 2, rest, hplain, hdepth, hrest => by
      obtain ⟨hv, hkvs⟩ := hplain
      rw [weight, fieldsWeight] at hdepth
      have hfields :
          readFields? (depth + 1) (Json.encode key ++ (": ".toList ++ (renderAt (k + 1) v ++
          (renderFields (k + 1) kvs ++ (newLine k ++ '\x7d' :: rest))))) =
            some (((key, v) :: kvs).map fun kv => (some kv.1, kv.2), rest) := by
        rw [← List.nil_append (Json.encode key ++ _), readFields?_key (by simp),
          readValue?_renderAt (k + 1) v hv (by omega) (isBehind_renderFields _ _ _ _),
          Option.bind_some, fieldsFrom?_renderFields (k + 1) k (key, v) kvs hkvs (by omega)]
      have hdocument : renderAt k (.object ((key, v) :: kvs)) ++ rest = '\x7b' ::
          (newLine (k + 1) ++
          (Json.encode key ++ (": ".toList ++ (renderAt (k + 1) v ++
            (renderFields (k + 1) kvs ++ (newLine k ++ '\x7d' :: rest)))))) := by
        simp only [renderAt, List.cons_append, List.append_assoc, List.nil_append]
      rw [hdocument, readValue?_brace (skipBlank_append (isBlank_newLine _) _)]
      exact (congrArg _ hfields).trans (by rw [Option.map_some, ofFields_map])

/-- The items behind one that has been read. -/
theorem itemsFrom?_renderItems (k j : Nat) (first : JsonValue) :
    ∀ (vs : List JsonValue) {depth : Nat} {rest : Text}, AllPlain vs → itemsWeight vs ≤ depth →
      itemsFrom? depth first (renderItems k vs ++ (newLine j ++ ']' :: rest)) = some (first :: vs,
        rest)
  | [], depth, rest, _, _ => by
      rw [itemsFrom?, renderItems, List.nil_append, skipBlank_append (isBlank_newLine j),
        skipBlank_cons rfl]
      rfl
  | v :: vs, depth + 1, rest, hplain, hdepth => by
      obtain ⟨hv, hvs⟩ := hplain
      rw [itemsWeight] at hdepth
      have hdocument : renderItems k (v :: vs) ++ (newLine j ++ ']' :: rest) = ',' :: (newLine k ++
          (renderAt k v ++ (renderItems k vs ++ (newLine j ++ ']' :: rest)))) := by
        simp only [renderItems, List.cons_append, List.append_assoc]
      rw [hdocument, itemsFrom?, skipBlank_cons rfl]
      show (readItems? (depth + 1) _).map _ = _
      rw [readItems?_succ, readValue?_blank (isBlank_newLine k),
        readValue?_renderAt k v hv (by omega)
        (isBehind_renderItems _ _ _ _), Option.bind_some,
        itemsFrom?_renderItems k j v vs hvs (by omega)]
      rfl

/-- The fields behind one that has been read. -/
theorem fieldsFrom?_renderFields (k j : Nat) (first : Text × JsonValue) :
    ∀ (kvs : List (Text × JsonValue)) {depth : Nat} {rest : Text}, FieldsPlain kvs →
      fieldsWeight kvs ≤ depth →
        fieldsFrom? depth (some first.1, first.2)
        (renderFields k kvs ++ (newLine j ++ '\x7d' :: rest)) =
          some ((first :: kvs).map fun kv => (some kv.1, kv.2), rest)
  | [], depth, rest, _, _ => by
      rw [fieldsFrom?, renderFields, List.nil_append, skipBlank_append (isBlank_newLine j),
        skipBlank_cons rfl]
      rfl
  | (key, v) :: kvs, depth + 1, rest, hplain, hdepth => by
      obtain ⟨hv, hkvs⟩ := hplain
      rw [fieldsWeight] at hdepth
      have hdocument : renderFields k ((key, v) :: kvs) ++ (newLine j ++ '\x7d' :: rest) = ',' ::
          (newLine k ++
          (Json.encode key ++ (": ".toList ++ (renderAt k v ++ (renderFields k kvs ++
            (newLine j ++ '\x7d' :: rest)))))) := by
        simp only [renderFields, List.cons_append, List.append_assoc]
      rw [hdocument, fieldsFrom?, skipBlank_cons rfl]
      show (readFields? (depth + 1) _).map _ = _
      rw [readFields?_key (isBlank_newLine k), readValue?_renderAt k v hv (by omega)
        (isBehind_renderFields _ _ _ _), Option.bind_some,
        fieldsFrom?_renderFields k j (key, v) kvs hkvs (by omega)]
      rfl

end

/-- The value of a document is read back from it. -/
theorem read?_render {v : JsonValue} (h : IsPlain v) : read? v.render = some v := by
  have hdepth : weight v ≤ 2 * v.render.length + 2 := by
    have hlength := weight_le_length 0 v
    rw [render]
    omega
  have hread := readValue?_renderAt 0 v h hdepth isBehind_nil
  rw [List.append_nil, ← render] at hread
  rw [read?, hread]
  rfl

end JsonValue

end ServiceGate
