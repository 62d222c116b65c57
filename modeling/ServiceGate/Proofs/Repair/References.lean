/-
# Where what is rewritten starts

The patterns of three repairs ask for a word edge where the occurrence starts.  So no character of a
word stands in front of one that starts with such a character, and one does in front of a name that
starts with a dollar sign.  A dollar sign and the dot of a member access are characters of no word:
behind them the repairs rewrite a part of a longer name or chain (`not_always_startsReference`).
Everywhere else what they rewrite starts a reference of its own (`startsReference_iff`).

`StartsReference` is a condition on the text in front of a place: that nothing there joins on to
what follows.  Where a word may start it holds exactly if the text does not end in a dollar sign or
in the dot of a chain (`startsReference_iff_of_wordStart`), so what is to be shown of the three
patterns is that what they match starts with a character of a word.
-/
import ServiceGate.Proofs.Rule.Unnarrowed

namespace ServiceGate

open Pattern
open Text (size)

variable {t p : Text} {q : Pattern} {m : Match} {a : Nat × Nat}

/-- A reference of its own starts behind the text: no name goes on there, and no chain of members;
three dots spread what follows. -/
def StartsReference (p : Text) : Prop :=
  (∀ c ∈ p.getLast?, isNameChar c = false) ∧ (p.getLast? = some '.' → "...".toList <:+ p)

/-- The text ends in a dollar sign, or in the dot of a member access. -/
def EndsJoined (p : Text) : Prop :=
  p.getLast? = some '$' ∨ p.getLast? = some '.' ∧ ¬ "...".toList <:+ p

instance (p : Text) : Decidable (StartsReference p) :=
  inferInstanceAs (Decidable ((∀ c ∈ p.getLast?, isNameChar c = false) ∧
    (p.getLast? = some '.' → "...".toList <:+ p)))

instance (p : Text) : Decidable (EndsJoined p) :=
  inferInstanceAs (Decidable (p.getLast? = some '$' ∨ p.getLast? = some '.' ∧ ¬ "...".toList <:+ p))

theorem startsReference_iff_of_wordStart (h : WordStart p) : StartsReference p ↔
    ¬ EndsJoined p := by
  constructor
  · rintro ⟨hname, hspread⟩ (hdollar | ⟨hdot, hno⟩)
    · exact absurd (hname '$' hdollar) (by decide)
    · exact hno (hspread hdot)
  · intro hno
    refine ⟨fun c hc => ?_, fun hdot => by_contra fun h => hno (.inr ⟨hdot, h⟩)⟩
    have hword : CharClass.isWord c = false := by
      rwa [WordStart, Option.mem_def.mp hc, Option.any_some] at h
    rw [isNameChar, hword, Bool.false_or, beq_eq_false_iff_ne]
    rintro rfl
    exact hno (.inl hc)

theorem not_startsReference (h : ¬ WordStart p) : ¬ StartsReference p := by
  rintro ⟨hname, -⟩
  refine h ?_
  rw [WordStart]
  cases hlast : p.getLast? with
  | none => rfl
  | some c =>
      have hc := hname c hlast
      rw [isNameChar, Bool.or_eq_false_iff] at hc
      exact hc.1

/-- A match of a pattern that asks for a word edge first starts a reference of its own, if it starts
with a character of a word and no name or chain goes on there; and in no other case. -/
theorem exists_start_of_mem_all (hm : m ∈ (seq wordEdge q).all t) (hq : q.takes = true) : ∃ p back,
    t = p ++ (m.text ++ back) ∧ m.start = size p ∧
      (StartsReference p ↔ m.text.head?.any CharClass.isWord = true ∧ ¬ EndsJoined p) := by
  obtain ⟨p, back, hcut, hstart, -, hleads⟩ := exists_leads_of_mem_all hm
  refine ⟨p, back, hcut, hstart, ?_⟩
  obtain ⟨c, w, htext⟩ := List.exists_cons_of_ne_nil (spells_ne_nil (in_of_mem_all hm).spells hq)
  obtain ⟨e, rest, cs, hrest, he, hedge, -⟩ := leads_past_seq hleads
  have hedge := leads_past_wordEdge hedge
  rw [htext, List.cons_append, List.head?_cons] at hedge
  rw [htext, List.head?_cons]
  cases hword : (some c).any CharClass.isWord with
  | true =>
      rw [hword] at hedge
      rw [startsReference_iff_of_wordStart (Bool.eq_false_iff.mpr hedge)]
      exact (and_iff_right rfl).symm
  | false =>
      rw [hword] at hedge
      exact iff_of_false (not_startsReference hedge) fun h => Bool.false_ne_true h.1

/-! ## The three repairs -/

open Repair

theorem getLast?_of_isCall {call : Text} (h : IsCall call) (front : Text) :
    ∃ c, (front ++ call).getLast? = some c ∧ CharClass.isWord c = false ∧ c ≠ '$' ∧ c ≠ '.' := by
  obtain ⟨k, -, blanks, rfl, hblanks⟩ := h
  rcases List.eq_nil_or_concat blanks with rfl | ⟨blanks, c, rfl⟩
  · exact ⟨'(', by simp, by decide, by decide, by decide⟩
  · have hspace := hblanks c (by simp)
    refine ⟨c, ?_, CharClass.isWord_of_isSpace hspace, ?_, ?_⟩
    · rw [List.concat_eq_append, ← List.cons_append, ← List.append_assoc, ← List.append_assoc,
        List.getLast?_concat]
    all_goals
      rintro rfl
      exact absurd hspace (by decide)

theorem wordStart_of_isCall {call : Text} (h : IsCall call) (front : Text) :
    WordStart (front ++ call) ∧ ¬ EndsJoined (front ++ call) := by
  obtain ⟨c, hlast, hword, hdollar, hdot⟩ := getLast?_of_isCall h front
  rw [WordStart, EndsJoined, hlast]
  refine ⟨hword, ?_⟩
  rintro (h | ⟨h, -⟩)
  · exact hdollar (Option.some.inj h)
  · exact hdot (Option.some.inj h)

theorem wordStart_of_consumed {back : Text} (h : Consumed p back) : WordStart p := by
  cases h with
  | @converted front call hp _ hcall _ =>
      rw [hp]
      exact (wordStart_of_isCall hcall front).1
  | called hp _ => exact hp

theorem head?_of_call {name : Text} (hname : name ≠ []) {call : Pattern}
    (hcall : call ∈ [callOf name, memberCallOf name]) {u : Text} (h : Spells call u) :
    u.head? = name.head? := by
  have hword : ∀ {rest : Pattern} {u : Text}, Spells (seq wordEdge (seq (literal name) rest)) u →
      u.head? = name.head? := fun h => by
    obtain ⟨e, _, rfl, he, h⟩ := spells_seq h
    obtain ⟨w, rest, rfl, hw, -⟩ := spells_seq h
    rw [spells_wordEdge he, spells_literal hw, List.nil_append, List.head?_append_of_ne_nil _ hname]
  simp only [List.mem_cons, List.not_mem_nil, or_false] at hcall
  rcases hcall with rfl | rfl
  · exact hword h
  · exact hword h

/-- What the repairs of parameters, of types and of calls rewrite starts a reference of its own,
unless a dollar sign or the dot of a member access stands in front; a name starts one only if it
starts with a character of a word. -/
theorem startsReference_iff (t : Text) :
    (∀ a ∈ parameterSpans (.of t), ∃ p w back, t = p ++ (w ++ back) ∧
      a = (size p, size p + size w) ∧ (StartsReference p ↔ ¬ EndsJoined p)) ∧
    (∀ m ∈ codeMatches Forbidden.qualifiedType (.of t), ∃ p back, t = p ++ (m.text ++ back) ∧
      m.start = size p ∧ (StartsReference p ↔ ¬ EndsJoined p)) ∧
    ∀ name, name ≠ [] → ∀ call ∈ [callOf name, memberCallOf name], ∀ m ∈ codeMatches call (.of t),
      ∃ p back, t = p ++ (m.text ++ back) ∧ m.start = size p ∧
        (StartsReference p ↔ name.head?.any CharClass.isWord = true ∧ ¬ EndsJoined p) := by
  refine ⟨fun a ha => ?_, fun m hm => ?_, fun name hname call hcall m hm => ?_⟩
  · obtain ⟨p, w, back, hun, -, rfl⟩ := mem_parameterSpans_iff.mp ha
    exact ⟨p, w, back, hun.cut, rfl,
      startsReference_iff_of_wordStart (wordStart_of_consumed hun.consumed)⟩
  · have hall := (List.mem_filter.mp hm).1
    obtain ⟨p, back, hcut, hstart, hiff⟩ := exists_start_of_mem_all hall rfl
    obtain ⟨e, _, htext, he, h⟩ := spells_seq (in_of_mem_all hall).spells
    obtain ⟨head, rest, rfl, hhead, -⟩ := spells_seq h
    rw [spells_wordEdge he, spells_literal hhead] at htext
    refine ⟨p, back, hcut, hstart, hiff.trans (and_iff_right ?_)⟩
    rw [htext, List.nil_append]
    exact head?_append_of_any (by decide)
  · have hall := (List.mem_filter.mp hm).1
    have hhead := head?_of_call hname hcall (in_of_mem_all hall).spells
    rw [← hhead]
    simp only [List.mem_cons, List.not_mem_nil, or_false] at hcall
    rcases hcall with rfl | rfl
    · exact exists_start_of_mem_all hall ((Bool.or_eq_true _ _).mpr (.inr rfl))
    · exact exists_start_of_mem_all hall ((Bool.or_eq_true _ _).mpr (.inr rfl))

/-- A member of another object, which is wrapped as if it was a parameter of the request. -/
def memberParameter : Text := "ctx.req.query.q.trim();\n".toList

/-- A parameter behind a dot, a type behind one and a call behind one are rewritten, too. -/
theorem not_always_startsReference : ¬ ∀ t : Text,
    (∀ a ∈ parameterSpans (.of t), ∀ p w back, t = p ++ (w ++ back) →
      a = (size p, size p + size w) → StartsReference p) ∧
    (∀ m ∈ codeMatches Forbidden.qualifiedType (.of t), ∀ p back, t = p ++ (m.text ++ back) →
      m.start = size p → StartsReference p) ∧
    ∀ name, name ≠ [] → ∀ call ∈ [callOf name, memberCallOf name], ∀ m ∈ codeMatches call (.of t),
      ∀ p back, t = p ++ (m.text ++ back) → m.start = size p → StartsReference p := by
  intro h
  have hspan : ∃ m ∈ Forbidden.convertedParameter.all memberParameter ++
      Forbidden.parameterMethod.all memberParameter, ∃ g ∈ m.group? 1,
        (Scan.Source.of memberParameter).isCodeAt g.start = true ∧ (g.start, g.stop) = (4, 15) := by
    decide
  have hcut : memberParameter = "ctx.".toList ++ ("req.query.q".toList ++ ".trim();\n".toList) ∧
      ((4, 15) : Nat × Nat) = (size "ctx.".toList, size "ctx.".toList + size "req.query.q".toList) ∧
      ¬ StartsReference "ctx.".toList := by
    decide
  exact hcut.2.2 ((h memberParameter).1 (4, 15) (mem_parameterSpans.mpr hspan) _ _ _ hcut.1
    hcut.2.1)

end ServiceGate
