/-
# Cuts in the analysis of handlers

One cut of a handler can be refused: the stretch from behind a `try` block to the end of the
arguments is no part of the text where the block closes behind them, which a block does whose
brackets the literals around it have taken apart.  Checking every cut refuses this one and no other
(`routesHandling_eq`).  Where every `try` block closes inside of its arguments, if it closes at all
(`TryBlocksClose`), nothing is refused (`answers_routesHandling`).

The analysis stops as soon as it has an answer: one `try` block that guards a call is enough, and
one call that nothing guards settles the handler. So the refusal comes up only if the search gets
that far. An analysis `Answers` if it has a result at all; the lemmas on `anyM`, `allM`, `filterM`
and `mapM` carry that through the loops, and `answers_guards` alone uses the condition.
-/
import ServiceGate.Proofs.Checked.Rules
import ServiceGate.Rule.Handlers

namespace ServiceGate

open Scan
open Text (Bounds)

variable {α β : Type} {s : Source} {t : Text} {r : Route} {start stop close : Nat}

theorem bounds_of_argsSpan? (h : r.argsSpan? t = some (start, stop)) : Bounds t start stop := by
  obtain ⟨close, hclose, hspan⟩ := Option.map_eq_some_iff.mp h
  obtain ⟨rfl, rfl⟩ := Prod.mk.inj hspan
  exact (bounds_of_matchingClose? hclose).1

namespace Checked

/-! ## The analysis -/

/-- Whether the block behind offset `close` is a `catch` that names the validation error. -/
def catchesValidation (s : Source) (close stop : Nat) : Except SpanFault Bool := do
  match Rule.catchBlock.first? (← cut s.blanked (close + 1) stop) with
  | none => return false
  | some m =>
    let braceAt := close + m.stop
    match matchingClose? s.text braceAt with
    | none => return false
    | some braceClose =>
      return Text.contains (← cut s.blanked braceAt braceClose) "ZodError".toList

/-- Whether the `try` block with its brace at `braceAt` guards the call at `offset`. -/
def guards (s : Source) (stop offset braceAt : Nat) : Except SpanFault Bool :=
  match matchingClose? s.text braceAt with
  | none => return false
  | some close =>
    if braceAt < offset && offset < close then catchesValidation s close stop else return false

/-- Whether some `try` block between `start` and `stop` guards the call at `offset`. -/
def isGuarded (s : Source) (start stop offset : Nat) : Except SpanFault Bool := do
  (Rule.tryBlock.all (← cut s.blanked start stop)).anyM fun m =>
    guards s stop offset (start + m.stop - 1)

/-- How the handler between two offsets treats the request body. -/
def bodyHandling (s : Source) (start stop : Nat) : Except SpanFault Rule.BodyHandling := do
  let body ← cut s.blanked start stop
  if !Rule.bodyRead.occursIn body then return .unread
  let calls := Rule.validationCalls start body
  if calls.isEmpty then return .unvalidated
  let guarded ← calls.allM fun call =>
    if call.safe then pure (Rule.successCheck.occursIn body) else isGuarded s start stop call.offset
  return if guarded then .guarded else .unguarded

/-- The changing routes whose handlers treat the body in a given way. -/
def routesHandling (handling : Rule.BodyHandling) (s : Source) : Except SpanFault (List Route) :=
  ((Route.all s).filter (·.isMutation)).filterM fun r =>
    match r.argsSpan? s.text with
    | none => pure false
    | some (start, stop) => return (← bodyHandling s start stop) = handling

/-- Changing routes that read the body and validate nothing. -/
def unvalidatedMutations (ctx : Context) : Except SpanFault (List Finding) := do
  return (← routesHandling .unvalidated ctx.source).map fun r =>
    Rule.routeFinding r "reads req.body without validating it against a schema"

/-- Changing routes whose validation is not guarded. -/
def unguardedValidations (ctx : Context) : Except SpanFault (List Finding) := do
  return (← routesHandling .unguarded ctx.source).map fun r =>
    Rule.routeFinding r
      "validates the body without a try/catch that handles ZodError (or a safeParse success check)"

theorem catchesValidation_eq (s : Source) (close stop : Nat) :
    catchesValidation s close stop = Rule.catchesValidation s close stop := by
  rw [catchesValidation, Rule.catchesValidation, cut]
  cases s.blanked.between? (close + 1) stop with
  | none => rfl
  | some behind =>
      simp only [ok_bind]
      cases Rule.catchBlock.first? behind with
      | none => rfl
      | some m =>
          simp only
          cases hclose : matchingClose? s.text (close + m.stop) with
          | none => rfl
          | some braceClose =>
              obtain ⟨hbounds, hbrace, -⟩ := bounds_of_matchingClose? hclose
              have hblock : Bounds s.text (close + m.stop) braceClose :=
                ⟨Nat.le_of_succ_le hbounds.le, hbrace, hbounds.stop⟩
              simp only [cut_eq (bounds_blanked hblock)]
              rfl

theorem guards_eq (s : Source) (stop offset braceAt : Nat) :
    guards s stop offset braceAt = Rule.guards s stop offset braceAt := by
  rw [guards, Rule.guards]
  cases matchingClose? s.text braceAt with
  | none => rfl
  | some close =>
      simp only [catchesValidation_eq]
      rfl

theorem isGuarded_eq (h : Bounds s.blanked start stop) (offset : Nat) :
    isGuarded s start stop offset = Rule.isGuarded s start stop offset := by
  simp only [isGuarded, cut_eq h, ok_bind, guards_eq]
  rfl

theorem bodyHandling_eq (h : Bounds s.blanked start stop) :
    bodyHandling s start stop = Rule.bodyHandling s start stop := by
  simp only [bodyHandling, cut_eq h, ok_bind, isGuarded_eq h]
  rfl

theorem routesHandling_eq (handling : Rule.BodyHandling) (s : Source) :
    routesHandling handling s = Rule.routesHandling handling s := by
  rw [routesHandling, Rule.routesHandling]
  congr 1
  funext r
  cases hspan : r.argsSpan? s.text with
  | none => rfl
  | some span => simp only [bodyHandling_eq (bounds_blanked (bounds_of_argsSpan? hspan))]

theorem unvalidatedMutations_eq (ctx : Context) :
    unvalidatedMutations ctx = Rule.unvalidatedMutations ctx := by
  rw [unvalidatedMutations, Rule.unvalidatedMutations, routesHandling_eq]

theorem unguardedValidations_eq (ctx : Context) :
    unguardedValidations ctx = Rule.unguardedValidations ctx := by
  rw [unguardedValidations, Rule.unguardedValidations, routesHandling_eq]

end Checked

/-! ## Where nothing is refused -/

/-- Whether every `try` block in the arguments of a changing route that closes at all closes in
front of their end. -/
def TryBlocksClose (t : Text) : Prop :=
  ∀ r ∈ Route.all (.of t), r.isMutation = true → ∀ span ∈ (r.argsSpan? t).toList,
    ∀ m ∈ Rule.tryBlock.all ((blank t).between span.1 span.2),
      ∀ close ∈ (matchingClose? t (span.1 + m.stop - 1)).toList, close < span.2

instance (t : Text) : Decidable (TryBlocksClose t) :=
  inferInstanceAs (Decidable (∀ r ∈ Route.all (.of t), _ → ∀ span ∈ (r.argsSpan? t).toList, _))

/-- A check with an answer. -/
def Answers (x : Except SpanFault α) : Prop := ∃ a, x = .ok a

theorem Answers.bind {x : Except SpanFault α} {f : α → Except SpanFault β} (hx : Answers x)
    (hf : ∀ a, Answers (f a)) : Answers (x >>= f) := by
  obtain ⟨a, rfl⟩ := hx
  exact hf a

theorem answers_anyM {f : α → Except SpanFault Bool} : ∀ {l : List α}, (∀ a ∈ l, Answers (f a)) →
    Answers (l.anyM f)
  | [], _ => ⟨false, rfl⟩
  | a :: l, h => by
      obtain ⟨ha, hl⟩ := List.forall_mem_cons.mp h
      refine ha.bind fun b => ?_
      cases b with
      | true => exact ⟨true, rfl⟩
      | false => exact answers_anyM hl

theorem answers_allM {f : α → Except SpanFault Bool} : ∀ {l : List α}, (∀ a ∈ l, Answers (f a)) →
    Answers (l.allM f)
  | [], _ => ⟨true, rfl⟩
  | a :: l, h => by
      obtain ⟨ha, hl⟩ := List.forall_mem_cons.mp h
      refine ha.bind fun b => ?_
      cases b with
      | true => exact answers_allM hl
      | false => exact ⟨false, rfl⟩

theorem answers_filterAuxM {f : α → Except SpanFault Bool} : ∀ {l : List α} (kept : List α),
    (∀ a ∈ l, Answers (f a)) → Answers (l.filterAuxM f kept)
  | [], kept, _ => ⟨kept, rfl⟩
  | a :: l, kept, h => by
      obtain ⟨ha, hl⟩ := List.forall_mem_cons.mp h
      exact ha.bind fun b => answers_filterAuxM (cond b (a :: kept) kept) hl

theorem answers_filterM {f : α → Except SpanFault Bool} {l : List α}
    (h : ∀ a ∈ l, Answers (f a)) : Answers (l.filterM f) :=
  (answers_filterAuxM [] h).bind fun kept => ⟨kept.reverse, rfl⟩

theorem answers_mapM {f : α → Except SpanFault β} : ∀ {l : List α}, (∀ a ∈ l, Answers (f a)) →
    Answers (l.mapM f)
  | [], _ => ⟨[], by rw [List.mapM_nil]; rfl⟩
  | a :: l, h => by
      obtain ⟨ha, hl⟩ := List.forall_mem_cons.mp h
      rw [List.mapM_cons]
      exact ha.bind fun b => (answers_mapM hl).bind fun bs => ⟨b :: bs, rfl⟩

theorem answers_guards {offset braceAt : Nat} (hstop : s.text.IsBoundary stop)
    (h : ∀ close ∈ (matchingClose? s.text braceAt).toList, close < stop) :
    Answers (Rule.guards s stop offset braceAt) := by
  rw [Rule.guards]
  cases hclose : matchingClose? s.text braceAt with
  | none => exact ⟨false, rfl⟩
  | some close =>
      have hlt : close < stop := h close (by rw [hclose]; exact List.mem_singleton.mpr rfl)
      have hbehind : Bounds s.text (close + 1) stop :=
        ⟨hlt, (bounds_of_matchingClose? hclose).2.2, hstop⟩
      simp only
      split_ifs
      · rw [Rule.catchesValidation, (bounds_blanked hbehind).between?]
        simp only
        split
        · exact ⟨false, rfl⟩
        · split <;> exact ⟨_, rfl⟩
      · exact ⟨false, rfl⟩

theorem answers_bodyHandling (hstop : t.IsBoundary stop)
    (h : ∀ m ∈ Rule.tryBlock.all ((blank t).between start stop),
      ∀ close ∈ (matchingClose? t (start + m.stop - 1)).toList, close < stop) :
    Answers (Rule.bodyHandling (.of t) start stop) := by
  rw [Rule.bodyHandling]
  dsimp only
  split_ifs
  · exact ⟨_, rfl⟩
  · exact ⟨_, rfl⟩
  · refine (answers_allM fun call _ => ?_).bind fun guarded => ⟨_, rfl⟩
    split_ifs
    · exact ⟨_, rfl⟩
    · exact answers_anyM fun m hm => answers_guards hstop (h m hm)

theorem answers_routesHandling (h : TryBlocksClose t) (handling : Rule.BodyHandling) :
    Answers (Rule.routesHandling handling (.of t)) := by
  refine answers_filterM fun r hr => ?_
  obtain ⟨hroute, hmutation⟩ := List.mem_filter.mp hr
  cases hspan : r.argsSpan? t with
  | none => exact ⟨false, by simp only [Source.of, hspan]; rfl⟩
  | some span =>
      have hmem : span ∈ (r.argsSpan? t).toList := by
        rw [hspan]
        exact List.mem_singleton.mpr rfl
      have hhandled : Answers (Rule.bodyHandling (.of t) span.1 span.2) :=
        answers_bodyHandling (bounds_of_argsSpan? hspan).stop (h r hroute hmutation span hmem)
      simp only [Source.of] at hhandled ⊢
      rw [hspan]
      exact hhandled.bind fun handled => ⟨_, rfl⟩

end ServiceGate
