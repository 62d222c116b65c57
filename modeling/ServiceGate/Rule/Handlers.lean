/-
# Validation in handlers

A handler that changes something and reads the request body has to validate it, and has to tell a
failed validation from other failures: a `safe…` call by looking at its success, any other call by
standing in a `try` block whose `catch` block names the validation error.
-/
import ServiceGate.Rule.Basic

namespace ServiceGate.Rule

open Pattern

def bodyRead : Pattern :=
  inOrder [wordEdge, anyWord ["req", "request"], spaces, word ".", spaces, word "body", wordEdge]

/-- A call of a schema; the groups are the schema and the way of the call. -/
def validationCall : Pattern :=
  inOrder [wordEdge, capture 1 name, spaces, word ".", spaces,
    capture 2 (anyWord ["parse", "safeParse", "parseAsync", "safeParseAsync"]), spaces, word "("]

/-- A look at whether a validation succeeded. -/
def successCheck : Pattern := inOrder [word ".", spaces, word "success", wordEdge]

def tryBlock : Pattern := inOrder [wordEdge, word "try", spaces, word "\x7b"]

/-- A `catch` block at the start of the text, up to its brace. -/
def catchBlock : Pattern :=
  inOrder [textStart, spaces, word "catch", spaces,
    optional (inOrder [word "(", star (noneOf ")"), word ")"]), spaces, word "\x7b"]

/-- How a handler treats the request body. -/
inductive BodyHandling where
  | unread
  | unvalidated
  | unguarded
  | guarded
deriving DecidableEq, Repr

/-- A call of a schema in a handler. -/
structure ValidationCall where
  offset : Nat
  /-- Whether the call reports a failure instead of throwing it. -/
  safe : Bool
deriving DecidableEq, Repr

/-- The calls of schemas in the stretch of a handler that starts at offset `start`. -/
def validationCalls (start : Nat) (body : Text) : List ValidationCall :=
  ((validationCall.all body).filter fun m => m.groupText 1 != "JSON".toList).map fun m =>
    ⟨start + m.start, (m.groupText 2).startsWith "safe".toList⟩

/-- Whether the block behind offset `close` is a `catch` that names the validation error; the
handler ends at `stop`. -/
def catchesValidation (s : Scan.Source) (close stop : Nat) : Except SpanFault Bool :=
  match s.blanked.between? (close + 1) stop with
  | none => .error ⟨close + 1, stop⟩
  | some behind =>
    match catchBlock.first? behind with
    | none => .ok false
    | some m =>
      let braceAt := close + m.stop
      match Scan.matchingClose? s.text braceAt with
      | none => .ok false
      | some braceClose =>
        .ok (Text.contains (s.blanked.between braceAt braceClose) "ZodError".toList)

/-- Whether the `try` block with its brace at `braceAt` guards the call at `offset`. -/
def guards (s : Scan.Source) (stop offset braceAt : Nat) : Except SpanFault Bool :=
  match Scan.matchingClose? s.text braceAt with
  | none => .ok false
  | some close =>
    if braceAt < offset && offset < close then catchesValidation s close stop else .ok false

/-- Whether some `try` block between `start` and `stop` guards the call at `offset`. -/
def isGuarded (s : Scan.Source) (start stop offset : Nat) : Except SpanFault Bool :=
  (tryBlock.all (s.blanked.between start stop)).anyM fun m =>
    guards s stop offset (start + m.stop - 1)

/-- How the handler between two offsets treats the request body. -/
def bodyHandling (s : Scan.Source) (start stop : Nat) : Except SpanFault BodyHandling := do
  let body := s.blanked.between start stop
  if !bodyRead.occursIn body then return .unread
  let calls := validationCalls start body
  if calls.isEmpty then return .unvalidated
  let guarded ← calls.allM fun call =>
    if call.safe then pure (successCheck.occursIn body) else isGuarded s start stop call.offset
  return if guarded then .guarded else .unguarded

/-- The changing routes whose handlers treat the body in a given way. -/
def routesHandling (handling : BodyHandling) (s : Scan.Source) : Except SpanFault (List Route) :=
  ((Route.all s).filter (·.isMutation)).filterM fun r =>
    match r.argsSpan? s.text with
    | none => pure false
    | some (start, stop) => return (← bodyHandling s start stop) = handling

/-- The finding for a route, with what is said about it. -/
def routeFinding (r : Route) (what : String) : Finding :=
  let path := String.ofList r.path
  .found r.offset (r.method ++ ' ' :: r.path)
    (some s!"{String.ofList r.method.upper} {path} {what}")

/-- Changing routes that read the body and validate nothing. -/
def unvalidatedMutations (ctx : Context) : Except SpanFault (List Finding) := do
  return (← routesHandling .unvalidated ctx.source).map fun r =>
    routeFinding r "reads req.body without validating it against a schema"

/-- Changing routes whose validation is not guarded. -/
def unguardedValidations (ctx : Context) : Except SpanFault (List Finding) := do
  return (← routesHandling .unguarded ctx.source).map fun r =>
    routeFinding r
      "validates the body without a try/catch that handles ZodError (or a safeParse success check)"

end ServiceGate.Rule
