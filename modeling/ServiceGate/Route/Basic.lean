/-
# Route registrations

A route is registered by a call such as `app.post('/items', handler)` on an application or a router.
`Route.all` lists the registrations that stand in code, in order.
-/
import ServiceGate.Route.Path
import ServiceGate.Pattern.Match
import ServiceGate.Scan.Balance
import ServiceGate.Scan.Blank

namespace ServiceGate

/-- The registration of a route. -/
structure Route where
  receiver : Text
  method : Text
  path : Text
  offset : Nat
  /-- Where the parenthesis before the arguments stands. -/
  argsAt : Nat
deriving DecidableEq, Repr

namespace Route

def mutationMethods : List Text := ["post".toList, "put".toList, "patch".toList]

/-- Whether a name is that of an application or a router. -/
def isReceiver (name : Text) : Bool :=
  ["app", "router", "api", "server"].any (·.toList == name) ||
    ["Router", "router", "App"].any fun ending => name.endsWith ending.toList

open Pattern in
/-- A path between two quotes of one kind. -/
def quotedPath (number : Nat) (quote : String) : Pattern :=
  inOrder [word quote, capture number (seq (word "/") (star (noneOf quote))), word quote]

open Pattern in
/-- A registration up to its path.  The groups are the receiver, the method, the parenthesis and the
path in one of three kinds of quotes. -/
def pattern : Pattern :=
  inOrder [wordEdge, capture 1 name, word ".",
    capture 2 (anyWord ["get", "post", "put", "patch", "delete"]), spaces, capture 3 (word "("),
    spaces, anyOf [quotedPath 4 "'", quotedPath 5 "\"", quotedPath 6 "\x60"]]

/-- The registration that a match of `pattern` describes. -/
def ofMatch? (m : Match) : Option Route := do
  let args ← m.group? 3
  let path ← ((m.group? 4).or (m.group? 5)).or (m.group? 6)
  return ⟨m.groupText 1, m.groupText 2, path.text, m.start, args.start⟩

def all (s : Scan.Source) : List Route :=
  ((pattern.all s.text).filterMap ofMatch?).filter fun r =>
    isReceiver r.receiver && s.isCodeAt r.offset

def normalPath (r : Route) : Text := RoutePath.normalize r.path

def key (r : Route) : Text := RoutePath.key r.method r.path

/-- Whether the route changes something. -/
def isMutation (r : Route) : Bool := mutationMethods.contains r.method

/-- The offsets between the parentheses of the registration. -/
def argsSpan? (r : Route) (t : Text) : Option (Nat × Nat) :=
  (Scan.matchingClose? t r.argsAt).map fun close => (r.argsAt + 1, close)

/-- The offset behind the registration and the semicolon that may follow it. -/
def statementStop? (r : Route) (t : Text) : Option Nat :=
  (Scan.matchingClose? t r.argsAt).map fun close =>
    match t.after (close + 1) with
    | ';' :: _ => close + 2
    | _ => close + 1

end Route

end ServiceGate
