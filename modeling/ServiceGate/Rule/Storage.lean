/-
# Rules on stored data

With a relational store, queries have to be awaited, returned or chained, and a stored column must
not be parsed before it is known to be there.
-/
import ServiceGate.Rule.Basic
import ServiceGate.Text.Word

namespace ServiceGate.Rule

open Pattern in
/-- A query up to its parenthesis, which is the group. -/
def queryCall : Pattern :=
  inOrder [wordEdge, anyWord ["pool", "db", "client", "sql"], spaces, word ".", spaces,
    word "query", spaces, capture 1 (word "(")]

/-- Where the statement around an offset starts: behind the last semicolon or brace. -/
def statementStart (blanked : Text) (n : Nat) : Nat :=
  match (blanked.before n).lastWhere? fun c => c == ';' || c == '\x7b' || c == '\x7d' with
  | some i => i + 1
  | none => 0

/-- Whether what precedes a call in its statement takes up its promise. -/
def takesPromise (lead : Text) : Bool :=
  ["await", "return", "yield"].any (fun w => 0 < lead.countWord w.toList) ||
    lead.trimEnd.endsWith "=>".toList

/-- Whether a call whose parenthesis stands at offset `n` is followed by a chained handler. -/
def isChained (s : Scan.Source) (n : Nat) : Bool :=
  match Scan.matchingClose? s.text n with
  | none => false
  | some close =>
    let behind := (s.blanked.after (close + 1)).trimStart
    behind.startsWith ".then".toList || behind.startsWith ".catch".toList

/-- Queries whose promise nothing takes up. -/
def unawaitedQueries (ctx : Context) : List Finding :=
  let s := ctx.source
  ((queryCall.all s.blanked).filter fun m =>
    !takesPromise (s.blanked.between (statementStart s.blanked m.start) m.start) &&
      !(m.group? 1).any fun paren => isChained s paren.start).map fun m =>
    .found m.start m.text none

open Pattern in
/-- A parsed member of a row; the group is the member expression. -/
def parsedField : Pattern :=
  inOrder [wordEdge, word "JSON", spaces, word ".", spaces, word "parse", spaces, word "(", spaces,
    capture 1 (inOrder [name, plus (inOrder [optional (word "?"), word ".", name])]), spaces,
    word ")"]

/-- Where the line starts that lies `lines` line feeds before an offset: at its line feed, or at the
start of the text. -/
def linesBefore (blanked : Text) : (lines : Nat) → (n : Nat) → Nat
  | 0, n => n
  | lines + 1, n =>
    match (blanked.before n).lastWhere? (· == '\n') with
    | some i => linesBefore blanked lines i
    | none => 0

def lineStop (blanked : Text) (n : Nat) : Nat :=
  match Text.find? (blanked.after n) ['\n'] with
  | some i => n + i
  | none => Text.size blanked

/-- The forms in which an expression is tested before it is used. -/
def guardForms (e : Text) : List Text :=
  [" ?", " &&", " != null", " !== null", " !== undefined"].map (e ++ ·.toList) ++
    ["typeof ", "if (", "if (!"].map (·.toList ++ e)

/-- Whether the line of a match or one of the three before it tests the expression. -/
def isTested (blanked : Text) (m : Match) (e : Text) : Bool :=
  let window := blanked.between (linesBefore blanked 4 m.start) (lineStop blanked m.stop)
  (guardForms e).any window.contains

/-- Parsed members that nothing nearby tests. -/
def untestedParses (ctx : Context) : List Finding :=
  let blanked := ctx.source.blanked
  ((parsedField.all blanked).filter fun m => !isTested blanked m (m.groupText 1)).map fun m =>
    .found m.start m.text none

end ServiceGate.Rule
