/-
# The patterns of the rules

What must not occur in code, and what has to occur in the code of a file that needs it: imports and
infrastructure endpoints.  Two of the forbidden patterns also serve the repairs, which look at their
groups.
-/
import ServiceGate.Pattern.Basic

/-! ## Forbidden patterns -/

namespace ServiceGate.Forbidden

open Pattern

/-- A request body that is asserted to have a type. -/
def bodyCast : Pattern :=
  inOrder [wordEdge, word "req.body", gap, word "as", gap,
    anyOf [nameStart, word "\x7b", word "["]]

/-- A type of the framework with its namespace; the group is the bare type. -/
def qualifiedType : Pattern :=
  inOrder [wordEdge, word "express.",
    capture 1 (anyWord ["Request", "Response", "NextFunction", "RequestHandler"]), wordEdge]

def bodyDestructuring : Pattern :=
  inOrder [wordEdge, anyWord ["const", "let", "var"], spaces, word "\x7b",
    star (noneOf "\x7d"), word "\x7d", spaces, word "=", spaces, word "req.body", wordEdge]

/-- An import of the identifier package. -/
def identifierPackage : Pattern :=
  inOrder [wordEdge, word "import", gap, starLazy (noneOf ";'\""), wordEdge, word "from", spaces,
    quote, word "uuid", quote]

def parameter : Pattern :=
  inOrder [word "req.", anyWord ["query", "params"], word ".", name]

/-- A parameter that is converted as it stands; the group is the parameter. -/
def convertedParameter : Pattern :=
  inOrder [wordEdge, anyWord ["parseInt", "parseFloat", "Number", "decodeURIComponent"], word "(",
    spaces, capture 1 parameter, spaces, oneOf ",)"]

/-- A parameter on which a method of strings is called; the group is the parameter. -/
def parameterMethod : Pattern :=
  inOrder [wordEdge, capture 1 parameter, word ".",
    anyWord ["toLowerCase", "toUpperCase", "trim", "split", "startsWith", "includes"], word "("]

/-- A time stamp of a row that is used without a look at whether it is there. -/
def nullableTimestamp : Pattern :=
  inOrder [wordEdge, name, word ".", star (char fun c => ('a' ≤ c && c ≤ 'z') || c == '_'),
    anyWord ["_at", "At"], word ".", anyWord ["toISOString", "getTime", "toJSON"], word "("]

/-- The type that switches checking off. -/
def explicitAny : Pattern :=
  anyOf [inOrder [word ":", spaces, word "any", wordEdge],
    inOrder [wordEdge, word "as", gap, word "any", wordEdge], word "<any>"]

def consoleLog : Pattern := inOrder [wordEdge, word "console.log("]

end ServiceGate.Forbidden

/-! ## Required patterns -/

namespace ServiceGate.Required

open Pattern

def fromModule (module : Pattern) : Pattern :=
  inOrder [word "from", spaces, quote, module, quote]

/-- An import of members among which is a name. -/
def memberImport (member : String) (module : Pattern) : Pattern :=
  inOrder [wordEdge, word "import", spaces, word "\x7b", star (noneOf "\x7d"), wordEdge,
    word member, wordEdge, star (noneOf "\x7d"), word "\x7d", spaces, fromModule module]

/-- An import of the schema library under its usual name. -/
def schemaLibraryImport : Pattern :=
  anyOf [memberImport "z" (word "zod"),
    inOrder [wordEdge, word "import", gap, word "*", gap, word "as", gap, word "z", gap,
      fromModule (word "zod")],
    inOrder [wordEdge, word "import", gap, word "z", wordEdge, star (noneOf ";"),
      fromModule (word "zod")]]

/-- An import of the identifier generator. -/
def idGeneratorImport : Pattern :=
  memberImport "randomUUID" (seq (optional (word "node:")) (word "crypto"))

/-- The registration of an endpoint by one of several methods. -/
def endpoint (methods : List String) (path : String) : Pattern :=
  inOrder [word ".", anyWord methods, spaces, word "(", spaces, anyQuote, word path, anyQuote]

end ServiceGate.Required
