/-
# Reading import statements

`ImportStatement.all` lists the import statements that stand in code at the start of a line, in
order.
-/
import ServiceGate.Import.Basic
import ServiceGate.Pattern.Match
import ServiceGate.Scan.Blank

namespace ServiceGate

namespace ImportMember

/-- Reads one entry of the braces: words after an optional `type`, the third being the bound name
if the second is `as`. -/
def read? (entry : Text) : Option ImportMember :=
  let (typeOnly, body) :=
    match Text.stripStart? "type ".toList entry with
    | some rest => (true, rest.trim)
    | none => (false, entry)
  match body.words with
  | [] => none
  | imported :: second :: third :: _ =>
    some ⟨imported, if second == "as".toList then third else imported, typeOnly⟩
  | imported :: _ => some ⟨imported, imported, typeOnly⟩

/-- Reads what stands between the braces. -/
def readList (t : Text) : List ImportMember :=
  (((t.pieces ',').map Text.trim).filter (!·.isEmpty)).filterMap read?

end ImportMember

namespace ImportStatement

open Pattern in
/-- An import statement from the start of its line.  The groups are the word `type`, the default
name, the namespace name, the contents of the braces, the quote and the module. -/
def pattern : Pattern :=
  inOrder [lineStart, indent, word "import", gap,
    optional (capture 1 (seq (word "type") gap)),
    optional (inOrder [capture 2 name, spaces, optional (word ","), spaces]),
    optional (inOrder [word "*", spaces, word "as", gap, capture 3 name, spaces]),
    optional (inOrder [word "\x7b", capture 4 (star (noneOf "\x7d")), word "\x7d", spaces]),
    word "from", spaces, capture 5 Pattern.quote, capture 6 (plus (noneOf "'\"")), Pattern.quote,
    indent, optional (word ";")]

/-- The statement that a match of `pattern` describes. -/
def ofMatch (m : Match) : ImportStatement where
  start := m.start + Text.size (m.text.takeWhile Text.isIndent)
  stop := m.stop
  typeOnly := (m.group? 1).isSome
  defaultName := (m.group? 2).map (·.text)
  namespaceName := (m.group? 3).map (·.text)
  members := ((m.group? 4).map fun c => ImportMember.readList c.text).getD []
  quote := ((m.groupText 5).head?).getD '\''
  moduleName := m.groupText 6

/-- The import statements of a source, in order. -/
def all (s : Scan.Source) : List ImportStatement :=
  ((pattern.all s.text).map ofMatch).filter fun i => s.isCodeAt i.start

end ImportStatement

end ServiceGate
