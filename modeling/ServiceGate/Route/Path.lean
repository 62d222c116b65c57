/-
# Route paths

A path is a row of segments between slashes; empty ones do not count.  A segment that starts with
`:` or `{` is a parameter.  The normal form writes a parameter in braces and drops trailing slashes,
so that the spellings of the code and of the specification can be compared.

A resource is named after the last fixed segment of its path, in the singular and in Pascal case:
`/order-items` has the items `OrderItem`.
-/
import ServiceGate.Text.LetterCase
import ServiceGate.Text.Search

namespace ServiceGate.RoutePath

def segments (path : Text) : List Text := (path.pieces '/').filter (!·.isEmpty)

/-- A segment in normal form: `:id` and `:id?` become `{id}`. -/
def normalSegment : Text → Text
  | ':' :: parameter =>
    "\x7b".toList ++ Text.trimEndWhere (· == '?') parameter ++ "\x7d".toList
  | segment => segment

def normalize (path : Text) : Text :=
  '/' :: Text.join "/".toList ((segments path).map normalSegment)

/-- Whether a segment stands for a parameter. -/
def isParameter (segment : Text) : Bool :=
  segment.startsWith "\x7b".toList || segment.startsWith ":".toList

/-- The last segment that is no parameter. -/
def lastStatic? (path : Text) : Option Text :=
  ((segments path).filter (!isParameter ·)).getLast?

/-- Whether the path addresses one item of a collection. -/
def isItem (path : Text) : Bool := (segments path).getLast?.any isParameter

/-- Whether the path ends with a collection or an action. -/
def endsStatic (path : Text) : Bool := (segments path).getLast?.any (!isParameter ·)

/-- The key by which routes and operations are compared: `method:/path`. -/
def key (method path : Text) : Text := method.lower ++ ':' :: normalize path

end ServiceGate.RoutePath

namespace ServiceGate.Resource

/-- The text less its last `n` characters. -/
def dropEnd (n : Nat) (t : Text) : Text := t.take (t.length - n)

/-- The singular of an English plural; other words stay as they are. -/
def singular (word : Text) : Text :=
  let lower := word.lower
  if lower.endsWith "ies".toList && 3 < word.size then dropEnd 3 word ++ ['y']
  else if ["sses", "xes", "ches", "shes"].any fun s => lower.endsWith s.toList then dropEnd 2 word
  else if lower.endsWith "s".toList && !lower.endsWith "ss".toList && 1 < word.size then
    dropEnd 1 word
  else word

/-- The words between other characters than letters and numbers, each capitalised, in one. -/
def pascalCase (word : Text) : Text :=
  ((Text.splitWhere (!CharClass.isAlphanumeric ·) word).filter (!·.isEmpty)).flatMap Text.capitalize

/-- The name of the resource that a path addresses. -/
def ofPath? (path : Text) : Option Text :=
  match RoutePath.lastStatic? path with
  | none => none
  | some segment =>
    let name := pascalCase (singular segment)
    if name.isEmpty then none else some name

end ServiceGate.Resource
