/-
# Import statements

An import statement binds a default, a namespace or a list of members from a module.  `render`
writes it on one line, in that order, and answers `none` when nothing is left to import.
-/
import ServiceGate.Text.Search

namespace ServiceGate

/-- One entry of the braces of an import. -/
structure ImportMember where
  /-- The name in the module. -/
  imported : Text
  /-- The name it is bound to. -/
  boundAs : Text
  typeOnly : Bool
deriving DecidableEq, Repr

/-- An import statement and its place in the text. -/
structure ImportStatement where
  /-- Where the keyword starts. -/
  start : Nat
  stop : Nat
  typeOnly : Bool
  defaultName : Option Text
  namespaceName : Option Text
  members : List ImportMember
  quote : Char
  moduleName : Text
deriving DecidableEq, Repr

namespace ImportMember

def named (name : Text) : ImportMember := ⟨name, name, false⟩

def render (m : ImportMember) : Text :=
  (if m.typeOnly then "type ".toList else []) ++
    if m.imported == m.boundAs then m.imported
    else m.imported ++ " as ".toList ++ m.boundAs

end ImportMember

namespace ImportStatement

/-- Whether a member of this name in the module is imported. -/
def hasMember (s : ImportStatement) (imported : Text) : Bool :=
  s.members.any (·.imported == imported)

/-- Whether the statement imports from one of the modules. -/
def isFrom (s : ImportStatement) (modules : List Text) : Bool := modules.contains s.moduleName

/-- The members in their braces, if there are any. -/
def renderMembers (members : List ImportMember) : Option Text :=
  if members.isEmpty then none
  else some ("\x7b ".toList ++ Text.join ", ".toList (members.map (·.render)) ++ " \x7d".toList)

/-- The clauses between the keyword and the module. -/
def clauses (s : ImportStatement) : List Text :=
  s.defaultName.toList ++ (s.namespaceName.map ("* as ".toList ++ ·)).toList ++
    (renderMembers s.members).toList

def render (s : ImportStatement) : Option Text :=
  if s.clauses.isEmpty then none
  else some ("import ".toList ++ (if s.typeOnly then "type ".toList else []) ++
    Text.join ", ".toList s.clauses ++ " from ".toList ++
    [s.quote] ++ s.moduleName ++ [s.quote, ';'])

end ImportStatement

end ServiceGate
