/-
# Repairs of imports

Members that are not used go; names that are needed are added to an import of their module, or in a
statement of their own; the identifier package gives way to the built-in generator.
-/
import ServiceGate.Repair.Edit
import ServiceGate.Rule.Imports
import ServiceGate.Rule.Patterns

namespace ServiceGate.Repair

/-- Writes a statement in the place of the one it was read from; one with nothing left to import
goes. -/
def replaceImport (t : Text) (i : ImportStatement) : Text :=
  match i.render with
  | some line => t.splice i.start i.stop line
  | none => removeSpan t i.start i.stop

/-- The statement less its unused optional members. -/
def keepUsedMembers (policy : Policy) (blanked : Text) (imports : List ImportStatement)
    (i : ImportStatement) : ImportStatement :=
  { i with members := i.members.filter fun m =>
      !policy.optionalImportMembers.contains m.imported ||
        Rule.usedOutsideImports blanked imports m.boundAs }

/-- Removes optional members that are not used; `none` if there are none. -/
def removeUnusedOptionalMembers (policy : Policy) (t : Text) : Option Text :=
  let s := Scan.Source.of t
  let imports := ImportStatement.all s
  let shortened := (imports.map fun i => (i, keepUsedMembers policy s.blanked imports i)).filter
    fun (before, after) => after.members.length != before.members.length
  if shortened.isEmpty then none
  else some (shortened.foldr (fun (_, after) out => replaceImport out after) t)

/-- Adds a line with an import of members behind the last import, or at the start. -/
def addImportLine (t : Text) (imports : List ImportStatement) (moduleName : Text)
    (members : List ImportMember) : Text :=
  let quote := (imports.head?.map (·.quote)).getD '\''
  match ImportStatement.render ⟨0, 0, false, none, none, members, quote, moduleName⟩ with
  | none => t
  | some line =>
    match imports.getLast? with
    | some last => t.insertAt last.stop ('\n' :: line)
    | none => line ++ '\n' :: t

/-- The names that no import from one of the modules brings in. -/
def missingNames (imports : List ImportStatement) (modules names : List Text) : List Text :=
  names.filter fun name => !imports.any fun i => i.isFrom modules && i.hasMember name

/-- Whether names can be added to the braces of a statement. -/
def takesMembers (modules : List Text) (i : ImportStatement) : Bool :=
  i.isFrom modules && !i.typeOnly && i.namespaceName.isNone

/-- Imports names from a module, or from another one that is as good. -/
def ensureNamedImport (moduleName : Text) (others names : List Text) (t : Text) : Text :=
  let imports := ImportStatement.all (.of t)
  let modules := moduleName :: others
  match missingNames imports modules names with
  | [] => t
  | missing =>
    let members := missing.map ImportMember.named
    match imports.find? (takesMembers modules) with
    | some i => replaceImport t { i with members := i.members ++ members }
    | none => addImportLine t imports moduleName members

/-- Imports names from the first of several modules that are equally good; `none` if there is a name
and no module to import it from. -/
def ensureNamedImport? (modules names : List Text) (t : Text) : Option Text :=
  match modules with
  | moduleName :: others => some (ensureNamedImport moduleName others names t)
  | [] => if names.isEmpty then some t else none

def addImport (moduleName : String) (others names : List String) (t : Text) : Option Text :=
  let new := ensureNamedImport moduleName.toList (others.map String.toList)
    (names.map String.toList) t
  if new = t then none else some new

def ensureGenerator : Text → Text :=
  ensureNamedImport "crypto".toList ["node:crypto".toList] ["randomUUID".toList]

/-! ## The identifier package -/

/-- The member of the identifier package that the built-in generator stands in for. -/
def generatorMember : Text := "v4".toList

open Pattern in
def callOf (name : Text) : Pattern := inOrder [wordEdge, literal name, spaces, word "("]

open Pattern in
/-- A call of the generator as a member of a name. -/
def memberCallOf (name : Text) : Pattern :=
  inOrder [wordEdge, literal name, spaces, word ".", spaces, literal generatorMember, spaces,
    word "("]

/-- The names that a statement binds, each with the call to replace. -/
def boundCalls (i : ImportStatement) : List (Text × Pattern) :=
  (i.members.map fun m => (m.boundAs, callOf m.boundAs)) ++
    (i.defaultName.toList ++ i.namespaceName.toList).map fun name => (name, memberCallOf name)

/-- Takes out the imports of the identifier package and calls the built-in generator instead; `none`
if there is no such import, or if anything else of the package is used. -/
def replaceIdentifierPackage (t : Text) : Option Text :=
  let imports := (ImportStatement.all (.of t)).filter (·.isFrom ["uuid".toList])
  let calls := imports.flatMap boundCalls
  if imports.isEmpty then none
  else if imports.any (·.members.any (·.imported != generatorMember)) then none
  else
    let cut := imports.foldr (fun i out => removeSpan out i.start i.stop) t
    let out := calls.foldl (fun out (_, call) =>
      replaceInCode call (fun _ => "randomUUID(".toList) out) cut
    let blanked := Scan.blank out
    if calls.any fun (name, _) => 0 < blanked.countWord name then none
    else some (ensureGenerator out)

/-! ## Qualified types -/

/-- Writes the framework's types without their namespace and imports them; `none` if there are
none. -/
def unqualifyTypes (t : Text) : Option Text :=
  let found := codeMatches Forbidden.qualifiedType (.of t)
  if found.isEmpty then none
  else
    let bare := fun m : Match => m.groupText 1
    some (ensureNamedImport Rule.express [] (found.map bare).eraseDups
      (replaceMatches t bare 0 found))

end ServiceGate.Repair
