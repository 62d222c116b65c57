/-
# Rules on imports

Members that are imported speculatively must be used, and a file with routes imports the two types
of its handlers.
-/
import ServiceGate.Rule.Basic
import ServiceGate.Import.Read
import ServiceGate.Text.Word

namespace ServiceGate.Rule

/-- Whether a name occurs in code outside of every import statement. -/
def usedOutsideImports (blanked : Text) (imports : List ImportStatement) (name : Text) : Bool :=
  let inside := imports.foldr (fun i n => n + (blanked.between i.start i.stop).countWord name) 0
  inside < blanked.countWord name

/-- Where a member's name first occurs in its statement. -/
def memberOffset (t : Text) (i : ImportStatement) (m : ImportMember) : Nat :=
  match Text.find? (t.between i.start i.stop) m.boundAs with
  | some n => i.start + n
  | none => i.start

/-- What is said about a member that is not used. -/
def unusedMemberMessage (i : ImportStatement) (m : ImportMember) : String :=
  s!"'{String.ofList m.boundAs}' is imported from '{String.ofList i.moduleName}' but never used"

/-- Optional members that are used nowhere but in imports. -/
def unusedOptionalImports (ctx : Context) : List Finding :=
  let imports := ImportStatement.all ctx.source
  imports.flatMap fun i =>
    (i.members.filter fun m =>
      ctx.policy.optionalImportMembers.contains m.imported &&
        !usedOutsideImports ctx.source.blanked imports m.boundAs).map fun m =>
      .found (memberOffset ctx.source.text i m) m.boundAs (some (unusedMemberMessage i m))

def express : Text := "express".toList

/-- The handler types that no import from the framework brings in. -/
def missingHandlerTypes (imports : List ImportStatement) : List Text :=
  ["Request".toList, "Response".toList].filter fun name =>
    !imports.any fun i => i.isFrom [express] && i.hasMember name

/-- Handler types that are not imported, in one finding. -/
def handlerTypeImports (ctx : Context) : List Finding :=
  match missingHandlerTypes (ImportStatement.all ctx.source) with
  | [] => []
  | names =>
    let list := String.ofList (Text.join " and ".toList names)
    [.absent (some s!"Route handlers require {list} imported from 'express'")]

end ServiceGate.Rule
