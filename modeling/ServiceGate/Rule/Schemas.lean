/-
# Declared schemas

A schema that is declared at the start of a line and not exported must be used somewhere.
-/
import ServiceGate.Rule.Basic
import ServiceGate.Text.Word

namespace ServiceGate.Rule

open Pattern in
/-- The declaration of a schema from the start of its line; the group is its name. -/
def schemaDeclaration : Pattern :=
  inOrder [lineStart, indent, word "const", gap, capture 1 name, spaces,
    optional (seq (word ":") (plus (noneOf "=\n"))), word "=", spaces, word "z", spaces, word "."]

/-- The schemas whose name occurs once only, with the offset of the name. -/
def unusedSchemas (blanked : Text) : List (Text × Nat) :=
  (schemaDeclaration.all blanked).filterMap fun m =>
    (m.group? 1).bind fun name =>
      if blanked.countWord name.text ≤ 1 then some (name.text, name.start) else none

/-- Schemas that are declared and never used. -/
def unusedSchemaDeclarations (ctx : Context) : List Finding :=
  (unusedSchemas ctx.source.blanked).map fun (name, offset) =>
    .found offset name (some s!"Schema '{String.ofList name}' is declared but never used")

end ServiceGate.Rule
