/-
# What a file is about

The features that decide which rules apply to a file, found once in its blanked text.
-/
import ServiceGate.Route.Basic
import ServiceGate.Storage

namespace ServiceGate

/-- The features of a file. -/
structure Features where
  hasRoutes : Bool
  usesSchemaLibrary : Bool
  usesIdGenerator : Bool
  /-- The name of the application object, if it is made here. -/
  serviceEntry : Option Text
  storageMode : StorageMode
deriving DecidableEq, Repr

namespace Features

open Pattern

/-- The start of the text or a character that cannot stand in front of a free name. -/
def freeStart : Pattern :=
  alt textStart (char fun c => !(c == '.' || CharClass.isWord c || c == '$'))

def schemaLibraryUse : Pattern :=
  inOrder [freeStart, word "z", spaces, word ".", spaces, char CharClass.isAsciiLetter]

def idGeneratorCall : Pattern := inOrder [freeStart, word "randomUUID", spaces, word "("]

/-- The declaration of the application object; the group is its name. -/
def entryDeclaration : Pattern :=
  inOrder [wordEdge, anyWord ["const", "let", "var"], gap, capture 1 name, spaces,
    optional (inOrder [word ":", spaces,
      plus (char fun c => CharClass.isWord c || c == '$' || c == '.'), spaces]),
    word "=", spaces, word "express", spaces, word "(", spaces, word ")"]

/-- The features of a source under a storage mode. -/
def detect (s : Scan.Source) (mode : StorageMode) : Features where
  hasRoutes := !(Route.all s).isEmpty
  usesSchemaLibrary := schemaLibraryUse.occursIn s.blanked
  usesIdGenerator := idGeneratorCall.occursIn s.blanked
  serviceEntry := (entryDeclaration.first? s.blanked).map (·.groupText 1)
  storageMode := mode

end Features

end ServiceGate
