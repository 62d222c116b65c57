/-
# JSON values

The values that the gate's reports and its own files are made of.  Numbers are the natural ones.  A
document may hold other well-formed values, from which nothing here is read; they all are `other`.

`record?` finds the fields of a record, which a document may give as an object, in any order and
among further fields, or as a list.
-/
import ServiceGate.Text.Basic

namespace ServiceGate

/-- A JSON value. -/
inductive JsonValue where
  | null
  | bool (value : Bool)
  | number (value : Nat)
  | text (value : Text)
  | list (items : List JsonValue)
  | object (fields : List (Text × JsonValue))
  /-- A number with a sign, a fraction or an exponent; a string with half a character escaped in it;
  an object with such a string for a key. -/
  | other
deriving Inhabited

namespace JsonValue

def string (s : String) : JsonValue := .text s.toList

def strings (ss : List String) : JsonValue := .list (ss.map string)

/-- An object whose keys are given as strings. -/
def fields (kvs : List (String × JsonValue)) : JsonValue :=
  .object (kvs.map fun (k, v) => (k.toList, v))

/-- The value of a key that occurs exactly once. -/
def only? (key : Text) (kvs : List (Text × JsonValue)) : Option JsonValue :=
  match kvs.filter (·.1 = key) with
  | [(_, v)] => some v
  | _ => none

/-- The values of a record's fields: of an object that has each of them once, or the items of a list
of as many. -/
def record? (names : List String) : JsonValue → Option (List JsonValue)
  | .object kvs => names.mapM fun n => only? n.toList kvs
  | .list items => if items.length = names.length then some items else none
  | _ => none

def text? : JsonValue → Option Text
  | .text t => some t
  | _ => none

/-- The number below a bound that a value is. -/
def numberBelow? (bound : Nat) : JsonValue → Option Nat
  | .number n => if n < bound then some n else none
  | _ => none

/-- The items of the list that a value is. -/
def list? : JsonValue → Option (List JsonValue)
  | .list items => some items
  | _ => none

end JsonValue

end ServiceGate
