/-
# Writing JSON

A value is laid out over several lines: each item of a list and each field of an object stands on
its own line, two blanks deeper than the brackets around it; empty lists and objects stay closed.
-/
import ServiceGate.Json.Quoted
import ServiceGate.Json.Value

namespace ServiceGate.JsonValue

def newLine (depth : Nat) : Text := '\n' :: List.replicate (2 * depth) ' '

mutual

/-- A value whose brackets stand at a depth. -/
def renderAt (depth : Nat) : JsonValue → Text
  | .null => "null".toList
  | .bool true => "true".toList
  | .bool false => "false".toList
  | .number n => Nat.toDigits 10 n
  | .text t => Json.encode t
  | .list [] => "[]".toList
  | .list (v :: vs) =>
    '[' :: newLine (depth + 1) ++ renderAt (depth + 1) v ++ renderItems (depth + 1) vs ++
      newLine depth ++ [']']
  | .object [] => "\x7b\x7d".toList
  | .object ((k, v) :: kvs) =>
    '\x7b' :: newLine (depth + 1) ++ Json.encode k ++ ": ".toList ++ renderAt (depth + 1) v ++
      renderFields (depth + 1) kvs ++ newLine depth ++ ['\x7d']
  | .other => "null".toList

def renderItems (depth : Nat) : List JsonValue → Text
  | [] => []
  | v :: vs => ',' :: newLine depth ++ renderAt depth v ++ renderItems depth vs

def renderFields (depth : Nat) : List (Text × JsonValue) → Text
  | [] => []
  | (k, v) :: kvs =>
    ',' :: newLine depth ++ Json.encode k ++ ": ".toList ++ renderAt depth v ++
      renderFields depth kvs

end

def render (v : JsonValue) : Text := renderAt 0 v

end ServiceGate.JsonValue
