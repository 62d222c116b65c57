/-
# Writing operations

The operation object for a route, on one line: a summary in words, a request body where a schema is
expected, and the usual responses.
-/
import ServiceGate.Spec.Coverage
import ServiceGate.ObjectLiteral.Quoted

namespace ServiceGate.Spec

/-- The words of a segment, in lower case. -/
def resourceWords (segment : Text) : Text :=
  Text.lower (segment.map fun c => if c == '-' || c == '_' then ' ' else c)

def plainSummary (method path : Text) : Text := method.upper ++ ' ' :: path

/-- The summary of an operation on a resource named by `segment`. -/
def resourceSummary (method path segment : Text) : Text :=
  let one := resourceWords (Resource.singular segment)
  if method == "get".toList then
    if RoutePath.isItem path then "Get ".toList ++ one ++ " by id".toList
    else "List ".toList ++ resourceWords segment
  else if method == "post".toList then "Create ".toList ++ one
  else if method == "put".toList || method == "patch".toList then "Update ".toList ++ one
  else if method == "delete".toList then "Delete ".toList ++ one
  else plainSummary method path

def summary (policy : Policy) (method path : Text) : Text :=
  match RoutePath.lastStatic? path with
  | none => plainSummary method path
  | some segment =>
    if policy.isActionSegment segment then
      let words := resourceWords segment
      if words.isEmpty then path else words.capitalize
    else resourceSummary method path segment

/-- The status codes that an operation usually answers with, and what they mean. -/
def defaultResponses (policy : Policy) (method path : Text) : List (String × String) :=
  let item := RoutePath.isItem path
  let action := policy.isActionPath path && !item
  (if method == "post".toList then
    if action then [("200", "Successful response"), ("400", "Validation error")]
    else [("201", "Created"), ("400", "Validation error")]
  else if method == "put".toList || method == "patch".toList then
    [("200", "Updated"), ("400", "Validation error")]
  else if method == "delete".toList then [("204", "Deleted")]
  else [("200", "Successful response")]) ++
  if item then [("404", "Not found")] else []

def braced (parts : List Text) : Text :=
  "\x7b ".toList ++ Text.join ", ".toList parts ++ " \x7d".toList

def entry (key value : Text) : Text := key ++ ": ".toList ++ value

def renderResponses (policy : Policy) (method path : Text) : Text :=
  braced ((defaultResponses policy method path).map fun (code, meaning) =>
    entry ('\'' :: code.toList ++ ['\''])
      (braced [entry "description".toList ('\'' :: meaning.toList ++ ['\''])]))

/-- The object of a request body that refers to a schema. -/
def renderRequestBody (schema : Text) : Text :=
  braced [entry "required".toList "true".toList,
    entry "content".toList (braced [entry "'application/json'".toList
      (braced [entry "schema".toList
        (braced [entry "$ref".toList
          ("'#/components/schemas/".toList ++ schema ++ ['\''])])])])]

def renderOperation (policy : Policy) (method path : Text) : Text :=
  braced (entry "summary".toList (Quoted.encode (summary policy method path)) ::
    ((expectedSchema? policy method path).map fun schema =>
      entry "requestBody".toList (renderRequestBody schema)).toList ++
    [entry "responses".toList (renderResponses policy method path)])

end ServiceGate.Spec
