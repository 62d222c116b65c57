/-
# Infrastructure endpoints

The endpoints that every service has, each with the path it answers on and the handler it gets where
it is missing.  A new endpoint goes behind the last route, on the same receiver.
-/
import ServiceGate.Repair.Imports
import ServiceGate.Repair.Specification

namespace ServiceGate

/-- An endpoint of the infrastructure. -/
inductive Endpoint where
  | health
  | root
  | docs
  | spec
deriving DecidableEq, Repr

namespace Endpoint

def path : Endpoint → String
  | .health => "/health"
  | .root => "/"
  | .docs => "/docs"
  | .spec => "/openapi.json"

/-- What the page of the documentation holds. -/
def docsPage : String :=
  "<!DOCTYPE html><html><head><title>API Docs</title>" ++
  "<link rel=\"stylesheet\" href=\"https://unpkg.com/swagger-ui-dist@5/swagger-ui.css\"></head>" ++
  "<body><div id=\"swagger-ui\"></div>" ++
  "<script src=\"https://unpkg.com/swagger-ui-dist@5/swagger-ui-bundle.js\"></script>" ++
  "<script>SwaggerUIBundle(\x7b url: \"/openapi.json\", dom_id: \"#swagger-ui\" \x7d);</script>" ++
  "</body></html>"

/-- What the handler of the endpoint does. -/
def body (specName : Text) : Endpoint → Text
  | .health => "res.json(\x7b status: 'ok' \x7d);".toList
  | .root =>
    "res.json(\x7b status: 'ok', docs: '/docs', openapi: '/openapi.json' \x7d);".toList
  | .docs => "res.type('html').send('".toList ++ docsPage.toList ++ "');".toList
  | .spec => "res.json(".toList ++ specName ++ ");".toList

def render (e : Endpoint) (receiver specName : Text) : Text :=
  receiver ++ ".get('".toList ++ e.path.toList ++
    "', (_req: Request, res: Response) => \x7b\n  ".toList ++ e.body specName ++
    "\n\x7d);".toList

end Endpoint

namespace Repair

/-- Whether a route answers for an endpoint. -/
def answersFor (e : Endpoint) (r : Route) : Bool :=
  r.method == "get".toList && r.normalPath == e.path.toList

/-- Registers an endpoint; `none` if a route answers for it or there is no route to follow. -/
def injectEndpoint (e : Endpoint) (t : Text) : Option Text := do
  let s := Scan.Source.of t
  let routes := Route.all s
  if routes.any (answersFor e) then none
  else
    let last ← routes.getLast?
    let n ← last.statementStop? t
    let name := ((Spec.find? s).map (·.name)).getD specName
    let out := t.insertAt n ("\n\n".toList ++ e.render last.receiver name)
    return ensureNamedImport Rule.express [] ["Request".toList, "Response".toList] out

end Repair

end ServiceGate
