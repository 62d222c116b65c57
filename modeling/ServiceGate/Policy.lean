/-
# The gate's policy

Lists that exempt routes, endpoints and imports from some of the rules.
-/
import ServiceGate.Route.Path

namespace ServiceGate

/-- What the structural and specification rules leave out, and which imports have to be used. -/
structure Policy where
  /-- Infrastructure routes, in normal form. -/
  infraPaths : List Text
  /-- Last segments of paths that act on a session or an item and hold no resource. -/
  actionSegments : List Text
  /-- Import members that must be used where they are imported. -/
  optionalImportMembers : List Text
deriving DecidableEq, Repr

namespace Policy

/-- The policy of a project that states none. -/
def default : Policy where
  infraPaths := ["/", "/health", "/docs", "/openapi.json"].map String.toList
  actionSegments :=
    ["login", "logout", "register", "signup", "signin", "refresh", "token", "verify", "reset",
      "auth", "session", "cancel", "complete", "approve", "reject", "archive", "restore", "publish",
      "send", "upload", "search", "validate", "checkout", "pay", "confirm"].map String.toList
  optionalImportMembers :=
    ["NextFunction", "RequestHandler", "ErrorRequestHandler", "Router", "ZodError"].map
      String.toList

instance : Inhabited Policy := ⟨default⟩

/-- Whether a path belongs to the infrastructure. -/
def isInfraPath (p : Policy) (path : Text) : Bool :=
  path.startsWith "/docs/".toList || p.infraPaths.contains path

/-- Whether a segment names an action, in whatever letter case. -/
def isActionSegment (p : Policy) (segment : Text) : Bool :=
  p.actionSegments.any fun action => action.lowerAscii == segment.lower.lowerAscii

/-- Whether the last fixed segment of a path names an action. -/
def isActionPath (p : Policy) (path : Text) : Bool :=
  (RoutePath.lastStatic? path).any p.isActionSegment

end Policy

end ServiceGate
