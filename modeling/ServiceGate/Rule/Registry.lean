/-
# The catalogue of rules

The rules in the order in which they are evaluated and reported, group by group, and the codes that
have a repair.
-/
import ServiceGate.Rule.Patterns
import ServiceGate.Rule.Imports
import ServiceGate.Rule.Schemas
import ServiceGate.Rule.Storage
import ServiceGate.Rule.Exports
import ServiceGate.Rule.Handlers
import ServiceGate.Rule.Specification

namespace ServiceGate.Rule

def blocking (code : String) (group : RuleGroup) (detector : Detector) (message remedy : String)
    (gate : Gate) : Rule :=
  ⟨code, group, detector, message, remedy, .error, gate⟩

def advising (code : String) (pattern : Pattern) (message remedy : String) : Rule :=
  ⟨code, .advisory, .forbidden pattern, message, remedy, .warning, .always⟩

/-- An analysis that always has an answer. -/
def total (run : Context → List Finding) : Detector := .analysis fun ctx => .ok (run ctx)

def alwaysFailRules : List Rule := [
  blocking "UNSAFE_BODY_CAST" .alwaysFail (.forbidden Forbidden.bodyCast)
    "Request body is cast to a type without validation"
    "Validate req.body with a Zod schema (Schema.parse / safeParse) and use the parsed result instead of a type assertion"
    .always,
  blocking "NAMESPACED_EXPRESS_TYPE" .alwaysFail (.forbidden Forbidden.qualifiedType)
    "Namespaced Express type used instead of the imported named type"
    "Import \x7b Request, Response \x7d from 'express' and use the bare type names"
    .always,
  blocking "UNVALIDATED_BODY_DESTRUCTURE" .alwaysFail (.forbidden Forbidden.bodyDestructuring)
    "Fields are destructured from req.body before validation"
    "Destructure from the result of Schema.parse(req.body) instead of req.body"
    .always,
  blocking "FORBIDDEN_UUID_DEPENDENCY" .alwaysFail (.forbidden Forbidden.identifierPackage)
    "The 'uuid' package is imported but the built-in generator must be used"
    "Replace the import with import \x7b randomUUID \x7d from 'crypto' and call randomUUID()"
    .always,
  blocking "UNNARROWED_PARAM" .alwaysFail
    (.forbidden (.alt Forbidden.convertedParameter Forbidden.parameterMethod))
    "Route/query parameter is consumed without narrowing its union type"
    "Wrap the parameter in String(...) before passing it on (e.g. parseInt(String(req.query.page), 10))"
    .always,
  blocking "NULLABLE_TIMESTAMP_ACCESS" .alwaysFail (.forbidden Forbidden.nullableTimestamp)
    "Timestamp column is accessed without a null check"
    "Use optional chaining and a fallback (row.created_at?.toISOString() ?? null)"
    (.storage .networkedRelational),
  blocking "MISSING_QUERY_AWAIT" .alwaysFail (total unawaitedQueries)
    "Database query result is not awaited"
    "Prefix the pool.query(...) call with await (or return/chain the promise)"
    (.storage .networkedRelational),
  blocking "UNGUARDED_JSON_PARSE" .alwaysFail (total untestedParses)
    "JSON.parse is applied to a column that may be NULL"
    "Guard the value first: row.tags ? JSON.parse(row.tags) : []"
    (.storage .networkedRelational),
  blocking "UNUSED_OPTIONAL_IMPORT" .alwaysFail (total unusedOptionalImports)
    "Optional import member is never used"
    "Remove the unused member from the import statement"
    .always,
  blocking "UNUSED_SCHEMA" .alwaysFail (total unusedSchemaDeclarations)
    "Zod schema is declared but never used"
    "Remove the schema or use it to validate a request"
    .usesSchemaLibrary]

/-- Rules on imports that other code needs. -/
def conditionalImportRules : List Rule := [
  blocking "MISSING_EXPRESS_TYPES_IMPORT" .conditionalImport (total handlerTypeImports)
    "Request/Response types are not imported from 'express'"
    "Add import \x7b Request, Response \x7d from 'express'"
    .hasRoutes,
  blocking "MISSING_ZOD_IMPORT" .conditionalImport (.required Required.schemaLibraryImport)
    "The z namespace is used but not imported from 'zod'"
    "Add import \x7b z \x7d from 'zod'"
    .usesSchemaLibrary,
  blocking "MISSING_UUID_IMPORT" .conditionalImport (.required Required.idGeneratorImport)
    "randomUUID() is called but not imported from 'crypto'"
    "Add import \x7b randomUUID \x7d from 'crypto'"
    .usesIdGenerator]

/-- Rules on the endpoints that every service has. -/
def requiredEndpointRules : List Rule := [
  blocking "MISSING_HEALTH_ENDPOINT" .requiredEndpoint
    (.required (Required.endpoint ["get"] "/health"))
    "GET /health liveness endpoint is missing"
    "Add app.get('/health', (_req, res) => res.json(\x7b status: 'ok' \x7d))"
    .hasRoutes,
  blocking "MISSING_ROOT_ENDPOINT" .requiredEndpoint (.required (Required.endpoint ["get"] "/"))
    "GET / metadata endpoint is missing"
    "Add app.get('/', ...) returning the service name, version and links"
    .hasRoutes,
  blocking "MISSING_DOCS_ENDPOINT" .requiredEndpoint
    (.required (Required.endpoint ["get", "use"] "/docs"))
    "/docs documentation endpoint is missing"
    "Serve API documentation at /docs (e.g. an HTML page rendering /openapi.json)"
    .hasRoutes,
  blocking "MISSING_SPEC_ENDPOINT" .requiredEndpoint
    (.required (Required.endpoint ["get"] "/openapi.json"))
    "GET /openapi.json specification endpoint is missing"
    "Add app.get('/openapi.json', (_req, res) => res.json(openApiSpec))"
    .hasRoutes]

def requiredExportRules : List Rule := [
  blocking "MISSING_APP_EXPORT" .requiredExport (total missingAppExport)
    "The Express application object is not exported"
    "Add export \x7b app \x7d; so tests can import the application"
    .definesServiceEntry,
  blocking "MISSING_START_EXPORT" .requiredExport (total missingStartExport)
    "The start/listen function is not exported"
    "Export the start function (export \x7b startServer \x7d;)"
    .definesServiceEntry,
  blocking "MISSING_START_FUNCTION" .requiredExport (total missingStartFunction)
    "No start/listen entry point function is defined"
    "Wrap app.listen(...) in an exported function such as startServer()"
    .definesServiceEntry]

/-- Rules on the structure of routes and handlers. -/
def structuralRules : List Rule := [
  blocking "MUTATION_WITHOUT_VALIDATION" .structural (.analysis unvalidatedMutations)
    "Mutation endpoint reads the request body without schema validation"
    "Validate req.body with a Zod schema before using it"
    .hasRoutes,
  blocking "UNGUARDED_VALIDATION" .structural (.analysis unguardedValidations)
    "Validation failures are not distinguished from other errors"
    "Wrap Schema.parse in try/catch and answer 400 when err instanceof z.ZodError, or check safeParse(...).success"
    .hasRoutes,
  blocking "MISSING_LIST_ENDPOINT" .structural (total missingListEndpoints)
    "Resource can be created but not listed"
    "Add a GET endpoint on the same collection path returning all items"
    .hasRoutes]

/-- Rules on the embedded specification. -/
def specCompletenessRules : List Rule := [
  blocking "MISSING_OPENAPI_SPEC" .specCompleteness (total missingSpec)
    "No embedded OpenAPI specification object was found"
    "Declare const openApiSpec = \x7b openapi: '3.0.0', paths: \x7b...\x7d, components: \x7b schemas: \x7b...\x7d \x7d \x7d"
    .hasRoutes,
  blocking "SPEC_MISSING_REQUEST_BODY" .specCompleteness (total (onSpec missingRequestBodies))
    "Mutation operation in the OpenAPI spec declares no requestBody"
    "Add requestBody with a $ref to the Create/Update schema"
    .hasRoutes,
  blocking "SPEC_MISSING_SCHEMAS" .specCompleteness (total (onSpec missingSchemas))
    "Create/Update schema missing from components.schemas"
    "Declare the Create<Resource>/Update<Resource> schemas under components.schemas"
    .hasRoutes,
  blocking "SPEC_MISSING_RESPONSES" .specCompleteness (total (onSpec missingResponses))
    "Operation in the OpenAPI spec declares no responses"
    "Declare at least one response per operation"
    .hasRoutes,
  blocking "SPEC_DRIFT" .specCompleteness (total (onSpec drift))
    "Routes implemented in code are missing from the OpenAPI spec"
    "Add every implemented method/path to the paths section of the spec"
    .hasRoutes]

def advisoryRules : List Rule := [
  advising "EXPLICIT_ANY" Forbidden.explicitAny
    "Explicit 'any' weakens type checking"
    "Use a concrete type or unknown",
  advising "CONSOLE_LOG" Forbidden.consoleLog
    "console.log left in service code"
    "Remove the debug print or use a logger"]

def all : List Rule :=
  alwaysFailRules ++ conditionalImportRules ++ requiredEndpointRules ++ requiredExportRules ++
    structuralRules ++ specCompletenessRules ++ advisoryRules

def find? (code : String) : Option Rule := all.find? (·.code == code)

def fixableCodes : List String :=
  ["UNUSED_OPTIONAL_IMPORT", "UNUSED_SCHEMA", "FORBIDDEN_UUID_DEPENDENCY",
    "NAMESPACED_EXPRESS_TYPE",
    "UNNARROWED_PARAM", "MISSING_ZOD_IMPORT", "MISSING_UUID_IMPORT", "MISSING_OPENAPI_SPEC",
    "SPEC_DRIFT", "SPEC_MISSING_REQUEST_BODY", "SPEC_MISSING_RESPONSES", "SPEC_MISSING_SCHEMAS",
    "MISSING_HEALTH_ENDPOINT", "MISSING_ROOT_ENDPOINT", "MISSING_DOCS_ENDPOINT",
    "MISSING_SPEC_ENDPOINT", "MISSING_EXPRESS_TYPES_IMPORT", "MISSING_APP_EXPORT",
    "MISSING_START_EXPORT"]

def isFixable (code : String) : Bool := fixableCodes.contains code

end ServiceGate.Rule
