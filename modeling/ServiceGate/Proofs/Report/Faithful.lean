/-
# Reports tell what was found

The gate judges a service by its reported issues, which are put together from the verdicts on the
files and the collisions, and not by the verdict on the service.  The two come to the same: the
reported errors are the errors of the verdict on the service one by one and in their order, each
under the file that it is attributed to (`tells_reportedIssues`).

A suppression takes an issue out of the report and changes no other.  So the errors that count are
those that are not suppressed where they are attributed to (`errorCount_reportedIssues`), a check
passes exactly if there is none, and a report in JSON gives their number (`report_faithful`).  Where
a file has no verdict the check reports nothing (`not_always_faithful`).
-/
import ServiceGate.Proofs.Command.Agree
import ServiceGate.Proofs.Project.Collisions

namespace ServiceGate

variable {policy : Policy} {mode : StorageMode} {files : List SourceFile} {r : ProjectVerdict}
  {perFile : List (Text × Verdict)} {entries : List Suppression} {s : Text}

/-- An error of a service together with the file that it is attributed to. -/
abbrev LocatedError := Text × Issue

/-- A reported issue is an error of the service.  Errors of a file are told of the service with the
path in front; a collision is attributed to the first path that it names. -/
structure ReportedIssue.Tells (files : List SourceFile) (i : ReportedIssue) (e : LocatedError) :
    Prop where
  file : i.file = e.1
  severity : i.severity = .error
  rule : i.rule = e.2.code
  line : i.line = e.2.position.map (·.line)
  column : i.column = e.2.position.map (·.column)
  matched : i.matched = e.2.matched
  remedy : i.remedy = e.2.remedy
  message :
    (e.2.code ≠ duplicateExport ∧ e.2.message = s!"{String.ofList e.1}: {i.message}") ∨
    (e.2.code = duplicateExport ∧ e.2.message = i.message ∧ ∃ paths,
      NamesExporters files e.2.matched paths ∧ e.2 = collisionIssue e.2.matched paths ∧
        paths.head? = some e.1)

/-- Whether an error is suppressed where it is attributed to. -/
def LocatedError.isCovered (entries : List Suppression) (e : LocatedError) : Bool :=
  Suppression.anyCovers entries e.2.code.toList e.1

/-! ## The file of a collision -/

theorem head?_eraseDups {α : Type} [BEq α] [LawfulBEq α] (l : List α) :
    l.eraseDups.head? = l.head? := by
  cases l with
  | nil => rfl
  | cons a l => rw [List.eraseDups_cons]; rfl

theorem head?_owners (h : Collides files s) :
    (Exports.owners (.ofFiles files) s).head? = some (firstOwner files s) := by
  rw [owners_ofFiles, head?_eraseDups, exporters, List.head?_map, List.head?_filter, firstOwner]
  cases hfind : files.find? fun f => (exportedSymbols f.text).contains s with
  | some f => rfl
  | none =>
      obtain ⟨f, hf, -, -, -, hs, -⟩ := h
      exact absurd (List.contains_iff_mem.mpr hs) (List.find?_eq_none.mp hfind f hf)

/-! ## The reported errors -/

/-- The errors of the files, each as it is reported and as it is told of the service. -/
def toldInFiles (perFile : List (Text × Verdict)) : List (ReportedIssue × LocatedError) :=
  perFile.flatMap fun (path, v) => v.errors.map fun i =>
  (.ofIssue path .error i, path, i.inFile path)

/-- The collisions, each as it is reported and as it is told of the service. -/
def toldOfCollisions (files : List SourceFile) : List (ReportedIssue × LocatedError) :=
  (collisionErrors files).map fun i =>
    (.ofIssue (firstOwner files i.matched) .error i, firstOwner files i.matched, i)

theorem reportedIssues_nil (r : ProjectVerdict) (files : List SourceFile) :
    reportedIssues r files [] = allIssues r files :=
  List.filter_eq_self.mpr fun _ _ => rfl

theorem filter_isError_fileIssues (path : Text) (v : Verdict) :
    (fileIssues path v).filter (·.isError) = v.errors.map (.ofIssue path .error) := by
  rw [fileIssues, List.filter_append, List.filter_map, List.filter_map]
  have herrors : v.errors.filter (ReportedIssue.isError ∘ .ofIssue path .error) = v.errors :=
    List.filter_eq_self.mpr fun _ _ => rfl
  have hwarnings : v.warnings.filter (ReportedIssue.isError ∘ .ofIssue path .warning) = [] :=
    List.filter_eq_nil_iff.mpr fun _ _ h => by cases h
  rw [herrors, hwarnings, List.map_nil, List.append_nil]

theorem collisionIssues_ofFiles (h : List.Forall₂ (Judges policy mode) files perFile) :
    collisionIssues (.ofFiles (.ofFiles files) perFile) files = (toldOfCollisions files).map
    (·.1) := by
  have hfiles : (fileErrors perFile).filter (·.code == duplicateExport) = [] :=
    List.filter_eq_nil_iff.mpr fun i hi hcode => mem_fileErrors h hi (beq_iff_eq.mp hcode)
  have hcollisions : (collisionErrors files).filter (·.code == duplicateExport) =
      collisionErrors files :=
    List.filter_eq_self.mpr fun i hi => beq_iff_eq.mpr (code_of_mem_collisionErrors hi)
  rw [collisionIssues, errors_ofFiles, List.filter_append, hfiles, hcollisions, toldOfCollisions,
    List.map_map]
  rfl

theorem errors_reportedIssues (h : List.Forall₂ (Judges policy mode) files perFile) :
    (reportedIssues (.ofFiles (.ofFiles files) perFile) files []).filter (·.isError) =
      (toldInFiles perFile ++ toldOfCollisions files).map (·.1) := by
  have hcollisions : ((toldOfCollisions files).map (·.1)).filter (·.isError) =
      (toldOfCollisions files).map (·.1) := by
    refine List.filter_eq_self.mpr fun i hi => ?_
    simp only [toldOfCollisions, List.map_map, List.mem_map] at hi
    obtain ⟨-, -, rfl⟩ := hi
    rfl
  rw [reportedIssues_nil, allIssues, List.filter_append, collisionIssues_ofFiles h, hcollisions,
    List.map_append]
  congr 1
  show (perFile.flatMap fun (path, v) => fileIssues path v).filter (·.isError) = _
  rw [List.filter_flatMap, toldInFiles, List.map_flatMap]
  refine List.flatMap_congr fun judged _ => ?_
  rw [filter_isError_fileIssues, List.map_map]
  rfl

theorem map_told (files : List SourceFile) (perFile : List (Text × Verdict)) :
    (toldInFiles perFile ++ toldOfCollisions files).map (·.2.2) =
      (ProjectVerdict.ofFiles (.ofFiles files) perFile).aggregate.errors := by
  rw [errors_ofFiles, List.map_append, toldInFiles, List.map_flatMap, fileErrors, toldOfCollisions,
    List.map_map]
  congr 1
  · refine List.flatMap_congr fun judged _ => ?_
    rw [List.map_map]
    rfl
  · exact List.map_id _

theorem tells_of_mem_told (h : List.Forall₂ (Judges policy mode) files perFile)
    {x : ReportedIssue × LocatedError} (hx : x ∈ toldInFiles perFile ++ toldOfCollisions files) :
    x.1.Tells files x.2 := by
  rcases List.mem_append.mp hx with hfile | hcollision
  · obtain ⟨judged, hjudged, hx⟩ := List.mem_flatMap.mp hfile
    obtain ⟨i, hi, rfl⟩ := List.mem_map.mp hx
    obtain ⟨t, hv⟩ := exists_judged h hjudged
    have hcode : i.code ≠ duplicateExport := code_ne_duplicateExport hv hi
    exact ⟨rfl, rfl, rfl, rfl, rfl, rfl, rfl, .inl ⟨hcode, rfl⟩⟩
  · obtain ⟨i, hi, rfl⟩ := List.mem_map.mp hcollision
    obtain ⟨hcollides, hissue⟩ := eq_of_mem_collisionErrors hi
    exact ⟨rfl, rfl, rfl, rfl, rfl, rfl, rfl, .inr ⟨code_of_mem_collisionErrors hi, rfl, _,
      namesExporters_owners files _, hissue, head?_owners hcollides⟩⟩

/-- The reported errors are the errors of the service, one by one and in their order. -/
theorem tells_reportedIssues (h : validateFiles policy mode files = .ok r) :
    ∃ told : List (ReportedIssue × LocatedError), (∀ x ∈ told, x.1.Tells files x.2) ∧
      told.map (·.1) = (reportedIssues r files []).filter (·.isError) ∧
      told.map (·.2.2) = r.aggregate.errors := by
  obtain ⟨perFile, hjudged, rfl⟩ := validateFiles_eq_ok_iff.mp h
  exact ⟨toldInFiles perFile ++ toldOfCollisions files, fun x => tells_of_mem_told hjudged,
    (errors_reportedIssues hjudged).symm, map_told files perFile⟩

/-! ## Suppressed errors -/

theorem reportedIssues_eq (r : ProjectVerdict) (files : List SourceFile)
    (entries : List Suppression) :
    reportedIssues r files entries =
      (reportedIssues r files []).filter (!·.isSuppressed entries) := by
  rw [reportedIssues_nil]
  rfl

theorem ReportedIssue.Tells.isSuppressed {i : ReportedIssue} {e : LocatedError}
    (h : i.Tells files e) (entries : List Suppression) :
    i.isSuppressed entries = e.isCovered entries := by
  rw [ReportedIssue.isSuppressed, LocatedError.isCovered, h.rule, h.file]

/-- The errors that count are those that are not suppressed. -/
theorem errorCount_reportedIssues {told : List (ReportedIssue × LocatedError)}
    (htold : ∀ x ∈ told, x.1.Tells files x.2)
    (hissues : told.map (·.1) = (reportedIssues r files []).filter (·.isError))
    (entries : List Suppression) :
    errorCount (reportedIssues r files entries) = told.countP fun x => !x.2.isCovered entries := by
  have hcount : errorCount (reportedIssues r files entries) =
      ((reportedIssues r files []).filter (·.isError)).countP (!·.isSuppressed entries) := by
    rw [errorCount, reportedIssues_eq, List.countP_filter, List.countP_filter]
    exact List.countP_congr fun i _ => by rw [Bool.and_comm]
  rw [hcount, ← hissues, List.countP_map]
  refine List.countP_congr fun x hx => ?_
  rw [Function.comp, (htold x hx).isSuppressed]

/-! ## Checks -/

/-- A check loads these files, and judges them by this policy and for this mode. -/
structure CheckRequest.Loads (c : CheckRequest) (env : Environment) (tree : FileTree)
    (config : Config) (policy : Policy) (mode : StorageMode) (files : List SourceFile) : Prop where
  files : env.sourcePaths tree config c.target >>= env.sources tree = .ok files
  policy : config.policy = policy
  mode : c.storageMode.getD config.storageMode = mode

section Check
variable {c : CheckRequest} {env : Environment} {tree : FileTree} {config : Config}

theorem reportedIssues_of_empty (hr : validateFiles policy mode [] = .ok r)
    (entries : List Suppression) : reportedIssues r [] entries = [] := by
  obtain rfl := Except.ok.inj hr
  rfl

theorem run_of_loads (h : c.Loads env tree config policy mode files)
    (hr : validateFiles policy mode files = .ok r) :
    ∃ tree' lines, c.run env tree config = ⟨tree', lines,
        .ok (errorCount (reportedIssues r files (env.suppressions tree)) == 0)⟩ ∧
      (c.format = .json → lines =
        [(jsonReport files.length (reportedIssues r files (env.suppressions tree))).render]) := by
  obtain ⟨hfiles, rfl, rfl⟩ := h
  rw [CheckRequest.run, hfiles]
  cases files with
  | nil =>
      rw [reportedIssues_of_empty hr]
      refine ⟨tree, c.emptyLines, rfl, fun hjson => ?_⟩
      rw [CheckRequest.emptyLines, hjson]
      rfl
  | cons f files =>
      have hjudge := CheckRequest.judge.eq_1 c env tree config (f :: files)
      rw [hr] at hjudge
      refine ⟨_, _, hjudge, fun hjson => ?_⟩
      rw [CheckRequest.headingLines, CheckRequest.reportLines, hjson]
      rfl

theorem record?_jsonReport (checked : Nat) (issues : List ReportedIssue) :
    (jsonReport checked issues).record? ["errors"] = some [.number (errorCount issues)] :=
  rfl

end Check

/-- A service whose `try` blocks close has a verdict.  The errors that are reported of it are those
of the verdict, one by one, in their order and each in the file that it is attributed to; of all
issues those are left out that are suppressed, and no others.  So as many errors count as are not
suppressed, a check passes exactly if none counts, and a report in JSON gives that number. -/
theorem report_faithful (policy : Policy) (mode : StorageMode)
    (hclose : ∀ f ∈ files, TryBlocksClose f.text) :
    ∃ (r : ProjectVerdict) (located : List LocatedError),
      validateFiles policy mode files = .ok r ∧ located.map (·.2) = r.aggregate.errors ∧
      List.Forall₂ (ReportedIssue.Tells files)
        ((reportedIssues r files []).filter (·.isError)) located ∧
      (∀ entries, reportedIssues r files entries =
        (reportedIssues r files []).filter (!·.isSuppressed entries)) ∧
      (∀ entries, errorCount (reportedIssues r files entries) =
        located.countP (!·.isCovered entries)) ∧
      ∀ (c : CheckRequest) (env : Environment) (tree : FileTree) (config : Config),
        c.Loads env tree config policy mode files →
          (∃ passed, (c.run env tree config).outcome = .ok passed ∧
            (passed = true ↔ ∀ e ∈ located, e.isCovered (env.suppressions tree) = true) ∧
            (passed = true ↔ errorCount (reportedIssues r files (env.suppressions tree)) = 0)) ∧
          (c.format = .json → ∃ report : JsonValue,
            (c.run env tree config).output = [report.render] ∧
            report.record? ["errors"] =
              some [.number (errorCount (reportedIssues r files (env.suppressions tree)))]) := by
  obtain ⟨r, hr⟩ := @answers_validateFiles policy mode files hclose
  obtain ⟨told, htold, hissues, herrors⟩ := tells_reportedIssues hr
  have hcount : ∀ entries, errorCount (reportedIssues r files entries) =
      (told.map (·.2)).countP (!·.isCovered entries) := fun entries => by
    rw [errorCount_reportedIssues htold hissues, List.countP_map]
    rfl
  refine ⟨r, told.map (·.2), hr, ?_, ?_, reportedIssues_eq r files, hcount,
    fun c env tree config hloads => ?_⟩
  · rw [List.map_map, ← herrors]
    rfl
  · rw [← hissues, List.forall₂_map_left_iff, List.forall₂_map_right_iff, List.forall₂_same]
    exact htold
  · obtain ⟨tree', lines, hrun, hlines⟩ := run_of_loads hloads hr
    rw [hrun]
    refine ⟨⟨_, rfl, ?_, beq_iff_eq⟩, fun hjson => ⟨_, hlines hjson, record?_jsonReport ..⟩⟩
    rw [beq_iff_eq, hcount, List.countP_eq_zero]
    simp only [Bool.not_eq_true', Bool.not_eq_false]

def shopFiles : List SourceFile :=
  [⟨"src/a.ts".toList, "import \x7b z \x7d from 'zod';\nconst A = z.string();\n".toList⟩]

def shopReport : CheckRequest := { shopCheck with format := .json }

/-- The shop has one error, which nothing suppresses: the check fails and the report counts one. -/
theorem report_faithful_shop :
    ∃ (r : ProjectVerdict) (located : List LocatedError) (report : JsonValue),
      validateFiles .default .none shopFiles = .ok r ∧ r.aggregate.codes = ["UNUSED_SCHEMA"] ∧
        List.Forall₂ (ReportedIssue.Tells shopFiles)
          ((reportedIssues r shopFiles []).filter (·.isError)) located ∧
        (shopReport.run shopEnvironment shop .default).outcome = .ok false ∧
        (shopReport.run shopEnvironment shop .default).output = [report.render] ∧
        report.record? ["errors"] = some [.number 1] := by
  have hloads : shopReport.Loads shopEnvironment shop .default .default .none shopFiles :=
    ⟨by decide +kernel, rfl, rfl⟩
  obtain ⟨r, located, hr, -, htold, -, -, hcheck⟩ := report_faithful .default .none
    (show ∀ f ∈ shopFiles, TryBlocksClose f.text by decide +kernel)
  have hfound : (validateFiles .default .none shopFiles).toOption.map (fun r =>
      (r.aggregate.codes,
        errorCount (reportedIssues r shopFiles (shopEnvironment.suppressions shop)))) =
        some (["UNUSED_SCHEMA"], 1) := by
    decide +kernel
  rw [hr] at hfound
  obtain ⟨hcodes, hone⟩ := Prod.mk.inj (Option.some.inj hfound)
  obtain ⟨⟨passed, houtcome, -, hpassed⟩, hjson⟩ :=
    hcheck shopReport shopEnvironment shop .default hloads
  obtain ⟨report, hreport, hnumber⟩ := hjson rfl
  rw [hone] at hpassed hnumber
  have hfailed : passed = false := eq_false_of_ne_true fun h => Nat.one_ne_zero (hpassed.mp h)
  exact ⟨r, located, report, hr, hcodes, htold, hfailed ▸ houtcome, hreport, hnumber⟩

/-- A shop whose one file has a handler that is refused its cut. -/
def unclosedShop : FileTree where
  files := [(["shop", "src", "a.ts"].map String.toList, unclosedHandler)]
  directories := []

/-- A check of it loads the file and tells nothing: neither that it passes nor that it fails. -/
theorem not_always_faithful :
    ¬ ∀ (tree : FileTree) (files : List SourceFile),
      shopReport.Loads shopEnvironment tree .default .default .none files →
        ∃ passed, (shopReport.run shopEnvironment tree .default).outcome = .ok passed := by
  intro hall
  obtain ⟨passed, houtcome⟩ :=
    hall unclosedShop [⟨"src/a.ts".toList, unclosedHandler⟩] ⟨by decide +kernel, rfl, rfl⟩
  have hnone : (shopReport.run shopEnvironment unclosedShop .default).outcome.toBool = false := by
    decide +kernel
  rw [houtcome] at hnone
  cases hnone

end ServiceGate
