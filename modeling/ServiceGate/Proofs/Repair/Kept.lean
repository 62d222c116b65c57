/-
# Repairs that are given up

A repair of a balanced text is given up if what it comes to is not balanced.  That happens: a schema
is cut out with the rest of its lines, so one that ends in front of a closing brace takes the brace
along (`crowded`).

Which step loses balance, and where:

    a step that is `Ready` keeps it               -- `balanced_step`
    what a run has lost, one turn has lost        -- `exists_turn_of_lost`
    16 of the 19 steps lose it in some text       -- `exists_unbalanced`
    the other three (`keeping`) lose it nowhere   -- `ready_of_mem_keeping`

so a code is safe to repair exactly if it is one of the three or has no repair, and a repair that is
given up has had a turn that got a balanced text that was not `Ready` for it (`given_up`).

A text is ready for a step if all that the step cuts out, replaces or writes behind stands by
itself: it starts in code outside of templates and closes every bracket, string and comment that it
opens.  An import that is written anew must be closed text too, for which names alone in its braces
are enough.  What the step leaves alone is of no account.
-/
import ServiceGate.Proofs.Balanced.Specification
import ServiceGate.Proofs.Repair.Run
import ServiceGate.Proofs.Verdict.ByRule

namespace ServiceGate.Repair

open Scan

variable {policy : Policy} {codes : List String} {t u : Text} {s : String × Repairer}

/-! ## One step -/

/-- What the step of a code asks of the text that it gets: that what it edits stands by itself. -/
def Ready (policy : Policy) (t : Text) : String → Prop
  | "UNUSED_OPTIONAL_IMPORT" => ShortenedStand policy t
  | "UNUSED_SCHEMA" => SchemasLoose t
  | "FORBIDDEN_UUID_DEPENDENCY" => PackageStands t ∧
      ImportFits "crypto".toList ["node:crypto".toList] ["randomUUID".toList] (withGenerator t)
  | "NAMESPACED_EXPRESS_TYPE" => ImportFits Rule.express [] (qualifiedTypes t) (withBareTypes t)
  | "MISSING_ZOD_IMPORT" => ImportFits "zod".toList [] ["z".toList] t
  | "MISSING_UUID_IMPORT" =>
    ImportFits "crypto".toList ["node:crypto".toList] ["randomUUID".toList] t
  | "MISSING_OPENAPI_SPEC" => Loose t (specOffset (.of t)) (specOffset (.of t))
  | "SPEC_DRIFT" => DriftStands policy t
  | "SPEC_MISSING_REQUEST_BODY" => BodiesStand policy t
  | "SPEC_MISSING_RESPONSES" => ResponsesStand policy t
  | "SPEC_MISSING_SCHEMAS" => SchemasStand policy t
  | "MISSING_HEALTH_ENDPOINT" => EndpointStands .health t
  | "MISSING_ROOT_ENDPOINT" => EndpointStands .root t
  | "MISSING_DOCS_ENDPOINT" => EndpointStands .docs t
  | "MISSING_SPEC_ENDPOINT" => EndpointStands .spec t
  | "MISSING_EXPRESS_TYPES_IMPORT" => ImportFits "express".toList [] handlerTypes t
  | _ => True

def keeping : List String := ["UNNARROWED_PARAM", "MISSING_APP_EXPORT", "MISSING_START_EXPORT"]

theorem ready_of_mem_keeping {code : String} (h : code ∈ keeping) (policy : Policy) (t : Text) :
    Ready policy t code := by
  simp only [keeping, List.mem_cons, List.not_mem_nil, or_false] at h
  rcases h with rfl | rfl | rfl <;> trivial

/-- A step that is ready keeps a balanced text balanced. -/
theorem balanced_step (hs : s ∈ steps) (hready : Ready policy t s.1) (ht : balanced t = true)
    (h : s.2 policy t = some u) : balanced u = true := by
  simp only [steps, List.mem_cons, List.not_mem_nil, or_false] at hs
  rcases hs with rfl | rfl | rfl | rfl | rfl | rfl | rfl | rfl | rfl | rfl | rfl | rfl | rfl | rfl |
    rfl | rfl | rfl | rfl | rfl <;> simp only [Ready] at hready
  · exact (balanced_removeUnusedOptionalMembers hready h).trans ht
  · exact (balanced_removeUnusedSchemas h hready).trans ht
  · exact (balanced_replaceIdentifierPackage hready.1 hready.2 h).trans ht
  · exact (balanced_unqualifyTypes hready h).trans ht
  · exact (balanced_narrowParameters h).trans ht
  · exact (balanced_addImport hready h).trans ht
  · exact (balanced_addImport hready h).trans ht
  · exact (balanced_synthesizeSpec hready h).trans ht
  · exact (balanced_injectDrift hready h).trans ht
  · exact (balanced_injectRequestBodies hready h).trans ht
  · exact (balanced_injectResponses hready h).trans ht
  · exact (balanced_injectSchemas hready h).trans ht
  · exact (balanced_injectEndpoint hready h).trans ht
  · exact (balanced_injectEndpoint hready h).trans ht
  · exact (balanced_injectEndpoint hready h).trans ht
  · exact (balanced_injectEndpoint hready h).trans ht
  · exact (@balanced_addImport t u _ _ ["Request", "Response"] hready h).trans ht
  · exact balanced_exportApp h ht
  · exact balanced_exportStart h ht

/-! ## Steps that lose balance -/

/-- For each repair that asks something of the text, a balanced text that it takes out of balance,
with the place of the repair among the steps.  A comment in the braces of an import may hold the end
of a statement, and a literal that is written over may hold one bracket of a pair. -/
def unready : List (String × Nat × Text) := [
  ("UNUSED_OPTIONAL_IMPORT", 0, "import \x7bRouter // \x7d from 'b';\n\x7d".toList),
  ("UNUSED_SCHEMA", 1, "\x7b\nconst A = z.string() \x7d".toList),
  ("FORBIDDEN_UUID_DEPENDENCY", 2, "import \x7bv4 // \x7d from 'uuid';\n\x7d".toList),
  ("NAMESPACED_EXPRESS_TYPE", 3,
    "import \x7ba // \x7d from 'express';\n\x7d\nexpress.Request".toList),
  ("MISSING_ZOD_IMPORT", 5, "import \x7ba // \x7d from 'zod';\n\x7d".toList),
  ("MISSING_UUID_IMPORT", 6, "import \x7ba // \x7d from 'crypto';\n\x7d".toList),
  ("MISSING_OPENAPI_SPEC", 7, "import \x7ba // \x7d from 'b'; (\n\x7d\napp.get('/x',h);".toList),
  ("SPEC_DRIFT", 8, "app.get('/x',h);const s = \x7bopenapi:3,paths:\x7b(\x7d\x7d)".toList),
  ("SPEC_MISSING_REQUEST_BODY", 9,
    "const s = \x7bopenapi:3,paths:\x7b'/x':\x7bpost:\x7b(\x7d\x7d\x7d\x7d)".toList),
  ("SPEC_MISSING_RESPONSES", 10,
    "const s = \x7bopenapi:3,paths:\x7b'/':\x7bget:\x7b(\x7d\x7d\x7d\x7d)".toList),
  ("SPEC_MISSING_SCHEMAS", 11,
    "app.post('/x',h);const s = \x7bopenapi:3,components:\x7b(\x7d\x7d)".toList),
  ("MISSING_HEALTH_ENDPOINT", 12,
    "import \x7ba // \x7d from 'express';\n\x7dapp.get('/x',h);".toList),
  ("MISSING_ROOT_ENDPOINT", 13,
    "import \x7ba // \x7d from 'express';\n\x7dapp.get('/x',h);".toList),
  ("MISSING_DOCS_ENDPOINT", 14,
    "import \x7ba // \x7d from 'express';\n\x7dapp.get('/x',h);".toList),
  ("MISSING_SPEC_ENDPOINT", 15,
    "import \x7ba // \x7d from 'express';\n\x7dapp.get('/x',h);".toList),
  ("MISSING_EXPRESS_TYPES_IMPORT", 16, "import \x7ba // \x7d from 'express';\n\x7d".toList)]

def losesBalance (step : Repairer) (t : Text) : Bool :=
  balanced t && (step .default t).any fun u => !balanced u

theorem losesBalance_unready : ∀ x ∈ unready,
    (steps[x.2.1]?).any (fun s => s.1 == x.1 && losesBalance s.2 x.2.2) = true := by
  decide +kernel

theorem mem_keeping_or_unready : ∀ code ∈ Rule.fixableCodes, code ∈ keeping ∨
    code ∈ unready.map Prod.fst := by
  unfold unready
  decide

/-- No other repair than those keeps balance everywhere. -/
theorem exists_unbalanced {code : String} (h : code ∈ unready.map Prod.fst) : ∃ t s, s ∈ steps ∧
    s.1 = code ∧ balanced t = true ∧ ∃ u, s.2 .default t = some u ∧ balanced u = false := by
  obtain ⟨⟨code, k, t⟩, hx, rfl⟩ := List.mem_map.mp h
  obtain ⟨s, hk, hs⟩ := (Option.any_eq_true _ _).mp (losesBalance_unready _ hx)
  obtain ⟨hcode, hloses⟩ := Bool.and_eq_true_iff.mp hs
  obtain ⟨ht, hany⟩ := Bool.and_eq_true_iff.mp hloses
  obtain ⟨u, hu, hopen⟩ := (Option.any_eq_true _ _).mp hany
  exact ⟨t, s, List.mem_of_getElem? hk, beq_iff_eq.mp hcode, ht, u, hu, by simpa using hopen⟩

/-! ## The run -/

/-- Where a repair is given up, one of its steps has got a balanced text that was not ready for it.
-/
theorem exists_turn_of_reverted (ht : balanced t = true)
    (h : (apply policy codes t).reverted = true) :
    ∃ front s behind u w, steps = front ++ s :: behind ∧ Turn policy codes front t s u w ∧
      balanced u = true ∧ balanced w = false ∧ ¬ Ready policy u s.1 := by
  have hlost : ¬ balanced (runSteps policy codes steps t).1 = true := by
    rcases apply_cases policy codes t with ⟨-, h'⟩ | ⟨-, -, h'⟩ | ⟨-, hout, -⟩
    · rw [h'] at h
      cases h
    · rw [h'] at h
      cases h
    · rw [hout]
      exact Bool.false_ne_true
  obtain ⟨front, s, behind, u, w, hsteps, hturn, hu, hw⟩ :=
    exists_turn_of_lost (P := fun t => balanced t = true) ht hlost
  have hs : s ∈ steps := hsteps ▸ List.mem_append_right front List.mem_cons_self
  exact ⟨front, s, behind, u, w, hsteps, hturn, hu, Bool.not_eq_true _ ▸ hw, fun hready =>
    hw (balanced_step hs hready hu hturn.step)⟩

theorem reverted_of_lost {s : String × Repairer} (hs : s ∈ steps) (ht : balanced t = true)
    (hu : s.2 policy t = some u) (hlost : balanced u = false) :
    (apply policy [s.1] t).reverted = true := by
  have hmoves : runStep? policy s.2 t = some u := by
    rw [runStep?, hu, Option.bind_some, if_neg]
    rintro rfl
    exact absurd (ht.symm.trans hlost) (by decide)
  have hrun : runSteps policy [s.1] steps t = (u, [s.1]) := runSteps_single nodup_steps hs hmoves
  rcases apply_cases policy [s.1] t with ⟨h', -⟩ | ⟨-, h', -⟩ | ⟨-, -, h'⟩
  · rw [ht] at h'
    cases h'
  · rw [hrun, hlost] at h'
    cases h'
  · rw [h']

/-- A code is safe to repair exactly if its step asks nothing or there is none: no other repair
keeps balance everywhere.  And a repair is given up only where a step that was asked for has got a
balanced text that was not ready for it. -/
theorem given_up :
    (∀ code, (∀ policy t, balanced t = true → (apply policy [code] t).reverted = false) ↔
      (code ∈ Rule.fixableCodes → code ∈ keeping)) ∧
    ∀ policy codes t, balanced t = true → (apply policy codes t).reverted = true →
      ∃ front s behind u w, steps = front ++ s :: behind ∧ Turn policy codes front t s u w ∧
        balanced u = true ∧ balanced w = false ∧ ¬ Ready policy u s.1 := by
  refine ⟨fun code => ⟨fun hkept hcode => ?_, fun hsafe policy t ht => ?_⟩, fun _ _ _ ht h =>
    exists_turn_of_reverted ht h⟩
  · refine (mem_keeping_or_unready code hcode).resolve_right fun hunready => ?_
    obtain ⟨t, s, hs, rfl, ht, u, hu, hlost⟩ := exists_unbalanced hunready
    have hreverted := hkept .default t ht
    rw [reverted_of_lost hs ht hu hlost] at hreverted
    cases hreverted
  · by_contra hreverted
    obtain ⟨front, s, behind, u, w, hsteps, hturn, -, -, hnot⟩ :=
      exists_turn_of_reverted ht (by simpa using hreverted)
    obtain rfl := List.mem_singleton.mp hturn.reported
    refine hnot (ready_of_mem_keeping (hsafe ?_) policy u)
    rw [← map_fst_steps, hsteps]
    exact List.mem_map_of_mem (List.mem_append_right front List.mem_cons_self)

/-- A schema that ends in front of the brace of its block. -/
def crowded : Text :=
  "import \x7b z \x7d from 'zod';\nfunction f() \x7b\n  const A = z.string() \x7d\n".toList

def crowdedCodes : List String := ["UNUSED_SCHEMA"]

theorem crowded_reverted : codesFound? .default .none crowded = some crowdedCodes ∧
    balanced crowded = true ∧ (apply .default crowdedCodes crowded).reverted = true := by
  have hchars : crowded = _ := String.toList_ofList
  rw [hchars]
  decide +kernel

theorem not_always_kept : ¬ ∀ (policy : Policy) (mode : StorageMode) (t : Text) (v : Verdict),
    balanced t = true → validate policy mode t = .ok v →
    (apply policy v.codes t).reverted = false := by
  intro h
  obtain ⟨hcodes, ht, hreverted⟩ := crowded_reverted
  obtain ⟨v, hv, hvc⟩ := exists_verdict hcodes
  have hkept := h .default .none crowded v ht hv
  rw [hvc, hreverted] at hkept
  cases hkept

end ServiceGate.Repair
