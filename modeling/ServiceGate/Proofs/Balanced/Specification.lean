/-
# A specification that is written and completed

A new specification is closed, so it keeps balance where its place is loose.  A specification is
completed entry by entry, each entry closed and put in where the literal is read as it is then; so
balance is kept where every literal of the specification stands, that is, is loose and has a loose
place behind its last value, in every text on the way (`SpecStands`).

Every completion is a loop over texts: an entry is put in, the specification is looked up again, and
so on.  What is asked of the texts on the way is named for each loop (`DriftStands`, `BodiesStand`,
`ResponsesStand`, `SchemasStand`), with the same recursion as the loop itself, so that one round of
the loop uses up one layer of the assumption.  `Spec.Holds` collects the literals of a specification
that a round may write to.

An endpoint is put in behind the last route, with the names that its handler refers to imported then
(`EndpointStands`).

What a repair, or a round of one, can do is told once for each, guards included
(`exists_of_synthesizeSpec`, `exists_of_injectDrift`, `completeRequestBodies_round`,
`completeResponses_round`, `exists_of_injectEndpoint`), and what follows from an answer is taken
from there.
-/
import ServiceGate.Proofs.Balanced.Imports
import ServiceGate.Proofs.Balanced.Written
import ServiceGate.Proofs.Checked.Specification
import ServiceGate.Proofs.Route.Written

namespace ServiceGate

open Scan
open Text (Bounds)

variable {t u entry : Text} {spec : Spec} {o o' : ObjectLiteral} {policy : Policy}

/-! ## Adding an entry -/

/-- A literal that is loose, with a loose place behind its last value. -/
structure ObjectLiteral.Stands (t : Text) (o : ObjectLiteral) : Prop where
  whole : Loose t o.openAt (o.closeAt + 1)
  behind : ∀ last n, o.entries.getLast? = some last → behindValue? t last = some n → Loose t n n

theorem closed_separator (t : Text) (o : ObjectLiteral) (last : ObjectEntry) :
    Closed (o.separator t last) := by
  rw [ObjectLiteral.separator]
  split_ifs
  · refine .append (closed_of_isClosed (by decide)) (closed_of_isSpace fun c hc => ?_)
    exact Repair.isSpace_of_isIndent (List.mem_takeWhile_imp hc)
  · exact closed_of_isClosed (by decide)

theorem balanced_insertEntry (h : o.Stands t) (hentry : Closed entry) :
    balanced (o.insertEntry t entry) = balanced t := by
  have hreplace : balanced (o.replaceWith t entry) = balanced t := by
    have hclosed := closed_braced (List.forall_mem_singleton.mpr hentry)
    have htext : Spec.braced [entry] = "\x7b ".toList ++ entry ++ " \x7d".toList := by
      simp [Spec.braced, Text.join, List.intercalate]
    rw [htext] at hclosed
    exact h.whole.balanced_splice hclosed
  rw [ObjectLiteral.insertEntry]
  cases hlast : o.entries.getLast? with
  | none => exact hreplace
  | some last =>
      cases hn : ObjectLiteral.behindValue? t last with
      | none => simpa only [hn] using hreplace
      | some n =>
          have hplace := h.behind last n hlast hn
          simpa only [hn] using hplace.balanced_insertAt ((closed_separator t o last).append hentry)

/-! ## The literals of a specification -/

/-- The literal of a specification, and the literals that are values in one of its literals. -/
inductive Spec.Holds (spec : Spec) (t : Text) : ObjectLiteral → Prop
  | whole : spec.Holds t spec.literal
  | value {o o' : ObjectLiteral} {e : ObjectEntry} :
      spec.Holds t o → e ∈ o.entries → e.object? t = some o' → spec.Holds t o'

/-- Every literal of the specification of a text stands. -/
def SpecStands (t : Text) : Prop :=
  ∀ spec, Repair.specOf? t = some spec → ∀ o, spec.Holds t o → o.Stands t

namespace Spec

theorem Holds.get? (h : spec.Holds t o) {key : Text} {e : ObjectEntry} (he : o.get? key = some e)
    (ho : e.object? t = some o') : spec.Holds t o' :=
  .value h (List.mem_of_find?_eq_some he) ho

theorem holds_of_paths? (h : spec.paths? t = some o) : spec.Holds t o := by
  obtain ⟨e, he, ho⟩ := Option.bind_eq_some_iff.mp h
  exact Holds.whole.get? he ho

theorem holds_of_schemas? (h : spec.schemas? t = some o) : spec.Holds t o := by
  obtain ⟨e, h, ho⟩ := Option.bind_eq_some_iff.mp h
  obtain ⟨components, hcomponents, he⟩ := Option.bind_eq_some_iff.mp h
  obtain ⟨e', he', hcomponents⟩ := Option.bind_eq_some_iff.mp hcomponents
  exact (Holds.whole.get? he' hcomponents).get? he ho

theorem holds_of_mem_operations {op : SpecOperation} (h : op ∈ spec.operations t)
    (ho : op.object = some o) : spec.Holds t o := by
  rw [operations] at h
  cases hpaths : spec.paths? t with
  | none => rw [hpaths] at h; cases h
  | some paths =>
      rw [hpaths] at h
      obtain ⟨e, he, h⟩ := List.mem_flatMap.mp h
      rw [operationsOfPath] at h
      cases hitem : e.object? t with
      | none => rw [hitem] at h; cases h
      | some item =>
          rw [hitem] at h
          obtain ⟨e', he', hop⟩ := List.mem_filterMap.mp h
          rw [operation?] at hop
          split_ifs at hop
          obtain rfl := Option.some.inj hop
          exact .value (.value (holds_of_paths? hpaths) he hitem) he' ho

end Spec

namespace Repair

/-! ## What the repairs can do -/

/-- A new specification goes to its place, with an empty line in front of it or, at the start of the
text, behind it. -/
theorem exists_of_synthesizeSpec (h : synthesizeSpec policy t = some u) :
    Spec.find? (.of t) = none ∧ Route.all (.of t) ≠ [] ∧ ∃ lead trail,
      u = t.insertAt (specOffset (.of t)) (lead ++ specFor policy ((Route.all (.of t)).filter
        fun r => !policy.isInfraPath r.normalPath) ++ trail) ∧
      (specOffset (.of t) ≠ 0 ∧ lead = "\n\n".toList ∧ trail = [] ∨
        specOffset (.of t) = 0 ∧ lead = [] ∧ trail = "\n\n".toList) := by
  rw [synthesizeSpec] at h
  dsimp only at h
  split_ifs at h with hguard
  rw [Bool.or_eq_true, not_or, Option.not_isSome_iff_eq_none, List.isEmpty_iff] at hguard
  refine ⟨hguard.1, hguard.2, ?_⟩
  cases hn : specOffset (.of t) with
  | zero =>
      rw [hn] at h
      refine ⟨[], _, (Option.some.inj h).symm.trans ?_, .inr ⟨rfl, rfl, rfl⟩⟩
      rw [Text.insertAt, Text.splice, Text.before, Text.before?_zero, Text.after, Text.after?_zero]
      rfl
  | succ n =>
      rw [hn] at h
      refine ⟨_, [], (Option.some.inj h).symm.trans ?_, .inl ⟨Nat.succ_ne_zero n, rfl, rfl⟩⟩
      rw [List.append_nil]

theorem exists_of_injectDrift (h : injectDrift policy t = some u) :
    ∃ start spec, ensurePaths t = some start ∧ specOf? start = some spec ∧
      declareOperations policy (spec.driftKeys (.of start) policy) start = some (u, true) := by
  obtain ⟨start, hstart, h⟩ := Option.bind_eq_some_iff.mp h
  obtain ⟨spec, hspec, h⟩ := Option.bind_eq_some_iff.mp h
  obtain ⟨⟨out, written⟩, hout, h⟩ := Option.bind_eq_some_iff.mp h
  dsimp only at h
  split_ifs at h with hwritten
  rw [hwritten, Option.some.inj h] at hout
  exact ⟨start, spec, hstart, hspec, hout⟩

/-- A round gives the first operation that lacks a request body one, and the other rounds go on from
there; or there is nothing to write. -/
theorem completeRequestBodies_round {rounds : Nat}
    (h : completeRequestBodies policy (rounds + 1) t = some u) :
    u = t ∨ ∃ spec operation schema o, specOf? t = some spec ∧
      (spec.withoutRequestBody t policy).head? = some operation ∧ operation.object = some o ∧
      Spec.expectedSchema? policy operation.method operation.path = some schema ∧
      ∀ k, completeRequestBodies policy (k + 1) t = completeRequestBodies policy k
        (o.insertEntry t (Spec.entry "requestBody".toList (Spec.renderRequestBody schema))) := by
  rw [completeRequestBodies] at h
  obtain ⟨spec, hspec, h⟩ := Option.bind_eq_some_iff.mp h
  cases hhead : (spec.withoutRequestBody t policy).head? with
  | none =>
      rw [hhead] at h
      exact .inl (Option.some.inj h).symm
  | some operation =>
      rw [hhead] at h
      dsimp only at h
      split at h
      · next o schema ho hschema =>
          refine .inr ⟨spec, operation, schema, o, hspec, hhead, ho, hschema, fun k => ?_⟩
          rw [completeRequestBodies]
          simp only [hspec, hhead, ho, hschema, Option.bind_eq_bind, Option.bind_some]
      · exact .inl (Option.some.inj h).symm

/-- A round gives the first operation that lacks responses some, and the other rounds go on from
there; or there is nothing to write. -/
theorem completeResponses_round {rounds : Nat}
    (h : completeResponses policy (rounds + 1) t = some u) :
    u = t ∨ ∃ spec operation o, specOf? t = some spec ∧
      (spec.withoutResponses t).head? = some operation ∧ operation.object = some o ∧
      ∀ k, completeResponses policy (k + 1) t = completeResponses policy k
        (writeResponses t o (Spec.renderResponses policy operation.method operation.path)) := by
  rw [completeResponses] at h
  obtain ⟨spec, hspec, h⟩ := Option.bind_eq_some_iff.mp h
  cases hhead : (spec.withoutResponses t).head? with
  | none =>
      rw [hhead] at h
      exact .inl (Option.some.inj h).symm
  | some operation =>
      rw [hhead] at h
      dsimp only at h
      split at h
      · exact .inl (Option.some.inj h).symm
      · next o ho =>
          refine .inr ⟨spec, operation, o, hspec, hhead, ho, fun k => ?_⟩
          rw [completeResponses]
          simp only [hspec, hhead, ho, Option.bind_eq_bind, Option.bind_some]

/-! ## A new specification -/

theorem balanced_synthesizeSpec (hplace : Loose t (specOffset (.of t)) (specOffset (.of t)))
    (h : synthesizeSpec policy t = some u) : balanced u = balanced t := by
  have hgap : Closed "\n\n".toList := closed_of_isSpace (by decide)
  have hspec : Closed (specFor policy ((Route.all (.of t)).filter fun r =>
      !policy.isInfraPath r.normalPath)) :=
    closed_specFor fun r hr => by
      have hwords : ∀ m ∈ Route.methodWords, IsBare m := by decide
      exact hwords _ (Route.method_mem (List.mem_filter.mp hr).1)
  obtain ⟨-, -, lead, trail, rfl, hcases⟩ := exists_of_synthesizeSpec h
  refine hplace.balanced_insertAt ?_
  rcases hcases with ⟨-, rfl, rfl⟩ | ⟨-, rfl, rfl⟩
  · exact (hgap.append hspec).append .nil
  · exact (Closed.nil.append hspec).append hgap

/-! ## Containers -/

theorem balanced_ensurePaths (ht : SpecStands t) (h : ensurePaths t = some u) :
    balanced u = balanced t := by
  obtain ⟨spec, hspec, rfl⟩ := Option.map_eq_some_iff.mp h
  split_ifs
  · rfl
  · exact balanced_insertEntry (ht spec hspec _ .whole) (closed_of_isClosed (by decide))

theorem balanced_ensureSchemas (ht : SpecStands t) (h : ensureSchemas t = some u) :
    balanced u = balanced t := by
  obtain ⟨spec, hspec, h⟩ := Option.bind_eq_some_iff.mp h
  have hwhole := ht spec hspec
  split at h
  · rw [← Option.some.inj h]
    exact balanced_insertEntry (hwhole _ .whole) (closed_of_isClosed (by decide))
  · next e he =>
      obtain ⟨components, hcomponents, h⟩ := Option.bind_eq_some_iff.mp h
      split_ifs at h
      · rw [← Option.some.inj h]
      · rw [← Option.some.inj h]
        exact balanced_insertEntry (hwhole _ (Spec.Holds.whole.get? he hcomponents))
          (closed_of_isClosed (by decide))

/-! ## Operations -/

theorem balanced_declareOperation {method path : Text} {written : Bool} (ht : SpecStands t)
    (hmethod : IsBare method) (h : declareOperation policy method path t = some (u, written)) :
    balanced u = balanced t := by
  have hentry : Closed (Spec.entry method (Spec.renderOperation policy method path)) :=
    closed_entry hmethod.closed braced_renderOperation.smooth.closed
  obtain ⟨spec, hspec, h⟩ := Option.bind_eq_some_iff.mp h
  obtain ⟨paths, hpaths, h⟩ := Option.bind_eq_some_iff.mp h
  have hholds := Spec.holds_of_paths? hpaths
  split at h
  · rw [← (Prod.mk.inj (Option.some.inj h)).1]
    exact balanced_insertEntry (ht spec hspec paths hholds)
      (closed_entry (closed_encode path) (closed_braced (List.forall_mem_singleton.mpr hentry)))
  · next e he =>
      split at h
      · rw [← (Prod.mk.inj (Option.some.inj h)).1]
      · next item hitem =>
          rw [← (Prod.mk.inj (Option.some.inj h)).1]
          exact balanced_insertEntry
            (ht spec hspec item (.value hholds (List.mem_of_find?_eq_some he) hitem)) hentry

theorem isBare_of_splitOnce? {r : Route} (hr : r ∈ Route.all (.of t)) {method path : Text}
    (h : Text.splitOnce? r.key ':' = some (method, path)) : IsBare method := by
  have hwords : ∀ m ∈ Route.methodWords, m.lower = m ∧ ':' ∉ m ∧ IsBare m := by decide +kernel
  obtain ⟨hlower, hcolon, hbare⟩ := hwords r.method (Route.method_mem hr)
  rw [Route.key, RoutePath.key, hlower, Text.splitOnce?_append hcolon] at h
  rw [← (Prod.mk.inj (Option.some.inj h)).1]
  exact hbare

/-- Operations declared one after the other, if the specification stands whenever the next is
declared. -/
theorem balanced_declareOperations : ∀ {keys : List Text} {t u : Text} {written : Bool},
    (∀ key ∈ keys, ∀ method path, Text.splitOnce? key ':' = some (method, path) → IsBare method) →
    (∀ front key out written, front ++ [key] <+: keys →
      declareOperations policy front t = some (out, written) → SpecStands out) →
    declareOperations policy keys t = some (u, written) → balanced u = balanced t
  | [], _, _, _, _, _, h => by
      rw [← (Prod.mk.inj (Option.some.inj h)).1]
  | key :: keys, t, u, written, hkeys, hstands, h => by
      obtain ⟨hkey, hkeys⟩ := List.forall_mem_cons.mp hkeys
      have ht : SpecStands t := hstands [] key t false (List.prefix_append [key] keys) rfl
      rw [declareOperations] at h
      cases hsplit : Text.splitOnce? key ':' with
      | none =>
          rw [hsplit] at h
          refine balanced_declareOperations hkeys (fun front next out w hfront hout => ?_) h
          refine hstands (key :: front) next out w (List.cons_prefix_cons.mpr ⟨rfl, hfront⟩) ?_
          rw [declareOperations, hsplit]
          exact hout
      | some operation =>
          obtain ⟨method, path⟩ := operation
          rw [hsplit] at h
          obtain ⟨⟨out, first⟩, hout, h⟩ := Option.bind_eq_some_iff.mp h
          obtain ⟨⟨last, more⟩, hlast, h⟩ := Option.bind_eq_some_iff.mp h
          rw [← (Prod.mk.inj (Option.some.inj h)).1]
          rw [← balanced_declareOperation ht (hkey method path hsplit) hout]
          refine balanced_declareOperations hkeys (fun front next out' w hfront hout' => ?_) hlast
          refine hstands (key :: front) next out' (first || w)
            (List.cons_prefix_cons.mpr ⟨rfl, hfront⟩) ?_
          simp only [declareOperations, hsplit, hout, hout', Option.bind_eq_bind, Option.bind_some]
          rfl

/-- The specification stands in every text on the way to one with every route declared. -/
def DriftStands (policy : Policy) (t : Text) : Prop :=
  SpecStands t ∧ ∀ start spec front key out written, ensurePaths t = some start →
    specOf? start = some spec → front ++ [key] <+: spec.driftKeys (.of start) policy →
      declareOperations policy front start = some (out, written) → SpecStands out

theorem balanced_injectDrift (ht : DriftStands policy t) (h : injectDrift policy t = some u) :
    balanced u = balanced t := by
  obtain ⟨start, spec, hstart, hspec, hout⟩ := exists_of_injectDrift h
  refine (balanced_declareOperations (fun key hkey method path hsplit => ?_)
    (fun front key out w => ht.2 start spec front key out w hstart hspec) hout).trans
      (balanced_ensurePaths ht.1 hstart)
  obtain ⟨r, hr, rfl⟩ := List.mem_map.mp (List.mem_filter.mp (mem_sortedSet.mp hkey)).1
  exact isBare_of_splitOnce? (List.mem_filter.mp hr).1 hsplit

/-! ## Request bodies and responses -/

/-- The specification stands in every text on the way to one in which no request body is missing. -/
def BodiesStand (policy : Policy) (t : Text) : Prop :=
  ∀ spec, specOf? t = some spec → ∀ k < (spec.withoutRequestBody t policy).length, ∀ out,
    completeRequestBodies policy k t = some out → SpecStands out

theorem balanced_completeRequestBodies : ∀ (rounds : Nat) {t u : Text},
    (∀ k < rounds, ∀ out, completeRequestBodies policy k t = some out → SpecStands out) →
    completeRequestBodies policy rounds t = some u → balanced u = balanced t
  | 0, _, _, _, h => by rw [← Option.some.inj h]
  | rounds + 1, t, u, ht, h => by
      have hstands := ht 0 (Nat.succ_pos _) t rfl
      rcases completeRequestBodies_round h with
        rfl | ⟨spec, operation, schema, o, hspec, hhead, ho, hschema, hround⟩
      · rfl
      · have hmem := (List.mem_filter.mp (List.mem_of_head? hhead)).1
        have hentry := closed_entry (closed_of_isClosed (t := "requestBody".toList) (by decide))
          (braced_renderRequestBody (isBare_of_expectedSchema? hschema)).smooth.closed
        rw [← balanced_insertEntry
          (hstands spec hspec o (Spec.holds_of_mem_operations hmem ho)) hentry]
        exact balanced_completeRequestBodies rounds (fun k hk out hout =>
          ht (k + 1) (Nat.succ_lt_succ hk) out ((hround k).trans hout)) (hround rounds ▸ h)

theorem balanced_injectRequestBodies (ht : BodiesStand policy t)
    (h : injectRequestBodies policy t = some u) : balanced u = balanced t := by
  obtain ⟨spec, hspec, h⟩ := Option.bind_eq_some_iff.mp h
  split at h
  · cases h
  · exact balanced_completeRequestBodies _ (ht spec hspec) h

/-- The specification stands in every text on the way to one in which no responses are missing. -/
def ResponsesStand (policy : Policy) (t : Text) : Prop :=
  ∀ spec, specOf? t = some spec → ∀ k < (spec.withoutResponses t).length, ∀ out,
    completeResponses policy k t = some out → SpecStands out

theorem balanced_writeResponses {responses : Text} (hspec : specOf? t = some spec)
    (ht : SpecStands t) (ho : spec.Holds t o) (hresponses : Closed responses) :
    balanced (writeResponses t o responses) = balanced t := by
  rw [writeResponses]
  split
  · next old hold =>
      obtain ⟨e, he, hobject⟩ := Option.bind_eq_some_iff.mp hold
      exact (ht spec hspec old (ho.get? he hobject)).whole.balanced_splice hresponses
  · exact balanced_insertEntry (ht spec hspec o ho)
      (closed_entry (closed_of_isClosed (by decide)) hresponses)

theorem balanced_completeResponses : ∀ (rounds : Nat) {t u : Text},
    (∀ k < rounds, ∀ out, completeResponses policy k t = some out → SpecStands out) →
    completeResponses policy rounds t = some u → balanced u = balanced t
  | 0, _, _, _, h => by rw [← Option.some.inj h]
  | rounds + 1, t, u, ht, h => by
      rcases completeResponses_round h with
        rfl | ⟨spec, operation, o, hspec, hhead, ho, hround⟩
      · rfl
      · have hmem := (List.mem_filter.mp (List.mem_of_head? hhead)).1
        rw [← balanced_writeResponses hspec (ht 0 (Nat.succ_pos _) t rfl)
          (Spec.holds_of_mem_operations hmem ho) braced_renderResponses.smooth.closed]
        exact balanced_completeResponses rounds (fun k hk out hout =>
          ht (k + 1) (Nat.succ_lt_succ hk) out ((hround k).trans hout)) (hround rounds ▸ h)

theorem balanced_injectResponses (ht : ResponsesStand policy t)
    (h : injectResponses policy t = some u) : balanced u = balanced t := by
  obtain ⟨spec, hspec, h⟩ := Option.bind_eq_some_iff.mp h
  split at h
  · cases h
  · exact balanced_completeResponses _ (ht spec hspec) h

/-! ## Schemas -/

/-- The specification stands in every text on the way to one with every schema declared. -/
def SchemasStand (policy : Policy) (t : Text) : Prop :=
  SpecStands t ∧ ∀ start spec front name out, ensureSchemas t = some start →
    specOf? start = some spec → front ++ [name] <+: spec.missingSchemas (.of start) policy →
      front.foldlM declareSchema start = some out → SpecStands out

theorem balanced_declareSchema {name : Text} (ht : SpecStands t) (hname : IsBare name)
    (h : declareSchema t name = some u) : balanced u = balanced t := by
  obtain ⟨spec, hspec, h⟩ := Option.bind_eq_some_iff.mp h
  obtain ⟨schemas, hschemas, h⟩ := Option.bind_eq_some_iff.mp h
  rw [← Option.some.inj h]
  exact balanced_insertEntry (ht spec hspec schemas (Spec.holds_of_schemas? hschemas))
    (closed_entry hname.closed (closed_of_isClosed (by decide)))

theorem balanced_declareSchemas : ∀ {names : List Text} {t u : Text},
    (∀ name ∈ names, IsBare name) →
    (∀ front name out, front ++ [name] <+: names → front.foldlM declareSchema t = some out →
      SpecStands out) →
    names.foldlM declareSchema t = some u → balanced u = balanced t
  | [], _, _, _, _, h => by rw [← Option.some.inj h]
  | name :: names, t, u, hnames, hstands, h => by
      obtain ⟨hname, hnames⟩ := List.forall_mem_cons.mp hnames
      rw [List.foldlM_cons] at h
      obtain ⟨out, hout, h⟩ := Option.bind_eq_some_iff.mp h
      rw [← balanced_declareSchema
        (hstands [] name t (List.prefix_append [name] names) rfl) hname hout]
      refine balanced_declareSchemas hnames (fun front next out' hfront hout' => ?_) h
      refine hstands (name :: front) next out' (List.cons_prefix_cons.mpr ⟨rfl, hfront⟩) ?_
      rw [List.foldlM_cons, hout]
      exact hout'

theorem balanced_injectSchemas (ht : SchemasStand policy t) (h : injectSchemas policy t = some u) :
    balanced u = balanced t := by
  obtain ⟨start, hstart, h⟩ := Option.bind_eq_some_iff.mp h
  obtain ⟨spec, hspec, h⟩ := Option.bind_eq_some_iff.mp h
  have hbare : ∀ name ∈ spec.missingSchemas (.of start) policy, IsBare name := by
    intro name hname
    have hexpected := mem_sortedSet.mp (List.mem_filter.mp hname).1
    rcases List.mem_append.mp hexpected with hroute | hoperation
    · obtain ⟨r, -, hschema⟩ := List.mem_filterMap.mp hroute
      exact isBare_of_expectedSchema? hschema
    · obtain ⟨op, -, hschema⟩ := List.mem_filterMap.mp hoperation
      exact isBare_of_expectedSchema? hschema
  refine Eq.trans ?_ (balanced_ensureSchemas ht.1 hstart)
  split at h
  · cases h
  · exact balanced_declareSchemas hbare
      (fun front name out => ht.2 start spec front name out hstart hspec) h

end Repair

end ServiceGate

/-!
## Endpoints that are added

An endpoint goes behind the last route, on the receiver of that route.  Its registration is closed,
so balance is kept where that place is loose and the types of the handler can be imported.
-/

namespace ServiceGate

open Pattern Scan

variable {t u : Text} {s : Source}

theorem isBare_receiver {r : Route} (h : r ∈ Route.all s) : IsBare r.receiver := by
  obtain ⟨m, hm, hreceiver, -⟩ := Route.exists_of_mem_routes h
  rw [hreceiver]
  exact Repair.isBare_of_spells_name ((in_of_mem_all hm).spells_groupText rfl rfl)

theorem isBare_specName {spec : Spec} (h : Spec.find? s = some spec) : IsBare spec.name := by
  obtain ⟨m, hm, hspec⟩ := List.exists_of_findSome?_eq_some h
  have hname : spec.name = m.groupText 1 := by
    rw [Spec.ofMatch?] at hspec
    split_ifs at hspec
    split at hspec
    · cases hspec
    · split_ifs at hspec
      obtain rfl := Option.some.inj hspec
      rfl
  rw [hname]
  exact Repair.isBare_of_spells_name ((in_of_mem_all hm).spells_groupText rfl rfl)

namespace Repair

/-- The variable of the specification, or that of a new one. -/
def specNameOf (t : Text) : Text := ((Spec.find? (.of t)).map (·.name)).getD specName

theorem isBare_specNameOf (t : Text) : IsBare (specNameOf t) := by
  rw [specNameOf]
  cases hspec : Spec.find? (.of t) with
  | none => exact (by decide : IsBare specName)
  | some spec => exact isBare_specName hspec

/-- The names of the framework that a registration refers to. -/
def handlerTypes : List Text := ["Request".toList, "Response".toList]

/-- An endpoint that no route answers for goes behind the last route, and the names that its handler
refers to are imported. -/
theorem exists_of_injectEndpoint {e : Endpoint} (h : injectEndpoint e t = some u) :
    (Route.all (.of t)).any (answersFor e) = false ∧ ∃ last n,
      (Route.all (.of t)).getLast? = some last ∧ last.statementStop? t = some n ∧
      u = ensureNamedImport Rule.express [] handlerTypes
        (t.insertAt n ("\n\n".toList ++ e.render last.receiver (specNameOf t))) := by
  rw [injectEndpoint] at h
  dsimp only at h
  split_ifs at h with hanswer
  obtain ⟨last, hlast, h⟩ := Option.bind_eq_some_iff.mp h
  obtain ⟨n, hn, h⟩ := Option.bind_eq_some_iff.mp h
  exact ⟨Bool.eq_false_iff.mpr hanswer, last, n, hlast, hn, (Option.some.inj h).symm⟩

/-- The place behind the last route is loose, and with an endpoint put there the types of its
handler are imported in a place that the statement fits. -/
def EndpointStands (e : Endpoint) (t : Text) : Prop :=
  ∀ last n, (Route.all (.of t)).getLast? = some last → last.statementStop? t = some n →
    Loose t n n ∧ ImportFits Rule.express [] handlerTypes
      (t.insertAt n ("\n\n".toList ++ e.render last.receiver (specNameOf t)))

theorem balanced_injectEndpoint {e : Endpoint} (ht : EndpointStands e t)
    (h : injectEndpoint e t = some u) : balanced u = balanced t := by
  obtain ⟨-, last, n, hlast, hn, rfl⟩ := exists_of_injectEndpoint h
  obtain ⟨hplace, himports⟩ := ht last n hlast hn
  have hgap : Closed "\n\n".toList := closed_of_isSpace (by decide)
  have hrender := closed_render e (isBare_receiver (List.mem_of_getLast? hlast))
    (isBare_specNameOf t)
  refine (balanced_ensureNamedImport himports).trans ?_
  exact hplace.balanced_insertAt (hgap.append hrender)

end Repair

end ServiceGate
