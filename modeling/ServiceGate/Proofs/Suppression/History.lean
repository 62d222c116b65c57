/-
# The stored suppressions over a session

Suppressions are stored in a document, which is read back as it was written
(`readStore_renderStore`).  A request leaves the document alone, or clears a file, or adds a pair of
a rule and a file (`run_cases`); a request that fails leaves everything as it was.

So after any session the stored pairs are those that some request has added and no later one has
cleared, each once, in the order of the first such addition (`stored_session`).  The hand-written
lists are only read: they add to what is suppressed, and never come into the document.
-/
import ServiceGate.Command.Ignore
import ServiceGate.Proofs.Command.Upkeep
import ServiceGate.Proofs.Json.RoundTrip
import ServiceGate.Proofs.Project.Collisions

namespace ServiceGate

open Environment (storePlace suppressionFile)

variable {env : Environment} {tree : FileTree} {root : Place} {r : IgnoreRequest}
  {requests : List IgnoreRequest} {rule file day : Text} {p : Text × Text}

/-! ## The document -/

namespace Suppression

def pair (e : Suppression) : Text × Text := (e.rule, e.file)

theorem ofJson?_toJson (e : Suppression) : ofJson? e.toJson = some e := rfl

theorem mapM_ofJson? (entries : List Suppression) :
    (entries.map toJson).mapM ofJson? = some entries := by
  induction entries with
  | nil => rfl
  | cons e entries ih => rw [List.map_cons, List.mapM_cons, ih, ofJson?_toJson]; rfl

theorem allPlain_toJson (entries : List Suppression) : JsonValue.AllPlain (entries.map toJson) := by
  induction entries with
  | nil => exact trivial
  | cons e entries ih => exact ⟨⟨trivial, trivial, trivial, trivial⟩, ih⟩

theorem readStore_renderStore (entries : List Suppression) :
    readStore (renderStore entries) = entries := by
  have hplain : JsonValue.IsPlain
      (.fields [("version", .number 1), ("entries", .list (entries.map toJson))]) :=
    ⟨trivial, allPlain_toJson entries, trivial⟩
  have hentries :
      entriesOf? (.fields [("version", .number 1), ("entries", .list (entries.map toJson))]) =
      (entries.map toJson).mapM ofJson? := rfl
  rw [readStore, renderStore, JsonValue.read?_render hplain, Option.bind_eq_bind, Option.bind_some,
    hentries, mapM_ofJson?]
  rfl

theorem holds_iff {entries : List Suppression} :
    holds entries rule file = true ↔ (rule, file) ∈ entries.map pair := by
  rw [holds, List.any_eq_true, List.mem_map]
  simp only [Bool.and_eq_true, beq_iff_eq, pair, Prod.mk.injEq]

theorem anyCovers_of_mem {entries : List Suppression} (h : (rule, file) ∈ entries.map pair) :
    anyCovers entries rule file = true := by
  obtain ⟨e, he, heq⟩ := List.mem_map.mp h
  obtain ⟨rfl, rfl⟩ := Prod.mk.inj heq
  refine List.any_eq_true.mpr ⟨e, he, ?_⟩
  rw [covers, beq_self_eq_true, mayName, Text.endsWith]
  simp

end Suppression

/-! ## One request -/

namespace IgnoreRequest

def clears? (r : IgnoreRequest) : Option Text := if r.list then none else r.clear

def adds? (r : IgnoreRequest) : Option (Text × Text) :=
  if r.list || r.clear.isSome then none else r.rule.map (·, r.file.getD Suppression.wildcard)

def effect (today : Text) (r : IgnoreRequest) (entries : List Suppression) : List Suppression :=
  match r.clears?, r.adds? with
  | some file, _ => Suppression.clear entries file
  | none, none => entries
  | none, some (rule, file) =>
    if Suppression.holds entries rule file then entries else entries ++ [⟨rule, file, today⟩]

theorem clears?_of_adds? (h : r.adds? = some p) : r.clears? = none := by
  rw [adds?] at h
  rw [clears?]
  cases hlist : r.list with
  | true => rfl
  | false =>
      cases hclear : r.clear with
      | none => rfl
      | some file => rw [hlist, hclear] at h; cases h

theorem run_of_adds? (h : r.adds? = some (rule, file)) :
    r.run env tree = runAdd env tree rule file := by
  rw [adds?] at h
  rw [run]
  cases hlist : r.list with
  | true => rw [hlist] at h; cases h
  | false =>
      cases hclear : r.clear with
      | some file => rw [hlist, hclear] at h; cases h
      | none =>
          rw [hlist, hclear] at h
          obtain ⟨rule', hrule, heq⟩ := Option.map_eq_some_iff.mp h
          obtain ⟨rfl, rfl⟩ := Prod.mk.inj heq
          rw [hrule]
          rfl

theorem run_of_clears? (h : r.clears? = some file) : r.run env tree = runClear env tree file := by
  rw [clears?] at h
  rw [run]
  cases hlist : r.list with
  | true => rw [hlist] at h; cases h
  | false =>
      rw [hlist, if_neg Bool.false_ne_true] at h
      rw [h]
      rfl

theorem run_of_neither (env : Environment) (tree : FileTree) (hclears : r.clears? = none)
    (hadds : r.adds? = none) :
    ∃ lines, r.run env tree = ⟨tree, lines, .ok true⟩ := by
  rw [clears?] at hclears
  rw [adds?] at hadds
  rw [run]
  cases hlist : r.list with
  | true => exact ⟨_, rfl⟩
  | false =>
      rw [hlist, if_neg Bool.false_ne_true] at hclears
      rw [hlist, hclears] at hadds
      obtain hrule : r.rule = none := Option.map_eq_none_iff.mp hadds
      rw [hclears, hrule]
      exact ⟨_, rfl⟩

theorem run_of_idle (env : Environment) (tree : FileTree)
    (h : r.list = true ∨ r.clear = none ∧ r.rule = none ∨
    ∃ p ∈ (env.storedSuppressions tree).map Suppression.pair, r.adds? = some p) :
    ∃ lines, r.run env tree = ⟨tree, lines, .ok true⟩ := by
  rcases h with hlist | ⟨hclear, hrule⟩ | ⟨⟨rule, file⟩, hstored, hadds⟩
  · exact run_of_neither env tree (by rw [clears?, if_pos hlist]) (by rw [adds?, hlist]; rfl)
  · refine run_of_neither env tree ?_ ?_
    · rw [clears?, hclear, ite_self]
    · rw [adds?, hrule, Option.map_none, ite_self]
  · rw [run_of_adds? hadds, runAdd, if_pos (Suppression.holds_iff.mpr hstored)]
    exact ⟨_, rfl⟩

section Root
variable (hroot : tree.locate? env.root = some root)
include hroot

/-- Storing entries fails where something stands in the way, and then changes nothing; else they are
what is stored. -/
theorem store_cases (entries : List Suppression) (line : Text) :
    (tree.obstacle? (storePlace root) ≠ none ∧
      ∃ fault, store env tree entries line = ⟨tree, [], .error (.unwritable fault)⟩) ∨
    ∃ t, store env tree entries line = ⟨tree.write (storePlace root) t, [line], .ok true⟩ ∧
      env.storedSuppressions (tree.write (storePlace root) t) = entries := by
  have hplace : env.place tree suppressionFile = storePlace root := by
    rw [Environment.place, hroot]
    rfl
  rw [store, Environment.write, hplace, FileTree.tryWrite]
  cases tree.obstacle? (storePlace root) with
  | some fault => exact .inl ⟨Option.some_ne_none _, fault, rfl⟩
  | none =>
      refine .inr ⟨_, rfl, ?_⟩
      rw [Environment.storedSuppressions, Environment.read?_suppressionFile
        ((FileTree.Grows.write tree _ _).locate? hroot), FileTree.read?_write]
      exact Suppression.readStore_renderStore entries

/-- A request fails where something stands in the way, and then changes nothing; else the stored
entries are behind it what it makes of them. -/
theorem run_cases (r : IgnoreRequest) :
    (tree.obstacle? (storePlace root) ≠ none ∧ (r.run env tree).tree = tree ∧
      ∃ fault, (r.run env tree).outcome = .error (.unwritable fault)) ∨
    ((r.run env tree).tree = tree ∨ ∃ t, (r.run env tree).tree = tree.write (storePlace root) t) ∧
      (r.run env tree).outcome = .ok true ∧
      env.storedSuppressions (r.run env tree).tree =
      r.effect env.today (env.storedSuppressions tree) := by
  rw [effect]
  cases hclears : r.clears? with
  | some file =>
      rw [run_of_clears? hclears, runClear]
      rcases store_cases hroot (Suppression.clear (env.storedSuppressions tree) file) _ with
        ⟨hobstacle, fault, h⟩ | ⟨t, h, hstored⟩
      · exact .inl ⟨hobstacle, by rw [h], fault, by rw [h]⟩
      · exact .inr ⟨.inr ⟨t, by rw [h]⟩, by rw [h], by rw [h]; exact hstored⟩
  | none =>
      cases hadds : r.adds? with
      | none =>
          obtain ⟨lines, h⟩ := run_of_neither env tree hclears hadds
          rw [h]
          exact .inr ⟨.inl rfl, rfl, rfl⟩
      | some p =>
          obtain ⟨rule, file⟩ := p
          rw [run_of_adds? hadds, runAdd]
          dsimp only
          split
          · exact .inr ⟨.inl rfl, rfl, rfl⟩
          · rcases store_cases hroot (env.storedSuppressions tree ++ [⟨rule, file, env.today⟩])
                _ with
              ⟨hobstacle, fault, h⟩ | ⟨t, h, hstored⟩
            · exact .inl ⟨hobstacle, by rw [h], fault, by rw [h]⟩
            · exact .inr ⟨.inr ⟨t, by rw [h]⟩, by rw [h], by rw [h]; exact hstored⟩

end Root

/-! ## Additions that survive -/

/-- The pairs that requests add and no later one clears, in the order of the requests. -/
def survivors : List IgnoreRequest → List (Text × Text)
  | [] => []
  | r :: later => (r.adds?.toList.filter fun p => !later.any (·.clears? == some p.2)) ++
      survivors later

theorem survivors_concat (requests : List IgnoreRequest) (r : IgnoreRequest) :
    survivors (requests ++ [r]) =
      (survivors requests).filter (fun p => r.clears? != some p.2) ++ r.adds?.toList := by
  induction requests with
  | nil => simp [survivors]
  | cons first later ih =>
      have hboth : ∀ p : Text × Text, (!(later ++ [r]).any (·.clears? == some p.2)) =
          ((r.clears? != some p.2) && !later.any (·.clears? == some p.2)) := fun p => by
        simp [List.any_append, Bool.not_or, Bool.and_comm, bne]
      rw [List.cons_append, survivors, survivors, ih, List.filter_append, List.append_assoc]
      simp only [hboth, List.filter_filter]

theorem mem_survivors_of_append {before later : List IgnoreRequest} (hadds : r.adds? = some p)
    (hkept : ∀ s ∈ later, s.clears? ≠ some p.2) : p ∈ survivors (before ++ r :: later) := by
  induction before with
  | nil =>
      refine List.mem_append_left _ (List.mem_filter.mpr ⟨by simp [hadds], ?_⟩)
      simpa using hkept
  | cons first before ih => exact List.mem_append_right _ ih

theorem map_pair_clear (entries : List Suppression) (file : Text) :
    (Suppression.clear entries file).map Suppression.pair =
      (entries.map Suppression.pair).filter fun p => some file != some p.2 := by
  rw [Suppression.clear, List.filter_map]
  congr 1
  refine List.filter_congr fun e _ => ?_
  rw [Bool.eq_iff_iff, Function.comp_apply, bne_iff_ne, bne_iff_ne]
  exact ⟨fun hne heq => hne (Option.some.inj heq).symm, fun hne heq => hne (congrArg some heq.symm)⟩

theorem map_pair_effect {entries : List Suppression}
    (h : entries.map Suppression.pair = (survivors requests).eraseDups) :
    (r.effect day entries).map Suppression.pair = (survivors (requests ++ [r])).eraseDups := by
  rw [survivors_concat, effect]
  cases hclears : r.clears? with
  | some file =>
      have hadds : r.adds? = none := by
        cases hadds : r.adds? with
        | none => rfl
        | some p => rw [clears?_of_adds? hadds] at hclears; cases hclears
      rw [hadds, Option.toList_none, List.append_nil, eraseDups_filter, ← h]
      exact map_pair_clear entries file
  | none =>
      have hall : (survivors requests).filter (fun p => (none : Option Text) != some p.2) =
          survivors requests :=
        List.filter_eq_self.mpr fun _ _ => rfl
      rw [hall]
      cases hadds : r.adds? with
      | none => rw [Option.toList_none, List.append_nil, ← h]
      | some p =>
          obtain ⟨rule, file⟩ := p
          rw [Option.toList_some, List.eraseDups_append]
          dsimp only
          split
          · next hholds =>
              have hmem := Suppression.holds_iff.mp hholds
              rw [h, List.mem_eraseDups] at hmem
              rw [h, List.removeAll, List.filter_cons_of_neg (by simpa using hmem), List.filter_nil]
              exact (List.append_nil _).symm
          · next hholds =>
              have hmem := fun hmem => hholds (Suppression.holds_iff.mpr hmem)
              rw [h, List.mem_eraseDups] at hmem
              rw [List.map_append, h, List.removeAll, List.filter_cons_of_pos (by simpa using hmem),
                List.filter_nil]
              rfl

end IgnoreRequest

/-! ## Sessions -/

/-- How far a session has come: the tree as it stands, and the requests that were fulfilled, in
their order. -/
structure IgnoreSession where
  tree : FileTree
  fulfilled : List IgnoreRequest

namespace IgnoreSession

open IgnoreRequest

variable {s : IgnoreSession} {call : Text × IgnoreRequest}

def answer (env : Environment) (s : IgnoreSession) (call : Text × IgnoreRequest) : Run :=
  call.2.run { env with today := call.1 } s.tree

def serve (env : Environment) (s : IgnoreSession) (call : Text × IgnoreRequest) : IgnoreSession :=
  match (s.answer env call).outcome with
  | .ok _ => ⟨(s.answer env call).tree, s.fulfilled ++ [call.2]⟩
  | .error _ => ⟨(s.answer env call).tree, s.fulfilled⟩

def after (env : Environment) (tree : FileTree) (calls : List (Text × IgnoreRequest)) :
    IgnoreSession :=
  calls.foldl (serve env) ⟨tree, []⟩

/-- What holds all through a session. -/
structure Sound (env : Environment) (root : Place) (s : IgnoreSession) : Prop where
  rooted : s.tree.locate? env.root = some root
  stored : (env.storedSuppressions s.tree).map Suppression.pair = (survivors s.fulfilled).eraseDups

theorem serve_of_ok (h : (s.answer env call).outcome = .ok true) :
    s.serve env call = ⟨(s.answer env call).tree, s.fulfilled ++ [call.2]⟩ := by
  rw [serve, h]

theorem serve_of_error {failure : Failure} (h : (s.answer env call).outcome = .error failure) :
    s.serve env call = ⟨(s.answer env call).tree, s.fulfilled⟩ := by
  rw [serve, h]

/-- A request fails and changes nothing, or makes of the stored entries what it should. -/
theorem Sound.answer_cases (h : s.Sound env root) (call : Text × IgnoreRequest) :
    (s.tree.obstacle? (storePlace root) ≠ none ∧ (s.answer env call).tree = s.tree ∧
      ∃ fault, (s.answer env call).outcome = .error (.unwritable fault)) ∨
    ((s.answer env call).tree = s.tree ∨
        ∃ t, (s.answer env call).tree = s.tree.write (storePlace root) t) ∧
      (s.answer env call).outcome = .ok true ∧
      env.storedSuppressions (s.answer env call).tree =
        call.2.effect call.1 (env.storedSuppressions s.tree) :=
  run_cases (show s.tree.locate? { env with today := call.1 }.root = some root from h.rooted) call.2

theorem Sound.serve (h : s.Sound env root) (call : Text × IgnoreRequest) :
    (s.serve env call).Sound env root := by
  rcases h.answer_cases call with ⟨-, htree, fault, hfault⟩ | ⟨htree, hok, hstored⟩
  · rw [serve_of_error hfault, htree]
    exact h
  · rw [serve_of_ok hok]
    refine ⟨?_, (congrArg _ hstored).trans (map_pair_effect h.stored)⟩
    rcases htree with heq | ⟨t, heq⟩
    · rw [heq]
      exact h.rooted
    · rw [heq]
      exact (FileTree.Grows.write _ _ t).locate? h.rooted

theorem Sound.foldl (h : s.Sound env root) (calls : List (Text × IgnoreRequest)) :
    (calls.foldl (IgnoreSession.serve env) s).Sound env root := by
  induction calls generalizing s with
  | nil => exact h
  | cons call calls ih => exact ih (h.serve call)

theorem Sound.start (hroot : tree.locate? env.root = some root)
    (hnew : env.read? tree suppressionFile = none) : Sound env root ⟨tree, []⟩ :=
  ⟨hroot, by rw [Environment.storedSuppressions, hnew]; rfl⟩

theorem fulfilled_foldl (env : Environment) (calls : List (Text × IgnoreRequest))
    (s : IgnoreSession) :
    ∃ more, (calls.foldl (serve env) s).fulfilled = s.fulfilled ++ more ∧
    more.Sublist (calls.map (·.2)) := by
  induction calls generalizing s with
  | nil => exact ⟨[], (List.append_nil _).symm, .slnil⟩
  | cons call calls ih =>
      obtain ⟨more, hmore, hsub⟩ := ih (s.serve env call)
      rw [List.foldl_cons, hmore, serve]
      split
      · exact ⟨call.2 :: more, by rw [List.append_assoc]; rfl, hsub.cons_cons _⟩
      · exact ⟨more, rfl, hsub.cons _⟩

theorem fulfilled_of_clear (h : s.Sound env root)
    (hclear : s.tree.obstacle? (storePlace root) = none) (calls : List (Text × IgnoreRequest)) :
    (calls.foldl (serve env) s).fulfilled = s.fulfilled ++ calls.map (·.2) := by
  induction calls generalizing s with
  | nil => exact (List.append_nil _).symm
  | cons call calls ih =>
      have hserve : (s.serve env call).fulfilled = s.fulfilled ++ [call.2] ∧
          (s.serve env call).tree.obstacle? (storePlace root) = none := by
        rcases h.answer_cases call with ⟨hobstacle, -⟩ | ⟨htree, hok, -⟩
        · exact absurd hclear hobstacle
        · rw [serve_of_ok hok]
          refine ⟨rfl, ?_⟩
          rcases htree with heq | ⟨t, heq⟩
          · rw [heq]
            exact hclear
          · rw [heq]
            exact FileTree.obstacle?_write hclear
      rw [List.foldl_cons, ih (h.serve _) hserve.2, hserve.1, List.append_assoc]
      rfl

end IgnoreSession

open IgnoreRequest in
/-- After any session that starts without the document, what is stored is told by the fulfilled
requests: the pairs that some of them adds and no later one clears, each once, in the order of the
first such addition.  All requests are fulfilled where nothing is in the way of the document, and a
failed one changes nothing.  Behind any session a listing, a request for nothing and the addition of
a stored pair change nothing, and a clear takes away the entries of its file and no others.  A rule
stays suppressed in a file from a fulfilled addition of the pair on, as long as the file is not
cleared. -/
theorem stored_session (hroot : tree.locate? env.root = some root)
    (hnew : env.read? tree suppressionFile = none) (calls : List (Text × IgnoreRequest)) :
    let now := IgnoreSession.after env tree calls
    let stored := env.storedSuppressions now.tree
    let pairs := stored.map Suppression.pair
    (pairs = (survivors now.fulfilled).eraseDups ∧ pairs.Nodup ∧
      pairs.Pairwise fun p q =>
      (survivors now.fulfilled).idxOf p < (survivors now.fulfilled).idxOf q) ∧
    (now.fulfilled.Sublist (calls.map (·.2)) ∧
      (tree.obstacle? (storePlace root) = none → now.fulfilled = calls.map (·.2))) ∧
    (∀ call, (now.answer env call).outcome ≠ .ok true → (now.answer env call).tree = now.tree) ∧
    (∀ call : Text × IgnoreRequest, call.2.list = true ∨ call.2.clear = none ∧ call.2.rule = none ∨
        (∃ p ∈ pairs, call.2.adds? = some p) →
      (now.answer env call).tree = now.tree ∧ (now.answer env call).outcome = .ok true) ∧
    (∀ call : Text × IgnoreRequest, ∀ file, call.2.clears? = some file →
      (now.answer env call).outcome = .ok true →
      env.storedSuppressions (now.answer env call).tree = stored.filter (·.file != file)) ∧
    ∀ before call later rule file, calls = before ++ call :: later →
    call.2.adds? = some (rule, file) →
      ((IgnoreSession.after env tree before).answer env call).outcome = .ok true →
      (∀ c ∈ later, c.2.clears? ≠ some file) →
      Suppression.anyCovers (env.suppressions now.tree) rule file = true := by
  intro now stored pairs
  have hstart := IgnoreSession.Sound.start hroot hnew
  have hsound : now.Sound env root := hstart.foldl calls
  have hpairs : pairs = (survivors now.fulfilled).eraseDups := hsound.stored
  refine ⟨⟨hpairs, hpairs ▸ nodup_eraseDups _, hpairs ▸ pairwise_idxOf_eraseDups _⟩,
    ⟨?_, fun hclear => ?_⟩, fun call hfailed => ?_, fun call hsame =>
    ?_, fun call file hclears hok => ?_, ?_⟩
  · obtain ⟨more, hmore, hsub⟩ := IgnoreSession.fulfilled_foldl env calls ⟨tree, []⟩
    rw [List.nil_append] at hmore
    exact (show now.fulfilled = more from hmore) ▸ hsub
  · exact (IgnoreSession.fulfilled_of_clear hstart hclear calls).trans (List.nil_append _)
  · rcases hsound.answer_cases call with ⟨-, htree, -⟩ | ⟨-, hok, -⟩
    · exact htree
    · exact absurd hok hfailed
  · obtain ⟨lines, hrun⟩ := run_of_idle { env with today := call.1 } now.tree hsame
    have hanswer : now.answer env call = ⟨now.tree, lines, .ok true⟩ := hrun
    rw [hanswer]
    exact ⟨rfl, rfl⟩
  · rcases hsound.answer_cases call with ⟨-, -, fault, hfault⟩ | ⟨-, -, hstored⟩
    · rw [hok] at hfault
      cases hfault
    · rw [hstored, effect, hclears]
      rfl
  · intro before call later rule file hcalls hadds hok hkept
    have hbefore : (IgnoreSession.after env tree before).Sound env root := hstart.foldl before
    obtain ⟨more, hmore, hsub⟩ := IgnoreSession.fulfilled_foldl env later
      ((IgnoreSession.after env tree before).serve env call)
    have hfulfilled : now.fulfilled = (IgnoreSession.after env tree before).fulfilled ++ call.2 ::
        more := by
      have hnow : now = later.foldl (IgnoreSession.serve env)
          ((IgnoreSession.after env tree before).serve env call) := by
        rw [← List.foldl_cons, IgnoreSession.after, ← List.foldl_append, ← hcalls]
        rfl
      rw [hnow, hmore, IgnoreSession.serve_of_ok hok, List.append_assoc]
      rfl
    have hmem : (rule, file) ∈ pairs := by
      rw [hpairs, hfulfilled, List.mem_eraseDups]
      refine mem_survivors_of_append hadds fun r hr => ?_
      obtain ⟨c, hc, rfl⟩ := List.mem_map.mp (hsub.subset hr)
      exact hkept c hc
    rw [Environment.suppressions, Suppression.anyCovers, List.any_append, Bool.or_eq_true]
    exact .inl (Suppression.anyCovers_of_mem hmem)

/-- Two pairs, of which the first is added twice, cleared and added again. -/
theorem stored_session_added_again :
    let console : Text := "CONSOLE_LOG".toList
    let any : Text := "EXPLICIT_ANY".toList
    let server : Text := "src/server.ts".toList
    let env : Environment := ⟨"/shop".toList, "2026-10-19".toList⟩
    let tree : FileTree := ⟨[], [["shop".toList]]⟩
    let add (rule : Text) (file : Option Text) : Text × IgnoreRequest :=
  ("2026-10-20".toList, ⟨rule, file, false, none⟩)
    let now := IgnoreSession.after env tree
      [add console server, add console server, add any none,
        ("2026-10-21".toList, ⟨none, none, false, server⟩),
        add console server, ("2026-10-22".toList, ⟨none, none, true, none⟩)]
    (env.storedSuppressions now.tree).map Suppression.pair =
        [(any, Suppression.wildcard), (console, server)] ∧
      Suppression.anyCovers (env.suppressions now.tree) any Suppression.wildcard = true := by
  intro console any server env tree add now
  have hroot : tree.locate? env.root = some ["shop".toList] := by decide
  have h := stored_session hroot (by decide) [add console server, add console server, add any none,
    ("2026-10-21".toList, ⟨none, none, false, server⟩), add console server,
    ("2026-10-22".toList, ⟨none, none, true, none⟩)]
  have hfulfilled := h.2.1.2 (by decide)
  refine ⟨h.1.1.trans ?_, ?_⟩
  · rw [hfulfilled]
    decide
  · refine h.2.2.2.2.2 [add console server, add console server]
      (add any none) _ any Suppression.wildcard rfl rfl
      ?_ (by decide)
    decide +kernel

end ServiceGate
