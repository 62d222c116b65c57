/-
# Paths of routes

A path and its normal form are told apart by nothing that the gate asks of a path.  The normal form
has the segments of the path, each in normal form (`segments_normalize`), so it is its own normal
form (`normalize_normalize`) and paths of the code and of the specification are compared by
equality.  A segment is a parameter in either spelling (`isParameter_normalSegment`), and one that
is fixed is written alike in both, so the last fixed segment, the resource named after it and the
usual responses stay (`normalForm_stable`).

The key of a route is cut at its first colon, which stands behind the method, whatever colons the
path has.
-/
import ServiceGate.Proofs.CharClass
import ServiceGate.Proofs.Text.Pieces
import ServiceGate.Spec.Render

namespace ServiceGate

namespace RoutePath

variable {path s : Text}

/-! ## Segments -/

theorem mem_of_mem_splitWhere {f : Char → Bool} : ∀ {t piece : Text} {c : Char},
    piece ∈ Text.splitWhere f t → c ∈ piece → c ∈ t ∧ f c = false
  | [], piece, c, h, hc => by
      rw [List.mem_singleton.mp h] at hc
      cases hc
  | d :: t, piece, c, h, hc => by
      obtain ⟨first, rest, ht⟩ := Text.exists_splitWhere f t
      have hbehind : ∀ {p : Text}, p ∈ first :: rest → c ∈ p → c ∈ d :: t ∧ f c = false :=
        fun hp hc =>
          (mem_of_mem_splitWhere (t := t) (ht ▸ hp) hc).imp_left (List.mem_cons_of_mem d)
      cases hd : f d with
      | true =>
          rw [Text.splitWhere_pos hd, ht] at h
          rcases List.mem_cons.mp h with rfl | h
          · cases hc
          · exact hbehind h hc
      | false =>
          rw [Text.splitWhere_neg hd ht] at h
          rcases List.mem_cons.mp h with rfl | h
          · rcases List.mem_cons.mp hc with rfl | hc
            · exact ⟨List.mem_cons_self, hd⟩
            · exact hbehind List.mem_cons_self hc
          · exact hbehind (List.mem_cons_of_mem first h) hc

/-- A segment of a path: something without a slash. -/
structure IsSegment (s : Text) : Prop where
  ne_nil : s ≠ []
  noSlash : '/' ∉ s

theorem isSegment_of_mem (h : s ∈ segments path) : IsSegment s := by
  obtain ⟨hmem, hne⟩ := List.mem_filter.mp h
  refine ⟨by simpa using hne, fun hslash => ?_⟩
  have hsep := (mem_of_mem_splitWhere hmem hslash).2
  cases hsep

theorem mem_of_mem_segments {c : Char} (h : s ∈ segments path) (hc : c ∈ s) :
    c ∈ path :=
  (mem_of_mem_splitWhere (List.mem_filter.mp h).1 hc).1

theorem isSegment_normalSegment (h : IsSegment s) : IsSegment (normalSegment s) := by
  unfold normalSegment
  split
  · next parameter =>
      refine ⟨by simp, ?_⟩
      simp only [Text.trimEndWhere, List.mem_append, List.mem_reverse, not_or]
      refine ⟨⟨by decide, fun hmem => h.noSlash ?_⟩, by decide⟩
      have hmem := List.dropWhile_suffix _ |>.subset hmem
      exact List.mem_cons_of_mem _ (List.mem_reverse.mp hmem)
  · exact h

theorem normalSegment_of_ne (h : s.head? ≠ some ':') : normalSegment s = s := by
  unfold normalSegment
  split
  · exact absurd rfl h
  · rfl

theorem head?_normalSegment (s : Text) : (normalSegment s).head? ≠ some ':' := by
  unfold normalSegment
  split
  · exact fun h => absurd (Option.some.inj h) (by decide)
  · next h =>
      intro hhead
      cases s with
      | nil => cases hhead
      | cons c s =>
          obtain rfl := Option.some.inj hhead
          exact h s rfl

theorem normalSegment_normalSegment (s : Text) :
    normalSegment (normalSegment s) = normalSegment s :=
  normalSegment_of_ne (head?_normalSegment s)

theorem segments_join {ss : List Text} (h : ∀ s ∈ ss, IsSegment s) :
    segments ('/' :: Text.join ['/'] ss) = ss := by
  have hcut : Text.pieces ('/' :: Text.join ['/'] ss) '/' = [] :: (Text.join ['/'] ss).pieces '/' :=
    Text.pieces_append '/' [] _
  rw [segments, hcut, List.filter_cons_of_neg (by simp)]
  cases ss with
  | nil => rfl
  | cons s ss =>
      rw [Text.pieces_join (List.cons_ne_nil s ss) fun s hs => (h s hs).noSlash,
        List.filter_eq_self]
      intro s hs
      have := (h s hs).ne_nil
      simpa using this

theorem segments_normalize (path : Text) :
    segments (normalize path) = (segments path).map normalSegment :=
  segments_join fun _ hmem => by
    obtain ⟨s, hs, rfl⟩ := List.mem_map.mp hmem
    exact isSegment_normalSegment (isSegment_of_mem hs)

theorem normalize_normalize (path : Text) : normalize (normalize path) = normalize path := by
  rw [normalize, segments_normalize, List.map_map]
  have hcomp : normalSegment ∘ normalSegment = normalSegment := funext normalSegment_normalSegment
  rw [hcomp]
  rfl

theorem isSegment_of_mem_normalized (h : s ∈ (segments path).map normalSegment) : IsSegment s := by
  obtain ⟨s', hs', rfl⟩ := List.mem_map.mp h
  exact isSegment_normalSegment (isSegment_of_mem hs')

theorem pieces_normalize (hne : segments path ≠ []) :
    (Text.join ['/'] ((segments path).map normalSegment)).pieces '/' =
    (segments path).map normalSegment :=
  Text.pieces_join (List.map_eq_nil_iff.not.mpr hne) fun _ hs =>
    (isSegment_of_mem_normalized hs).noSlash

/-! ## Fixed segments and parameters -/

theorem isParameter_normalSegment (s : Text) : isParameter (normalSegment s) = isParameter s := by
  unfold normalSegment
  split
  · rfl
  · rfl

theorem normalSegment_of_fixed (h : isParameter s = false) : normalSegment s = s := by
  refine normalSegment_of_ne fun hhead => ?_
  cases s with
  | nil => cases hhead
  | cons c parameter =>
      obtain rfl := Option.some.inj hhead
      cases h

theorem filter_fixed_normalized (ss : List Text) :
    (ss.map normalSegment).filter (!isParameter ·) = ss.filter (!isParameter ·) := by
  have hcomp : (fun s => !isParameter s) ∘ normalSegment = fun s => !isParameter s :=
    funext fun s => congrArg not (isParameter_normalSegment s)
  rw [List.filter_map, hcomp]
  refine (List.map_congr_left fun s hs => ?_).trans (List.map_id _)
  exact normalSegment_of_fixed (by simpa using (List.mem_filter.mp hs).2)

theorem lastStatic?_normalize (path : Text) : lastStatic? (normalize path) = lastStatic? path := by
  rw [lastStatic?, segments_normalize, filter_fixed_normalized]
  rfl

theorem any_last_normalize {p : Text → Bool} (hp : ∀ s, p (normalSegment s) = p s) (path : Text) :
    (segments (normalize path)).getLast?.any p = (segments path).getLast?.any p := by
  rw [segments_normalize, List.getLast?_map, Option.any_map]
  exact congrArg (fun q => (segments path).getLast?.any q) (funext hp)

theorem isItem_normalize (path : Text) : isItem (normalize path) = isItem path :=
  any_last_normalize isParameter_normalSegment path

theorem endsStatic_normalize (path : Text) : endsStatic (normalize path) = endsStatic path :=
  any_last_normalize (fun s => congrArg not (isParameter_normalSegment s)) path

theorem mem_segments_of_lastStatic? (h : lastStatic? (normalize path) = some s) :
    s ∈ segments path := by
  rw [lastStatic?_normalize] at h
  exact (List.mem_filter.mp (List.mem_of_getLast? h)).1

theorem ofPath?_normalize (path : Text) :
    Resource.ofPath? (normalize path) = Resource.ofPath? path := by
  rw [Resource.ofPath?, lastStatic?_normalize]
  rfl

theorem defaultResponses_normalize (policy : Policy) (method path : Text) :
    Spec.defaultResponses policy method (normalize path) =
    Spec.defaultResponses policy method path := by
  have haction : policy.isActionPath (normalize path) = policy.isActionPath path := by
    rw [Policy.isActionPath, lastStatic?_normalize]
    rfl
  rw [Spec.defaultResponses, haction, isItem_normalize]
  rfl

/-! ## Keys -/

theorem key_normalize (method path : Text) : key method (normalize path) = key method path := by
  rw [key, normalize_normalize]
  rfl

theorem splitOnce?_key_iff {method path : Text} :
    Text.splitOnce? (key method path) ':' = some (method.lower, normalize path) ↔ ':' ∉ method := by
  have hcolon : ':' ∈ method.lower ↔ ':' ∈ method := CharClass.mem_lower_iff (by decide)
  refine ⟨fun h hmem => ?_, fun h => ?_⟩
  · exact Text.notMem_of_splitOnce? h (hcolon.mpr hmem)
  · exact Text.splitOnce?_append (fun hmem => h (hcolon.mp hmem)) (normalize path)

/-! ## Paths and their normal forms -/

/-- The normal form of a path is its own normal form.  It begins with a slash, and behind it there
is nothing if the path has no segments; else each piece is written and no colon stands in front of
it.  Path and normal form have the same last fixed segment, are an item or end with a fixed segment
alike, name the same resource and have the same usual responses, and they have one key with any
method.  That key is cut into the method in lower case and the normal form exactly if the method has
no colon, whatever colons the path has. -/
theorem normalForm_stable (path : Text) :
    normalize (normalize path) = normalize path ∧
    (∃ rest : Text, normalize path = '/' :: rest ∧ (rest = [] ↔ segments path = []) ∧
      (rest ≠ [] → ∀ piece ∈ rest.pieces '/', piece ≠ [] ∧ piece.head? ≠ some ':')) ∧
    (lastStatic? (normalize path) = lastStatic? path ∧ isItem (normalize path) = isItem path ∧
      endsStatic (normalize path) = endsStatic path ∧
      Resource.ofPath? (normalize path) = Resource.ofPath? path ∧
      ∀ policy method, Spec.defaultResponses policy method (normalize path) =
        Spec.defaultResponses policy method path) ∧
    ∀ method, key method (normalize path) = key method path ∧
      (Text.splitOnce? (key method path) ':' = some (method.lower, normalize path) ↔
        ':' ∉ method) := by
  refine ⟨normalize_normalize path, ⟨Text.join ['/'] ((segments path).map normalSegment), rfl, ?_,
    ?_⟩,
    ⟨lastStatic?_normalize path, isItem_normalize path, endsStatic_normalize path,
      ofPath?_normalize path, fun policy method => defaultResponses_normalize policy method path⟩,
    fun method => ⟨key_normalize method path, splitOnce?_key_iff⟩⟩
  · refine ⟨fun hnil => ?_, fun hnil => by rw [hnil]; rfl⟩
    by_contra hne
    have hpieces := pieces_normalize hne
    rw [hnil] at hpieces
    have hempty : [] ∈ (segments path).map normalSegment := hpieces ▸ List.mem_singleton.mpr rfl
    exact (isSegment_of_mem_normalized hempty).ne_nil rfl
  · intro hrest piece hpiece
    have hne : segments path ≠ [] := fun hnil => hrest (by rw [hnil]; rfl)
    rw [pieces_normalize hne] at hpiece
    refine ⟨(isSegment_of_mem_normalized hpiece).ne_nil, ?_⟩
    obtain ⟨s, -, rfl⟩ := List.mem_map.mp hpiece
    exact head?_normalSegment s

/-- Colons in and in front of segments, an optional parameter, and slashes in a row. -/
theorem normalForm_stable_colons :
    let path : Text := "//v1:beta/:id?/Login/".toList
    (∃ rest : Text, normalize path = '/' :: rest ∧ rest ≠ [] ∧
      ∀ piece ∈ rest.pieces '/', piece ≠ [] ∧ piece.head? ≠ some ':') ∧
    Text.splitOnce? (key "GET".toList path) ':' = some ("get".toList,
      "/v1:beta/\x7bid\x7d/Login".toList) := by
  intro path
  obtain ⟨-, ⟨rest, hrest, hroot, hpieces⟩, -, hkey⟩ := normalForm_stable path
  have hne : rest ≠ [] := fun hnil => absurd (hroot.mp hnil) (by decide)
  exact ⟨⟨rest, hrest, hne, hpieces hne⟩, (hkey "GET".toList).2.mpr (by decide)⟩

end RoutePath

end ServiceGate
