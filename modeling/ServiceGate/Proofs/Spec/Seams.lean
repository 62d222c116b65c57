/-
# Routes and specifications on both sides of a seam

A place is a `Seam` if the scan starts afresh behind it and neither a registration of a route nor
the declaration of a variable reaches over it.  The routes of a text are then those in front of the
seam and those behind it (`routes_append`), and its specification is the one in front or else the
one behind it (`find?_append`), with the same operations as in its part alone.

Each part is a text of its own but for the character in front of it, so what is found in a part is
written with that character as an argument (`Route.behind`, `Spec.behind?`).  Braces that are left
open are the other way in which a part could depend on what follows; `Closes` and `Shut` exclude it
for the declarations of the part in front and for the literals in its specification.
-/
import ServiceGate.Proofs.ObjectLiteral.Stretches
import ServiceGate.Proofs.Pattern.Stretches
import ServiceGate.Route.Basic
import ServiceGate.Spec.Basic

namespace ServiceGate

open Scan

variable {p q w : Text} {n d number : Nat} {m m' : Match} {ms ms' : List Match}

/-- Neither the scan nor a match reaches over the place between two parts. -/
structure Seam (p q : Text) : Prop where
  rests : Rests p
  routes : Route.pattern.Apart (p ++ q) (Text.size p)
  declarations : Spec.declaration.Apart (p ++ q) (Text.size p)

instance (p q : Text) : Decidable (Seam p q) :=
  decidable_of_iff (Rests p ∧ Route.pattern.Apart (p ++ q) (Text.size p) ∧
      Spec.declaration.Apart (p ++ q) (Text.size p))
    ⟨fun ⟨hrests, hroutes, hdeclarations⟩ => ⟨hrests, hroutes, hdeclarations⟩,
      fun h => ⟨h.rests, h.routes, h.declarations⟩⟩

theorem Seam.left (h : Seam p (w ++ q)) (h' : Seam (p ++ w) q) : Seam p w := by
  have hapart : ∀ {pattern : Pattern}, pattern.leading = true → pattern.takes = true →
      pattern.Apart (p ++ (w ++ q)) (Text.size p) →
      pattern.Apart (p ++ w ++ q) (Text.size (p ++ w)) →
        pattern.Apart (p ++ w) (Text.size p) := fun hp ht hfirst hsecond m hm => by
    refine hfirst m ?_
    rw [← List.append_assoc, Pattern.all_append hp ht hsecond]
    exact List.mem_append_left _ hm
  exact ⟨h.rests, hapart rfl rfl h.routes h'.routes, hapart rfl rfl h.declarations h'.declarations⟩

/-! ## Groups at another place -/

theorem Match.Like.group? {o o' : Nat} (h : Match.Like o o' m m') (number : Nat) :
    Option.Rel (Capture.Like o o') (m.group? number) (m'.group? number) := by
  have hcaptures := h.captures
  rw [Match.group?, Match.group?]
  generalize m.captures = gs at hcaptures ⊢
  generalize m'.captures = gs' at hcaptures ⊢
  induction hcaptures with
  | nil => exact .none
  | @cons g g' gs gs' hg _ ih =>
      rw [List.find?_cons, List.find?_cons, hg.group]
      cases g.group == number with
      | true => exact .some hg
      | false => exact ih

theorem Match.Like.groupText {o o' : Nat} (h : Match.Like o o' m m') (number : Nat) :
    m'.groupText number = m.groupText number := by
  have hgroup := h.group? number
  rw [Match.groupText, Match.groupText]
  generalize m.group? number = g at hgroup ⊢
  generalize m'.group? number = g' at hgroup ⊢
  cases hgroup with
  | some hg => exact hg.text
  | none => rfl

namespace Route

def moved (d : Nat) (r : Route) : Route := { r with offset := d + r.offset, argsAt := d + r.argsAt }

theorem ofMatch?_like (h : Match.Like 0 d m m') : ofMatch? m' = (ofMatch? m).map (moved d) := by
  have hargs := h.group? 3
  have hpath : (((m'.group? 4).or (m'.group? 5)).or (m'.group? 6)).map (·.text) =
      (((m.group? 4).or (m.group? 5)).or (m.group? 6)).map (·.text) := by
    have htext : ∀ number, (m'.group? number).map (·.text) = (m.group? number).map (·.text) :=
      fun number => by
      have hgroup := h.group? number
      generalize m.group? number = g at hgroup ⊢
      generalize m'.group? number = g' at hgroup ⊢
      cases hgroup with
      | some hg => exact congrArg some hg.text
      | none => rfl
    simp only [Option.map_or, htext]
  have hstart := h.start
  rw [ofMatch?, ofMatch?, h.groupText 1, h.groupText 2]
  generalize m.group? 3 = args at hargs ⊢
  generalize m'.group? 3 = args' at hargs ⊢
  generalize ((m.group? 4).or (m.group? 5)).or (m.group? 6) = path at hpath ⊢
  generalize ((m'.group? 4).or (m'.group? 5)).or (m'.group? 6) = path' at hpath ⊢
  cases hargs with
  | none => rfl
  | some hg =>
      have hopen := hg.start
      cases path with
      | none =>
          cases path' with
          | none => rfl
          | some path' => cases hpath
      | some path =>
          cases path' with
          | none => cases hpath
          | some path' =>
              have htext : path'.text = path.text := Option.some.inj hpath
              simp only [Option.bind_eq_bind, Option.bind_some, Option.pure_def, Option.map_some,
                htext, moved, Option.some.injEq, Route.mk.injEq, true_and]
              omega

theorem filterMap_ofMatch?_like (h : List.Forall₂ (Match.Like 0 d) ms ms') :
    ms'.filterMap ofMatch? = (ms.filterMap ofMatch?).map (moved d) := by
  induction h with
  | nil => rfl
  | @cons m m' ms ms' hm _ ih =>
      rw [List.filterMap_cons, List.filterMap_cons, ofMatch?_like hm, ih]
      cases ofMatch? m <;> rfl

/-- The routes of a stretch that stands behind a character. -/
def behind (before : Option Char) (w : Text) : List Route :=
  ((pattern.within before 0 w).filterMap ofMatch?).filter fun r =>
    isReceiver r.receiver && (Source.of w).isCodeAt r.offset

theorem behind_like {x y : Option Char} (h : Pattern.LikeBehind x y) (w : Text) :
    behind x w = behind y w := by
  rw [behind, behind, eq_of_forall₂_like (o := 0) (Pattern.within_like rfl h 0 0 w)]

theorem offset_of_ofMatch? {r : Route} (h : ofMatch? m = some r) : r.offset = m.start := by
  obtain ⟨args, -, h⟩ := Option.bind_eq_some_iff.mp h
  obtain ⟨path, -, h⟩ := Option.bind_eq_some_iff.mp h
  rw [← Option.some.inj h]

end Route

/-- The routes in front of a seam, and those behind it. -/
theorem Seam.routes_append (h : Seam p q) : Route.all (.of (p ++ q)) =
    Route.all (.of p) ++ (Route.behind p.getLast? q).map (Route.moved (Text.size p)) := by
  have hlike : List.Forall₂ (Match.Like 0 (Text.size p)) (Route.pattern.within p.getLast? 0 q)
      (Route.pattern.within p.getLast? (Text.size p) q) :=
    Pattern.within_like rfl (Pattern.LikeBehind.refl _) 0 (Text.size p) q
  rw [Route.all, show (Source.of (p ++ q)).text = p ++ q from rfl,
    Pattern.all_append rfl rfl h.routes,
    List.filterMap_append, List.filter_append, Route.filterMap_ofMatch?_like hlike, List.filter_map]
  congr 1
  · refine List.filter_congr fun r hr => ?_
    obtain ⟨m, hm, hofMatch⟩ := List.mem_filterMap.mp hr
    have hlt : r.offset < Text.size p := by
      rw [Route.offset_of_ofMatch? hofMatch]
      exact (Pattern.in_of_mem_all hm).start_lt rfl
    rw [h.rests.1.isCodeAt_append_left q hlt]
  · congr 1
    refine List.filter_congr fun r _ => ?_
    show (Route.isReceiver r.receiver && (Source.of (p ++ q)).isCodeAt (Text.size p + r.offset)) = _
    rw [h.rests.isCodeAt_append_right]

/-! ## Entries in the first part -/

theorem ObjectEntry.valueStart_le {t : Text} {start stop : Nat} {e : ObjectEntry}
    (h : read? t start stop = some e) : e.valueStart ≤ stop := by
  obtain ⟨keyAt, hkeyAt, h⟩ := Option.bind_eq_some_iff.mp h
  obtain ⟨⟨key, length⟩, -, h⟩ := Option.bind_eq_some_iff.mp h
  obtain ⟨⟨valueStart, valueStop⟩, hspan, h⟩ := Option.bind_eq_some_iff.mp h
  obtain rfl := Option.some.inj h
  have hkey : keyAt < stop := by
    obtain ⟨m, hm, rfl⟩ := Option.map_eq_some_iff.mp hkeyAt
    simpa using List.mem_takeWhile_imp (List.mem_of_find?_eq_some hm)
  rw [valueSpan?] at hspan
  split at hspan
  · obtain ⟨rfl, -⟩ := Prod.mk.inj (Option.some.inj hspan)
    exact Nat.le_of_lt hkey
  · obtain ⟨rfl, -⟩ := Prod.mk.inj (Option.some.inj hspan)
    exact Nat.sub_le _ _
  · next rest hrest =>
      obtain ⟨rfl, -⟩ := Prod.mk.inj (Option.some.inj hspan)
      by_contra hgt
      rw [Text.between, Text.between?, if_neg hgt] at hrest
      cases hrest
  · cases hspan

namespace ObjectLiteral

/-- Every value that opens a literal closes it as well. -/
def Shut (t : Text) (o : ObjectLiteral) : Prop :=
  ∀ e ∈ o.entries, (t.after e.valueStart).head? = some '\x7b' →
  (matchingClose? t e.valueStart).isSome

instance (t : Text) (o : ObjectLiteral) : Decidable (o.Shut t) :=
  inferInstanceAs (Decidable (∀ e ∈ o.entries, _ → _))

theorem valueStart_lt {t : Text} {o : ObjectLiteral} {e : ObjectEntry} (h : readAt? t n = some o)
    (he : e ∈ o.entries) : e.valueStart < Text.size t := by
  rw [readAt?] at h
  split at h
  · obtain ⟨close, hclose, rfl⟩ := Option.map_eq_some_iff.mp h
    obtain ⟨x, hx, hread⟩ := List.mem_filterMap.mp he
    obtain ⟨hinner, -, hplace⟩ := bounds_of_matchingClose? hclose
    have hle := ObjectEntry.valueStart_le hread
    have hstop := (le_of_mem_pieces hinner.le hx).2
    have hsize := hplace.le_size
    omega
  · cases h

theorem object?_append_left {o : ObjectLiteral} {e : ObjectEntry} (hp : Settled p)
    (h : readAt? p n = some o) (hshut : o.Shut p) (he : e ∈ o.entries) (q : Text) :
    e.object? (p ++ q) = e.object? p := by
  by_cases hhead : (p.after e.valueStart).head? = some '\x7b'
  · exact readAt?_append_of_closes hp (hshut e he hhead) q
  · rw [ObjectEntry.object?, ObjectEntry.object?, readAt?_of_head hhead, readAt?_of_head]
    rwa [head?_after_append_left (valueStart_lt h he)]

end ObjectLiteral

namespace Spec

variable {spec : Spec}

/-! ## The keys of the operations -/

def keysBelow (path : Text) (entries : List Text) : List Text :=
  (entries.filter fun key => methods.contains key.lower).map fun key =>
    RoutePath.key key.lower (RoutePath.normalize path)

theorem map_key_operationsOfPath (t : Text) (e : ObjectEntry) :
    (operationsOfPath t e).map (·.key) =
    keysBelow e.key (((e.object? t).map (·.keys)).getD []) := by
  rw [operationsOfPath]
  cases e.object? t with
  | none => rfl
  | some item =>
      simp only [Option.map_some, Option.getD_some, keysBelow, ObjectLiteral.keys]
      induction item.entries with
      | nil => rfl
      | cons x xs ih =>
          rw [List.filterMap_cons, List.map_cons, operation?]
          by_cases hx : methods.contains x.key.lower = true
          · simp only [hx, if_true, List.filter_cons_of_pos, List.map_cons, ih]
            rfl
          · simp only [hx, if_false, List.filter_cons_of_neg, ih, not_false_eq_true,
              Bool.false_eq_true]

theorem operationKeys_eq (spec : Spec) (t : Text) : spec.operationKeys t =
    ((spec.paths? t).map fun paths => paths.entries.flatMap fun e =>
      keysBelow e.key (((e.object? t).map (·.keys)).getD [])).getD [] := by
  rw [operationKeys, operations]
  cases spec.paths? t with
  | none => rfl
  | some paths =>
      rw [Option.map_some, Option.getD_some, List.map_flatMap]
      exact List.flatMap_congr fun e _ => map_key_operationsOfPath t e

/-- Every value of the specification and of its paths that opens a literal closes it as well. -/
def Shut (t : Text) (spec : Spec) : Prop :=
  spec.literal.Shut t ∧ ∀ paths ∈ spec.paths? t, paths.Shut t

instance (t : Text) (spec : Spec) : Decidable (spec.Shut t) :=
  inferInstanceAs (Decidable (_ ∧ ∀ paths ∈ spec.paths? t, paths.Shut t))

theorem operationKeys_append_left (hp : Settled p)
    (h : ObjectLiteral.readAt? p n = some spec.literal) (hshut : spec.Shut p) (q : Text) :
    spec.operationKeys (p ++ q) = spec.operationKeys p := by
  have hpaths : spec.paths? (p ++ q) = spec.paths? p := by
    rw [paths?, paths?]
    cases hget : spec.literal.get? "paths".toList with
    | none => rfl
    | some e =>
        exact ObjectLiteral.object?_append_left hp h hshut.1 (List.mem_of_find?_eq_some hget) q
  rw [operationKeys_eq, operationKeys_eq, hpaths]
  cases hread : spec.paths? p with
  | none => rw [Option.map_none, Option.map_none]
  | some paths =>
      obtain ⟨e, -, hread'⟩ := Option.bind_eq_some_iff.mp hread
      rw [Option.map_some, Option.map_some, Option.getD_some, Option.getD_some]
      exact List.flatMap_congr fun x hx => by
        rw [ObjectLiteral.object?_append_left hp hread' (hshut.2 paths hread) hx]

def moved (d : Nat) (spec : Spec) : Spec := ⟨spec.name, d + spec.declaredAt, spec.literal.moved d⟩

theorem operationKeys_moved (p q : Text) (spec : Spec) :
    (spec.moved (Text.size p)).operationKeys (p ++ q) = spec.operationKeys q := by
  have hkeys : ∀ (d : Nat) (o : ObjectLiteral), (o.moved d).keys = o.keys := fun d o => by
    rw [ObjectLiteral.keys, ObjectLiteral.keys, ObjectLiteral.moved, List.map_map]
    rfl
  have hpaths : (spec.moved (Text.size p)).paths? (p ++ q) =
      (spec.paths? q).map (·.moved (Text.size p)) := by
    rw [paths?, paths?, moved, ObjectLiteral.get?_moved]
    cases spec.literal.get? "paths".toList with
    | none => rfl
    | some e => exact ObjectEntry.object?_moved p q e
  rw [operationKeys_eq, operationKeys_eq, hpaths]
  cases spec.paths? q with
  | none => rw [Option.map_none, Option.map_none, Option.map_none]
  | some paths =>
      rw [Option.map_some, Option.map_some, Option.map_some, Option.getD_some, Option.getD_some,
        ObjectLiteral.moved, List.flatMap_map]
      refine List.flatMap_congr fun e _ => ?_
      rw [ObjectEntry.object?_moved, Option.map_map]
      simp only [Function.comp_def, hkeys]
      rfl

theorem map_operationKeys_moved (p q : Text) (spec : Option Spec) :
    (spec.map (moved (Text.size p))).map (·.operationKeys (p ++ q)) =
      spec.map (·.operationKeys q) := by
  cases spec with
  | none => rw [Option.map_none, Option.map_none, Option.map_none]
  | some spec => rw [Option.map_some, Option.map_some, Option.map_some, operationKeys_moved]

/-! ## The specification of a text -/

/-- Every declaration in code closes the literal that it opens. -/
def Closes (t : Text) : Prop :=
  ∀ m ∈ declaration.all t, (Source.of t).isCodeAt m.start = true →
  (matchingClose? t (m.stop - 1)).isSome

instance (t : Text) : Decidable (Closes t) := inferInstanceAs (Decidable (∀ m ∈ _, _ → _))

/-- The specification that a stretch behind a character declares. -/
def behind? (before : Option Char) (w : Text) : Option Spec :=
  (declaration.within before 0 w).findSome? (ofMatch? (.of w))

theorem behind?_like {x y : Option Char} (h : Pattern.LikeBehind x y) (w : Text) :
    behind? x w = behind? y w := by
  rw [behind?, behind?, eq_of_forall₂_like (o := 0) (Pattern.within_like rfl h 0 0 w)]

theorem ofMatch?_append_left (hp : Rests p) (hclose : Closes p) (hm : m ∈ declaration.all p)
    (q : Text) :
    ofMatch? (.of (p ++ q)) m = ofMatch? (.of p) m := by
  have hlt := (Pattern.in_of_mem_all hm).start_lt rfl
  rw [ofMatch?, ofMatch?, hp.1.isCodeAt_append_left q hlt]
  by_cases hcode : (Source.of p).isCodeAt m.start = true
  · have hread := ObjectLiteral.readAt?_append_of_closes hp.1 (hclose m hm hcode) q
    rw [if_pos hcode, if_pos hcode]
    simp only [Source.of, hread]
  · rw [if_neg hcode, if_neg hcode]

theorem ofMatch?_append_right (hp : Rests p) (hin : m.In declaration q)
    (h : Match.Like 0 (Text.size p) m m') :
    ofMatch? (.of (p ++ q)) m' = (ofMatch? (.of q) m).map (moved (Text.size p)) := by
  have hstart : m'.start = Text.size p + m.start := by
    have := h.start
    omega
  have hstop : m'.stop - 1 = Text.size p + (m.stop - 1) := by
    have hpos : Text.size m.text ≠ 0 := fun hzero =>
      Pattern.spells_ne_nil hin.spells rfl (Text.eq_nil_of_size hzero)
    have := hin.stop
    have := h.stop
    omega
  have htext : ∀ t : Text, (Source.of t).text = t := fun _ => rfl
  rw [ofMatch?, ofMatch?, hstart, hstop, hp.isCodeAt_append_right, h.groupText 1, htext, htext,
    ObjectLiteral.readAt?_append_right]
  by_cases hcode : (Source.of q).isCodeAt m.start = true
  · rw [if_pos hcode, if_pos hcode]
    cases ObjectLiteral.readAt? q (m.stop - 1) with
    | none => rfl
    | some o =>
        simp only [Option.map_some, ObjectLiteral.hasKey_moved]
        split_ifs <;> rfl
  · rw [if_neg hcode, if_neg hcode]
    rfl

theorem filterMap_ofMatch?_append_right (hp : Rests p)
    (h : List.Forall₂ (Match.Like 0 (Text.size p)) ms ms') (hin : ∀ m ∈ ms, m.In declaration q) :
    ms'.filterMap (ofMatch? (.of (p ++ q))) =
      (ms.filterMap (ofMatch? (.of q))).map (moved (Text.size p)) := by
  induction h with
  | nil => rfl
  | @cons m m' ms ms' hm _ ih =>
      obtain ⟨hfirst, hin⟩ := List.forall_mem_cons.mp hin
      rw [List.filterMap_cons, List.filterMap_cons, ofMatch?_append_right hp hfirst hm, ih hin]
      cases ofMatch? (.of q) m <;> rfl

end Spec

/-- The specification in front of a seam, or else the one behind it. -/
theorem Seam.find?_append (h : Seam p q) (hclose : Spec.Closes p) : Spec.find? (.of (p ++ q)) =
    (Spec.find? (.of p)).or ((Spec.behind? p.getLast? q).map (Spec.moved (Text.size p))) := by
  have hlike : List.Forall₂ (Match.Like 0 (Text.size p)) (Spec.declaration.within p.getLast? 0 q)
      (Spec.declaration.within p.getLast? (Text.size p) q) :=
    Pattern.within_like rfl (Pattern.LikeBehind.refl _) 0 (Text.size p) q
  have hin : ∀ m ∈ Spec.declaration.within p.getLast? 0 q, m.In Spec.declaration q := fun m hm =>
    (@Pattern.in_of_mem_allFrom _ _ _ q [] _ _ hm).1
  have hleft : (Spec.declaration.all p).filterMap (Spec.ofMatch? (.of (p ++ q))) =
      (Spec.declaration.all p).filterMap (Spec.ofMatch? (.of p)) :=
    List.filterMap_congr fun m hm => Spec.ofMatch?_append_left h.rests hclose hm q
  rw [Spec.find?, Spec.find?, Spec.behind?, show (Source.of (p ++ q)).text = p ++ q from rfl,
    show (Source.of p).text = p from rfl, Pattern.all_append rfl rfl h.declarations,
    List.findSome?_append, ← List.head?_filterMap, ← List.head?_filterMap, ← List.head?_filterMap,
    ← List.head?_filterMap, ← Pattern.all_eq_within, hleft,
    Spec.filterMap_ofMatch?_append_right h.rests hlike hin, List.head?_map]

end ServiceGate
