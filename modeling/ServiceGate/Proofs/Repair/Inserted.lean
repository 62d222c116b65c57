/-
# What is put in behind the specification

The last repairs put in imports, exports and the registrations of endpoints.  A sign of theirs is
never followed by what a pattern asks for (`clear`): no equals sign by a brace, so they declare no
object (`within_declaration_nil`), and no parenthesis by a quoted path, but for the one parenthesis
of an endpoint, so they register that endpoint or nothing (`calls_registration`).

An edit puts a stretch `x` in the place of a stretch `w`.  It `Spares` the specification if its ends
are seams and no declaration is taken out.  If none is put in either, the specification of the text
has the same operations as before (`declaredKeys_eq`), and every route was there or stands in the
new stretch (`calls_subset`).  So nothing else has become undeclared (`mem_undeclaredRoutes`).
-/
import ServiceGate.Proofs.Balanced.Specification
import ServiceGate.Proofs.Checked.Spec
import ServiceGate.Proofs.Route.Written
import ServiceGate.Proofs.Spec.Seams
import ServiceGate.Proofs.Text.Pieces
import ServiceGate.Proofs.Verdict.Exclusions

namespace ServiceGate

section

open Scan

variable {p w x q t : Text} {policy : Policy} {key : Text}

/-! ## Routes without a declaration -/

def Route.call (r : Route) : Text × Text := (r.method, r.path)

def calls (t : Text) : List (Text × Text) := (Route.all (.of t)).map Route.call

def declaredKeys? (t : Text) : Option (List Text) :=
  (Spec.find? (.of t)).map (·.operationKeys t)

/-- A route that is no part of the infrastructure and that the specification does not declare. -/
theorem mem_undeclaredRoutes : key ∈ undeclaredRoutes policy t ↔
    ∃ keys, declaredKeys? t = some keys ∧ key ∉ keys ∧ ∃ c ∈ calls t,
      policy.isInfraPath (RoutePath.normalize c.2) = false ∧ RoutePath.key c.1 c.2 = key := by
  rw [undeclaredRoutes, declaredKeys?]
  cases Spec.find? (.of t) with
  | none => simp
  | some spec =>
      rw [Option.map_some, Option.map_some, Option.getD_some, Spec.driftKeys, mem_sortedSet]
      simp only [List.mem_filter, List.mem_map, Bool.not_eq_true', calls, Option.some.injEq,
        exists_eq_left', List.contains_eq_mem, decide_eq_false_iff_not]
      constructor
      · rintro ⟨⟨r, ⟨hr, hinfra⟩, rfl⟩, hkeys⟩
        exact ⟨hkeys, r.call, ⟨r, hr, rfl⟩, hinfra, rfl⟩
      · rintro ⟨hkeys, c, ⟨r, hr, rfl⟩, hinfra, rfl⟩
        exact ⟨⟨r, ⟨hr, hinfra⟩, rfl⟩, hkeys⟩

/-! ## One stretch in the place of another -/

/-- An edit whose ends are seams, before and after it, and that takes out no declaration. -/
structure Spares (p w x q : Text) : Prop where
  front : Seam p (w ++ q)
  back : Seam (p ++ w) q
  newFront : Seam p (x ++ q)
  newBack : Seam (p ++ x) q
  alike : Pattern.LikeBehind (p ++ w).getLast? (p ++ x).getLast?
  closes : Spec.Closes p
  shut : ∀ spec ∈ Spec.find? (.of p), spec.Shut p
  silent : Spec.declaration.within p.getLast? 0 w = []

instance (p w x q : Text) : Decidable (Spares p w x q) :=
  decidable_of_iff (Seam p (w ++ q) ∧ Seam (p ++ w) q ∧ Seam p (x ++ q) ∧ Seam (p ++ x) q ∧
      Pattern.LikeBehind (p ++ w).getLast? (p ++ x).getLast? ∧ Spec.Closes p ∧
      (∀ spec ∈ Spec.find? (.of p), spec.Shut p) ∧ Spec.declaration.within p.getLast? 0 w = [])
    ⟨fun ⟨hfront, hback, hnewFront, hnewBack, halike, hcloses, hshut, hsilent⟩ =>
        ⟨hfront, hback, hnewFront, hnewBack, halike, hcloses, hshut, hsilent⟩,
      fun h => ⟨h.front, h.back, h.newFront, h.newBack, h.alike, h.closes, h.shut, h.silent⟩⟩

namespace Spec

theorem closes_append (h : Seam p w) (hclose : Closes p)
    (hw : declaration.within p.getLast? 0 w = []) : Closes (p ++ w) := by
  have hlike : List.Forall₂ (Match.Like 0 (Text.size p)) (declaration.within p.getLast? 0 w)
      (declaration.within p.getLast? (Text.size p) w) :=
    Pattern.within_like rfl (Pattern.LikeBehind.refl _) 0 (Text.size p) w
  rw [hw] at hlike
  intro m hm hcode
  rw [Pattern.all_append rfl rfl h.declarations, List.forall₂_nil_left_iff.mp hlike,
    List.append_nil, ← Pattern.all_eq_within] at hm
  rw [h.rests.1.isCodeAt_append_left w ((Pattern.in_of_mem_all hm).start_lt rfl)] at hcode
  obtain ⟨close, hmatch⟩ := Option.isSome_iff_exists.mp (hclose m hm hcode)
  rw [h.rests.1.matchingClose?_append_left hmatch w]
  rfl

theorem find?_append_silent (h : Seam p (w ++ q)) (h' : Seam (p ++ w) q) (hclose : Closes p)
    (hw : declaration.within p.getLast? 0 w = []) : find? (.of (p ++ w ++ q)) =
      (find? (.of p)).or ((behind? (p ++ w).getLast? q).map (moved (Text.size (p ++ w)))) := by
  have hinner := h.left h'
  have hnone : behind? p.getLast? w = none := by rw [behind?, hw]; rfl
  rw [h'.find?_append (closes_append hinner hclose hw), hinner.find?_append hclose, hnone,
    Option.map_none, Option.or_none]

/-- The specification has the same operations whatever silent stretch stands between the seams. -/
theorem declaredKeys?_append_silent (h : Seam p (w ++ q)) (h' : Seam (p ++ w) q) (hclose : Closes p)
    (hshut : ∀ spec ∈ find? (.of p), spec.Shut p) (hw : declaration.within p.getLast? 0 w = []) :
    declaredKeys? (p ++ w ++ q) = ((find? (.of p)).map (·.operationKeys p)).or
      ((behind? (p ++ w).getLast? q).map (·.operationKeys q)) := by
  rw [declaredKeys?, find?_append_silent h h' hclose hw]
  cases hfind : find? (.of p) with
  | some spec =>
      obtain ⟨n, hread⟩ := exists_readAt?_of_find? hfind
      rw [Option.some_or, Option.map_some, Option.map_some, Option.some_or, List.append_assoc,
        operationKeys_append_left h.rests.1 hread (hshut spec hfind)]
  | none =>
      rw [Option.none_or, Option.map_none, Option.none_or]
      exact map_operationKeys_moved (p ++ w) q _

end Spec

namespace Spares

theorem declaredKeys_eq (h : Spares p w x q) (hx : Spec.declaration.within p.getLast? 0 x = []) :
    declaredKeys? (p ++ x ++ q) = declaredKeys? (p ++ w ++ q) := by
  rw [Spec.declaredKeys?_append_silent h.newFront h.newBack h.closes h.shut hx,
    Spec.declaredKeys?_append_silent h.front h.back h.closes h.shut h.silent,
    Spec.behind?_like h.alike]

theorem calls_subset (h : Spares p w x q) : calls (p ++ x ++ q) ⊆
    calls (p ++ w ++ q) ++ (Route.behind p.getLast? x).map Route.call := by
  have hcut : ∀ {w : Text}, Seam p (w ++ q) → Seam (p ++ w) q → calls (p ++ w ++ q) =
      calls p ++ (Route.behind p.getLast? w).map Route.call ++
        (Route.behind (p ++ w).getLast? q).map Route.call := fun hfront hback => by
    rw [calls, hback.routes_append, (hfront.left hback).routes_append, List.map_append,
      List.map_append, List.map_map, List.map_map]
    rfl
  rw [hcut h.newFront h.newBack, hcut h.front h.back, Route.behind_like h.alike]
  intro c hc
  simp only [List.mem_append] at hc ⊢
  tauto

end Spares

end

open Pattern Scan

variable {x u v w : Text} {sign : Char} {bad : Text → Bool} {before : Option Char}

/-! ## Signs and what follows them -/

def clear (sign : Char) (bad : Text → Bool) : Text → Bool
  | [] => true
  | c :: rest => !(c == sign && bad rest) && clear sign bad rest

theorem clear_cons {c : Char} (hc : c ≠ sign) (h : clear sign bad v = true) :
    clear sign bad (c :: v) = true := by
  rw [clear, beq_eq_false_iff_ne.mpr hc, h]
  rfl

theorem clear_append (hu : sign ∉ u) (h : clear sign bad v = true) :
    clear sign bad (u ++ v) = true := by
  induction u with
  | nil => exact h
  | cons c u ih =>
      obtain ⟨hc, hu⟩ := not_or.mp (mt List.mem_cons.mpr hu)
      exact clear_cons (Ne.symm hc) (ih hu)

theorem clear_sign (hbad : bad v = false) (h : clear sign bad v = true) :
    clear sign bad (sign :: v) = true := by
  rw [clear, hbad, h, Bool.and_false]
  rfl

theorem bad_of_clear (h : clear sign bad x = true) (hx : x = u ++ sign :: v) : bad v = false := by
  subst hx
  induction u with
  | nil =>
      rw [List.nil_append, clear, beq_self_eq_true] at h
      simpa using (Bool.and_eq_true_iff.mp h).1
  | cons c u ih => exact ih (Bool.and_eq_true_iff.mp h).2

theorem clear_of_notMem (h : sign ∉ x) : clear sign bad x = true := by
  rw [← List.append_nil x]
  exact clear_append h rfl

def opensBrace (t : Text) : Bool := t.trimStart.head? == some '\x7b'

def opensPath (t : Text) : Bool :=
  match t.trimStart with
  | [] => false
  | c :: rest => isQuote c && rest.head? == some '/'

theorem trimStart_append (h : ∀ c ∈ u, CharClass.isSpace c = true) (v : Text) :
    Text.trimStart (u ++ v) = Text.trimStart v :=
  List.dropWhile_append_of_pos h

/-! ## Declarations -/

theorem within_declaration_nil (h : clear '=' opensBrace x = true) :
    Spec.declaration.within before 0 x = [] := by
  refine List.eq_nil_iff_forall_not_mem.mpr fun m hm => ?_
  have hin : m.In Spec.declaration x := (@in_of_mem_allFrom _ _ _ x [] _ _ hm).1
  obtain ⟨front, back, hx, -⟩ := hin.cut
  obtain ⟨u₁, rest₁, h₁, -, hs₁⟩ := spells_seq hin.spells
  obtain ⟨u₂, rest₂, h₂, -, hs₂⟩ := spells_seq hs₁
  obtain ⟨u₃, rest₃, h₃, -, hs₃⟩ := spells_seq hs₂
  obtain ⟨u₄, rest₄, h₄, -, hs₄⟩ := spells_seq hs₃
  obtain ⟨u₅, rest₅, h₅, -, hs₅⟩ := spells_seq hs₄
  obtain ⟨u₆, rest₆, h₆, -, hs₆⟩ := spells_seq hs₅
  obtain ⟨equals, rest₇, h₇, hequals, hs₇⟩ := spells_seq hs₆
  obtain ⟨gap, brace, h₈, hgap, hbrace⟩ := spells_seq hs₇
  rw [spells_literal hequals] at h₇
  rw [spells_literal hbrace] at h₈
  have hcut : x = (front ++ (u₁ ++ (u₂ ++ (u₃ ++ (u₄ ++ (u₅ ++ u₆)))))) ++
      '=' :: (gap ++ '\x7b' :: back) := by
    rw [hx, h₁, h₂, h₃, h₄, h₅, h₆, h₇, h₈]
    simp
  have hclear := bad_of_clear h hcut
  rw [opensBrace, trimStart_append (spells_spaces hgap)] at hclear
  cases hclear

/-! ## Registrations -/

theorem opensPath_quoted {quote : Char} {path : Text} (hu : ∀ c ∈ u, CharClass.isSpace c = true)
    (hquote : isQuote quote = true) (hpath : path.head? = some '/') (rest : Text) :
    opensPath (u ++ quote :: (path ++ rest)) = true := by
  obtain ⟨w, rfl⟩ := List.head?_eq_some_iff.mp hpath
  have hspace : CharClass.isSpace quote = false := by
    simp only [isQuote, Bool.or_eq_true, beq_iff_eq] at hquote
    rcases hquote with (rfl | rfl) | rfl <;> rfl
  rw [opensPath, trimStart_append hu, Text.trimStart,
    List.dropWhile_cons_of_neg (by rw [hspace]; exact Bool.false_ne_true)]
  simp [hquote]

theorem behind_nil (h : clear '(' opensPath x = true) : Route.behind before x = [] := by
  refine List.eq_nil_iff_forall_not_mem.mpr fun r hr => ?_
  obtain ⟨m, hm, hofMatch⟩ := List.mem_filterMap.mp (List.mem_filter.mp hr).1
  have hwritten := Route.exists_written hm hofMatch
  obtain ⟨front, gap, lead, back, quote, hx, -, -, hlead, hquote, -⟩ := hwritten.cut
  have hpath := opensPath_quoted hlead hquote hwritten.path (quote :: back)
  rw [bad_of_clear h hx] at hpath
  cases hpath

theorem eq_of_clear {u' v' : Text} (hu : sign ∉ u) (hv : clear sign bad v = true)
    (hbad : bad v' = true) (h : u ++ sign :: v = u' ++ sign :: v') : u' = u ∧ v' = v := by
  rcases List.append_eq_append_iff.mp h with ⟨w, hu', hw⟩ | ⟨w, hu', hw⟩
  · cases w with
    | nil => exact ⟨by rw [hu', List.append_nil], (List.cons.inj hw).2.symm⟩
    | cons c w =>
        rw [bad_of_clear hv (List.cons.inj hw).2] at hbad
        cases hbad
  · cases w with
    | nil => exact ⟨by rw [hu', List.append_nil], (List.cons.inj hw).2⟩
    | cons c w =>
        obtain rfl := (List.cons.inj hw).1
        exact absurd (by rw [hu']; exact List.mem_append_right _ List.mem_cons_self) hu

/-- If only one parenthesis opens a quoted path, it is the one that is registered. -/
theorem calls_registration {path : Text} (hu : '(' ∉ u) (hdot : '.' ∉ u) (hpath : '\'' ∉ path)
    (h : clear '(' opensPath ('\'' :: (path ++ '\'' :: v)) = true) :
    (Route.behind before (u ++ ".get".toList ++ '(' :: '\'' :: (path ++ '\'' :: v))).map
    Route.call ⊆
      [("get".toList, path)] := by
  intro c hc
  obtain ⟨r, hr, rfl⟩ := List.mem_map.mp hc
  obtain ⟨m, hm, hofMatch⟩ := List.mem_filterMap.mp (List.mem_filter.mp hr).1
  have hwritten := Route.exists_written hm hofMatch
  obtain ⟨front, gap, lead, back, quote, hx, -, hgap, hlead, hquote, hfree⟩ := hwritten.cut
  have hfirst : '(' ∉ u ++ ".get".toList := by
    rw [List.mem_append]
    rintro (hmem | hmem)
    · exact hu hmem
    · exact absurd hmem (by decide)
  obtain ⟨hfront, hbehind⟩ := eq_of_clear hfirst h
    (opensPath_quoted hlead hquote hwritten.path (quote :: back)) hx
  have hmethod : "get".toList = r.method ++ gap :=
    ((@List.append_cons_inj_of_notMem _ _ _ _ _ '.' _ hdot (by decide)).mp hfront.symm).2.2
  have hget : r.method = "get".toList := by
    have hword := hwritten.method
    simp only [List.map_cons, List.map_nil, List.mem_cons, List.not_mem_nil, or_false] at hword
    rcases hword with hword | hword | hword | hword | hword <;> rw [hword]
        at hmethod ⊢ <;> cases hmethod
  have hsame : r.path = path := by
    cases lead with
    | nil =>
        obtain ⟨rfl, hrest⟩ := List.cons.inj hbehind
        exact Text.eq_of_notMem hfree hpath hrest
    | cons c lead =>
        obtain ⟨rfl, -⟩ := List.cons.inj hbehind
        exact absurd (hlead '\'' List.mem_cons_self) (by decide)
  rw [Route.call, hget, hsame]
  exact List.mem_singleton_self _

/-! ## Endpoints -/

namespace Endpoint

def handler (e : Endpoint) (specName : Text) : Text :=
  ", (_req: Request, res: Response) => \x7b\n  ".toList ++ e.body specName ++ "\n\x7d);".toList

theorem render_eq (e : Endpoint) (receiver specName : Text) : e.render receiver specName =
    receiver ++ ".get".toList ++ '(' :: '\'' :: (e.path.toList ++ '\'' :: e.handler specName) := by
  have hjoin : ∀ {call get head head' : Text} (path body tail : Text), call = get ++ ['(', '\''] →
      head = '\'' :: head' → receiver ++ call ++ path ++ head ++ body ++ tail =
        receiver ++ get ++ '(' :: '\'' :: (path ++ '\'' :: (head' ++ body ++ tail)) := by
    rintro call get head head' path body tail rfl rfl
    simp
  exact hjoin _ _ _ (by decide) (by decide)

theorem opensPath_bare {rest : Text} : ∀ {name : Text}, (∀ c ∈ name, c ∉ CharClass.signs) →
    opensPath (name ++ ')' :: rest) = false
  | [], _ => rfl
  | c :: name, h => by
      obtain ⟨hc, hname⟩ := List.forall_mem_cons.mp h
      have hquote : isQuote c = false := by
        by_contra hquote
        rw [Bool.not_eq_false, isQuote, Bool.or_eq_true, Bool.or_eq_true, beq_iff_eq, beq_iff_eq,
          beq_iff_eq] at hquote
        rcases hquote with (rfl | rfl) | rfl <;> exact hc (by decide)
      by_cases hspace : CharClass.isSpace c = true
      · rw [opensPath, List.cons_append, Text.trimStart, List.dropWhile_cons_of_pos hspace]
        exact opensPath_bare hname
      · rw [opensPath, List.cons_append, Text.trimStart, List.dropWhile_cons_of_neg hspace]
        simp only [hquote, Bool.false_and]

theorem handler_spec (specName : Text) : Endpoint.spec.handler specName =
    ", ".toList ++ '(' :: ("_req: Request, res: Response) ".toList ++ '=' ::
      ("> \x7b\n  res.json".toList ++ '(' :: (specName ++ ')' :: ";\n\x7d);".toList))) := by
  have hjoin : ∀ {head comma parameters arrow call response close tail : Text},
      head = comma ++ '(' :: (parameters ++ '=' :: arrow) → call = response ++ ['('] →
        close = [')', ';'] →
        head ++ (call ++ specName ++ close) ++ tail = comma ++ '(' :: (parameters ++ '=' ::
          ((arrow ++ response) ++ '(' :: (specName ++ ')' :: (';' :: tail)))) := by
    rintro head comma parameters arrow call response close tail rfl rfl rfl
    simp
  have hjoined := @hjoin ", (_req: Request, res: Response) => \x7b\n  ".toList ", ".toList
    "_req: Request, res: Response) ".toList "> \x7b\n  ".toList "res.json(".toList "res.json".toList
    ");".toList "\n\x7d);".toList (by decide) (by decide) (by decide)
  exact hjoined

set_option maxRecDepth 2000 in
theorem clear_docs (specName : Text) :
    clear '(' opensPath ('\'' :: (docs.path.toList ++ '\'' :: docs.handler specName)) = true ∧
      clear '=' opensBrace ('(' :: '\'' :: (docs.path.toList ++ '\'' :: docs.handler specName)) =
      true := by
  obtain ⟨a, b, c, d, e, f, hpage, hpath, hbrace⟩ : ∃ a b c d e f : List Char,
      docsPage = .ofList a ++ .ofList b ++ .ofList c ++ .ofList d ++ .ofList e ++ .ofList f ∧
        clear '(' opensPath ('\'' :: (docs.path.toList ++ '\'' ::
          (", (_req: Request, res: Response) => \x7b\n  ".toList ++
            ("res.type('html').send('".toList ++
            [a, b, c, d, e, f].flatten ++ "');".toList) ++ "\n\x7d);".toList))) = true ∧
        clear '=' opensBrace ('(' :: '\'' :: (docs.path.toList ++ '\'' ::
          (", (_req: Request, res: Response) => \x7b\n  ".toList ++
            ("res.type('html').send('".toList ++
            [a, b, c, d, e, f].flatten ++ "');".toList) ++ "\n\x7d);".toList))) = true :=
    ⟨_, _, _, _, _, _, rfl, by decide, by decide⟩
  have htext : docsPage.toList = [a, b, c, d, e, f].flatten := by
    rw [hpage]
    simp
  rw [← htext] at hpath hbrace
  exact ⟨hpath, hbrace⟩

theorem clear_path (e : Endpoint) {specName : Text} (h : IsBare specName) :
    clear '(' opensPath ('\'' :: (e.path.toList ++ '\'' :: e.handler specName)) = true := by
  have hclosed : ∀ e ∈ [health, root],
      clear '(' opensPath ('\'' :: (e.path.toList ++ '\'' :: e.handler [])) = true := by decide
  cases e with
  | health => exact hclosed .health (by decide)
  | root => exact hclosed .root (by decide)
  | docs => exact (clear_docs specName).1
  | spec =>
      have hname : '(' ∉ specName := fun hmem => h.chars '(' hmem (by decide)
      have hresponse : clear '(' opensPath ("> \x7b\n  res.json".toList ++ '(' :: (specName ++
          ')' :: ";\n\x7d);".toList)) = true :=
        clear_append (by decide)
          (clear_sign (opensPath_bare h.chars) (clear_append hname (by decide)))
      rw [handler_spec]
      refine clear_cons (by decide) (clear_append (by decide) (clear_cons (by decide)
        (clear_append (by decide) (clear_sign rfl ?_))))
      exact clear_append (by decide) (clear_cons (by decide) hresponse)

theorem clear_render (e : Endpoint) {receiver specName : Text} (hreceiver : IsBare receiver)
    (hname : IsBare specName) : clear '=' opensBrace (e.render receiver specName) = true := by
  have hfree : ∀ {name : Text}, IsBare name → '=' ∉ name := fun h hmem =>
    h.chars '=' hmem (by decide)
  have hclosed : ∀ e ∈ [health, root], clear '=' opensBrace
      (".get".toList ++ '(' :: '\'' :: (e.path.toList ++ '\'' :: e.handler [])) = true := by
        decide +kernel
  rw [render_eq, List.append_assoc]
  refine clear_append (hfree hreceiver) ?_
  cases e with
  | health => exact hclosed .health (by decide)
  | root => exact hclosed .root (by decide)
  | docs => exact clear_append (by decide) (clear_docs specName).2
  | spec =>
      have hresponse : clear '=' opensBrace ("> \x7b\n  res.json".toList ++ '(' :: (specName ++
          ')' :: ";\n\x7d);".toList)) = true :=
        clear_append (by decide) (clear_cons (by decide) (clear_append (hfree hname) (by decide)))
      rw [handler_spec]
      refine clear_append (by decide) (clear_cons (by decide) (clear_cons (by decide)
        (clear_append (by decide) (clear_cons (by decide) (clear_append (by decide) ?_)))))
      exact clear_cons (by decide) (clear_append (by decide) (clear_sign rfl hresponse))

/-- The registration of an endpoint answers for that endpoint and for nothing else. -/
theorem calls_render (e : Endpoint) {receiver specName : Text} (hreceiver : IsBare receiver)
    (hname : IsBare specName) :
    (Route.behind before ("\n\n".toList ++ e.render receiver specName)).map Route.call ⊆
      [("get".toList, e.path.toList)] := by
  have hfree : ∀ c ∈ CharClass.signs, c ∉ "\n\n".toList → c ∉ "\n\n".toList ++ receiver :=
    fun c hc hgap =>
    fun hmem => (List.mem_append.mp hmem).elim hgap fun hmem => hreceiver.chars c hmem hc
  have hpath : '\'' ∉ e.path.toList := by cases e <;> decide
  rw [render_eq, ← List.append_assoc, ← List.append_assoc]
  exact calls_registration (hfree '(' (by decide) (by decide))
    (hfree '.' (by decide) (by decide)) hpath
    (e.clear_path hname)

theorem within_render (e : Endpoint) {receiver specName : Text} (hreceiver : IsBare receiver)
    (hname : IsBare specName) :
    Spec.declaration.within before 0 ("\n\n".toList ++ e.render receiver specName) = [] :=
  within_declaration_nil (clear_append (by decide) (e.clear_render hreceiver hname))

end Endpoint

/-! ## Imports and exports -/

namespace ImportStatement

variable {i : ImportStatement}

theorem Writable.notMem_render (h : i.Writable) (hmodule : IsBare i.moduleName)
    (hline : i.render = some w) (hsign : sign = '(' ∨ sign = '=') : sign ∉ w := by
  have hword : ∀ word ∈ ["import ", "type ", "* as ", " as ", " from ", ", ", "\x7b ", " \x7d"],
      sign ∉ word.toList := by
    rcases hsign with rfl | rfl <;> decide
  have hbare : ∀ {name : Text}, IsBare name → sign ∉ name := fun hname hmem =>
    hname.chars sign hmem (by rcases hsign with rfl | rfl <;> decide)
  have htype : ∀ typeOnly : Bool, sign ∉ (if typeOnly then "type ".toList else []) :=
    fun typeOnly => by
    split_ifs
    · exact hword "type " (by decide)
    · exact List.not_mem_nil
  have hmember : ∀ m ∈ i.members, sign ∉ m.render := fun m hm => by
    obtain ⟨himported, hbound⟩ := h.members m hm
    rw [ImportMember.render, List.mem_append, not_or]
    refine ⟨htype m.typeOnly, ?_⟩
    split_ifs
    · exact hbare himported
    · rw [List.mem_append, List.mem_append, not_or, not_or]
      exact ⟨⟨hbare himported, hword " as " (by decide)⟩, hbare hbound⟩
  have hclause : ∀ clause ∈ i.clauses, sign ∉ clause := by
    intro clause hclause
    rcases List.mem_append.mp hclause with hclause | hmembers
    · rcases List.mem_append.mp hclause with hdefault | hnamespace
      · exact hbare (h.defaultName clause (Option.mem_toList.mp hdefault))
      · obtain ⟨name, hname, rfl⟩ := Option.map_eq_some_iff.mp (Option.mem_toList.mp hnamespace)
        rw [List.mem_append, not_or]
        exact ⟨hword "* as " (by decide), hbare (h.namespaceName name hname)⟩
    · have hrendered := Option.mem_toList.mp hmembers
      rw [renderMembers] at hrendered
      split_ifs at hrendered
      rw [← Option.some.inj hrendered, List.mem_append, List.mem_append, not_or, not_or]
      refine ⟨⟨hword "\x7b " (by decide),
        Text.notMem_join (hword ", " (by decide)) fun part hpart => ?_⟩, hword " \x7d" (by decide)⟩
      obtain ⟨m, hm, rfl⟩ := List.mem_map.mp hpart
      exact hmember m hm
  have hquote : sign ≠ i.quote ∧ sign ≠ ';' := by
    rcases h.quote with hquote | hquote <;> rcases hsign with rfl | rfl <;> rw [hquote] <;> decide
  rw [render] at hline
  split at hline
  · cases hline
  rw [← Option.some.inj hline]
  simp only [List.mem_append, List.mem_cons, List.not_mem_nil, or_false, not_or]
  exact ⟨⟨⟨⟨⟨⟨hword "import " (by decide), htype i.typeOnly⟩,
    Text.notMem_join (hword ", " (by decide)) hclause⟩, hword " from " (by decide)⟩, hquote.1⟩,
    hbare hmodule⟩, hquote⟩

end ImportStatement

theorem silent_of_notMem (h : ∀ sign, sign = '(' ∨ sign = '=' → sign ∉ x) :
    Spec.declaration.within before 0 x = [] ∧ Route.behind before x = [] :=
  ⟨within_declaration_nil (clear_of_notMem (h '=' (.inr rfl))),
    behind_nil (clear_of_notMem (h '(' (.inl rfl)))⟩

end ServiceGate
