/-
# Endpoints that the rules accept

The rule on an endpoint searches the text for a registration of its path, the repair compares the
paths of the routes in normal form.  A route that is written with the path itself is what the rule
asks for (`answered_of_route`), and so is the registration that the repair puts in behind the last
route, be the framework's types imported in front of it or behind it (`answered_injectEndpoint`).
So the repair settles what the rule reports, unless a route answers under another spelling of the
path (`settles_endpoint`).

When the registration is there, the repair may still import types, in front of it or behind it, but
never in its midst (`apart_importEdit?`): a statement of a module without a dot does not reach over
the dot of the registration (`apart_statement`), and no statement ends within one (`apart_last`).
`ImportFits` is all that is asked of that import.

The four endpoints differ in their path and in the methods that their rule accepts, and each
statement here is about any of them.
-/
import ServiceGate.Proofs.Repair.Undeclared
import ServiceGate.Proofs.Rule.RequiredImports

namespace ServiceGate

open Pattern Scan Repair

variable {t u front rest head back w x name : Text} {e : Endpoint} {r last : Route} {rule : Rule}
  {ctx : Context} {m : Match} {n : Nat} {edit : Edit} {c : Char}

namespace Text

theorem exists_inside {a b z : Text} (h : x ++ c :: w = a ++ (b ++ z)) (ha : c ∉ a) (hz : c ∉ z) :
    ∃ y v, b = y ++ c :: v ∧ x = a ++ y ∧ w = v ++ z := by
  obtain ⟨y, rfl, hb⟩ : ∃ y, x = a ++ y ∧ y ++ c :: w = b ++ z := by
    rcases List.append_eq_append_iff.mp h with ⟨_ | ⟨d, y⟩, hx, hb⟩ | ⟨y, hx, hb⟩
    · exact ⟨[], by simp [hx], hb⟩
    · obtain ⟨rfl, -⟩ := List.cons.inj hb
      exact absurd (by rw [hx]; simp) ha
    · exact ⟨y, hx, hb.symm⟩
  rcases List.append_eq_append_iff.mp hb with ⟨_ | ⟨d, v⟩, hy, hw⟩ | ⟨v, -, rfl⟩
  · exact absurd (by rw [← show c :: w = z from hw]; simp) hz
  · obtain ⟨rfl, hrest⟩ := List.cons.inj hw
    exact ⟨y, v, hy, rfl, hrest⟩
  · exact absurd (by simp) hz

theorem place_cases {a b p v q : Text} (h : a ++ b = p ++ (v ++ q)) :
    size a ≤ size p ∨ size (p ++ v) ≤ size a ∨
      ∃ y z, y ≠ [] ∧ z ≠ [] ∧ v = y ++ z ∧ a = p ++ y ∧ b = z ++ q := by
  rcases Nat.le_total (size a) (size p) with hle | hle
  · exact .inl hle
  obtain ⟨y, rfl, hy⟩ := exists_middle h.symm hle
  rcases Nat.le_total (size (p ++ v)) (size (p ++ y)) with hle' | hle'
  · exact .inr (.inl hle')
  rw [size_append, size_append, Nat.add_le_add_iff_left] at hle'
  obtain ⟨z, rfl, hz⟩ := exists_middle hy.symm hle'
  by_cases hy' : y = []
  · exact .inl (by simp [hy'])
  by_cases hz' : z = []
  · exact .inr (.inl (by simp [hz']))
  exact .inr (.inr ⟨y, z, hy', hz', rfl, rfl, hz⟩)

end Text

/-! ## What the rules ask for -/

namespace Endpoint

/-- The methods by which an endpoint may be registered. -/
def methods : Endpoint → List String
  | .docs => ["get", "use"]
  | .health | .root | .spec => ["get"]

/-- The registration that the rule on an endpoint asks for. -/
def pattern (e : Endpoint) : Pattern := Required.endpoint e.methods e.path

/-- The registration that the repair writes, up to its path. -/
def call (e : Endpoint) : Text := ".get".toList ++ '(' :: '\'' :: (e.path.toList ++ ['\''])

/-- The text registers the endpoint in code. -/
def Answered (e : Endpoint) (t : Text) : Prop :=
  ∃ n, e.pattern.ReadsAt t n ∧ (Source.of t).isCodeAt n = true

theorem detector_eq (hrule : rule ∈ Rule.all) (he : endpointOf? rule.code = some e) :
    rule.detector = .required e.pattern := by
  suffices h : ∀ rule ∈ Rule.all, ∀ e, endpointOf? rule.code = some e →
      rule.detector = .required e.pattern from
    h rule hrule e he
  refine Rule.forall_mem_all ?_
  and_intros <;> first
    | exact fun e h => (Option.some.inj h) ▸ rfl
    | exact fun e h => absurd h (by cases e <;> decide)

theorem pattern_proper (e : Endpoint) : e.pattern.proper = true ∧ e.pattern.takes = true := by
  cases e <;> decide

/-- A registration by the method that all rules accept. -/
theorem readsAt_pattern {gap lead : Text} {q q' : Char}
    (hgap : ∀ c ∈ gap, CharClass.isSpace c = true) (hlead : ∀ c ∈ lead, CharClass.isSpace c = true)
    (hq : isQuote q = true) (hq' : isQuote q' = true)
    (ht : t = front ++
      (['.'] ++ ("get".toList ++ (gap ++ (['('] ++ (lead ++ ([q] ++ (e.path.toList ++
      ([q'] ++ rest))))))))) : e.pattern.ReadsAt t (Text.size front) := by
  have hmethod : (anyWord e.methods).ReadsText "get".toList := by
    intro front rest cs
    have hget := leads_literal "get".toList front rest cs
    cases e with
    | docs => exact .altFirst hget
    | health | root | spec => exact hget
  have hquote : ∀ {q : Char}, isQuote q = true → "'\"\x60".toList.contains q = true := by
    intro q hq
    simp only [isQuote, Bool.or_eq_true, beq_iff_eq] at hq
    rcases hq with (rfl | rfl) | rfl <;> decide
  exact ⟨front, _, _, ht, rfl, .seq (leads_literal ['.'] _ _ _) (.seq (hmethod _ _ _)
    (.seq (leads_many _ _ _ _ hgap)
      (.seq (leads_literal ['('] _ _ _) (.seq (leads_many _ _ _ _ hlead)
      (.seq (leads_single (hquote hq) _ _ _)
        (.seq (leads_literal _ _ _ _) (leads_single (hquote hq') _ _ _)))))))⟩

/-- What the pattern reads. -/
theorem spells_pattern (h : Spells e.pattern w) : ∃ method ∈ e.methods, ∃ gap lead q q',
    w = '.' :: (method.toList ++ (gap ++ ('(' :: (lead ++ (q :: (e.path.toList ++ [q'])))))) ∧
      (∀ c ∈ gap, CharClass.isSpace c = true) ∧ (∀ c ∈ lead, CharClass.isSpace c = true) ∧
        q ∈ ['\'', '"', '\x60'] ∧ q' ∈ ['\'', '"', '\x60'] := by
  obtain ⟨u₁, u, rfl, hdot, h⟩ := spells_seq h
  obtain ⟨u₂, u, rfl, hmethod, h⟩ := spells_seq h
  obtain ⟨gap, u, rfl, hgap, h⟩ := spells_seq h
  obtain ⟨u₄, u, rfl, hopen, h⟩ := spells_seq h
  obtain ⟨lead, u, rfl, hlead, h⟩ := spells_seq h
  obtain ⟨u₆, u, rfl, hquote, h⟩ := spells_seq h
  obtain ⟨u₇, u₈, rfl, hpath, hquote'⟩ := spells_seq h
  obtain ⟨method, hmem, rfl⟩ := List.mem_map.mp (spells_anyWord hmethod)
  have hone : ∀ {u : Text}, Spells anyQuote u → ∃ q, u = [q] ∧ q ∈ ['\'', '"', '\x60'] := fun h =>
    by
    cases h with
    | @char _ q hq => exact ⟨q, rfl, List.contains_iff_mem.mp hq⟩
  obtain ⟨q, rfl, hq⟩ := hone hquote
  obtain ⟨q', rfl, hq'⟩ := hone hquote'
  refine ⟨method, hmem, gap, lead, q, q', ?_, spells_spaces hgap, spells_spaces hlead, hq, hq'⟩
  rw [spells_literal hdot, spells_literal hopen, spells_literal hpath]
  rfl

theorem head?_of_path {y z : Text} (h : e.path.toList = y ++ '.' :: z) : z.head? = some 'j' := by
  have hall : ∀ n < e.path.toList.length, e.path.toList[n]? = some '.' →
      (e.path.toList.drop (n + 1)).head? = some 'j' := by
    cases e <;> decide
  have hbehind := hall y.length (by rw [h]; simp) (by rw [h]; simp)
  rw [h, ← List.drop_drop, List.drop_left] at hbehind
  exact hbehind

/-- Registrations do not overlap, so none is hidden. -/
theorem steady_pattern (e : Endpoint) : Steady e.pattern := by
  intro s n m hm hmatch hlt hstop _
  obtain ⟨front, c, w, d, v, back, u, back', -, -, -, hwhole, hinner, hcut⟩ :=
    exists_overlap hm hmatch hlt hstop
  obtain ⟨method, hmethod, gap, lead, q, q', htext, hgap, hlead, hq, hq'⟩ := spells_pattern hwhole
  obtain ⟨method', hmethod', gap', lead', p, p', rfl, -⟩ := spells_pattern hinner
  obtain ⟨rfl, hbehind⟩ := List.cons.inj hcut
  obtain ⟨rfl, hinside⟩ := List.cons.inj htext
  have hchars : (∀ method ∈ e.methods, '.' ∉ method.toList) ∧ ∀ method ∈ e.methods,
      method.toList.head? ∈
      [some 'g', some 'u'] := by cases e <;> decide
  have hspace : ∀ {u : Text}, (∀ c ∈ u, CharClass.isSpace c = true) → '.' ∉ u := fun hu hmem =>
    absurd (hu _ hmem) (by decide)
  have hfront : '.' ∉ method.toList ++ (gap ++ '(' :: (lead ++ [q])) := by
    have hquote : '.' ≠ q := by rintro rfl; exact absurd hq (by decide)
    simp [hchars.1 method hmethod, hspace hgap, hspace hlead, hquote]
  have hquote' : '.' ∉ [q'] := fun hmem => absurd (List.mem_singleton.mp hmem ▸ hq') (by decide)
  have hparts : w ++ '.' :: v =
      (method.toList ++ (gap ++ '(' :: (lead ++ [q]))) ++ (e.path.toList ++ [q']) :=
    hinside.trans (by simp)
  obtain ⟨y, z, hpath, -, rfl⟩ := Text.exists_inside hparts hfront hquote'
  obtain ⟨z, rfl⟩ := List.head?_eq_some_iff.mp (head?_of_path hpath)
  -- the method of a registration would have to start with the letter behind the dot of the path
  have hletter := hchars.2 method' hmethod'
  cases hword : method'.toList with
  | nil =>
      rw [hword] at hletter
      exact absurd hletter (by decide)
  | cons c rest =>
      rw [hword] at hletter hbehind
      obtain rfl : 'j' = c := (List.cons.inj hbehind).1
      simp at hletter

theorem findings_eq_nil (hrule : rule ∈ Rule.all) (he : endpointOf? rule.code = some e)
    (h : e.Answered t) (hctx : ctx.source = .of t) : rule.detector.findings ctx = .ok [] := by
  obtain ⟨n, hreads, hcode⟩ := h
  obtain ⟨hproper, htakes⟩ := e.pattern_proper
  have hmatch : e.pattern.MatchesAt (Source.of t).text n := hreads.matchesAt hproper
  obtain ⟨m, hm, hstart, -⟩ :=
    (covers_iff htakes hmatch hcode).mpr (Steady.not_hidden e.steady_pattern hmatch hcode)
  have hany : ((e.pattern.all (Source.of t).text).any fun m => (Source.of t).isCodeAt m.start) =
      true :=
    List.any_eq_true.mpr ⟨m, hm, hstart⟩
  rw [detector_eq hrule he, Detector.findings, hctx, if_pos hany]

/-! ## Routes -/

theorem inCode_receiver (hreceiver : IsBare w) (hcode : ∀ c ∈ w.head?, InCode front c) (c : Char) :
    InCode (front ++ w) c := by
  obtain ⟨d, w, rfl⟩ := List.exists_cons_of_ne_nil hreceiver.ne_nil
  exact (hcode d rfl).append (fun x hx => isFlat_of_notMem_signs (hreceiver.chars x hx)) c

/-- A route that is written with the path of an endpoint registers it. -/
theorem answered_of_route (hr : r ∈ Route.all (.of t)) (hmethod : r.method = "get".toList)
    (hpath : r.path = e.path.toList) : e.Answered t := by
  have hreceiver := isBare_receiver hr
  obtain ⟨hr, hcode⟩ := List.mem_filter.mp hr
  obtain ⟨m, hm, hmatch⟩ := List.mem_filterMap.mp hr
  have hwritten := Route.exists_written (all_eq_within _ _ ▸ hm) hmatch
  obtain ⟨front, gap, lead, back, q, hcut, hoffset, hgap, hlead, hq, -⟩ := hwritten.cut
  have hplace : (Source.of t).isCodeAt (Text.size front) = true := by
    rw [hoffset, Nat.zero_add] at hcode
    exact (Bool.and_eq_true_iff.mp hcode).2
  have htext : t = (front ++ r.receiver) ++
      (['.'] ++ ("get".toList ++ (gap ++ (['('] ++ (lead ++ ([q] ++
      (e.path.toList ++ ([q] ++ back)))))))) := by
    rw [← hpath, ← hmethod]
    exact hcut.trans (by simp)
  refine ⟨_, readsAt_pattern hgap hlead hq hq htext, ?_⟩
  have hdot : InCode (front ++ r.receiver) '.' := by
    refine inCode_receiver hreceiver (fun c hc => ?_) _
    obtain ⟨w, hw⟩ := List.head?_eq_some_iff.mp hc
    rw [htext, hw, List.append_assoc, List.cons_append] at hplace
    exact inCode_of_isCodeAt hplace
  rw [htext]
  exact hdot.isCodeAt (by decide) (by decide) _

/-! ## The registration that is put in -/

theorem exists_brace (h : (u.dropWhile (· != '\x7d')).take 2 = "\x7d)".toList) :
    ∃ w rest, u = w ++ '\x7d' :: ')' :: rest ∧ '\x7d' ∉ w := by
  have hbrace : "\x7d)".toList = ['\x7d', ')'] := rfl
  refine ⟨u.takeWhile (· != '\x7d'), (u.dropWhile (· != '\x7d')).drop 2, ?_, fun hmem => ?_⟩
  · have hsplit := List.takeWhile_append_dropWhile (p := (· != '\x7d')) (l := u)
    rw [← List.take_append_drop 2 (u.dropWhile (· != '\x7d')), h, hbrace] at hsplit
    exact hsplit.symm
  · exact absurd (List.mem_takeWhile_imp hmem) (by decide)

theorem exists_closing (e : Endpoint) (hname : '\x7d' ∉ name) : ∃ w rest,
    e.body name ++ "\n\x7d);".toList = w ++ '\x7d' :: ')' :: rest ∧ '\x7d' ∉ w := by
  cases e with
  | health =>
      exact exists_brace (u := "res.json(\x7b status: 'ok' \x7d);".toList ++ "\n\x7d);".toList)
        (by decide)
  | root =>
      have hbody : Endpoint.root.body name =
          "res.json(\x7b status: 'ok', docs: '/docs', openapi: '/openapi.json' \x7d);".toList := rfl
      rw [hbody]
      exact exists_brace (by decide)
  | docs =>
      obtain ⟨a, b, c, d, x, y, hpage, hparts, hbrace⟩ : ∃ a b c d x y : Text,
          docsPage = .ofList a ++ .ofList b ++ .ofList c ++ .ofList d ++ .ofList x ++ .ofList y ∧
            (∀ part ∈ [a, b, c, d], '\x7d' ∉ part) ∧
              (x.dropWhile (· != '\x7d')).take 2 = "\x7d)".toList :=
        ⟨_, _, _, _, _, _, rfl, by decide_cbv, by decide_cbv⟩
      obtain ⟨w, rest, hx, hw⟩ := exists_brace hbrace
      have htext : docsPage.toList = [a, b, c, d].flatten ++ (w ++ '\x7d' :: ')' :: rest) ++ y := by
        rw [hpage, ← hx]
        simp only [String.toList_append, String.toList_ofList]
        simp
      have hjoin : ∀ {u v z : Text}, u ++ docsPage.toList ++ v ++ z =
          (u ++ [a, b, c, d].flatten ++ w) ++ '\x7d' :: ')' :: (rest ++ y ++ v ++ z) := by
        intro u v z
        rw [htext]
        simp only [List.append_assoc, List.cons_append]
      refine ⟨_, _, hjoin, ?_⟩
      simp only [List.mem_append, List.mem_flatten, not_or, not_exists, not_and]
      exact ⟨⟨by decide, hparts⟩, hw⟩
  | spec =>
      refine ⟨"res.json(".toList ++ name ++ ");\n".toList, [';'], ?_, ?_⟩
      · have hjoin : ∀ {u v x y z : Text}, x ++ y = z ++ v → u ++ name ++ x ++ y = u ++ name ++ z ++
            v := by
          intro u v x y z h
          rw [List.append_assoc _ x, h, List.append_assoc _ z]
        exact hjoin rfl
      · simp only [List.mem_append, not_or]
        exact ⟨⟨by decide, hname⟩, by decide⟩

theorem render_eq_call (e : Endpoint) (receiver name : Text) :
    e.render receiver name = receiver ++ (e.call ++ e.handler name) := by
  rw [render_eq, call]
  simp only [List.append_assoc, List.cons_append, List.nil_append]

/-- Where the repair puts the registration, the scan comes to it in code. -/
theorem exists_put (hlast : (Route.all (.of t)).getLast? = some last)
    (hopen : OpensAt t .paren last.argsAt) (hn : last.statementStop? t = some n) : ∃ head back,
      (endpointEdit e t last n).apply t = head ++ (e.call ++ (e.handler (specNameOf t) ++ back)) ∧
        InCode head '.' := by
  obtain ⟨close, hclose, hn⟩ := Option.map_eq_some_iff.mp hn
  obtain ⟨p, q, ht, rfl, hparen⟩ := hopen.inCode_close hclose
  rw [show Bracket.paren.closer = ')' from rfl] at ht hparen
  have hsize : Text.size p + 1 = Text.size (p ++ [')']) := by
    rw [Text.size_append]
    rfl
  obtain ⟨w, back, hcut, hplace, hw⟩ : ∃ w back, t = p ++ ')' :: w ++ back ∧
      n = Text.size (p ++ ')' :: w) ∧ (w = [] ∨ w = [';']) := by
    have hafter : t.after (Text.size p + 1) = q := by
      rw [ht, hsize, ← List.singleton_append, ← List.append_assoc, Text.after_append]
    rw [hafter] at hn
    split at hn
    · next back =>
        refine ⟨[';'], back, by simp [ht], ?_, .inr rfl⟩
        rw [← hn, Text.size_append]
        rfl
    · exact ⟨[], q, by simp [ht], hn.symm.trans hsize, .inl rfl⟩
  have hname := isBare_specNameOf t
  have hreceiver := isBare_receiver (List.mem_of_getLast? hlast)
  have hflat : ∀ x ∈ ')' :: (w ++ "\n\n".toList), isFlat x = true := by
    rcases hw with rfl | rfl <;> decide
  refine ⟨p ++ ')' :: (w ++ "\n\n".toList) ++ last.receiver, back, ?_,
    inCode_receiver hreceiver (fun c _ => hparen.append hflat c) _⟩
  have hsplice :=
    splice_append (p ++ ')' :: w) [] back ("\n\n".toList ++ e.render last.receiver (specNameOf t))
  rw [Text.size, Nat.add_zero, List.append_nil] at hsplice
  rw [Edit.apply, endpointEdit, hplace]
  conv => lhs; arg 1; rw [hcut]
  rw [hsplice, render_eq_call]
  simp only [List.append_assoc, List.cons_append]

/-! ## The import that goes with it -/

theorem exists_closing_call (e : Endpoint) (hname : '\x7d' ∉ name) : ∃ w rest,
    e.call ++ e.handler name = '.' :: (w ++ '\x7d' :: ')' :: rest) ∧ '\x7d' ∉ w := by
  obtain ⟨w, rest, hbody, hw⟩ := e.exists_closing hname
  have hpath : '\x7d' ∉ e.path.toList := by cases e <;> decide
  have hjoin : ∀ {p p' q a tail : Text}, p = '.' :: p' → e.body name ++ tail = w ++ '\x7d' :: ')' ::
      rest →
      (p ++ q) ++ (a ++ e.body name ++ tail) = '.' ::
      (p' ++ q ++ a ++ w ++ '\x7d' :: ')' :: rest) := by
    rintro p p' q a tail rfl hbody
    rw [List.append_assoc a, hbody]
    simp
  refine ⟨"get".toList ++ '(' :: '\'' :: (e.path.toList ++ ['\'']) ++
    ", (_req: Request, res: Response) => \x7b\n  ".toList ++ w, rest, hjoin rfl hbody, ?_⟩
  simp only [List.mem_append, List.mem_cons, not_or]
  exact ⟨⟨⟨by decide, by decide, by decide, hpath, by decide⟩, by decide⟩, hw⟩

theorem notMem_call : ∀ c ∈ [' ', '\t', '\n', ';', '"'], c ∉ e.call := by
  cases e <;> decide

theorem last_of_indent (hline : front.getLast?.all (· == '\n') = true)
    (hindent : ∀ c ∈ w, Text.isIndent c = true) : ∀ c ∈ (front ++ w).getLast?,
    c ∈ [' ', '\t', '\n'] := by
  intro c hc
  rw [List.getLast?_append] at hc
  cases hw : w.getLast? with
  | none =>
      rw [hw, Option.none_or] at hc
      rw [hc] at hline
      simp [beq_iff_eq.mp hline]
  | some d =>
      rw [hw, Option.some_or] at hc
      obtain rfl := Option.some.inj hc
      have hindent := hindent d (List.mem_of_getLast? hw)
      rw [Text.isIndent, Bool.or_eq_true, beq_iff_eq, beq_iff_eq] at hindent
      rcases hindent with rfl | rfl <;> simp

/-- Behind a dot in a statement, if it stands neither in front of the braces nor behind them, come
the brace that closes and white space. -/
theorem braces_behind {a z : Text} (h : ImportStatement.Braces w) (ha : '.' ∉ a) (hz : '.' ∉ z)
    (hcut : x ++ '.' :: u = a ++ (w ++ z)) : ∃ v spaces, u = v ++ '\x7d' :: (spaces ++ z) ∧
    '\x7d' ∉ v ∧
      ∀ c ∈ spaces, CharClass.isSpace c = true := by
  obtain ⟨y, v, hw, -, rfl⟩ := Text.exists_inside hcut ha hz
  rcases h with rfl | ⟨inner, spaces, rfl, hfree, hspaces⟩
  · exact absurd hw (by simp)
  · have hclose : '.' ∉ '\x7d' :: spaces := by
      rw [List.mem_cons, not_or]
      exact ⟨by decide, fun hmem => absurd (hspaces _ hmem) (by decide)⟩
    have hbraces : y ++ '.' :: v = ['\x7b'] ++ (inner ++ '\x7d' :: spaces) := hw.symm
    obtain ⟨y', v', rfl, -, rfl⟩ := Text.exists_inside hbraces (by decide) hclose
    refine ⟨v', spaces, by simp, fun hmem => hfree ?_, hspaces⟩
    exact List.mem_append_right _ (List.mem_cons_of_mem _ hmem)

section Statements

open ImportStatement

/-- A statement behind its indentation, cut at its braces, with no dot on either side of them. -/
structure Undotted (t : Text) (m : Match) (front opening braces closing rest : Text) : Prop where
  cut : t = front ++ ((opening ++ (braces ++ closing)) ++ rest)
  start : (ofMatch m).start = Text.size front
  stop : (ofMatch m).stop = Text.size (front ++ (opening ++ (braces ++ closing)))
  last : ∀ c ∈ front.getLast?, c ∈ [' ', '\t', '\n']
  braced : Braces braces
  keyword : closing.head? = some 'f'
  notMem_opening : '.' ∉ opening
  notMem_closing : '.' ∉ closing

theorem exists_undotted (hm : m ∈ ImportStatement.pattern.all t)
    (hmodule : '.' ∉ (ofMatch m).moduleName) : ∃ front opening braces closing rest,
      Undotted t m front opening braces closing rest := by
  obtain ⟨front, indent, gap, clauses, blanks, tail, rest, quote, h⟩ := exists_parts hm
  obtain ⟨before, braces, hclauses, hbefore, hbraces⟩ := h.braced
  have htext : m.text = indent ++ (("import".toList ++ gap ++ before) ++ (braces ++
      ("from".toList ++ (blanks ++ ((ofMatch m).quote ::
        ((ofMatch m).moduleName ++ (quote :: tail))))))) := by
    rw [h.text, hclauses]
    simp only [List.append_assoc]
  have hquotes : ∀ q ∈ [(ofMatch m).quote, quote], '.' ≠ q := by
    rintro q hq rfl
    exact absurd (h.quotes _ hq) (by decide)
  have hspace : ∀ {u : Text}, (∀ c ∈ u, CharClass.isSpace c = true) → '.' ∉ u := fun hu hmem =>
    absurd (hu _ hmem) (by decide)
  have hwords : '.' ∉ "import".toList ∧ '.' ∉ "from".toList := by decide
  have hbefore : '.' ∉ before := fun hmem => absurd (hbefore _ hmem) (by decide)
  have htail : '.' ∉ tail := fun hmem => absurd (h.tail _ hmem) (by decide)
  refine ⟨front ++ indent, "import".toList ++ gap ++ before, braces, "from".toList ++ (blanks ++
    ((ofMatch m).quote :: ((ofMatch m).moduleName ++ (quote :: tail)))), rest, ?_, start_ofMatch h,
    ?_, last_of_indent h.line h.indent, hbraces, rfl, ?_, ?_⟩
  · rw [h.cut, htext]
    simp only [List.append_assoc]
  · show m.stop = _
    rw [(in_of_mem_all hm).stop, h.start, htext, ← Text.size_append]
    simp only [List.append_assoc]
  · simp only [List.mem_append, not_or]
    exact ⟨⟨hwords.1, hspace h.gap.2⟩, hbefore⟩
  · simp only [List.mem_append, List.mem_cons, not_or]
    exact ⟨hwords.2, hspace h.blanks, hquotes _ (by simp), hmodule, hquotes _ (by simp), htail⟩

/-- Behind its first closing brace a registration has a parenthesis, and a statement white space or
the keyword: so the dot of the one is not in the other. -/
theorem Undotted.not_within {front opening braces closing : Text}
    (h : Undotted t m front opening braces closing rest) (hw : '\x7d' ∉ w)
    (hcut : opening ++ (braces ++ closing) = x ++ '.' :: u)
    (hcall : u ++ rest = w ++ '\x7d' :: ')' :: back) : False := by
  obtain ⟨v, spaces, rfl, hv, hspaces⟩ :=
    braces_behind h.braced h.notMem_opening h.notMem_closing hcut.symm
  have hclose : v ++ '\x7d' :: (spaces ++ (closing ++ rest)) = w ++ '\x7d' :: ')' :: back := by
    simpa using hcall
  obtain rfl := Text.eq_of_notMem hv hw hclose
  obtain ⟨-, hparen⟩ := List.cons.inj (List.append_cancel_left hclose)
  cases spaces with
  | nil =>
      obtain ⟨closing, rfl⟩ := List.head?_eq_some_iff.mp h.keyword
      exact absurd (List.cons.inj hparen).1 (by decide)
  | cons c spaces =>
      obtain ⟨rfl, -⟩ := List.cons.inj hparen
      exact absurd (hspaces _ List.mem_cons_self) (by decide)

/-- No statement of a module without a dot reaches over the dot of a registration. -/
theorem apart_statement (hname : '\x7d' ∉ name)
    (hm : m ∈ ImportStatement.pattern.all (head ++ (e.call ++ (e.handler name ++ back))))
    (hmodule : '.' ∉ (ofMatch m).moduleName) :
    (ofMatch m).stop ≤ Text.size head ∨ Text.size (head ++ e.call) ≤ (ofMatch m).start := by
  obtain ⟨front, opening, braces, closing, rest, h⟩ := exists_undotted hm hmodule
  have hcut := h.cut.symm
  rw [h.stop, h.start]
  rcases Text.place_cases hcut with hle | hbehind | ⟨y, z, hy, -, hcall, hplace, -⟩
  · obtain ⟨x, rfl, hx⟩ := Text.exists_middle hcut hle
    rcases Nat.le_total (Text.size (opening ++ (braces ++ closing))) (Text.size x) with hle' | hle'
    · left
      rw [Text.size_append _ x, Text.size_append _ (opening ++ _)]
      omega
    · obtain ⟨z, hz, hcall⟩ := Text.exists_middle hx.symm hle'
      obtain ⟨w, after, hhandler, hw⟩ := e.exists_closing_call hname
      rw [← List.append_assoc, hhandler] at hcall
      cases z with
      | nil =>
          left
          rw [hz, List.append_nil]
      | cons c z =>
          obtain ⟨rfl, hbehind⟩ := List.cons.inj hcall
          have hparen : z ++ rest = w ++ '\x7d' :: ')' :: (after ++ back) := by
            simpa using hbehind.symm
          exact (h.not_within hw hz hparen).elim
  · exact .inr hbehind
  · -- in front of the keyword is the start of the line or a blank, and the registration has neither
    obtain ⟨y', c, rfl⟩ := (List.eq_nil_or_concat y).resolve_left hy
    have hlast := h.last c (by rw [hplace]; simp)
    refine absurd (?_ : c ∈ e.call) (notMem_call c ?_)
    · rw [hcall]
      simp
    · revert hlast
      simp only [List.mem_cons]
      tauto

end Statements

/-- No statement ends in a registration, unless a string opens there. -/
theorem apart_last (hcode : InCode head '.')
    (hm : m ∈ ImportStatement.pattern.all (head ++ (e.call ++ back)))
    (hends : EndsInCode ((head ++ (e.call ++ back)).before m.stop)) :
    m.stop ≤ Text.size head ∨ Text.size (head ++ e.call) ≤ m.stop := by
  obtain ⟨u, c, v, hcut, hstop, hc⟩ := ImportStatement.last_of_mem hm
  rw [hstop]
  rcases Text.place_cases hcut.symm with hle | hbehind | ⟨y, z, hy, hz, hcall, hplace, -⟩
  · exact .inl hle
  · exact .inr hbehind
  obtain ⟨y', d, rfl⟩ := (List.eq_nil_or_concat y).resolve_left hy
  obtain ⟨z', d', rfl⟩ := (List.eq_nil_or_concat z).resolve_left hz
  obtain ⟨rfl, rfl⟩ : u = head ++ y' ∧ c = d := by simpa [← List.append_assoc] using hplace
  have hmem : c ∈ e.call := by rw [hcall]; simp
  obtain rfl : c = '\'' := by
    simp only [List.mem_cons, List.not_mem_nil, or_false] at hc
    rcases hc with rfl | rfl | rfl | rfl | rfl
    · rfl
    all_goals exact absurd hmem (notMem_call _ (by simp))
  -- it is the quote in front of the path
  have hopen : y' ++ '\'' :: z' = ".get(".toList ++ (['\''] ++ e.path.toList) := by
    have hparts : y' ++ '\'' :: z' ++ [d'] = ".get".toList ++ '(' :: '\'' :: e.path.toList ++
        ['\''] := by
      simpa [call] using hcall.symm
    exact (List.append_inj' hparts rfl).1
  have hpath : '\'' ∉ ".get(".toList ∧ '\'' ∉ e.path.toList := by cases e <;> decide
  obtain ⟨y, v, hquote, rfl, -⟩ := Text.exists_inside hopen hpath.1 hpath.2
  obtain rfl : y = [] := by
    cases y with
    | nil => rfl
    | cons d y => exact absurd (List.cons.inj hquote).2 (by simp)
  rw [hcut, hstop, Text.before_append, List.append_nil] at hends
  have hget : InCode (head ++ ".get(".toList) '\'' := hcode.append (w := "get(".toList)
    (by decide) _
  exact absurd hends (hget.not_endsInCode rfl)

/-- The import that goes with a registration is put in front of it or behind it. -/
theorem apart_importEdit? (hname : '\x7d' ∉ name) (hcode : InCode head '.')
    (hedit :
      importEdit? Rule.express [] handlerTypes (head ++ (e.call ++ (e.handler name ++ back))) =
      some edit)
    (hends : EndsInCode ((head ++ (e.call ++ (e.handler name ++ back))).before edit.start)) :
    edit.stop ≤ Text.size head ∨ Text.size (head ++ e.call) ≤ edit.start := by
  obtain ⟨missing, -, -, hcases⟩ := eq_of_importEdit? hedit
  split at hcases
  · next i hfind =>
      obtain ⟨m, hm, rfl, -⟩ := ImportStatement.mem_all_iff.mp (List.mem_of_find?_eq_some hfind)
      subst hcases
      refine apart_statement hname hm ?_
      have htakes := List.find?_some hfind
      simp only [takesMembers, Bool.and_eq_true] at htakes
      have hmodule := List.contains_iff_mem.mp htakes.1.1
      rw [List.mem_singleton.mp hmodule]
      decide
  · subst hcases
    cases hlast :
      (ImportStatement.all (.of (head ++ (e.call ++ (e.handler name ++ back))))).getLast? with
    | none =>
        simp only [lineEdit, hlast]
        exact .inl (Nat.zero_le _)
    | some i =>
        obtain ⟨m, hm, rfl, -⟩ := ImportStatement.mem_all_iff.mp (List.mem_of_getLast? hlast)
        simp only [lineEdit, hlast] at hends ⊢
        exact apart_last hcode hm hends

/-! ## What the repair settles -/

/-- The import that goes with an endpoint puts closed text in the place of closed text. -/
def ImportFits (e : Endpoint) (t : Text) (last : Route) : Prop :=
  ∀ n ∈ last.statementStop? t, ∀ edit ∈ importEdit? Rule.express [] handlerTypes
    ((endpointEdit e t last n).apply t),
    Loose ((endpointEdit e t last n).apply t) edit.start edit.stop ∧
      isClosed edit.new = true

instance (e : Endpoint) (t : Text) (last : Route) : Decidable (e.ImportFits t last) :=
  inferInstanceAs (Decidable (∀ n ∈ last.statementStop? t,
    ∀ edit ∈ importEdit? Rule.express [] handlerTypes ((endpointEdit e t last n).apply t), _ ∧ _))

theorem readsAt_call (e : Endpoint) (head rest : Text) :
    e.pattern.ReadsAt (head ++ (e.call ++ rest)) (Text.size head) := by
  have hnone : ∀ c ∈ ([] : Text), CharClass.isSpace c = true := fun _ hc =>
    absurd hc List.not_mem_nil
  have htext : head ++ (e.call ++ rest) = head ++
      (['.'] ++ ("get".toList ++ ([] ++ (['('] ++ ([] ++ (['\''] ++
      (e.path.toList ++ (['\''] ++ rest)))))))) := by
    rw [call, List.append_assoc, List.cons_append, List.cons_append, List.append_assoc]
    rfl
  exact readsAt_pattern hnone hnone rfl rfl htext

theorem isCodeAt_call (e : Endpoint) (hcode : InCode head '.') (rest : Text) :
    (Source.of (head ++ (e.call ++ rest))).isCodeAt (Text.size head) = true :=
  hcode.isCodeAt (by decide) (by decide) _

/-- What is exchanged in front of a registration in code or behind it leaves it in code. -/
theorem answered_apply (hcode : InCode head '.')
    (hloose : Loose (head ++ (e.call ++ rest)) edit.start edit.stop)
    (hclosed : isClosed edit.new = true)
    (hapart : edit.stop ≤ Text.size head ∨ Text.size (head ++ e.call) ≤ edit.start) :
    e.Answered (edit.apply (head ++ (e.call ++ rest))) := by
  obtain ⟨hbounds, hfront, hold⟩ := hloose
  obtain ⟨p, w, q, hcut, hstart, hstop⟩ := Text.bounds_iff.mp hbounds
  have happly : edit.apply (head ++ (e.call ++ rest)) = p ++ edit.new ++ q := by
    rw [Edit.apply, hcut, hstart, hstop, splice_append]
  rw [hcut, hstart, List.append_assoc, Text.before_append] at hfront
  rw [hcut, hstart, hstop, Text.between_append] at hold
  rw [happly]
  rcases hapart with hle | hle
  · rw [hstop, ← Text.size_append] at hle
    obtain ⟨x, rfl, rfl⟩ := Text.exists_middle hcut.symm hle
    refine ⟨Text.size (p ++ edit.new ++ x), ?_, ?_⟩
    · rw [← List.append_assoc]
      exact e.readsAt_call _ _
    · have hplace := e.isCodeAt_call hcode rest
      rw [hcut, Text.size_append, isCodeAt_behind hfront (closed_of_isClosed hold)] at hplace
      rw [Text.size_append, isCodeAt_behind hfront (closed_of_isClosed hclosed), hplace]
  · rw [hstart] at hle
    obtain ⟨y, rfl, hy⟩ := Text.exists_middle ((List.append_assoc _ _ _).trans (hcut.trans
      (List.append_assoc _ _ _))) hle
    refine ⟨Text.size head, ?_, ?_⟩
    · rw [List.append_assoc, List.append_assoc, List.append_assoc]
      exact e.readsAt_call _ _
    · rw [List.append_assoc, List.append_assoc, List.append_assoc]
      exact e.isCodeAt_call hcode _

/-- What the repair puts in registers the endpoint. -/
theorem answered_injectEndpoint (hlast : (Route.all (.of t)).getLast? = some last)
    (hopen : OpensAt t .paren last.argsAt) (hfits : e.ImportFits t last)
    (hu : injectEndpoint e t = some u) :
    e.Answered u := by
  obtain ⟨-, last', n, hlast', hn, hu⟩ := exists_of_injectEndpoint hu
  obtain rfl := Option.some.inj (hlast.symm.trans hlast')
  obtain ⟨head, back, hput, hcode⟩ := e.exists_put hlast hopen hn
  have himport :
      ensureNamedImport Rule.express [] handlerTypes ((endpointEdit e t last n).apply t) = u :=
    hu.symm
  have hname : '\x7d' ∉ specNameOf t := fun hmem => (isBare_specNameOf t).chars _ hmem (by decide)
  have hfits := hfits n hn
  rw [ensureNamedImport_eq] at himport
  rw [hput] at himport hfits
  cases hedit : importEdit? Rule.express [] handlerTypes
      (head ++ (e.call ++ (e.handler (specNameOf t) ++ back))) with
  | none =>
      rw [hedit] at himport
      rw [← himport]
      exact ⟨_, e.readsAt_call _ _, e.isCodeAt_call hcode _⟩
  | some edit =>
      rw [hedit] at himport
      rw [← himport]
      obtain ⟨hloose, hclosed⟩ := hfits edit hedit
      exact answered_apply hcode hloose hclosed (apart_importEdit? hname hcode hedit hloose.front)

/-- The repair settles what the rule on an endpoint reports, unless a route answers under another
spelling of the path. -/
theorem settles_endpoint (hrule : rule ∈ Rule.all) (he : endpointOf? rule.code = some e)
    (hlast : (Route.all (.of t)).getLast? = some last) (hopen : OpensAt t .paren last.argsAt)
    (hclosed : (matchingClose? t last.argsAt).isSome = true) (hfits : e.ImportFits t last)
    (hctx : ctx.source = .of t) (hreports : rule.detector.findings ctx ≠ .ok []) :
    (∃ u, injectEndpoint e t = some u ∧
      ∀ ctx' : Context, ctx'.source = .of u → rule.detector.findings ctx' = .ok []) ∨
    injectEndpoint e t = none ∧ ∃ r ∈ Route.all (.of t), answersFor e r = true ∧
    r.path ≠ e.path.toList := by
  cases hanswer : (Route.all (.of t)).any (answersFor e) with
  | true =>
      obtain ⟨r, hr, hsame⟩ := List.any_eq_true.mp hanswer
      refine .inr ⟨by rw [injectEndpoint]; simp [hanswer], r, hr, hsame, fun hpath => hreports ?_⟩
      have hmethod : r.method = "get".toList := beq_iff_eq.mp (Bool.and_eq_true_iff.mp hsame).1
      exact findings_eq_nil hrule he (answered_of_route hr hmethod hpath) hctx
  | false =>
      obtain ⟨close, hclose⟩ := Option.isSome_iff_exists.mp hclosed
      obtain ⟨u, hu⟩ : ∃ u, injectEndpoint e t = some u := by
        rw [injectEndpoint]
        simp [hanswer, hlast, Route.statementStop?, hclose]
      exact .inl ⟨u, hu, fun ctx' hctx' =>
        findings_eq_nil hrule he (answered_injectEndpoint hlast hopen hfits hu) hctx'⟩

theorem findings_ne_nil (ctx : Context) (hrule : rule ∈ Rule.all)
    (he : endpointOf? rule.code = some e)
    (h : ((e.pattern.all t).any fun m => (Source.of t).isCodeAt m.start) = false)
    (hctx : ctx.source = .of t) :
    rule.detector.findings ctx ≠ .ok [] := by
  have hnone : ((e.pattern.all (Source.of t).text).any fun m => (Source.of t).isCodeAt m.start) =
      false := h
  rw [detector_eq hrule he, Detector.findings, hctx, hnone]
  exact fun heq => by cases heq

def oneRoute : Text := "import e from 'express';\napp.get(\x60/i\x60, (h));\n".toList

set_option maxRecDepth 2000 in
/-- The specification is served behind the only route. -/
theorem settles_endpoint_spec : ∃ rule ∈ Rule.all, endpointOf? rule.code = some .spec ∧
    ∃ u, injectEndpoint .spec oneRoute = some u ∧
      ∀ ctx : Context, ctx.source = .of u → rule.detector.findings ctx = .ok [] := by
  obtain ⟨rule, hrule, he⟩ : ∃ rule ∈ Rule.all, endpointOf? rule.code = some .spec := by decide
  have hchars : oneRoute = _ := String.toList_ofList
  have hlast : (Route.all (.of oneRoute)).getLast? =
      some ⟨"app".toList, "get".toList, "/i".toList, 25, 32⟩ := by
    rw [hchars]
    decide
  have hopen : OpensAt oneRoute .paren 32 := ⟨⟨.code, [], some '\''⟩, by decide, rfl⟩
  obtain ⟨hclosed, hfits, hunserved, hwrites⟩ : (matchingClose? oneRoute 32).isSome = true ∧
      Endpoint.spec.ImportFits oneRoute ⟨"app".toList, "get".toList, "/i".toList, 25, 32⟩ ∧
      ((Endpoint.spec.pattern.all oneRoute).any fun m => (Source.of oneRoute).isCodeAt m.start) =
      false ∧ injectEndpoint .spec oneRoute ≠ none := by
    rw [hchars]
    decide
  have hreports := findings_ne_nil (.of .default .none oneRoute) hrule he hunserved rfl
  refine ⟨rule, hrule, he,
    (settles_endpoint hrule he hlast hopen hclosed hfits rfl hreports).resolve_right fun hother =>
    ?_⟩
  exact hwrites hother.1

def slashed : Text := "app.get('/health/', h);\n".toList

/-- A route that answers under another spelling of the path is not what the rule asks for, and the
repair does nothing. -/
theorem not_always_settled : ¬ ∀ rule ∈ Rule.all, ∀ e, endpointOf? rule.code = some e →
    ∀ (t : Text) (last : Route) (ctx : Context), (Route.all (.of t)).getLast? = some last →
      OpensAt t .paren last.argsAt → (matchingClose? t last.argsAt).isSome = true →
        ctx.source = .of t → rule.detector.findings ctx ≠ .ok [] →
          ∃ u, injectEndpoint e t = some u ∧
            ∀ ctx' : Context, ctx'.source = .of u → rule.detector.findings ctx' = .ok [] := by
  intro h
  obtain ⟨rule, hrule, he⟩ : ∃ rule ∈ Rule.all, endpointOf? rule.code = some .health := by decide
  have hchars : slashed = _ := String.toList_ofList
  obtain ⟨hlast, hunserved, hclosed, hnone⟩ : (Route.all (.of slashed)).getLast? =
        some ⟨"app".toList, "get".toList, "/health/".toList, 0, 7⟩ ∧
      ((Endpoint.health.pattern.all slashed).any fun m => (Source.of slashed).isCodeAt m.start) =
        false ∧
      (matchingClose? slashed 7).isSome = true ∧ injectEndpoint .health slashed = none := by
    rw [hchars]
    decide
  have hopen : OpensAt slashed .paren 7 := ⟨⟨.code, [], none⟩, by decide, rfl⟩
  have hreports := findings_ne_nil (.of .default .none slashed) hrule he hunserved rfl
  obtain ⟨u, hu, -⟩ := h rule hrule .health he slashed _ _ hlast hopen hclosed rfl hreports
  rw [hnone] at hu
  cases hu

end Endpoint

end ServiceGate
