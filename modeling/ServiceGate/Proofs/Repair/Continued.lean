/-
# Code that goes on behind what is put in

A new specification goes behind the declaration of the application object or the last import, a new
endpoint behind the arguments of the last route.  The code up to there closes what it opens
(`closedBetween_entryStatement`, `closedBetween_statementStop`), so in a balanced text no bracket is
closed behind it that was not open in front of it.  Nothing looks at what else may go on with an
expression: a member access, a comma or a cast.  `continues_iff` is the main statement.

`GoesOn` and `Continues` differ in the closing brackets.  Behind a stretch that closes what it
opens, a closing bracket can only belong to a group that was open in front of the stretch already
(`ClosesGroup`); so the insertion parts such a group only if the statement that the insertion
follows stands inside of it (`continues_iff_of_closed`).
-/
import ServiceGate.Proofs.Balanced.Replaced
import ServiceGate.Proofs.Balanced.Specification
import ServiceGate.Proofs.Pattern.Extended
import ServiceGate.Proofs.Route.Written
import ServiceGate.Proofs.Scan.Brackets
import ServiceGate.Repair.Endpoints

namespace ServiceGate

open Pattern Scan Repair

variable {t u w : Text} {n start stop : Nat} {m : Match} {policy : Policy} {e : Endpoint}
  {r : Route}

/-! ## Going on -/

/-- The code behind a place goes on with the expression in front of it, by a member access, a comma
or a cast. -/
def GoesOn (t : Text) (n : Nat) : Prop :=
  (codeBehind t n).head? = some '.' ∨ (codeBehind t n).head? = some ',' ∨
    ("as".toList <+: codeBehind t n ∧ ¬ ((codeBehind t n).drop 2).head?.any isNameChar = true)

instance (t : Text) (n : Nat) : Decidable (GoesOn t n) :=
  inferInstanceAs (Decidable (_ ∨ _ ∨ _))

/-- The code behind a place goes on with the expression in front of it or closes a group around it.
-/
def Continues (t : Text) (n : Nat) : Prop :=
  GoesOn t n ∨ (codeBehind t n).head? = some ')' ∨ (codeBehind t n).head? = some ']'

instance (t : Text) (n : Nat) : Decidable (Continues t n) := inferInstanceAs (Decidable (_ ∨ _ ∨ _))

/-- The code behind a place closes a group that is open at another one. -/
def ClosesGroup (t : Text) (start n : Nat) : Prop :=
  ∃ kind ∈ [Bracket.paren, .square], IsOpenAt t kind start ∧
  (codeBehind t n).head? = some kind.closer

instance (t : Text) (start n : Nat) : Decidable (ClosesGroup t start n) :=
  inferInstanceAs (Decidable (∃ kind ∈ [Bracket.paren, .square], _))

theorem continues_iff_of_closed (ht : balanced t = true) (h : ClosedBetween t start stop) :
    Continues t stop ↔ GoesOn t stop ∨ ClosesGroup t start stop := by
  have hopen : ∀ {kind : Bracket}, (codeBehind t stop).head? = some kind.closer →
      IsOpenAt t kind start :=
    fun hcloser => h.isOpenAt_iff.mp (isOpenAt_of_closer ht h.bounds.stop hcloser)
  refine or_congr_right ⟨?_, ?_⟩
  · rintro (hparen | hsquare)
    · exact ⟨.paren, by decide, hopen hparen, hparen⟩
    · exact ⟨.square, by decide, hopen hsquare, hsquare⟩
  · rintro ⟨kind, hkind, -, hcloser⟩
    simp only [List.mem_cons, List.not_mem_nil, or_false] at hkind
    rcases hkind with rfl | rfl
    · exact .inl hcloser
    · exact .inr hcloser

/-! ## The declaration of the application object -/

theorem isPlain_of_notMem_signs {c : Char} (h : c ∉ CharClass.signs) : isPlain c = true :=
  (isSoft_iff.mp (isSoft_of_notMem_signs h)).2.1

theorem plain_of_isNameChar {c : Char} (h : isNameChar c = true) : isPlain c = true :=
  isPlain_of_notMem_signs (notMem_signs_of_isNameChar h)

theorem plain_of_isSpace {c : Char} (h : CharClass.isSpace c = true) : isPlain c = true :=
  (isPlain_of_isSpace h).2.1

theorem trackAll_entryDeclaration (h : Spells Features.entryDeclaration u) (d : Depths) :
    d.trackAll u = some d := by
  have hne : [word "(", spaces, word ")"] ≠ [] := List.cons_ne_nil _ _
  obtain ⟨front, call, rfl, hfront, hcall⟩ :=
    spells_inOrder_append hne [_, _, _, _, _, _, _, _, _, _] h
  obtain ⟨opener, rest, rfl, hopener, hrest⟩ := spells_seq hcall
  obtain ⟨gap, closer, rfl, hgap, hcloser⟩ := spells_seq hrest
  have hplain : ∀ c ∈ front, isPlain c = true := by
    refine Only.of_spells hfront ?_
    have htype : ∀ c, (CharClass.isWord c || c == '$' || c == '.') = true → isPlain c = true := by
      intro c hc
      rcases Bool.or_eq_true _ _ ▸ hc with hc | hc
      · exact plain_of_isNameChar hc
      · rw [beq_iff_eq.mp hc]
        decide
    exact ⟨trivial, only_anyWord (by decide),
      ⟨fun _ => plain_of_isSpace, fun _ => plain_of_isSpace⟩,
      ⟨fun _ hc => plain_of_isNameChar (isNameChar_of_start hc), fun _ => plain_of_isNameChar⟩,
      fun _ => plain_of_isSpace, ⟨⟨only_literal (by decide), fun _ => plain_of_isSpace,
        ⟨htype, htype⟩, fun _ => plain_of_isSpace⟩, trivial⟩, only_literal (by decide),
      fun _ => plain_of_isSpace, only_literal (by decide), fun _ => plain_of_isSpace⟩
  have hblank : ∀ c ∈ gap, isPlain c = true := fun c hc =>
    plain_of_isSpace (spells_spaces hgap c hc)
  rw [spells_literal hopener, spells_literal hcloser, Depths.trackAll_append,
    trackAll_plain d hplain, Option.bind_some, Depths.trackAll_append]
  have hopened : d.trackAll "(".toList = some { d with parens := d.parens + 1 } := rfl
  have hclosed : Depths.trackAll { d with parens := d.parens + 1 } ")".toList = some d := rfl
  rw [hopened, Option.bind_some, Depths.trackAll_append, trackAll_plain _ hblank, Option.bind_some,
    hclosed]

/-- The declaration with its semicolon closes what it opens. -/
theorem closedBetween_entryStatement (h : entryStatement.first? (blank t) = some m) :
    ClosedBetween t m.start m.stop := by
  have hin := in_of_first? h
  obtain ⟨declaration, rest, htext, hdeclaration, hrest⟩ := spells_seq hin.spells
  have hplain : ∀ c ∈ rest, isPlain c = true :=
    Only.of_spells hrest ⟨fun _ => plain_of_isSpace, only_literal (by decide), trivial⟩
  refine ⟨⟨hin.bounds.le, ?_, isBoundary_of_entryStatement h⟩, ?_⟩
  · obtain ⟨edge, words, rfl, hedge, hwords⟩ := spells_seq hdeclaration
    obtain ⟨keyword, words, rfl, hkeyword, -⟩ := spells_seq hwords
    obtain ⟨c, keyword, rfl, hc⟩ : ∃ c rest, keyword = c :: rest ∧ c ≠ ' ' := by
      have hall : ∀ w ∈ ["const", "let", "var"].map String.toList,
          w.head?.any (· != ' ') = true := by
        decide
      obtain ⟨c, hhead, hc⟩ := (Option.any_eq_true _ _).mp (hall _ (spells_anyWord hkeyword))
      obtain ⟨rest, hrest⟩ := List.head?_eq_some_iff.mp hhead
      exact ⟨c, rest, hrest, bne_iff_ne.mp hc⟩
    obtain ⟨p, w, q, hcut, hstart, hstop⟩ := Text.bounds_iff.mp hin.bounds
    have hw := hin.between_eq
    rw [hcut, hstart, hstop, Text.between_append, htext, spells_wordEdge hedge] at hw
    rw [hw, List.append_assoc] at hcut
    obtain ⟨p', q', rfl, hsize⟩ := exists_of_blank hc hcut
    rw [hstart, ← hsize]
    exact Text.isBoundary_append p' _
  · rw [hin.between_eq, htext, Depths.trackAll_append, trackAll_entryDeclaration hdeclaration,
      Option.bind_some, trackAll_plain _ hplain]

/-! ## The last route -/

theorem exists_argsAt (hm : m ∈ Route.pattern.all t) (hmatch : Route.ofMatch? m = some r) :
    ∃ front c call back, t = front ++ c :: call ++ '(' :: back ∧ r.offset = Text.size front ∧
      r.argsAt = Text.size (front ++ c :: call) ∧ ∀ x ∈ c :: call, isFlat x = true := by
  obtain ⟨front, back, hcut, hstart, -, hleads⟩ := exists_leads_of_mem_all hm
  obtain ⟨edge, r₁, c₁, h₁, hedge, -, h⟩ := leads_past_seq hleads
  obtain ⟨receiver, r₂, c₂, h₂, hreceiver, -, h⟩ := leads_past_seq h
  obtain ⟨dot, r₃, c₃, h₃, hdot, -, h⟩ := leads_past_seq h
  obtain ⟨method, r₄, c₄, h₄, hmethod, -, h⟩ := leads_past_seq h
  obtain ⟨gap, r₅, c₅, h₅, hgap, -, h⟩ := leads_past_seq h
  obtain ⟨paren, r₆, c₆, h₆, hparen, hargs, h⟩ := leads_past_seq h
  obtain ⟨lead, r₇, c₇, h₇, -, hlead, hpath⟩ := leads_past_seq h
  obtain ⟨taken, _, -, -, hkept⟩ := leads_past_capture hargs rfl
  obtain ⟨_, g, _, -, -, -, -, hcaptures, hgroup, -⟩ := Route.leads_anyPath hpath
  -- the group of the parenthesis is the latest but one
  have hlist : m.captures = g :: .past 3 (front ++ edge ++ receiver ++ dot ++ method ++ gap)
      taken :: c₅ := by
    have hspaces : c₇ = c₆ := hlead.captures_eq rfl
    have hparen : c₆ = _ := congrArg Reading.captures hkept
    have hall : m.captures = g :: c₇ := hcaptures
    rw [hall, hspaces, hparen]
    rfl
  obtain ⟨args, hfind, hmatch⟩ := Option.bind_eq_some_iff.mp hmatch
  obtain ⟨path, -, hmatch⟩ := Option.bind_eq_some_iff.mp hmatch
  have hother : (g.group == 3) = false := by
    rcases hgroup with h | h | h <;> rw [h] <;> rfl
  rw [Match.group?, hlist, List.find?_cons, hother] at hfind
  obtain ⟨c, receiver, rfl⟩ := List.exists_cons_of_ne_nil (spells_name (spells_capture hreceiver)).1
  rw [spells_wordEdge hedge, List.append_nil] at hfind
  refine ⟨front, c, receiver ++ dot ++ method ++ gap, r₆, ?_, ?_, ?_, ?_⟩
  · rw [hcut, h₁, h₂, h₃, h₄, h₅, h₆, spells_wordEdge hedge, spells_literal (spells_capture hparen)]
    simp
  · rw [← Option.some.inj hmatch, ← hstart]
  · rw [← Option.some.inj hmatch, ← Option.some.inj hfind]
    simp [Capture.past]
  · have hwords : ∀ w ∈ ["get", "post", "put", "patch", "delete"].map String.toList, ∀ x ∈ w,
        isFlat x = true := by decide
    simp only [← List.cons_append, List.forall_mem_append]
    refine ⟨⟨⟨fun x hx => ?_, ?_⟩, hwords _ (spells_anyWord (spells_capture hmethod))⟩, fun x hx =>
      ?_⟩
    · exact isFlat_of_notMem_signs
        (notMem_signs_of_isNameChar ((spells_name (spells_capture hreceiver)).2 x hx))
    · rw [spells_literal hdot]
      decide
    · exact isFlat_of_notMem_signs (CharClass.notMem_signs_of_isSpace (spells_spaces hgap x hx))

theorem inCode_argsAt (hr : r ∈ Route.all (.of t)) :
    ∃ p q, t = p ++ '(' :: q ∧ r.argsAt = Text.size p ∧ InCode p '(' := by
  obtain ⟨hr, hcode⟩ := List.mem_filter.mp hr
  obtain ⟨m, hm, hmatch⟩ := List.mem_filterMap.mp hr
  obtain ⟨front, c, call, back, hcut, hoffset, hargsAt, hflat⟩ := exists_argsAt hm hmatch
  have hcut : t = front ++ c :: call ++ '(' :: back := hcut
  have hplace : (Source.of (front ++ c :: (call ++ '(' :: back))).isCodeAt (Text.size front) =
      true := by
    have hcode := (Bool.and_eq_true_iff.mp hcode).2
    rw [hoffset, hcut] at hcode
    simpa using hcode
  exact ⟨front ++ c :: call, back, hcut, hargsAt, (inCode_of_isCodeAt hplace).append hflat _⟩

/-- The arguments of a route are well-nested source between its parentheses. -/
def Route.NestedArgs (r : Route) (t : Text) : Prop := ∃ close, GroupAt 0 t (r.argsAt, close)

theorem runs_semicolon {rest : Text} {R : List Nat} {l : Option Char} (hw : w = [] ∨ w = [';']) :
    Runs rest ⟨.code, R, l⟩ w ⟨.code, R, l⟩ := by
  rcases hw with rfl | rfl
  · exact .nil
  · exact .plain (step_ordinary (by decide) (by decide) (by simp [opensComment])) (by decide) .nil

/-- The arguments, with the semicolon that may follow them, close what they open. -/
theorem closedBetween_statementStop (hr : r ∈ Route.all (.of t)) (hargs : r.NestedArgs t)
    (hn : r.statementStop? t = some n) : ClosedBetween t r.argsAt n := by
  obtain ⟨front, back, hcut, hargsAt, ms, ⟨mode, regions, last⟩, hmode, hreads⟩ := inCode_argsAt hr
  obtain rfl : mode = .code := hmode
  obtain ⟨close, kind, p, w, q, gs, ht, hplace, hw⟩ := hargs
  obtain ⟨hopen, hclose⟩ := Prod.mk.inj hplace
  simp only [Nat.zero_add] at hopen hclose hw
  obtain ⟨rfl, hback⟩ := Text.append_inj_of_size (ht.symm.trans hcut) (hopen.symm.trans hargsAt)
  obtain rfl : kind = .paren := by
    have hparen := (List.cons.inj hback).1
    cases kind with
    | paren => rfl
    | brace | square => cases hparen
  have hmatching := matchingClose?_group .paren p q hw
  rw [← ht] at hmatching
  rw [Route.statementStop?, hopen, hmatching] at hn
  -- the statement ends behind the closing parenthesis, or behind the semicolon there
  obtain ⟨semi, rest, rfl, hsemi, hstop⟩ : ∃ semi rest, q = semi ++ rest ∧
      (semi = [] ∨ semi = [';']) ∧
      n = Text.size p +
      Text.size (Bracket.paren.opener :: (w ++ Bracket.paren.closer :: semi)) := by
    have hafter : t.after (Text.size p + Text.size w + 1 + 1) = q := by
      have hend := Text.after_append (p ++ Bracket.paren.opener :: (w ++ [Bracket.paren.closer])) q
      rw [ht]
      simpa [Text.size_append, Text.size, Nat.add_assoc, Nat.add_comm, Nat.add_left_comm] using hend
    have hstop := Option.some.inj hn
    dsimp only at hstop
    rw [hafter] at hstop
    split at hstop
    · next rest =>
        have hone : (';' : Char).utf8Size = 1 := rfl
        refine ⟨[';'], rest, rfl, .inr rfl, ?_⟩
        rw [← hstop]
        simp [Text.size_append, Text.size, hone]
        omega
    · refine ⟨[], q, rfl, .inl rfl, ?_⟩
      rw [← hstop]
      simp [Text.size_append, Text.size]
      omega
  obtain ⟨l, hruns⟩ :=
    hw.runs (Bracket.paren.enter regions) last (detached_closer .paren (semi ++ rest))
  obtain ⟨ms', hreads', hneutral⟩ := Runs.group .paren hruns (runs_semicolon hsemi)
    (0 + Text.size p)
  have hfront : Reads (Bracket.paren.opener :: (w ++ Bracket.paren.closer :: (semi ++ rest))) _ _ _
      _ _ :=
    hreads _
  rw [hopen, hstop, ht]
  have hclosed := closedBetween_of_reads (by simpa using hfront) hreads' hneutral
  simpa using hclosed

/-! ## Where the repairs put in -/

/-- Where the declaration or the import starts that a new specification goes behind. -/
def specStart (s : Source) : Nat :=
  match entryStatement.first? s.blanked with
  | some m => m.start
  | none => ((ImportStatement.all s).getLast?.map (·.start)).getD 0

theorem closedBetween_specOffset
    (himport : ∀ i ∈ (ImportStatement.all (.of t)).getLast?, ClosedBetween t i.start i.stop) :
    ClosedBetween t (specStart (.of t)) (specOffset (.of t)) := by
  rw [specStart, specOffset]
  cases hm : entryStatement.first? (Source.of t).blanked with
  | some m => exact closedBetween_entryStatement hm
  | none =>
      cases hi : (ImportStatement.all (.of t)).getLast? with
      | some i => exact himport i hi
      | none =>
          refine ⟨⟨Nat.le_refl _, Text.isBoundary_zero t, Text.isBoundary_zero t⟩, ?_⟩
          have hnone := Text.between_to (Text.isBoundary_zero (blank t))
          rw [Text.before, Text.before?_zero] at hnone
          exact congrArg (Depths.trackAll ⟨0, 0, 0⟩) hnone

/-- In a balanced text a new specification and a new endpoint are put in between statements, unless
the code behind them is a member access, a comma or a cast, or closes a group around what they
follow. -/
theorem continues_iff (ht : balanced t = true)
    (himport : ∀ i ∈ (ImportStatement.all (.of t)).getLast?, ClosedBetween t i.start i.stop)
    (hargs : ∀ r ∈ (Route.all (.of t)).getLast?, r.NestedArgs t) :
    (∀ policy u, synthesizeSpec policy t = some u →
      (∃ w, u = t.insertAt (specOffset (.of t)) w) ∧
      (Continues t (specOffset (.of t)) ↔ GoesOn t (specOffset (.of t)) ∨
        ClosesGroup t (specStart (.of t)) (specOffset (.of t)))) ∧
    ∀ e u, injectEndpoint e t = some u → ∃ r n w,
      (Route.all (.of t)).getLast? = some r ∧ r.statementStop? t = some n ∧
      u = ensureNamedImport Rule.express [] ["Request".toList, "Response".toList] (t.insertAt n w) ∧
      (Continues t n ↔ GoesOn t n ∨ ClosesGroup t r.argsAt n) := by
  refine ⟨fun policy u hu => ⟨?_, ?_⟩, fun e u hu => ?_⟩
  · obtain ⟨-, -, lead, trail, hu, -⟩ := exists_of_synthesizeSpec hu
    exact ⟨_, hu⟩
  · exact continues_iff_of_closed ht (closedBetween_specOffset himport)
  · obtain ⟨-, r, n, hr, hn, hu⟩ := exists_of_injectEndpoint hu
    exact ⟨r, n, _, hr, hn, hu, continues_iff_of_closed ht
      (closedBetween_statementStop (List.mem_of_getLast? hr) (hargs r hr) hn)⟩

def bareService : Text := "const app = express();\napp.get('/a', h);\n".toList

theorem continues_iff_bareService : balanced bareService = true ∧
    (∃ u, synthesizeSpec .default bareService = some u ∧
      ¬ Continues bareService (specOffset (.of bareService))) ∧
    ∃ u r n, injectEndpoint .health bareService = some u ∧
      (Route.all (.of bareService)).getLast? = some r ∧ r.statementStop? bareService = some n ∧
      ¬ Continues bareService n := by
  have hbalanced : balanced bareService = true := by decide
  have himport : ∀ i ∈ (ImportStatement.all (.of bareService)).getLast?,
      ClosedBetween bareService i.start i.stop := by decide
  have hnested : WellNested 31 "'/a', h".toList [] :=
    .quoted (b := "/a".toList) (.inl rfl)
    (.char (by decide) (by decide) (.char (by decide) (by decide) .nil))
      (.ordinary rfl rfl rfl (.ordinary rfl rfl rfl (.ordinary rfl rfl rfl .nil)))
  have hargs : ∀ r ∈ (Route.all (.of bareService)).getLast?, r.NestedArgs bareService := by
    have hplace : ∀ r ∈ (Route.all (.of bareService)).getLast?, r.argsAt = 30 := by decide
    intro r hr
    rw [Route.NestedArgs, hplace r hr]
    exact ⟨38, .paren, "const app = express();\napp.get".toList, "'/a', h".toList, ";\n".toList, [],
      by decide, by decide, hnested⟩
  obtain ⟨hspec, hendpoint⟩ := continues_iff hbalanced himport hargs
  obtain ⟨u, hu⟩ := Option.isSome_iff_exists.mp
    (show (synthesizeSpec .default bareService).isSome = true by decide)
  obtain ⟨u', hu'⟩ := Option.isSome_iff_exists.mp
    (show (injectEndpoint .health bareService).isSome = true by decide)
  obtain ⟨r, n, -, hr, hn, -, hiff⟩ := hendpoint .health u' hu'
  have hspecAlone : ¬ (GoesOn bareService (specOffset (.of bareService)) ∨
      ClosesGroup bareService (specStart (.of bareService)) (specOffset (.of bareService))) := by
    decide
  have hrouteAlone : ∀ r ∈ (Route.all (.of bareService)).getLast?,
      ∀ n ∈ r.statementStop? bareService,
      ¬ (GoesOn bareService n ∨ ClosesGroup bareService r.argsAt n) := by
    decide
  exact ⟨hbalanced, ⟨u, hu, mt (hspec .default u hu).2.mp hspecAlone⟩, u', r, n, hu', hr, hn,
    mt hiff.mp (hrouteAlone r hr n hn)⟩

/-- A registration that goes on with a call is cut in two. -/
theorem not_always_between : ¬ ∀ t, balanced t = true →
    (∀ policy u, synthesizeSpec policy t = some u → ¬ Continues t (specOffset (.of t))) ∧
    ∀ e u, injectEndpoint e t = some u → ∀ r n, (Route.all (.of t)).getLast? = some r →
      r.statementStop? t = some n → ¬ Continues t n := by
  intro h
  have hbalanced : balanced "app.get('/a', h)\n  .listen(3000);\n".toList = true := by decide
  obtain ⟨u, hu⟩ := Option.isSome_iff_exists.mp (show
    (injectEndpoint .health "app.get('/a', h)\n  .listen(3000);\n".toList).isSome = true by decide)
  have hcut : ∃ r ∈ (Route.all (.of "app.get('/a', h)\n  .listen(3000);\n".toList)).getLast?,
      ∃ n ∈ r.statementStop? "app.get('/a', h)\n  .listen(3000);\n".toList,
        Continues "app.get('/a', h)\n  .listen(3000);\n".toList n := by decide
  obtain ⟨r, hr, n, hn, hcontinues⟩ := hcut
  exact (h _ hbalanced).2 .health u hu r n hr hn hcontinues

end ServiceGate
