/-
# Statements that go and statements that come

The removal of unused schemas keeps balance if every declaration is loose where it is taken out.  An
export goes to the end of the text on lines of its own, behind code or a comment, so it keeps the
balance of any text (`balanced_exportApp`, `balanced_exportStart`).

A schema that is removed takes the lines of its statement along, and the next one is looked up in
what is left.  The passes go from the back, so what stands in front of the schemas that are gone is
still there (`agree_removeSchemas`); but whether the next one is loose is a question about the text
as it is then, and `PassLoose` and `SchemasLoose` ask it there.

At the end of a text nothing has to be asked.  The text may end in a comment, and a line comment
goes on to the next line feed, which the statement brings along; a block comment goes on for good,
and with it the statement, which has no star to close it.
-/
import ServiceGate.Proofs.Balanced.Replaced
import ServiceGate.Proofs.Checked.Schemas
import ServiceGate.Repair.Statements

namespace ServiceGate

open Pattern Scan
open Text (Agree Bounds)

variable {rest t u w : Text} {s : State} {n : Nat}

/-! ## Statements at the end -/

/-- Text without a star leaves a block comment open. -/
theorem reads_blockComment (regions : List Nat) (last : Option Char) (rest : Text) :
    ∀ {w : Text} (n : Nat), '*' ∉ w → ∃ ms,
      Reads rest ⟨.blockComment, regions, last⟩ n w ms ⟨.blockComment, regions, last⟩ ∧
        codeText ms = []
  | [], _, _ => ⟨[], .nil, rfl⟩
  | c :: w, n, h => by
      obtain ⟨hc, hw⟩ := not_or.mp (mt List.mem_cons.mpr h)
      obtain ⟨ms, hms, htext⟩ := reads_blockComment regions last rest (n + c.utf8Size) hw
      have hstep : ∀ next, State.step ⟨.blockComment, regions, last⟩ c next =
          ⟨.comment, ⟨.blockComment, regions, last⟩, false⟩ := fun next => by
        have hstar : (c == '*') = false := beq_eq_false_iff_ne.mpr (Ne.symm hc)
        simp [State.step, State.stepBlockComment, hstar]
      exact ⟨_, .one (hstep _) hms, htext⟩

theorem exists_reads_line (hs : s.inLiteral = false) (hw : Closed w) (hstar : '*' ∉ w)
    (rest : Text) (n : Nat) : ∃ ms s', Reads rest s n ('\n' :: w) ms s' ∧ s'.inLiteral = false ∧
      ∀ d : Depths, d.trackAll (codeText ms) = some d := by
  obtain ⟨mode, regions, last⟩ := s
  obtain ⟨hstring, hregions⟩ := Bool.or_eq_false_iff.mp hs
  obtain rfl : regions = [] := by simpa using hregions
  cases mode with
  | code =>
      have hline : Closed ('\n' :: w) := .append (closed_of_isSpace (w := ['\n']) (by decide)) hw
      obtain ⟨ms, s', hms, hs', hd⟩ := hline rest ⟨.code, [], last⟩ n ⟨rfl, rfl⟩
      exact ⟨ms, s', hms, hs'.inLiteral_eq, hd⟩
  | lineComment =>
      obtain ⟨ms, s', hms, hs', hd⟩ := hw rest ⟨.code, [], last⟩ (n + '\n'.utf8Size) ⟨rfl, rfl⟩
      exact ⟨_, s', .one rfl hms, hs'.inLiteral_eq, hd⟩
  | blockComment =>
      have hfree : '*' ∉ '\n' :: w := fun h => (List.mem_cons.mp h).elim (by decide) hstar
      obtain ⟨ms, hms, htext⟩ := reads_blockComment [] last rest n hfree
      exact ⟨ms, _, hms, rfl, fun d => by rw [htext]; rfl⟩
  | string quote => cases hstring

namespace Repair

theorem balanced_appendStatement (hw : Closed w) (hstar : '*' ∉ w) (ht : balanced t = true) :
    balanced (appendStatement t w) = true := by
  have hliteral : (State.start.after t).inLiteral = false := by
    simpa [balanced, finalState] using (Bool.and_eq_true_iff.mp ht).2
  have hspace : Closed ['\n'] := closed_of_isSpace (by decide)
  obtain ⟨lead, hlead, hclosed, hfree⟩ : ∃ lead : Text,
      appendStatement t w = t ++ '\n' :: (lead ++ w ++ ['\n']) ∧ Closed lead ∧ '*' ∉ lead := by
    rw [appendStatement]
    split_ifs
    · exact ⟨[], by simp, .nil, List.not_mem_nil⟩
    · exact ⟨['\n'], by simp, hspace, by decide⟩
  obtain ⟨ms, s', hms, hs', hd⟩ := exists_reads_line hliteral ((hclosed.append hw).append hspace)
    (by simp [hfree, hstar]) [] 0
  have htail : Alike (State.start.after t) [] ('\n' :: (lead ++ w ++ ['\n'])) := by
    have hmarks := hms.marksFrom_eq
    have hafter := hms.after_eq
    simp only [List.append_nil, marksFrom] at hmarks hafter
    refine ⟨fun d => ?_, ?_⟩
    · rw [hmarks, hd]
      rfl
    · rw [hafter]
      exact hliteral.trans hs'.symm
  have hfront : Reads [] .start 0 t (marksFrom .start 0 t) (State.start.after t) :=
    reads_of_last t 0 fun _ _ _ _ => rfl
  have halike := htail.append hfront (reads_of_newline t 0 (Bool.or_eq_false_iff.mp hliteral).1 _)
  rw [List.append_nil] at halike
  rw [hlead, ← halike.balanced_eq, ht]

theorem closed_exportOf {name : Text} (h : IsBare name) : Closed (exportOf name) := by
  have hblank : ∀ c ∈ [' '], c ∉ CharClass.signs := by decide
  have hbody : ∀ c ∈ ' ' :: (name ++ [' ']), c ∉ CharClass.signs := by
    simp only [List.forall_mem_cons, List.forall_mem_append]
    exact ⟨hblank ' ' List.mem_cons_self, h.chars, hblank ' ' List.mem_cons_self, by simp⟩
  have hgroup : Solid true ('\x7b' :: (' ' :: (name ++ [' ']) ++ ['\x7d'])) :=
    .group .brace (solid_of_notMem_signs hbody)
  have hword : Solid true "export ".toList := .ofSoft (by decide)
  have hend : Solid true [';'] := .ofSoft (by decide)
  have htext : exportOf name =
      "export ".toList ++ '\x7b' :: (' ' :: (name ++ [' ']) ++ ['\x7d']) ++ [';'] := by
    have hhead : "export \x7b ".toList = "export ".toList ++ ['\x7b', ' '] := by decide
    have htail : " \x7d;".toList = [' ', '\x7d', ';'] := by decide
    show "export \x7b ".toList ++ name ++ " \x7d;".toList = _
    rw [hhead, htail]
    simp only [List.append_assoc, List.cons_append, List.nil_append]
  rw [htext]
  exact ((hword.append hgroup).append hend).closed

theorem notMem_exportOf {name : Text} {sign : Char} (h : IsBare name)
    (hsign : sign ∈ ['*', '(', '=']) :
    sign ∉ exportOf name := by
  have hends : ∀ sign ∈ ['*', '(', '='], sign ∈ CharClass.signs ∧ sign ∉ "export \x7b ".toList ∧
      sign ∉ " \x7d;".toList := by decide
  obtain ⟨hmem, hhead, htail⟩ := hends sign hsign
  show sign ∉ "export \x7b ".toList ++ name ++ " \x7d;".toList
  rw [List.mem_append, List.mem_append]
  rintro ((hc | hc) | hc)
  · exact hhead hc
  · exact h.chars sign hc hmem
  · exact htail hc

theorem isBare_of_spells_name (h : Spells name w) : IsBare w := by
  obtain ⟨hne, hchars⟩ := spells_name h
  exact ⟨hne, fun c hc => notMem_signs_of_isNameChar (hchars c hc)⟩

theorem isBare_entryName {m : Match} (h : Features.entryDeclaration.first? t = some m) :
    IsBare (m.groupText 1) :=
  isBare_of_spells_name ((in_of_first? h).spells_groupText rfl rfl)

theorem isBare_of_spells_word {word : String} (hword : IsBare word.toList)
    (h : Spells (seq (Pattern.word word) (star nameChar)) w) : IsBare w := by
  obtain ⟨head, tail, rfl, hhead, htail⟩ := spells_seq h
  rw [spells_literal hhead]
  refine ⟨fun hnil => hword.ne_nil (List.append_eq_nil_iff.mp hnil).1, fun c hc => ?_⟩
  exact (List.mem_append.mp hc).elim (hword.chars c) fun hc =>
    notMem_signs_of_isNameChar (spells_many_char htail c hc)

theorem isBare_of_spells_startName (h : Spells Rule.startName w) : IsBare w := by
  have hwords : ∀ word ∈ ["start", "listen", "main", "bootstrap"], IsBare word.toList := by decide
  obtain ⟨p, hp, h⟩ := spells_anyOf _ h
  simp only [List.mem_cons, List.not_mem_nil, or_false] at hp
  rcases hp with rfl | rfl | rfl | rfl
  · exact isBare_of_spells_word (hwords "start" (by decide)) h
  · exact isBare_of_spells_word (hwords "listen" (by decide)) h
  · rw [spells_literal h]
    exact hwords "main" (by decide)
  · rw [spells_literal h]
    exact hwords "bootstrap" (by decide)

theorem isBare_startFunction {x : Text × Nat} (h : x ∈ Rule.startFunctions t) : IsBare x.1 := by
  obtain ⟨m, hm, hx⟩ := List.mem_filterMap.mp h
  obtain ⟨g, hg, rfl⟩ := Option.map_eq_some_iff.mp hx
  have hin := in_of_mem_all hm
  rcases Option.or_eq_some_iff.mp hg with hfirst | ⟨-, hsecond⟩
  · exact isBare_of_spells_startName (hin.spells_group rfl hfirst)
  · exact isBare_of_spells_startName (hin.spells_group rfl hsecond)

theorem exists_of_exportApp (h : exportApp t = some u) :
    ∃ m, Features.entryDeclaration.first? (blank t) = some m ∧
      Rule.isAppExported (blank t) (m.groupText 1) = false ∧
      u = appendStatement t (exportOf (m.groupText 1)) := by
  rw [exportApp] at h
  cases hm : Features.entryDeclaration.first? (blank t) with
  | none => rw [hm] at h; cases h
  | some m =>
      rw [hm] at h
      dsimp only at h
      split_ifs at h with hexported
      exact ⟨m, rfl, Bool.eq_false_iff.mpr hexported, (Option.some.inj h).symm⟩

theorem exists_of_exportStart (h : exportStart t = some u) :
    ∃ x, (Rule.startFunctions (blank t)).head? = some x ∧
      (∀ y ∈ Rule.startFunctions (blank t), Rule.isFunctionExported (blank t) y.1 = false) ∧
      u = appendStatement t (exportOf x.1) := by
  obtain ⟨x, hx, hu⟩ := Option.map_eq_some_iff.mp h
  rw [Rule.unexportedStart?] at hx
  split_ifs at hx with hexported
  refine ⟨x, hx, fun y hy => ?_, hu.symm⟩
  exact Bool.eq_false_iff.mpr fun hy' => hexported (List.any_eq_true.mpr ⟨y, hy, hy'⟩)

/-- Exporting the application object keeps balance. -/
theorem balanced_exportApp (h : exportApp t = some u) (ht : balanced t = true) :
    balanced u = true := by
  obtain ⟨m, hm, -, rfl⟩ := exists_of_exportApp h
  exact balanced_appendStatement (closed_exportOf (isBare_entryName hm))
    (notMem_exportOf (isBare_entryName hm) (by decide)) ht

/-- Exporting the start function keeps balance. -/
theorem balanced_exportStart (h : exportStart t = some u) (ht : balanced t = true) :
    balanced u = true := by
  obtain ⟨x, hx, -, rfl⟩ := exists_of_exportStart h
  have hbare := isBare_startFunction (List.mem_of_head? hx)
  exact balanced_appendStatement (closed_exportOf hbare) (notMem_exportOf hbare (by decide)) ht

/-! ## Schemas that go -/

def removeSchemas (unused : List (Text × Nat)) (t : Text) : Text :=
  unused.foldr (fun x out => removeSchema out x.2) t

theorem removeSchemas_cons (x : Text × Nat) (unused : List (Text × Nat)) (t : Text) :
    removeSchemas (x :: unused) t = removeSchema (removeSchemas unused t) x.2 := by
  rw [removeSchemas, List.foldr_cons, removeSchemas]

/-- Every schema that is unused is loose from the start of its line on, once those behind it are
gone. -/
def PassLoose (t : Text) : Prop :=
  ∀ before x behind, Rule.unusedSchemas (blank t) = before ++ x :: behind →
    Loose (removeSchemas behind t) ((removeSchemas behind t).lineStart x.2)
      (statementStop (removeSchemas behind t) x.2)

/-- The schemas that go are loose in every pass. -/
def SchemasLoose (t : Text) : Prop :=
  ∀ k < (Rule.unusedSchemas (blank t)).length, PassLoose (removeSchemaPasses k t)

theorem balanced_removeSchema (h : Loose t (t.lineStart n) (statementStop t n))
    (hn : t.IsBoundary n) : balanced (removeSchema t n) = balanced t := by
  have hline := Text.lineStart_lineStart hn
  refine balanced_removeSpan (by rwa [hline]) h.bounds fun c hc => ?_
  have hplace : Bounds t (t.lineStart n) (t.lineStart n) :=
    ⟨Nat.le_refl _, h.bounds.start, h.bounds.start⟩
  have hsize := Text.size_between hplace
  have hnone : t.between (t.lineStart n) (t.lineStart n) = [] := Text.eq_nil_of_size (by omega)
  rw [hline, hnone] at hc
  cases hc

theorem agree_removeSchemas_of_le {k : Nat} {before behind : List (Text × Nat)}
    (h : Rule.unusedSchemas (blank t) = before ++ behind) (hk : t.IsBoundary k)
    (hle : ∀ y ∈ behind, k ≤ t.lineStart y.2) : Agree k t (removeSchemas behind t) := by
  have horder := pairwise_unusedSchemas t
  rw [h] at horder
  refine Text.agree_foldr (fun y => t.lineStart y.2) (fun y => y.2) (fun y _ u hagree => ?_)
    (fun y hy => Text.bounds_lineStart (isBoundary_of_mem_unusedSchemas
      (h ▸ List.mem_append_right before hy))) (List.pairwise_append.mp horder).2.1 k hk hle
  rw [hagree.lineStart_eq]
  exact (Checked.removeSchema_eq hagree.right).2

theorem agree_removeSchemas {before behind : List (Text × Nat)} {x : Text × Nat}
    (h : Rule.unusedSchemas (blank t) = before ++ x :: behind) :
    Agree x.2 t (removeSchemas behind t) := by
  have horder := pairwise_unusedSchemas t
  rw [h] at horder
  have hunused : Rule.unusedSchemas (blank t) = (before ++ [x]) ++ behind := by
    rw [h]
    simp
  exact agree_removeSchemas_of_le hunused
    (isBoundary_of_mem_unusedSchemas (h ▸ List.mem_append_right before List.mem_cons_self))
    (List.pairwise_cons.mp (List.pairwise_append.mp horder).2.1).1

theorem balanced_removeSchemas {t : Text} : ∀ (unused : List (Text × Nat)),
    (∀ before x behind, unused = before ++ x :: behind →
      (removeSchemas behind t).IsBoundary x.2 ∧
        Loose (removeSchemas behind t) ((removeSchemas behind t).lineStart x.2)
          (statementStop (removeSchemas behind t) x.2)) →
    balanced (removeSchemas unused t) = balanced t
  | [], _ => rfl
  | x :: unused, h => by
      obtain ⟨hplace, hloose⟩ := h [] x unused rfl
      have hbehind := balanced_removeSchemas unused fun before y behind hcut =>
        h (x :: before) y behind (by rw [hcut, List.cons_append])
      rw [← hbehind, removeSchemas_cons, balanced_removeSchema hloose hplace]

theorem balanced_removeSchemaPasses : ∀ (passes : Nat) {t : Text},
    (∀ k < passes, PassLoose (removeSchemaPasses k t)) →
    balanced (removeSchemaPasses passes t) = balanced t
  | 0, _, _ => rfl
  | passes + 1, t, h => by
      cases hunused : Rule.unusedSchemas (blank t) with
      | nil => rw [removeSchemaPasses, hunused]
      | cons x unused =>
          have hnext : ∀ k, removeSchemaPasses (k + 1) t =
              removeSchemaPasses k (removeSchemas (x :: unused) t) := fun k => by
            rw [removeSchemaPasses, hunused]
            rfl
          rw [hnext, balanced_removeSchemaPasses passes fun k hk => by
            rw [← hnext]
            exact h (k + 1) (Nat.succ_lt_succ hk)]
          refine balanced_removeSchemas _ fun before y behind hcut => ?_
          rw [← hunused] at hcut
          exact ⟨(agree_removeSchemas hcut).right, h 0 (Nat.succ_pos _) before y behind hcut⟩

theorem balanced_removeUnusedSchemas (h : removeUnusedSchemas t = some u) (ht : SchemasLoose t) :
    balanced u = balanced t := by
  rw [removeUnusedSchemas] at h
  split at h
  · cases h
  · obtain rfl := Option.some.inj h
    exact balanced_removeSchemaPasses _ ht

end Repair

end ServiceGate
