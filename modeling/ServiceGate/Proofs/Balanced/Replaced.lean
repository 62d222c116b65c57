/-
# Words put in the place of words

Parameters are wrapped, types lose their namespace and calls get another name.  What is replaced
starts in code and is flat, and what is written has the same brackets open (`Replaces`), so balance
is kept wherever in the code the words stand, in the regions of templates too.

Such words are not closed: in a region of a template they stand inside of brackets that are open
around them.  What is asked instead is that old and new are flat, that is, hold no quote, no slash
and no brace, so that the scanner stays in code over them, and that the kinds of bracket they leave
open are the same.  A star must not come first, for behind a slash it would open a comment.

The three repairs differ in what they write: a parameter in the parentheses of `String`
(`replaces_wrapped`), a type without its namespace (`replaces_bare`), and the name of the generator
for another name of it, with or without a member in between (`replaces_call`,
`replaces_memberCall`).  Each of their results about balance then is an instance of
`balanced_replaceMatches`.
-/
import ServiceGate.Proofs.Balanced.Edits
import ServiceGate.Proofs.Checked.Parameters
import ServiceGate.Proofs.Scan.InCode
import ServiceGate.Repair.Imports

namespace ServiceGate

open Pattern Scan
open Text (Agree Bounds)

variable {p q r t u v w : Text} {m : Match} {a : Nat × Nat}

/-! ## Flat words -/

theorem isFlat_of_notMem_signs {c : Char} (h : c ∉ CharClass.signs) : isFlat c = true := by
  have hne : ∀ d ∈ CharClass.signs, c ≠ d := fun d hd heq => h (heq ▸ hd)
  simp only [isFlat, isQuote, Bool.and_eq_true, Bool.not_eq_true', Bool.or_eq_false_iff,
    beq_eq_false_iff_ne, bne_iff_ne]
  exact ⟨⟨⟨⟨⟨hne '\'' (by decide), hne '"' (by decide)⟩, hne '\x60' (by decide)⟩,
    hne '/' (by decide)⟩, hne '\x7b' (by decide)⟩, hne '\x7d' (by decide)⟩

/-- Flat text with the same brackets, which starts with no star. -/
structure Replaces (u w : Text) : Prop where
  old_ne_nil : w ≠ []
  new_ne_nil : u ≠ []
  old_flat : ∀ c ∈ w, isFlat c = true
  new_flat : ∀ c ∈ u, isFlat c = true
  star : u.head? ≠ some '*'
  track : ∀ k : Depths, k.trackAll w = k.trackAll u

/-- A word that starts in code is replaced in a text that agrees with the first one up to its end.
-/
theorem Replaces.balanced_splice (h : Replaces v w) (ht : t = p ++ w ++ q)
    (hcode : isCodeAt t (blank t) (Text.size p) = true)
    (hu : Agree (Text.size p + Text.size w) t u) :
    balanced (u.splice (Text.size p) (Text.size p + Text.size w) v) = balanced u := by
  rw [ht, ← Text.size_append] at hu
  obtain ⟨z, rfl⟩ := hu.exists_rest
  obtain ⟨hw, hv, hwflat, hvflat, hstar, htrack⟩ := h
  obtain ⟨c, w, rfl⟩ := List.exists_cons_of_ne_nil hw
  obtain ⟨d, v, rfl⟩ := List.exists_cons_of_ne_nil hv
  rw [ht, List.append_assoc, List.cons_append] at hcode
  rw [splice_append]
  exact (balanced_flat (inCode_of_isCodeAt hcode) hwflat hvflat (fun hd => hstar (by rw [hd]; rfl))
    htrack z).symm

theorem balanced_replaceMatches {p : Pattern} {new : Match → Text}
    (h : ∀ m ∈ p.all t, Replaces (new m) m.text) :
    balanced (Repair.replaceMatches t new 0 (Repair.codeMatches p (.of t))) = balanced t := by
  have hin : ∀ m ∈ Repair.codeMatches p (.of t), m.In p t := fun m hm =>
    in_of_mem_all (List.mem_filter.mp hm).1
  have horder : (Repair.codeMatches p (.of t)).Pairwise fun m m' => m.stop ≤ m'.start :=
    (p.pairwise_all t).filter _
  have hfoldr := Repair.foldr_splice_eq new (Text.isBoundary_zero t)
    (fun m hm => (hin m hm).bounds) (fun _ _ => Nat.zero_le _) horder
  rw [Text.before, Text.before?_zero, Option.getD_some, List.nil_append] at hfoldr
  rw [← hfoldr]
  refine balanced_foldr (fun m => m.start) (fun m => m.stop) (fun m hm u hagree => ?_)
    (fun m hm => (hin m hm).bounds) horder
  obtain ⟨hall, hcode⟩ := List.mem_filter.mp hm
  obtain ⟨front, back, ht, hstart⟩ := (hin m hm).cut
  have hstop : m.stop = Text.size front + Text.size m.text := by rw [(hin m hm).stop, hstart]
  have hplace := (hagree.bounds (hin m hm).bounds).start
  rw [hstart] at hplace hcode
  rw [hstop] at hagree
  rw [hstop, hstart]
  exact ⟨(h m hall).balanced_splice ht hcode hagree, Text.agree_splice hplace _ _⟩

/-! ## Words without brackets -/

/-- A word that is read as code and has no brackets. -/
structure IsOrdinary (w : Text) : Prop where
  ne_nil : w ≠ []
  flat : ∀ c ∈ w, isFlat c = true
  plain : ∀ c ∈ w, isPlain c = true

instance (w : Text) : Decidable (IsOrdinary w) :=
  decidable_of_iff (w ≠ [] ∧ (∀ c ∈ w, isFlat c = true) ∧ ∀ c ∈ w, isPlain c = true)
    ⟨fun ⟨hne, hflat, hplain⟩ => ⟨hne, hflat, hplain⟩, fun h => ⟨h.ne_nil, h.flat, h.plain⟩⟩

/-- A name: not empty, and without signs of the source language. -/
structure IsBare (w : Text) : Prop where
  ne_nil : w ≠ []
  chars : ∀ c ∈ w, c ∉ CharClass.signs

instance (w : Text) : Decidable (IsBare w) :=
  decidable_of_iff (w ≠ [] ∧ ∀ c ∈ w, c ∉ CharClass.signs)
    ⟨fun h => ⟨h.1, h.2⟩, fun h => ⟨h.ne_nil, h.chars⟩⟩

theorem IsBare.ordinary (h : IsBare w) : IsOrdinary w where
  ne_nil := h.ne_nil
  flat c hc := isFlat_of_notMem_signs (h.chars c hc)
  plain c hc := (isSoft_iff.mp (isSoft_of_notMem_signs (h.chars c hc))).2.1

theorem IsOrdinary.append (h : IsOrdinary w)
    (hu : ∀ c ∈ u, isFlat c = true ∧ isPlain c = true) : IsOrdinary (w ++ u) where
  ne_nil hnil := h.ne_nil (List.append_eq_nil_iff.mp hnil).1
  flat c hc := (List.mem_append.mp hc).elim (h.flat c) fun hc => (hu c hc).1
  plain c hc := (List.mem_append.mp hc).elim (h.plain c) fun hc => (hu c hc).2

theorem ordinary_of_isSpace (h : ∀ c ∈ u, CharClass.isSpace c = true) :
    ∀ c ∈ u, isFlat c = true ∧ isPlain c = true := fun c hc => by
  have hsigns := CharClass.notMem_signs_of_isSpace (h c hc)
  exact ⟨isFlat_of_notMem_signs hsigns, (isSoft_iff.mp (isSoft_of_notMem_signs hsigns)).2.1⟩

theorem IsOrdinary.replaces (hw : IsOrdinary w) (hu : IsOrdinary u) (hstar : u.head? ≠ some '*') :
    Replaces u w :=
  ⟨hw.ne_nil, hu.ne_nil, hw.flat, hu.flat, hstar, fun k => by
    rw [trackAll_plain k hw.plain, trackAll_plain k hu.plain]⟩

/-- The same flat text behind both. -/
theorem Replaces.append (h : Replaces u w) (hv : ∀ c ∈ v, isFlat c = true) :
    Replaces (u ++ v) (w ++ v) := by
  obtain ⟨hw, hu, hwflat, huflat, hstar, htrack⟩ := h
  refine ⟨fun hnil => hw (List.append_eq_nil_iff.mp hnil).1,
    fun hnil => hu (List.append_eq_nil_iff.mp hnil).1,
    fun c hc => (List.mem_append.mp hc).elim (hwflat c) (hv c),
    fun c hc => (List.mem_append.mp hc).elim (huflat c) (hv c), ?_, fun k => ?_⟩
  · obtain ⟨c, u, rfl⟩ := List.exists_cons_of_ne_nil hu
    exact hstar
  · rw [Depths.trackAll_append, Depths.trackAll_append, htrack]

/-! ## Parameters -/

theorem notMem_signs_of_isNameChar {c : Char} (h : isNameChar c = true) : c ∉ CharClass.signs := by
  rcases Bool.or_eq_true _ _ ▸ h with hword | hdollar
  · exact CharClass.notMem_signs_of_isWord hword
  · rw [beq_iff_eq.mp hdollar]
    decide

theorem IsParameter.ordinary (h : IsParameter w) : IsOrdinary w := by
  obtain ⟨kind, hkind, name, rfl, hname, -⟩ := h
  have hhead : ∀ kind ∈ parameterKinds, IsOrdinary (parameterHead kind) := by decide
  refine (hhead kind hkind).append fun c hc => ?_
  have hsigns := notMem_signs_of_isNameChar (hname c hc)
  exact ⟨isFlat_of_notMem_signs hsigns, (isSoft_iff.mp (isSoft_of_notMem_signs hsigns)).2.1⟩

theorem replaces_wrapped (h : IsOrdinary w) :
    Replaces ("String(".toList ++ w ++ ")".toList) w := by
  refine ⟨h.ne_nil, by simp, h.flat, ?_, by simp, fun k => ?_⟩
  · have hends : ∀ c ∈ "String()".toList, isFlat c = true := by decide
    intro c hc
    rcases List.mem_append.mp hc with hc | hc
    · rcases List.mem_append.mp hc with hc | hc
      · exact hends c (List.mem_append_left [')'] hc)
      · exact h.flat c hc
    · exact hends c (List.mem_append_right "String(".toList hc)
  · rw [Depths.trackAll_append, Depths.trackAll_append, trackAll_plain k h.plain]
    show _ = ((some ⟨k.braces, k.squares, k.parens + 1⟩ : Option Depths).bind _).bind _
    rw [Option.bind_some, trackAll_plain _ h.plain, Option.bind_some]
    rfl

namespace Repair

theorem isCodeAt_of_mem_parameterSpans (h : a ∈ parameterSpans (.of t)) :
    isCodeAt t (blank t) a.1 = true := by
  rw [parameterSpans] at h
  obtain ⟨g, hg, rfl⟩ := List.mem_map.mp (List.mem_mergeSort.mp (List.mem_eraseDups.mp h))
  exact (List.mem_filter.mp hg).2

theorem balanced_narrowParameters (h : narrowParameters t = some u) : balanced u = balanced t := by
  have hspans : balanced ((parameterSpans (.of t)).foldr (fun span out => wrapSpan out span) t) =
      balanced t := by
    refine balanced_foldr (fun a => a.1) (fun a => a.2) (fun a ha u hagree => ?_)
      (fun a ha => (whole_of_mem_parameterSpans ha).bounds) (pairwise_parameterSpans t)
    have hcode := isCodeAt_of_mem_parameterSpans ha
    have hplace := hagree.bounds (whole_of_mem_parameterSpans ha).bounds
    have hkept := hagree.between_eq (whole_of_mem_parameterSpans ha).bounds
    obtain ⟨p, w, q, ht, hstart, hstop, hparameter, -⟩ := whole_of_mem_parameterSpans ha
    rw [hstart] at hstop hcode hkept
    rw [hstop, ht, Text.between_append] at hkept
    rw [hstop] at hagree
    rw [wrapSpan, hstop, hstart, hkept]
    refine ⟨?_, Text.agree_splice (hstart ▸ hplace.start) _ _⟩
    exact (replaces_wrapped hparameter.ordinary).balanced_splice ht hcode hagree
  rw [narrowParameters] at h
  cases hlist : parameterSpans (.of t) with
  | nil => rw [hlist] at h; cases h
  | cons span spans =>
      rw [hlist] at h hspans
      obtain rfl := Option.some.inj h
      exact hspans

/-! ## Types -/

/-- The framework's types that are used with their namespace. -/
def bareTypes : List Text :=
  ["Request", "Response", "NextFunction", "RequestHandler"].map String.toList

theorem groupText_mem_bareTypes (hm : m ∈ Forbidden.qualifiedType.all t) :
    m.groupText 1 ∈ bareTypes :=
  spells_anyWord ((in_of_mem_all hm).spells_groupText rfl rfl)

theorem replaces_bare (hm : m ∈ Forbidden.qualifiedType.all t) :
    Replaces (m.groupText 1) m.text := by
  have htypes : ∀ w ∈ bareTypes, IsOrdinary w ∧ IsOrdinary ("express.".toList ++ w) ∧
      w.head? ≠ some '*' := by decide
  obtain ⟨hnew, -, hstar⟩ := htypes _ (groupText_mem_bareTypes hm)
  obtain ⟨e, _, htext, hedge, h⟩ := spells_seq (in_of_mem_all hm).spells
  obtain ⟨head, _, rfl, hhead, h⟩ := spells_seq h
  obtain ⟨w, e', rfl, hword, hedge'⟩ := spells_seq h
  obtain ⟨-, hold, -⟩ := htypes w (spells_anyWord (spells_capture hword))
  rw [htext, spells_wordEdge hedge, spells_wordEdge hedge', spells_literal hhead, List.append_nil,
    List.nil_append]
  exact hold.replaces hnew hstar

/-! ## Calls -/

theorem replaces_generator (hw : IsOrdinary w) :
    Replaces "randomUUID(".toList (w ++ "(".toList) := by
  have hnew : IsOrdinary "randomUUID".toList := by decide
  have h := (hw.replaces hnew (by decide)).append (v := "(".toList) (by decide)
  exact h

theorem replaces_call {name : Text} (hname : IsBare name) (h : Spells (callOf name) w) :
    Replaces "randomUUID(".toList w := by
  obtain ⟨e, _, rfl, hedge, h⟩ := spells_seq h
  obtain ⟨n, _, rfl, hn, h⟩ := spells_seq h
  obtain ⟨gap, paren, rfl, hgap, hparen⟩ := spells_seq h
  rw [spells_wordEdge hedge, spells_literal hn, spells_literal hparen, List.nil_append,
    ← List.append_assoc]
  exact replaces_generator (hname.ordinary.append (ordinary_of_isSpace (spells_many_char hgap)))

theorem replaces_memberCall {name : Text} (hname : IsBare name) (h : Spells (memberCallOf name) w) :
    Replaces "randomUUID(".toList w := by
  obtain ⟨e, _, rfl, hedge, h⟩ := spells_seq h
  obtain ⟨n, _, rfl, hn, h⟩ := spells_seq h
  obtain ⟨gap, _, rfl, hgap, h⟩ := spells_seq h
  obtain ⟨dot, _, rfl, hdot, h⟩ := spells_seq h
  obtain ⟨gap', _, rfl, hgap', h⟩ := spells_seq h
  obtain ⟨member, _, rfl, hmember, h⟩ := spells_seq h
  obtain ⟨gap'', paren, rfl, hgap'', hparen⟩ := spells_seq h
  rw [spells_wordEdge hedge, spells_literal hn, spells_literal hdot, spells_literal hmember,
    spells_literal hparen, List.nil_append]
  simp only [← List.append_assoc]
  have hspaces : ∀ {v : Text}, Spells spaces v → ∀ c ∈ v, isFlat c = true ∧ isPlain c = true :=
    fun hv => ordinary_of_isSpace (spells_many_char hv)
  exact replaces_generator (((((hname.ordinary.append (hspaces hgap)).append (by decide)).append
    (hspaces hgap')).append (by decide)).append (hspaces hgap''))

/-- Calls of names are replaced one name after the other. -/
theorem balanced_replaceCalls : ∀ (calls : List (Text × Pattern)) (t : Text),
    (∀ x ∈ calls, IsBare x.1 ∧ (x.2 = callOf x.1 ∨ x.2 = memberCallOf x.1)) →
      balanced (calls.foldl (fun out (_, call) =>
        replaceInCode call (fun _ => "randomUUID(".toList) out) t) = balanced t
  | [], _, _ => rfl
  | (name, call) :: calls, t, h => by
      obtain ⟨⟨hname, hcall⟩, hcalls⟩ := List.forall_mem_cons.mp h
      rw [List.foldl_cons, balanced_replaceCalls calls _ hcalls]
      refine balanced_replaceMatches fun m hm => ?_
      have hspells := (in_of_mem_all hm).spells
      rcases hcall with hcall | hcall
      · exact replaces_call hname (hcall ▸ hspells)
      · exact replaces_memberCall hname (hcall ▸ hspells)

end Repair

end ServiceGate
