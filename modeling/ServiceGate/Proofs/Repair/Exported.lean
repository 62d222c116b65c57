/-
# Exports that are put at the end

An export that the repair puts at the end of a balanced text stands in code, if the text ends
outside of comments: the blanked text goes on with it as it is (`blank_append`).  No declaration and
no older export reaches over the seam, so what was found in the text is found in it still
(`Pattern.all_longer`), and what is new is the export itself.

The rules look for an exported name between two word edges.  There is one in front of the name, and
one behind it, exactly if the name begins and ends with a character of a word; `$` is a character of
names, but of no word.  So the export is found, and not put there again, exactly if the name has no
dollar sign at either end (`exported_once`).
-/
import ServiceGate.Proofs.Balanced.Statements
import ServiceGate.Proofs.Pattern.Stretches
import ServiceGate.Proofs.Pattern.Extended
import ServiceGate.Proofs.Repair.Bindings
import ServiceGate.Proofs.Scan.Brackets

namespace ServiceGate

open Pattern Scan
open Text (size)

variable {p : Pattern} {t u w w' x : Text} {exported : Text} {m : Match} {c : Char}

/-! ## The blanked text goes on -/

theorem pureCode_of_forall : ∀ {w : Text}, (∀ c ∈ w, isQuote c = false ∧ c ≠ '/') → PureCode w
  | [], _ => .nil
  | c :: w, h => by
      obtain ⟨⟨hquote, hslash⟩, hw⟩ := List.forall_mem_cons.mp h
      exact .cons hquote (by simp [opensComment, hslash]) (pureCode_of_forall hw)

theorem flatMap_blank_code : ∀ (xs : List (Nat × Char)),
    (xs.map fun x => (⟨x.1, x.2, .code⟩ : Mark)).flatMap Mark.blank = xs.map (·.2)
  | [] => rfl
  | x :: xs => by
      rw [List.map_cons, List.flatMap_cons, flatMap_blank_code xs]
      rfl

/-- Behind a text that ends in code, code on the next line is left as it is. -/
theorem Scan.blank_append (ht : (State.start.after t).Agrees .start) (hw : PureCode ('\n' :: w)) :
    blank (t ++ '\n' :: w) = blank t ++ '\n' :: w := by
  have hreads := reads_of_newline t 0 (s := .start)
    (by rw [State.inString, ht.1]; rfl) w
  have hafter : ∀ t : Text, t.after 0 = t := fun t => by cases t <;> rfl
  rw [blank, marks, hafter, hreads.marksFrom_eq, hw.marksFrom_eq ht.1 ht.2, List.flatMap_append,
    flatMap_blank_code, map_snd_indexed, blank, marks, hafter]

/-! ## The new end -/

/-- What stands in front of the braces of a new export: line feeds and the word. -/
def exportLead (t : Text) : Text :=
  '\n' :: (if t.isEmpty || t.endsWith "\n".toList then [] else ['\n']) ++ "export ".toList

def exportTail (t exported : Text) : Text :=
  exportLead t ++ '\x7b' :: (' ' :: exported ++ " \x7d;\n".toList)

theorem appendStatement_exportOf (t exported : Text) :
    Repair.appendStatement t (Repair.exportOf exported) = t ++ exportTail t exported := by
  have hhead : "export \x7b ".toList = "export ".toList ++ ['\x7b', ' '] := by decide
  have htail : " \x7d;\n".toList = " \x7d;".toList ++ ['\n'] := by decide
  show t ++ (if (t.isEmpty || t.endsWith "\n".toList) = true then [] else ['\n']) ++
    '\n' :: ("export \x7b ".toList ++ exported ++ " \x7d;".toList) ++ ['\n'] = _
  rw [exportTail, exportLead, hhead, htail]
  split_ifs <;> simp only [List.append_assoc, List.cons_append, List.nil_append]

theorem exists_exportLead (t : Text) : ∃ gap : Text, exportLead t = '\n' :: gap ++
    "export ".toList ∧ ∀ c ∈ gap, c = '\n' := by
  rw [exportLead]
  split_ifs
  · exact ⟨[], rfl, by simp⟩
  · exact ⟨['\n'], rfl, by simp⟩

theorem exportLead_chars (t : Text) : ∀ c ∈ exportLead t, c ∈ "\nexport ".toList := by
  obtain ⟨gap, hlead, hgap⟩ := exists_exportLead t
  have hword : "\nexport ".toList = '\n' :: "export ".toList := by decide
  intro c hc
  rw [hlead, List.cons_append, List.mem_cons, List.mem_append] at hc
  rw [hword, List.mem_cons]
  rcases hc with hc | hc | hc
  · exact .inl hc
  · exact .inl (hgap c hc)
  · exact .inr hc

theorem endsWord_exportTail (t exported : Text) : EndsWord (exportTail t exported) := by
  intro c hc
  rw [← Option.some.inj hc]
  decide

theorem exportTail_plain (hname : IsBare exported) :
    ∀ c ∈ exportTail t exported, isQuote c = false ∧ c ≠ '/' := by
  have hplain : ∀ c ∈ "\nexport ".toList ++ "\x7b ".toList ++ " \x7d;\n".toList,
      isQuote c = false ∧ c ≠ '/' := by decide
  simp only [exportTail, List.forall_mem_append, List.forall_mem_cons]
  refine ⟨fun c hc => ?_, by decide, ⟨by decide, fun c hc => ?_⟩, by decide⟩
  · exact hplain c (List.mem_append_left _ (List.mem_append_left _ (exportLead_chars t c hc)))
  · have hflat := isFlat_of_notMem_signs (hname.chars c hc)
    simp only [isFlat, Bool.and_eq_true, bne_iff_ne, Bool.not_eq_true'] at hflat
    exact ⟨hflat.1.1.1, hflat.1.1.2⟩

theorem blank_exportTail (ht : (State.start.after t).Agrees .start) (hname : IsBare exported) :
    blank (t ++ exportTail t exported) = blank t ++ exportTail t exported := by
  have hplain := @exportTail_plain t _ hname
  obtain ⟨gap, hlead, -⟩ := exists_exportLead t
  rw [exportTail, hlead, List.append_assoc, List.cons_append] at hplain ⊢
  exact blank_append ht (pureCode_of_forall hplain)

/-! ## No match reaches over the seam -/

theorem exists_seam (hm : m ∈ p.all (t ++ w)) (hstart : m.start < size t)
    (hstop : size t < m.stop) :
    ∃ x y front back, m.text = x ++ y ∧ y ≠ [] ∧ x ≠ [] ∧ t = front ++ x ∧ w = y ++ back := by
  obtain ⟨front, back, hcut, hfront⟩ := (in_of_mem_all hm).cut
  have hsize := (in_of_mem_all hm).stop
  rw [List.append_assoc] at hcut
  obtain ⟨x, rfl, hx⟩ := Text.exists_middle hcut.symm (by omega)
  rw [Text.size_append] at hstop hstart
  obtain ⟨y, hy, hw⟩ := Text.exists_middle hx.symm (by omega)
  refine ⟨x, y, front, back, hy, ?_, ?_, rfl, hw⟩
  · rintro rfl
    rw [List.append_nil] at hy
    rw [hy] at hsize
    omega
  · rintro rfl
    simp only [size] at hstart
    omega

theorem apart_exportTail (hp : p.Only (· != '\x7b'))
    (hlast : ∀ u, Spells p u → ∀ c ∈ u.getLast?, c ∉ "\nexport ".toList) (t exported : Text)
    (w : Text) :
    p.Apart (w ++ exportTail t exported) (size w) := by
  intro m hm hstart
  by_contra hstop
  obtain ⟨x, y, front, back, htext, hne, -, -, hy⟩ := exists_seam hm hstart (by omega)
  have hspells := (in_of_mem_all hm).spells
  have hbrace : '\x7b' ∉ y := fun hmem => by
    have hno := hp.of_spells hspells '\x7b' (by rw [htext]; exact List.mem_append_right _ hmem)
    exact absurd hno (by decide)
  obtain ⟨y, c, rfl⟩ := (List.eq_nil_or_concat y).resolve_left hne
  refine hlast _ hspells c (by rw [htext, List.concat_eq_append, ← List.append_assoc]; simp)
    (exportLead_chars t c ?_)
  exact (Text.prefix_of_notMem hy.symm hbrace).subset (by simp)

/-! ## The declarations of the text -/

theorem getLast?_of_inOrder (ps : List Pattern) {q : Pattern} {ends : Text}
    (hq : ∀ w, Spells q w → w ≠ [] ∧ ∀ c ∈ w.getLast?, c ∈ ends)
    (h : Spells (inOrder (ps ++ [q])) u) : ∀ c ∈ u.getLast?, c ∈ ends := by
  obtain ⟨v, w, rfl, -, hw⟩ := spells_inOrder_append (List.cons_ne_nil q []) ps h
  obtain ⟨hne, hends⟩ := hq w hw
  rwa [List.getLast?_append_of_ne_nil _ hne]

theorem noBrace_of_isSpace (hc : CharClass.isSpace c = true) : (c != '\x7b') = true :=
  bne_iff_ne.mpr fun h => CharClass.notMem_signs_of_isSpace hc (h ▸ by decide)

theorem noBrace_of_isNameChar (hc : isNameChar c = true) : (c != '\x7b') = true :=
  bne_iff_ne.mpr fun h => notMem_signs_of_isNameChar hc (h ▸ by decide)

theorem only_noBrace_gap : gap.Only (· != '\x7b') :=
  ⟨fun _ => noBrace_of_isSpace, fun _ => noBrace_of_isSpace⟩

theorem only_noBrace_name : Pattern.name.Only (· != '\x7b') :=
  ⟨fun _ hc => noBrace_of_isNameChar (isNameChar_of_start hc), fun _ => noBrace_of_isNameChar⟩

theorem apart_entryDeclaration (w t exported : Text) :
    Features.entryDeclaration.Apart (w ++ exportTail t exported) (size w) := by
  refine apart_exportTail ?_ (fun u hu c hc hmem => ?_) t exported w
  · have htype : ∀ c, (CharClass.isWord c || c == '$' || c == '.') = true →
        (c != '\x7b') = true := by
      intro c hc
      rcases Bool.or_eq_true _ _ ▸ hc with hc | hc
      · exact noBrace_of_isNameChar hc
      · rw [beq_iff_eq.mp hc]
        decide
    exact ⟨trivial, only_anyWord (by decide), only_noBrace_gap, only_noBrace_name,
      fun _ => noBrace_of_isSpace, ⟨⟨only_literal (by decide), fun _ => noBrace_of_isSpace,
        ⟨htype, htype⟩, fun _ => noBrace_of_isSpace⟩, trivial⟩, only_literal (by decide),
      fun _ => noBrace_of_isSpace, only_literal (by decide), fun _ => noBrace_of_isSpace,
      only_literal (by decide), fun _ => noBrace_of_isSpace, only_literal (by decide)⟩
  · have hlast : c ∈ ")".toList := getLast?_of_inOrder [_, _, _, _, _, _, _, _, _, _, _, _]
      (fun w hw => by rw [spells_literal hw]; decide) hu c hc
    exact absurd hmem ((by decide : ∀ c ∈ ")".toList, c ∉ "\nexport ".toList) c hlast)

theorem only_startName {f : Char → Bool} (hf : ∀ c, isNameChar c = true → f c = true) :
    Rule.startName.Only f := by
  have hwords : ∀ word ∈ ["start", "listen", "main", "bootstrap"], ∀ c ∈ word.toList,
      isNameChar c = true := by decide
  have hword : ∀ word ∈ ["start", "listen", "main", "bootstrap"], (Pattern.word word).Only f :=
    fun word hmem => only_literal fun c hc => hf c (hwords word hmem c hc)
  exact ⟨⟨hword "start" (by decide), hf⟩, ⟨hword "listen" (by decide), hf⟩,
    hword "main" (by decide), hword "bootstrap" (by decide)⟩

theorem apart_startDefinition (w t exported : Text) :
    Rule.startDefinition.Apart (w ++ exportTail t exported) (size w) := by
  refine apart_exportTail ?_ (fun u hu c hc hmem => ?_) t exported w
  · have hname : Rule.startName.Only (· != '\x7b') := only_startName fun _ => noBrace_of_isNameChar
    refine ⟨⟨trivial, only_literal (by decide), only_noBrace_gap, hname, fun _ =>
      noBrace_of_isSpace,
        only_literal (by decide)⟩,
      trivial, only_anyWord (by decide), only_noBrace_gap, hname, fun _ => noBrace_of_isSpace,
        only_literal (by decide), fun _ => noBrace_of_isSpace,
        ⟨⟨only_literal (by decide), fun _ => noBrace_of_isSpace⟩, trivial⟩,
        only_literal (by decide), ⟨only_literal (by decide), trivial⟩,
        only_noBrace_name, fun _ => noBrace_of_isSpace, only_literal (by decide)⟩
  · have hends : ∀ w : Text, w ∈ ["(".toList, "function".toList, "=>".toList] →
        w ≠ [] ∧ ∀ c ∈ w.getLast?, c ∈ "(n>".toList := by decide
    have hlast : c ∈ "(n>".toList := by
      cases hu with
      | altFirst hu =>
          refine getLast?_of_inOrder [_, _, _, _, _] (fun w hw => ?_) hu c hc
          rw [spells_literal hw]
          exact hends _ (by decide)
      | altSecond hu =>
          refine getLast?_of_inOrder [_, _, _, _, _, _, _, _] (fun w hw => ?_) hu c hc
          obtain ⟨p, hp, hw⟩ := spells_anyOf _ hw
          simp only [List.mem_cons, List.not_mem_nil, or_false] at hp
          rcases hp with rfl | rfl | rfl
          · rw [spells_literal hw]
            exact hends _ (by decide)
          · obtain ⟨x, y, rfl, hx, hy⟩ := spells_seq hw
            rw [spells_literal hx, spells_wordEdge hy, List.append_nil]
            exact hends _ (by decide)
          · obtain ⟨x, y, rfl, -, hy⟩ := spells_inOrder_append (List.cons_ne_nil _ []) [_, _] hw
            have harrow := hends _ (by decide : "=>".toList ∈ _)
            rw [spells_literal hy, List.getLast?_append_of_ne_nil _ harrow.1]
            exact ⟨fun hnil => harrow.1 (List.append_eq_nil_iff.mp hnil).2, harrow.2⟩
    exact absurd hmem ((by decide : ∀ c ∈ "(n>".toList, c ∉ "\nexport ".toList) c hlast)

/-! ## The new export is read -/

/-- No dollar sign begins or ends the name. -/
def Undollared (name : Text) : Prop := name.head? ≠ some '$' ∧ name.getLast? ≠ some '$'

instance (name : Text) : Decidable (Undollared name) :=
  inferInstanceAs (Decidable (name.head? ≠ some '$' ∧ name.getLast? ≠ some '$'))

theorem isWord_of_isNameChar (hc : isNameChar c = true) (hdollar : c ≠ '$') :
    CharClass.isWord c = true :=
  ((Bool.or_eq_true _ _).mp hc).resolve_right fun h => hdollar (beq_iff_eq.mp h)

theorem IsIdentifier.exists_cons (hname : IsIdentifier exported) :
    ∃ c rest, exported = c :: rest ∧ isNameChar c = true := by
  obtain ⟨c, rest, rfl⟩ := List.exists_cons_of_ne_nil hname.ne_nil
  exact ⟨c, rest, rfl, hname.chars c List.mem_cons_self⟩

theorem IsIdentifier.exists_concat (hname : IsIdentifier exported) :
    ∃ rest c, exported = rest ++ [c] ∧ isNameChar c = true := by
  obtain ⟨rest, c, rfl⟩ := (List.eq_nil_or_concat exported).resolve_left hname.ne_nil
  rw [List.concat_eq_append] at hname ⊢
  exact ⟨rest, c, rfl, hname.chars c (by simp)⟩

theorem readsAt_exportList (hname : IsIdentifier exported) (hends : Undollared exported)
    (v t : Text) :
    ∃ n, (Rule.exportList exported).ReadsAt (v ++ exportTail t exported) n := by
  obtain ⟨gap, hlead, hgap⟩ := exists_exportLead t
  have hblank : CharClass.isSpace ' ' = true := by decide
  have hplain : CharClass.isWord ' ' = false ∧ CharClass.isWord '\n' = false := by decide
  have hinside : ∀ c ∈ [' '], (!"\x7d".toList.contains c) = true := by decide
  have htext : v ++ exportTail t exported = v ++ '\n' :: gap ++ ("export".toList ++ ([' '] ++
      ("\x7b".toList ++ ([' '] ++ (exported ++ ([' '] ++ ("\x7d".toList ++ ";\n".toList))))))) := by
    have hword : "export ".toList = "export".toList ++ [' '] := by decide
    have hopen : "\x7b".toList = ['\x7b'] := by decide
    have hclose : " \x7d;\n".toList = [' '] ++ ("\x7d".toList ++ ";\n".toList) := by decide
    rw [exportTail, hlead, hword, hopen, hclose]
    simp only [List.append_assoc, List.cons_append, List.nil_append]
  refine ⟨_, v ++ '\n' :: gap, _, _, htext, rfl,
    .seq (leads_wordEdge ?_) (.seq (leads_literal _ _ _ _)
    (.seq (leads_many _ _ [' '] _ (by simpa using hblank)) (.seq (leads_literal _ _ _ _)
      (.seq (leads_many _ _ [' '] _ hinside) (.seq (leads_wordEdge ?_) (.seq (leads_literal _ _ _ _)
        (.seq (leads_wordEdge ?_) (.seq (leads_many _ _ [' '] _ hinside)
          (leads_literal _ _ _ _)))))))))⟩
  · have hfront : (v ++ '\n' :: gap).getLast?.any CharClass.isWord = false := by
      rw [List.getLast?_append_of_ne_nil _ (List.cons_ne_nil _ _), Option.any_eq_false]
      intro c hc
      obtain rfl : c = '\n' := (List.mem_cons.mp (List.mem_of_getLast? hc)).elim id (hgap c)
      rw [hplain.2]
    rw [hfront]
    have hhead : ∀ w : Text, ("export".toList ++ w).head?.any CharClass.isWord = true := fun w =>
      rfl
    rw [hhead]
    decide
  · obtain ⟨c, rest, rfl, hc⟩ := hname.exists_cons
    have hword := isWord_of_isNameChar hc fun h => hends.1 (congrArg some h)
    rw [List.getLast?_concat]
    simp [hplain.1, hword]
  · obtain ⟨rest, c, rfl, hc⟩ := hname.exists_concat
    have hword := isWord_of_isNameChar hc fun h => hends.2 (by rw [h, List.getLast?_concat])
    rw [← List.append_assoc, List.getLast?_concat]
    simp [hplain.1, hword]

theorem occursIn_exportList (hname : IsIdentifier exported) (hends : Undollared exported)
    (v t : Text) :
    (Rule.exportList exported).occursIn (v ++ exportTail t exported) = true := by
  obtain ⟨n, hn⟩ := readsAt_exportList hname hends v t
  refine occursIn_of_readsAt ?_ rfl hn
  rw [Rule.exportList]
  simp only [inOrder, proper, proper_literal]
  rfl

/-! ## Nothing else is read in the new end -/

/-- Exports that a name ends, and that have no braces. -/
structure ExportsAtEnd (p : Pattern) (exported : Text) : Prop where
  only : p.Only (· != '\x7b')
  spells : ∀ {u}, Spells p u → ∃ z, u = "export".toList ++ z ++ exported

theorem ExportsAtEnd.stop_le (hp : ExportsAtEnd p exported) (hname : IsIdentifier exported)
    (hdollar : '$' ∈ exported) {v : Text} (hm : m ∈ p.all (v ++ exportTail t exported)) :
    m.stop ≤ size v := by
  by_contra hstop
  obtain ⟨front, back, hcut, -, hsize, -⟩ := exists_leads_of_mem_all hm
  have hspells := (in_of_mem_all hm).spells
  obtain ⟨z, hz⟩ := hp.spells hspells
  have hbrace : '\x7b' ∉ m.text := fun hmem =>
    absurd (hp.only.of_spells hspells _ hmem) (by decide)
  have hbare : ∀ c, isNameChar c = false → c ∉ exported := fun c hc hmem => by
    rw [hname.chars c hmem] at hc
    cases hc
  rw [hz] at hcut hsize hbrace
  have hcut' : v ++ exportTail t exported =
      (front ++ ("export".toList ++ z)) ++ (exported ++ back) := by
    rw [hcut]
    simp only [List.append_assoc]
  rcases List.append_eq_append_iff.mp hcut' with ⟨y, hy, htail⟩ | ⟨y, hv, htail⟩
  · -- the name stands in the new end, and there is no room for the word in front of it
    rw [exportTail] at htail
    rcases List.append_eq_append_iff.mp htail with ⟨y', rfl, htail'⟩ | ⟨y', hlead, htail'⟩
    · cases y' with
      | nil =>
          obtain ⟨c, rest, rfl, hc⟩ := hname.exists_cons
          obtain ⟨rfl, -⟩ := List.cons.inj htail'
          cases hc
      | cons d y' =>
          obtain ⟨rfl, hbehind⟩ := List.cons.inj htail'
          have hroom := (Text.suffix_of_notMem (hy.trans (List.append_assoc _ _ _).symm) fun hmem =>
            hbrace (List.mem_append_left _ hmem)).length_le
          have hlength := congrArg List.length hbehind
          simp only [List.append_eq, List.length_append, List.length_cons] at hroom hlength
          have hword : "export".toList.length = 6 := by decide
          have hclose : " \x7d;\n".toList.length = 4 := by decide
          omega
    · have hfront := Text.prefix_of_notMem htail' (hbare _ (by decide))
      refine absurd (exportLead_chars t '$' ?_) (by decide)
      rw [hlead]
      exact List.mem_append_right y (hfront.subset hdollar)
  · -- the name reaches over the line feed that begins the new end
    obtain ⟨gap, hlead, -⟩ := exists_exportLead t
    rw [exportTail, hlead, List.append_assoc, List.cons_append] at htail
    obtain ⟨z', rfl⟩ := Text.prefix_of_notMem htail (hbare _ (by decide))
    refine hstop ?_
    rw [hsize, hv]
    simp only [Text.size_append]
    omega

theorem exportsAtEnd_inOrder (hname : IsIdentifier exported) (mid : List Pattern)
    (hmid : ∀ q ∈ mid, q.Only (· != '\x7b')) :
    ExportsAtEnd (inOrder ([wordEdge, word "export"] ++ (mid ++ [literal exported, wordEdge])))
      exported where
  only := only_inOrder fun q hq => by
    simp only [List.mem_append, List.mem_cons, List.not_mem_nil, or_false] at hq
    rcases hq with (rfl | rfl) | hq | rfl | rfl
    · trivial
    · exact only_literal (by decide)
    · exact hmid q hq
    · exact only_literal fun c hc => noBrace_of_isNameChar (hname.chars c hc)
    · trivial
  spells {u} h := by
    obtain ⟨v, w, rfl, hv, hw⟩ := spells_inOrder_append (by simp) [wordEdge, word "export"] h
    obtain ⟨z, w', rfl, -, hw'⟩ := spells_inOrder_append (by simp) mid hw
    obtain ⟨a, b, rfl, ha, hb⟩ := spells_seq hv
    obtain ⟨a', b', rfl, ha', hb'⟩ := spells_seq hw'
    rw [spells_wordEdge ha, spells_literal hb, spells_literal ha', spells_wordEdge hb']
    exact ⟨z, by simp⟩

theorem exportsAtEnd (hname : IsIdentifier exported) : ∀ p ∈ [Rule.exportDefault exported,
    Rule.exportVariable exported, Rule.exportFunction exported], ExportsAtEnd p exported := by
  have hdefault : (word "default").Only (· != '\x7b') := only_literal (by decide)
  have hasync : (word "async").Only (· != '\x7b') := only_literal (by decide)
  have hfunction : (word "function").Only (· != '\x7b') := only_literal (by decide)
  have hvariable : (anyWord ["const", "let", "var"]).Only (· != '\x7b') := only_anyWord (by decide)
  intro p hp
  simp only [List.mem_cons, List.not_mem_nil, or_false] at hp
  rcases hp with rfl | rfl | rfl
  · refine exportsAtEnd_inOrder hname [gap, word "default", gap] ?_
    simp only [List.forall_mem_cons, List.not_mem_nil, false_implies, implies_true, and_true]
    exact ⟨only_noBrace_gap, hdefault, only_noBrace_gap⟩
  · refine exportsAtEnd_inOrder hname [gap, anyWord ["const", "let", "var"], gap] ?_
    simp only [List.forall_mem_cons, List.not_mem_nil, false_implies, implies_true, and_true]
    exact ⟨only_noBrace_gap, hvariable, only_noBrace_gap⟩
  · refine exportsAtEnd_inOrder hname [gap, Pattern.optional (seq (word "default") gap),
      Pattern.optional (seq (word "async") gap), word "function", gap] ?_
    simp only [List.forall_mem_cons, List.not_mem_nil, false_implies, implies_true, and_true]
    exact ⟨only_noBrace_gap, ⟨⟨hdefault, only_noBrace_gap⟩, trivial⟩,
      ⟨⟨hasync, only_noBrace_gap⟩, trivial⟩, hfunction, only_noBrace_gap⟩

/-- How an export list cuts a text: at its braces, and at the word edges around the name. -/
theorem exists_cut_of_exportList {v : Text} (hm : m ∈ (Rule.exportList exported).all v) :
    ∃ front a b back, v = front ++ '\x7b' :: (a ++ exported ++ b ++ '\x7d' :: back) ∧
      m.stop = size (front ++ '\x7b' :: (a ++ exported ++ b ++ ['\x7d'])) ∧
      '\x7d' ∉ a ∧ '\x7d' ∉ b ∧ (a = [' '] → b = [' '] → Undollared exported) := by
  obtain ⟨front, back, hcut, -, hstop, hleads⟩ := exists_leads_of_mem_all hm
  obtain ⟨e₁, r₁, cs₁, hr₁, he₁, -, h₁⟩ := leads_past_seq hleads
  obtain ⟨e₂, r₂, cs₂, hr₂, he₂, -, h₂⟩ := leads_past_seq h₁
  obtain ⟨e₃, r₃, cs₃, hr₃, -, -, h₃⟩ := leads_past_seq h₂
  obtain ⟨e₄, r₄, cs₄, hr₄, he₄, -, h₄⟩ := leads_past_seq h₃
  obtain ⟨a, r₅, cs₅, hr₅, ha, -, h₅⟩ := leads_past_seq h₄
  obtain ⟨e₆, r₆, cs₆, hr₆, he₆, hedge, h₆⟩ := leads_past_seq h₅
  obtain ⟨e₇, r₇, cs₇, hr₇, he₇, -, h₇⟩ := leads_past_seq h₆
  obtain ⟨e₈, r₈, cs₈, hr₈, he₈, hedge', h₈⟩ := leads_past_seq h₇
  obtain ⟨b, r₉, cs₉, hr₉, hb, -, h₉⟩ := leads_past_seq h₈
  obtain ⟨e, r, cs', hr, hpast, he⟩ := h₉.past rfl
  obtain rfl := spells_wordEdge he₁
  obtain rfl := spells_wordEdge he₆
  obtain rfl := spells_wordEdge he₈
  have hname : e₇ = exported := spells_literal he₇
  have hopen : e₄ = ['\x7b'] := spells_literal he₄
  have hclose : e = ['\x7d'] := spells_literal he
  have hback : back = r := congrArg (·.cursor.rest) hpast
  have hsize := congrArg (·.cursor.offset) hpast
  have hfree : ∀ {w : Text}, Spells (star (noneOf "\x7d")) w → '\x7d' ∉ w := fun hw hmem =>
    absurd (spells_many_char hw _ hmem) (by decide)
  have htext : m.text ++ back = e₂ ++ (e₃ ++ '\x7b' :: (a ++ exported ++ b ++ '\x7d' :: back)) := by
    rw [hr₁, hr₂, hr₃, hr₄, hr₅, hr₆, hr₇, hr₈, hr₉, hr, hname, hopen, hclose, hback]
    simp only [List.append_assoc, List.cons_append, List.nil_append]
  refine ⟨front ++ (e₂ ++ e₃), a, b, back, ?_, ?_, hfree ha, hfree hb, ?_⟩
  · rw [hcut, htext]
    simp only [List.append_assoc]
  · rw [hstop]
    refine hsize.trans (congrArg size ?_)
    simp only [hname, hopen, hclose, List.append_assoc, List.cons_append, List.nil_append]
  · rintro rfl rfl
    have hplain : CharClass.isWord ' ' = false ∧ CharClass.isWord '$' = false := by decide
    have hfirst := leads_past_wordEdge hedge
    have hlast := leads_past_wordEdge hedge'
    rw [List.getLast?_concat, hr₆, hr₇, hname, List.nil_append, List.head?_append] at hfirst
    rw [List.getLast?_append, hname, hr₈, hr₉, List.nil_append, List.cons_append, List.head?_cons]
      at hlast
    refine ⟨fun h => ?_, fun h => ?_⟩
    · rw [h] at hfirst
      simp [hplain] at hfirst
    · rw [h] at hlast
      simp [hplain] at hlast

theorem eq_blank_of_append {a b : Text} (hname : IsIdentifier exported)
    (h : ' ' :: exported ++ [' '] = a ++ exported ++ b) : a = [' '] ∧ b = [' '] := by
  have hblank : isNameChar ' ' = false := by decide
  have hlength := congrArg List.length h
  simp only [List.length_append, List.length_cons] at hlength
  have hfront : a ≠ [] := by
    rintro rfl
    obtain ⟨c, rest, rfl, hc⟩ := hname.exists_cons
    obtain ⟨rfl, -⟩ := List.cons.inj h
    rw [hblank] at hc
    cases hc
  have hbehind : b ≠ [] := by
    rintro rfl
    obtain ⟨rest, c, rfl, hc⟩ := hname.exists_concat
    rw [List.append_nil, ← List.append_assoc] at h
    obtain rfl : ' ' = c := (List.append_singleton_inj.mp h).2
    rw [hblank] at hc
    cases hc
  obtain ⟨x, a, rfl⟩ := List.exists_cons_of_ne_nil hfront
  obtain ⟨b, y, rfl⟩ := (List.eq_nil_or_concat b).resolve_left hbehind
  rw [List.concat_eq_append] at h hlength ⊢
  simp only [List.length_append, List.length_cons, List.length_nil] at hlength
  obtain rfl := List.length_eq_zero_iff.mp (show a.length = 0 by omega)
  obtain rfl := List.length_eq_zero_iff.mp (show b.length = 0 by omega)
  rw [List.nil_append] at h ⊢
  obtain ⟨rfl, hrest⟩ := List.cons.inj h
  exact ⟨rfl, (List.append_cancel_left hrest).symm⟩

/-- If the braces of the text are closed in it, a list that reaches into the new end is the new
export, and the name in it has a word edge at either end. -/
theorem stop_le_of_exportList (hname : IsIdentifier exported) (hends : ¬ Undollared exported)
    {v : Text} (hclosed : ∀ a b, v = a ++ '\x7b' :: b → '\x7d' ∈ b)
    (hm : m ∈ (Rule.exportList exported).all (v ++ exportTail t exported)) : m.stop ≤ size v := by
  by_contra hstop
  obtain ⟨front, a, b, back, hcut, hsize, ha, hb, hedges⟩ := exists_cut_of_exportList hm
  have hfree : '\x7d' ∉ a ++ exported ++ b := by
    simp only [List.mem_append, not_or]
    exact ⟨⟨ha, hname.notMem⟩, hb⟩
  obtain ⟨gap, hlead, -⟩ := exists_exportLead t
  rcases List.append_eq_append_iff.mp hcut with ⟨y, rfl, htail⟩ | ⟨y, hv, htail⟩
  · -- the opening brace is that of the new end
    have hplain : ∀ c ∈ "\nexport ".toList, c ≠ '\x7b' := by decide
    rw [exportTail] at htail
    obtain ⟨z, rfl⟩ := Text.prefix_of_notMem htail fun hmem =>
      hplain _ (exportLead_chars t _ hmem) rfl
    rw [List.append_assoc] at htail
    cases z with
    | nil =>
        obtain ⟨-, hinside⟩ := List.cons.inj (List.append_cancel_left htail)
        have hclose : " \x7d;\n".toList = [' '] ++ '\x7d' :: ";\n".toList := by decide
        rw [hclose, ← List.append_assoc] at hinside
        have hnone : '\x7d' ∉ ' ' :: exported ++ [' '] := by
          simp only [List.cons_append, List.mem_cons, List.mem_append, List.not_mem_nil, or_false,
            not_or]
          exact ⟨by decide, hname.notMem, by decide⟩
        obtain ⟨rfl, rfl⟩ := eq_blank_of_append hname (Text.eq_of_notMem hnone hfree hinside)
        exact hends (hedges rfl rfl)
    | cons d z =>
        obtain ⟨-, hinside⟩ := List.cons.inj (List.append_cancel_left htail)
        have hmem : '\x7b' ∈ ' ' :: exported ++ " \x7d;\n".toList := by
          rw [hinside]
          exact List.mem_append_right z List.mem_cons_self
        simp only [List.cons_append, List.mem_cons, List.mem_append] at hmem
        rcases hmem with h | h | h
        · exact absurd h (by decide)
        · exact absurd (hname.chars _ h) (by decide)
        · exact absurd h (by decide)
  · -- the opening brace is one of the text, and what closes it stands in the text
    cases y with
    | nil =>
        rw [List.nil_append, exportTail, hlead] at htail
        exact absurd (List.cons.inj htail).1 (by decide)
    | cons d y =>
        obtain ⟨rfl, hinside⟩ := List.cons.inj htail
        have hmem := hclosed front y hv
        rcases List.append_eq_append_iff.mp hinside with ⟨z, rfl, hz⟩ | ⟨z, hz, -⟩
        · cases z with
          | nil =>
              rw [List.append_nil] at hmem
              exact hfree hmem
          | cons d z =>
              obtain ⟨rfl, -⟩ := List.cons.inj hz
              refine hstop ?_
              rw [hsize, hv]
              simp only [Text.size_append, size]
              omega
        · rw [hz] at hfree
          exact hfree (List.mem_append_left z hmem)

theorem occursIn_of_stop_le {v : Text} (hp : p.takes = true) (hw : EndsWord w)
    (h : ∀ m ∈ p.all (v ++ w), m.stop ≤ size v) : p.occursIn (v ++ w) = p.occursIn v := by
  obtain ⟨ms, hms, hbehind⟩ := all_longer hp hw fun m hm _ => h m hm
  have hnone : ms = [] := List.eq_nil_iff_forall_not_mem.mpr fun m hmem => by
    have hm : m ∈ p.all (v ++ w) := hms ▸ List.mem_append_right _ hmem
    have hlt := start_lt_stop (in_of_mem_all hm) hp
    have := hbehind m hmem
    have := h m hm
    omega
  rw [hnone, List.append_nil] at hms
  rw [Bool.eq_iff_iff, occursIn_iff, occursIn_iff, hms]

theorem dollar_mem_of_not_undollared (h : ¬ Undollared exported) : '$' ∈ exported := by
  rcases not_and_or.mp h with hfirst | hlast
  · exact List.mem_of_head? (not_not.mp hfirst)
  · exact List.mem_of_getLast? (not_not.mp hlast)

def exportsOf (exported : Text) : List Pattern :=
  [Rule.exportDefault exported, Rule.exportVariable exported, Rule.exportFunction exported,
    Rule.exportList exported]

theorem occursIn_of_not_undollared (hname : IsIdentifier exported) (hends : ¬ Undollared exported)
    {v : Text} (hclosed : ∀ a b, v = a ++ '\x7b' :: b → '\x7d' ∈ b) (hp : p ∈ exportsOf exported) :
    p.occursIn (v ++ exportTail t exported) = p.occursIn v := by
  have hdollar := dollar_mem_of_not_undollared hends
  have hedge := endsWord_exportTail t exported
  have hatEnd := exportsAtEnd hname
  simp only [exportsOf, List.mem_cons, List.not_mem_nil, or_false] at hp
  rcases hp with rfl | rfl | rfl | rfl
  · exact occursIn_of_stop_le rfl hedge fun m hm =>
      (hatEnd _ (by simp)).stop_le hname hdollar hm
  · exact occursIn_of_stop_le rfl hedge fun m hm =>
      (hatEnd _ (by simp)).stop_le hname hdollar hm
  · exact occursIn_of_stop_le rfl hedge fun m hm =>
      (hatEnd _ (by simp)).stop_le hname hdollar hm
  · exact occursIn_of_stop_le rfl hedge fun m hm => stop_le_of_exportList hname hends hclosed hm

/-! ## Exporting once -/

/-- Of the ways to export a name, the list among them, one is found behind the edit exactly if the
name has no dollar sign at either end. -/
theorem any_occursIn_iff (hname : IsIdentifier exported) {v : Text}
    (hclosed : ∀ a b, v = a ++ '\x7b' :: b → '\x7d' ∈ b) {ps : List Pattern}
    (hps : ps ⊆ exportsOf exported) (hlist : Rule.exportList exported ∈ ps)
    (hnone : ps.any (·.occursIn v) = false) :
    ps.any (·.occursIn (v ++ exportTail t exported)) = true ↔ Undollared exported := by
  refine ⟨fun h => ?_, fun hends =>
    List.any_eq_true.mpr ⟨_, hlist, occursIn_exportList hname hends v t⟩⟩
  by_contra hends
  obtain ⟨p, hp, hoccurs⟩ := List.any_eq_true.mp h
  rw [occursIn_of_not_undollared hname hends hclosed (hps hp)] at hoccurs
  exact List.any_eq_false.mp hnone p hp hoccurs

theorem isIdentifier_startFunction {x : Text × Nat} (h : x ∈ Rule.startFunctions t) :
    IsIdentifier x.1 := by
  obtain ⟨m, hm, hx⟩ := List.mem_filterMap.mp h
  obtain ⟨g, hg, rfl⟩ := Option.map_eq_some_iff.mp hx
  have hspells : Spells Rule.startName g.text := by
    rcases Option.or_eq_some_iff.mp hg with hfirst | ⟨-, hsecond⟩
    · exact (in_of_mem_all hm).spells_group rfl hfirst
    · exact (in_of_mem_all hm).spells_group rfl hsecond
  exact ⟨spells_ne_nil hspells rfl, (only_startName fun _ hc => hc).of_spells hspells⟩

theorem exists_startFunctions_exportTail (v t exported : Text) :
    ∃ xs, Rule.startFunctions (v ++ exportTail t exported) = Rule.startFunctions v ++ xs := by
  obtain ⟨ms, hms, -⟩ := all_longer rfl (endsWord_exportTail t exported)
    (apart_startDefinition v t exported)
  rw [Rule.startFunctions, hms, List.filterMap_append]
  exact ⟨_, rfl⟩

/-- The text is balanced, and its end stands in code. -/
structure EndsBalanced (t : Text) : Prop where
  balanced : balanced t = true
  noLine : (finalState t).mode ≠ .lineComment
  noBlock : (finalState t).mode ≠ .blockComment

instance (t : Text) : Decidable (EndsBalanced t) :=
  decidable_of_iff (Scan.balanced t = true ∧ (finalState t).mode ≠ .lineComment ∧
    (finalState t).mode ≠ .blockComment) ⟨fun h => ⟨h.1, h.2.1, h.2.2⟩, fun h => ⟨h.1, h.2, h.3⟩⟩

theorem EndsBalanced.agrees (h : EndsBalanced t) : (State.start.after t).Agrees .start := by
  have hliteral : (finalState t).inLiteral = false := by
    simpa [Scan.balanced] using (Bool.and_eq_true_iff.mp h.balanced).2
  obtain ⟨hstring, hregions⟩ := Bool.or_eq_false_iff.mp hliteral
  have hregions : (finalState t).regions = [] := by simpa using hregions
  refine ⟨?_, hregions⟩
  have hline := h.noLine
  have hblock := h.noBlock
  rw [State.inString] at hstring
  rw [finalState] at hline hblock hstring
  cases hmode : (State.start.after t).mode with
  | code => rfl
  | lineComment => exact absurd hmode hline
  | blockComment => exact absurd hmode hblock
  | string quote => rw [hmode] at hstring; cases hstring

section Once

open Features Repair Rule

/-- The application object is exported behind the edit, and not once more, exactly if its name has
no dollar sign at either end. -/
theorem exportApp_settles {u : Text} (ht : EndsBalanced t) (hu : exportApp t = some u) :
    ∃ m, entryDeclaration.first? (blank t) = some m ∧
      (isAppExported (blank u) (m.groupText 1) = true ↔ Undollared (m.groupText 1)) ∧
      (exportApp u = none ↔ Undollared (m.groupText 1)) := by
  obtain ⟨m, hm, hexported, hu⟩ := exists_of_exportApp hu
  have hspells : Spells Pattern.name (m.groupText 1) := (in_of_first? hm).spells_groupText rfl rfl
  have hname : IsIdentifier (m.groupText 1) := ⟨(spells_name hspells).1, (spells_name hspells).2⟩
  rw [appendStatement_exportOf] at hu
  have hblank := blank_exportTail ht.agrees (isBare_entryName hm)
  rw [← hu] at hblank
  have hiff : isAppExported (blank u) (m.groupText 1) = true ↔ Undollared (m.groupText 1) := by
    rw [hblank]
    exact any_occursIn_iff hname (fun a b hcut => exists_closer_of_balanced ht.balanced hcut)
      (by simp [exportsOf]) (by simp) hexported
  have hsame : entryDeclaration.first? (blank u) = some m := by
    rw [hblank]
    exact first?_longer rfl (endsWord_exportTail t _) (apart_entryDeclaration _ t _) hm
  refine ⟨m, hm, hiff, ?_⟩
  rw [exportApp, hsame, ← hiff]
  simp

/-- The first start function is exported behind the edit exactly if its name has no dollar sign at
either end, and then not once more. -/
theorem exportStart_settles {u : Text} (ht : EndsBalanced t) (hu : exportStart t = some u) :
    ∃ x, (startFunctions (blank t)).head? = some x ∧
      (isFunctionExported (blank u) x.1 = true ↔ Undollared x.1) ∧
      (Undollared x.1 → exportStart u = none) := by
  obtain ⟨x, hx, hexported, hu⟩ := exists_of_exportStart hu
  have hmem := List.mem_of_head? hx
  rw [appendStatement_exportOf] at hu
  have hblank := blank_exportTail ht.agrees (isBare_startFunction hmem)
  rw [← hu] at hblank
  have hiff : isFunctionExported (blank u) x.1 = true ↔ Undollared x.1 := by
    rw [hblank]
    exact any_occursIn_iff (isIdentifier_startFunction hmem)
      (fun a b hcut => exists_closer_of_balanced ht.balanced hcut) (by simp [exportsOf])
      (by simp) (hexported x hmem)
  refine ⟨x, hx, hiff, fun hends => ?_⟩
  obtain ⟨xs, hxs⟩ := exists_startFunctions_exportTail (blank t) t x.1
  rw [← hblank] at hxs
  rw [exportStart, unexportedStart?, if_pos]
  · rfl
  · refine List.any_eq_true.mpr ⟨x, ?_, hiff.mpr hends⟩
    rw [hxs]
    exact List.mem_append_left xs hmem

/-- The application object and the first start function are exported behind the edit, and not once
more, exactly if their names have no dollar sign at either end. -/
theorem exported_once (ht : EndsBalanced t) :
    (∀ u, exportApp t = some u → ∃ m, entryDeclaration.first? (blank t) = some m ∧
      (isAppExported (blank u) (m.groupText 1) = true ↔ Undollared (m.groupText 1)) ∧
      (exportApp u = none ↔ Undollared (m.groupText 1))) ∧
    ∀ u, exportStart t = some u → ∃ x, (startFunctions (blank t)).head? = some x ∧
      (isFunctionExported (blank u) x.1 = true ↔ Undollared x.1) ∧
      (Undollared x.1 → exportStart u = none) :=
  ⟨fun _ hu => exportApp_settles ht hu, fun _ hu => exportStart_settles ht hu⟩

/-- A service whose application object and start function are to be exported. -/
def unexportedService : Text :=
  "const app = express();\nfunction startServer() \x7b\n  app.listen(3000);\n\x7d\n".toList

theorem exported_once_service : EndsBalanced unexportedService ∧
    (∃ u, exportApp unexportedService = some u ∧ exportApp u = none) ∧
    ∃ u, exportStart unexportedService = some u ∧ exportStart u = none := by
  have hends : EndsBalanced unexportedService := by decide
  obtain ⟨happ, hstart⟩ := exported_once hends
  obtain ⟨u, hu⟩ := Option.isSome_iff_exists.mp
    (show (exportApp unexportedService).isSome = true by decide)
  obtain ⟨u', hu'⟩ := Option.isSome_iff_exists.mp
    (show (exportStart unexportedService).isSome = true by decide)
  obtain ⟨m, hm, -, hnone⟩ := happ u hu
  obtain ⟨x, hx, -, hnone'⟩ := hstart u' hu'
  have hentry : ∀ m ∈ entryDeclaration.first? (blank unexportedService),
      Undollared (m.groupText 1) := by
    decide
  have hfunction : ∀ x ∈ (startFunctions (blank unexportedService)).head?, Undollared x.1 := by
    decide
  exact ⟨hends, ⟨u, hu, hnone.mpr (hentry m hm)⟩, u', hu', hnone' (hfunction x hx)⟩

/-- An export of a name that begins with a dollar sign is not found, and is put there again. -/
theorem not_always_exported : ¬ ∀ t, EndsBalanced t →
    (∀ u, exportApp t = some u → ∀ m, entryDeclaration.first? (blank t) = some m →
      isAppExported (blank u) (m.groupText 1) = true ∧ exportApp u = none) ∧
    ∀ u, exportStart t = some u → ∀ x, (startFunctions (blank t)).head? = some x →
      isFunctionExported (blank u) x.1 = true ∧ exportStart u = none := by
  intro h
  have hends : EndsBalanced "const $app = express();\n".toList := by decide
  have htwice : ∃ u ∈ exportApp "const $app = express();\n".toList, exportApp u ≠ none ∧
      (entryDeclaration.first? (blank "const $app = express();\n".toList)).isSome = true := by
    decide
  obtain ⟨u, hu, hne, hsome⟩ := htwice
  obtain ⟨m, hm⟩ := Option.isSome_iff_exists.mp hsome
  exact hne ((h _ hends).1 u hu m hm).2

end Once

end ServiceGate
