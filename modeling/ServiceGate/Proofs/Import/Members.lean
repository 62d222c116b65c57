/-
# Members of an import that are read back

What is read of the braces of an import are words, between white space and commas (`Between`), so
every name of a member is a word (`IsRead`).  Braces written from such members are read back entry
by entry (`readList_braces`), and an entry is the member that it was written from (`read?_render`),
but for a member of the name `type` that is bound to another name.

Reading goes by commas first and by white space then, and neither stands in a name.  The word `type`
in front of a name makes a member of types, and `as` between two names binds the first under the
second; a member written from its two names has these words where reading looks for them
(`ofWords_renderNames`).
-/
import ServiceGate.Import.Read
import ServiceGate.Proofs.ObjectLiteral.Piece
import ServiceGate.Proofs.Route.Written
import ServiceGate.Proofs.Text.Pieces

namespace ServiceGate

variable {t u v w x : Text} {c : Char} {m : ImportMember} {ms : List ImportMember}
  {texts : List Text}

/-! ## Parts of a text between separators -/

def separates (c : Char) : Bool := CharClass.isSpace c || c == ','

/-- `w` is a part of a text, and what stands next to it are separators. -/
def Between (w t : Text) : Prop :=
  ∃ a b, t = a ++ w ++ b ∧ (∀ c ∈ a.getLast?, separates c = true) ∧ ∀ c ∈ b.head?,
  separates c = true

theorem separates_of_isSpace (h : CharClass.isSpace c = true) : separates c = true :=
  Bool.or_eq_true_iff.mpr (.inl h)

namespace Between

theorem refl (t : Text) : Between t t := ⟨[], [], by simp, by simp, by simp⟩

theorem trans (h : Between u w) (h' : Between w t) : Between u t := by
  obtain ⟨a, b, rfl, ha, hb⟩ := h
  obtain ⟨a', b', rfl, ha', hb'⟩ := h'
  refine ⟨a' ++ a, b ++ b', by simp only [List.append_assoc], fun c hc => ?_, fun c hc => ?_⟩
  · rw [List.getLast?_append] at hc
    cases hlast : a.getLast? with
    | none => exact ha' c (by simpa [hlast] using hc)
    | some d => exact ha c (by simpa [hlast] using hc)
  · rw [List.head?_append] at hc
    cases hhead : b.head? with
    | none => exact hb' c (by simpa [hhead] using hc)
    | some d => exact hb c (by simpa [hhead] using hc)

theorem subset (h : Between w t) : ∀ c ∈ w, c ∈ t := by
  obtain ⟨a, b, rfl, -⟩ := h
  exact fun c hc => List.mem_append_left _ (List.mem_append_right _ hc)

theorem of_mem_splitWhere {f : Char → Bool} (hf : ∀ c, f c = true → separates c = true) :
    ∀ {t : Text}, w ∈ Text.splitWhere f t → Between w t := by
  -- a piece is the first one, with the separator behind it, or a piece of what comes behind
  suffices hfirst : ∀ t : Text, ∃ first rest, Text.splitWhere f t = first :: rest ∧
      (∃ b, t = first ++ b ∧ ∀ c ∈ b.head?, separates c = true) ∧
        ∀ w ∈ rest, ∃ a b, t = a ++ w ++ b ∧ (∃ c ∈ a.getLast?, separates c = true) ∧
          ∀ c ∈ b.head?, separates c = true by
    intro t hw
    obtain ⟨first, rest, hsplit, ⟨b, hcut, hb⟩, hrest⟩ := hfirst t
    rw [hsplit] at hw
    cases List.mem_cons.mp hw with
    | inl heq => exact ⟨[], b, by rw [heq, hcut]; rfl, by simp, hb⟩
    | inr hmem =>
        obtain ⟨a, b, hcut, ⟨d, hd, hsep⟩, hb⟩ := hrest w hmem
        refine ⟨a, b, hcut, fun c hc => ?_, hb⟩
        rwa [Option.some.inj (hc.symm.trans hd)]
  intro t
  induction t with
  | nil => exact ⟨[], [], rfl, ⟨[], rfl, by simp⟩, by simp⟩
  | cons d t ih =>
      obtain ⟨first, rest, hsplit, ⟨b, hcut, hb⟩, hrest⟩ := ih
      have hbehind : ∀ w ∈ rest, ∃ a b, d :: t = a ++ w ++ b ∧
          (∃ c ∈ a.getLast?, separates c = true) ∧ ∀ c ∈ b.head?, separates c = true := by
        intro w hw
        obtain ⟨a, b, hcut, ⟨e, he, hsep⟩, hb⟩ := hrest w hw
        refine ⟨d :: a, b, by rw [hcut]; rfl, ⟨e, ?_, hsep⟩, hb⟩
        rw [List.getLast?_cons, Option.mem_def.mp he]
        rfl
      cases hd : f d with
      | true =>
          refine ⟨[], first :: rest, by rw [Text.splitWhere_pos hd, hsplit],
            ⟨d :: t, rfl, fun c hc => ?_⟩, fun w hw => ?_⟩
          · rw [← Option.some.inj hc]
            exact hf d hd
          · cases List.mem_cons.mp hw with
            | inl heq => exact ⟨[d], b, by rw [heq, hcut]; rfl, ⟨d, rfl, hf d hd⟩, hb⟩
            | inr hmem => exact hbehind w hmem
      | false =>
          exact ⟨d :: first, rest, Text.splitWhere_neg hd hsplit, ⟨b, by rw [hcut]; rfl, hb⟩,
            hbehind⟩

theorem trim (t : Text) : Between t.trim t := by
  obtain ⟨a, ha, hspaces, -⟩ := exists_trimStart t
  obtain ⟨b, hb, hspaces'⟩ := exists_trimEnd t.trimStart
  refine ⟨a, b, by rw [List.append_assoc, Text.trim, ← hb, ← ha], fun c hc => ?_, fun c hc => ?_⟩
  · exact separates_of_isSpace (hspaces c (List.mem_of_getLast? hc))
  · exact separates_of_isSpace (hspaces' c (List.mem_of_head? hc))

end Between

theorem stripStart?_eq_some : ∀ {head t rest : Text},
    Text.stripStart? head t = some rest ↔ t = head ++ rest
  | [], t, rest => by rw [Text.stripStart?, Option.some.injEq, List.nil_append]
  | h :: head, [], rest => by simp [Text.stripStart?]
  | h :: head, c :: t, rest => by
      have hstrip : Text.stripStart? (h :: head) (c :: t) =
        if c == h then Text.stripStart? head t else none := rfl
      rw [hstrip, List.cons_append, List.cons.injEq]
      cases hc : c == h with
      | true => rw [if_pos rfl, stripStart?_eq_some, beq_iff_eq.mp hc, eq_self, true_and]
      | false => simp [beq_eq_false_iff_ne.mp hc]

namespace ImportMember

/-! ## Members as they are read -/

/-- One word of the braces of an import. -/
structure IsWord (w : Text) : Prop where
  ne_nil : w ≠ []
  chars : ∀ c ∈ w, separates c = false

/-- Both names of the member are words. -/
structure IsRead (m : ImportMember) : Prop where
  imported : IsWord m.imported
  boundAs : IsWord m.boundAs

theorem isWord_of_mem_words (h : w ∈ t.words) (ht : ',' ∉ t) : IsWord w ∧ Between w t := by
  obtain ⟨hmem, hne⟩ := List.mem_filter.mp h
  refine ⟨⟨by simpa using hne, fun c hc => ?_⟩,
    .of_mem_splitWhere (fun c => separates_of_isSpace) hmem⟩
  obtain ⟨hct, hspace⟩ := RoutePath.mem_of_mem_splitWhere hmem hc
  exact Bool.or_eq_false_iff.mpr ⟨hspace, beq_eq_false_iff_ne.mpr fun heq => ht (heq ▸ hct)⟩

def ofWords (typeOnly : Bool) : List Text → Option ImportMember
  | [] => none
  | imported :: second :: third :: _ =>
    some ⟨imported, if second == "as".toList then third else imported, typeOnly⟩
  | imported :: _ => some ⟨imported, imported, typeOnly⟩

theorem read?_eq (t : Text) : read? t =
    match Text.stripStart? "type ".toList t with
    | some rest => ofWords true rest.trim.words
    | none => ofWords false t.words := by
  rw [read?]
  cases Text.stripStart? "type ".toList t with
  | none =>
      dsimp only
      rcases t.words with _ | ⟨_, _ | ⟨_, _ | _⟩⟩ <;> rfl
  | some rest =>
      dsimp only
      rcases rest.trim.words with _ | ⟨_, _ | ⟨_, _ | _⟩⟩ <;> rfl

theorem mem_of_ofWords {typeOnly : Bool} {words : List Text} (h : ofWords typeOnly words = some m) :
    m.imported ∈ words ∧ m.boundAs ∈ words := by
  match words, h with
  | [imported], h => cases h; simp
  | [imported, second], h => cases h; simp
  | imported :: second :: third :: rest, h =>
      cases h
      dsimp only
      split_ifs <;> simp

theorem words_of_read? (h : read? t = some m) : ∃ u, Between u t ∧ m.imported ∈ u.words ∧
    m.boundAs ∈ u.words := by
  rw [read?_eq] at h
  cases hstrip : Text.stripStart? "type ".toList t with
  | none =>
      rw [hstrip] at h
      exact ⟨t, .refl t, mem_of_ofWords h⟩
  | some rest =>
      rw [hstrip] at h
      refine ⟨rest.trim, .trans (.trim rest) ⟨"type ".toList, [], ?_, by decide, by simp⟩,
        mem_of_ofWords h⟩
      rw [List.append_nil]
      exact stripStart?_eq_some.mp hstrip

theorem of_mem_readList (h : m ∈ readList t) : m.IsRead ∧ Between m.imported t ∧
    Between m.boundAs t := by
  obtain ⟨entry, hentry, hm⟩ := List.mem_filterMap.mp h
  obtain ⟨piece, hpiece, rfl⟩ := List.mem_map.mp (List.mem_filter.mp hentry).1
  obtain ⟨u, hu, himported, hbound⟩ := words_of_read? hm
  have hpart : Between u piece := hu.trans (.trim piece)
  have htext : Between piece t :=
    .of_mem_splitWhere (fun c hc => Bool.or_eq_true_iff.mpr (.inr hc)) hpiece
  have hcomma : ',' ∉ u := fun hmem => by
    have := (RoutePath.mem_of_mem_splitWhere hpiece (hpart.subset _ hmem)).2
    exact absurd this (by decide)
  obtain ⟨hword, hin⟩ := isWord_of_mem_words himported hcomma
  obtain ⟨hword', hin'⟩ := isWord_of_mem_words hbound hcomma
  exact ⟨⟨hword, hword'⟩, (hin.trans hpart).trans htext, (hin'.trans hpart).trans htext⟩

/-! ## Members as they are written -/

namespace IsWord

theorem isSpace (h : IsWord w) (hc : c ∈ w) : CharClass.isSpace c = false :=
  (Bool.or_eq_false_iff.mp (h.chars c hc)).1

theorem noComma (h : IsWord w) : ',' ∉ w := fun hc => absurd (h.chars ',' hc) (by decide)

theorem words (h : IsWord w) : w.words = [w] := by
  rw [Text.words, Text.splitWhere_of_forall fun c hc => h.isSpace hc,
    List.filter_cons_of_pos (by simpa using h.ne_nil), List.filter_nil]

theorem words_append (h : IsWord w) (t : Text) : (w ++ ' ' :: t).words = w :: t.words := by
  rw [Text.words, Text.splitWhere_append rfl, Text.splitWhere_of_forall fun c hc => h.isSpace hc,
    List.singleton_append, List.filter_cons_of_pos (by simpa using h.ne_nil), Text.words]

end IsWord

/-- A text without white space at its ends. -/
structure Trimmed (t : Text) : Prop where
  ne_nil : t ≠ []
  head : ∀ c ∈ t.head?, CharClass.isSpace c = false
  last : ∀ c ∈ t.getLast?, CharClass.isSpace c = false

namespace Trimmed

theorem of_ends (hu : u ≠ []) (hv : v ≠ []) (hhead : ∀ c ∈ u, CharClass.isSpace c = false)
    (hlast : ∀ c ∈ v, CharClass.isSpace c = false) (w : Text) : Trimmed (u ++ w ++ v) where
  ne_nil := by simp [hu]
  head c hc := by
    rw [List.append_assoc, List.head?_append_of_ne_nil _ hu] at hc
    exact hhead c (List.mem_of_head? hc)
  last c hc := by
    rw [List.getLast?_append_of_ne_nil _ hv] at hc
    exact hlast c (List.mem_of_getLast? hc)

theorem trim_eq (h : Trimmed t) (hu : Spaces u) (hv : Spaces v) : (u ++ t ++ v).trim = t := by
  obtain ⟨c, w, rfl⟩ := List.exists_cons_of_ne_nil h.ne_nil
  have hstart : (u ++ (c :: w) ++ v).trimStart = c :: w ++ v := by
    rw [List.append_assoc]
    exact trimStart_spaces hu fun d hd => h.head d hd
  obtain ⟨w', d, hw⟩ := (List.eq_nil_or_concat' (c :: w)).resolve_left h.ne_nil
  have hd : CharClass.isSpace d = false := h.last d (by rw [hw]; simp)
  rw [Text.trim, hstart, hw, Text.trimEnd, Text.trimEndWhere, List.reverse_append,
    List.dropWhile_append_of_pos fun e he => hv e (List.mem_reverse.mp he), List.reverse_append,
    List.reverse_singleton, List.singleton_append,
    List.dropWhile_cons_of_neg (by rw [hd]; exact Bool.false_ne_true), List.reverse_cons,
    List.reverse_reverse]

end Trimmed

def renderNames (m : ImportMember) : Text :=
  if m.imported == m.boundAs then m.imported else m.imported ++ " as ".toList ++ m.boundAs

theorem render_eq (m : ImportMember) :
    m.render = (if m.typeOnly then "type ".toList else []) ++ m.renderNames := rfl

theorem notMem_render (hc : c ∉ "type as ".toList) (hnames : c ∉ m.imported ++ m.boundAs) :
    c ∉ m.render := by
  obtain ⟨himported, hbound⟩ := not_or.mp (mt List.mem_append.mpr hnames)
  have htype : c ∉ "type ".toList := fun hmem => hc (by revert hmem; simp; tauto)
  have has : c ∉ " as ".toList := fun hmem => hc (by revert hmem; simp; tauto)
  rw [render_eq, renderNames]
  split_ifs <;> simp only [List.mem_append, List.nil_append, not_or] <;> tauto

namespace IsRead

theorem words_renderNames (h : m.IsRead) : m.renderNames.words =
    if m.imported == m.boundAs then [m.imported] else [m.imported, "as".toList, m.boundAs] := by
  have has : IsWord "as".toList := ⟨by decide, by decide⟩
  rw [renderNames]
  split_ifs
  · exact h.imported.words
  · have htext : m.imported ++ " as ".toList ++ m.boundAs =
        m.imported ++ ' ' :: ("as".toList ++ ' ' :: m.boundAs) := by
      rw [List.append_assoc]
      rfl
    rw [htext, h.imported.words_append, has.words_append, h.boundAs.words]

theorem trimmed_renderNames (h : m.IsRead) : Trimmed m.renderNames := by
  have hspace : ∀ {w : Text}, IsWord w → ∀ c ∈ w, CharClass.isSpace c = false := fun hw _ hc =>
    hw.isSpace hc
  rw [renderNames]
  split_ifs
  · exact ⟨h.imported.ne_nil, fun c hc => hspace h.imported c (List.mem_of_head? hc),
      fun c hc => hspace h.imported c (List.mem_of_getLast? hc)⟩
  · exact .of_ends h.imported.ne_nil h.boundAs.ne_nil (hspace h.imported) (hspace h.boundAs) _

theorem trimmed_render (h : m.IsRead) : Trimmed m.render := by
  have hnames := h.trimmed_renderNames
  rw [render_eq]
  split_ifs
  · refine ⟨by simp, fun c hc => ?_, fun c hc => ?_⟩
    · rw [← Option.some.inj hc]
      rfl
    · rw [List.getLast?_append_of_ne_nil _ hnames.ne_nil] at hc
      exact hnames.last c hc
  · exact hnames

theorem ofWords_renderNames (h : m.IsRead) (typeOnly : Bool) :
    ofWords typeOnly m.renderNames.words = some ⟨m.imported, m.boundAs, typeOnly⟩ := by
  rw [h.words_renderNames]
  cases heq : m.imported == m.boundAs with
  | true => rw [← beq_iff_eq.mp heq]; rfl
  | false => rfl

/-- A member is read back from what is written for it. -/
theorem read?_render (h : m.IsRead)
    (htype : m.imported = "type".toList → m.typeOnly = true ∨ m.imported = m.boundAs) :
    read? m.render = some m := by
  have hnames := h.ofWords_renderNames m.typeOnly
  have hblank : ∀ {w : Text}, IsWord w → ' ' ∉ w := fun hw hmem =>
    absurd (hw.isSpace hmem) (by decide)
  rw [read?_eq, render_eq]
  cases hm : m.typeOnly with
  | true =>
      have htrim : m.renderNames.trim = m.renderNames := by
        simpa using h.trimmed_renderNames.trim_eq (u := []) (v := []) (by simp [Spaces])
          (by simp [Spaces])
      rw [if_pos rfl, stripStart?_eq_some.mpr rfl]
      dsimp only
      rw [htrim, ← hm, hnames]
  | false =>
      -- only a name in front of `as` could be taken for the word `type`
      have hstrip : Text.stripStart? "type ".toList m.renderNames = none := by
        refine Option.eq_none_iff_forall_ne_some.mpr fun rest hrest => ?_
        have hcut := stripStart?_eq_some.mp hrest
        rw [renderNames] at hcut
        split_ifs at hcut with heq
        · refine hblank h.imported ?_
          rw [hcut]
          exact List.mem_append_left _ (by decide)
        · rw [List.append_assoc] at hcut
          have hword : m.imported = "type".toList :=
            Text.eq_of_notMem (hblank h.imported) (by decide) hcut
          simp [hm, beq_eq_false_iff_ne.mp (Bool.eq_false_iff.mpr heq)] at htype
          exact htype hword
      rw [if_neg Bool.false_ne_true, List.nil_append, hstrip]
      dsimp only
      rw [← hm, hnames]

end IsRead

/-! ## Braces -/

/-- What stands between the braces that are written for some members. -/
def braces (ms : List ImportMember) : Text :=
  ' ' :: (Text.join ", ".toList (ms.map (·.render)) ++ [' '])

theorem map_trim_pieces : ∀ {texts : List Text}, texts ≠ [] → (∀ t ∈ texts, Trimmed t ∧ ',' ∉ t) →
    (Text.pieces (' ' :: (Text.join ", ".toList texts ++ [' '])) ',').map Text.trim = texts
  | [], h, _ => absurd rfl h
  | [t], _, h => by
      obtain ⟨htrimmed, hcomma⟩ := h t List.mem_cons_self
      have hjoin : ' ' :: (Text.join ", ".toList [t] ++ [' ']) = [' '] ++ t ++ [' '] := by
        simp [Text.join, List.intercalate]
      have hfree : ',' ∉ [' '] ++ t ++ [' '] := by simp [hcomma]
      rw [hjoin, Text.pieces_of_notMem hfree, List.map_singleton,
        htrimmed.trim_eq (by simp [Spaces]; decide) (by simp [Spaces]; decide)]
  | t :: u :: texts, _, h => by
      obtain ⟨⟨htrimmed, hcomma⟩, hrest⟩ := List.forall_mem_cons.mp h
      have hjoin : ' ' :: (Text.join ", ".toList (t :: u :: texts) ++ [' ']) =
          ([' '] ++ t ++ []) ++ ',' :: (' ' :: (Text.join ", ".toList (u :: texts) ++ [' '])) := by
        simp [Text.join, List.intercalate, List.append_assoc]
      have hfree : ',' ∉ [' '] ++ t ++ [] := by simp [hcomma]
      rw [hjoin, Text.pieces_append, Text.pieces_of_notMem hfree, List.map_append,
        List.map_singleton, map_trim_pieces (List.cons_ne_nil _ _) hrest,
        htrimmed.trim_eq (by simp [Spaces]; decide) (by simp [Spaces])]
      rfl

theorem readList_braces (hne : ms ≠ []) (h : ∀ m ∈ ms, m.IsRead) :
    readList (braces ms) = ms.filterMap fun m => read? m.render := by
  have hrendered : ∀ t ∈ ms.map (·.render), Trimmed t ∧ ',' ∉ t := by
    intro t ht
    obtain ⟨m, hm, rfl⟩ := List.mem_map.mp ht
    refine ⟨(h m hm).trimmed_render, notMem_render (by decide) ?_⟩
    simp [(h m hm).imported.noComma, (h m hm).boundAs.noComma]
  have hkeep : ∀ t ∈ ms.map (·.render), (!t.isEmpty) = true := fun t ht => by
    simpa using (hrendered t ht).1.ne_nil
  rw [readList, braces, map_trim_pieces (by simpa using hne) hrendered,
    List.filter_eq_self.mpr hkeep, List.filterMap_map]
  rfl

end ImportMember

end ServiceGate
