/-
# Names that a text exports

A declaration is exported by the word `export`, words that modify it, and the words of its form,
with white space behind each, in front of the name.  The forms of one word are read, and their names
are found wherever the declaration stands (`exported_names`).

The two forms of two words are not.  In the one, the second word is taken for the name; the other is
passed over. So a word that no declaration can be named by may count as an exported name, and the
name of an exported declaration need not (`not_only_names`).
-/
import ServiceGate.Proofs.Import.Written
import ServiceGate.Proofs.Project.Collisions
import ServiceGate.Proofs.Rule.Unnarrowed

namespace ServiceGate.Exported

open Pattern
open Text (size)

variable {b p q x y z w o k s gap lead front back rest name : Text} {ws ws' ms : List Text}
  {n rounds : Nat} {cs : List Capture} {m : Match}

/-! ## Words with white space behind them -/

/-- White space, at least one character. -/
def IsGap (gap : Text) : Prop := gap ≠ [] ∧ ∀ c ∈ gap, CharClass.isSpace c = true

instance (gap : Text) : Decidable (IsGap gap) := inferInstanceAs (Decidable (_ ∧ _))

/-- A word of the source language. -/
def IsWord (w : Text) : Prop := w ≠ [] ∧ ∀ c ∈ w, isNameChar c = true

/-- Words, with white space behind each of them. -/
inductive Spaced : List Text → Text → Prop
  | nil : Spaced [] []
  | cons {w gap lead : Text} {ws : List Text} : IsGap gap → Spaced ws lead → Spaced (w :: ws)
      (w ++ (gap ++ lead))

theorem IsGap.notName (h : IsGap gap) (z : Text) : ∀ c ∈ (gap ++ z).head?,
    isNameChar c = false := by
  obtain ⟨hne, hspace⟩ := h
  obtain ⟨d, gap, rfl⟩ := List.exists_cons_of_ne_nil hne
  intro c hc
  obtain rfl := Option.some.inj hc
  exact ImportStatement.isNameChar_of_isSpace (hspace d List.mem_cons_self)

theorem IsWord.notSpace (h : IsWord w) (z : Text) : ∀ c ∈ (w ++ z).head?,
    CharClass.isSpace c = false := by
  obtain ⟨hne, hchars⟩ := h
  obtain ⟨d, w, rfl⟩ := List.exists_cons_of_ne_nil hne
  intro c hc
  obtain rfl := Option.some.inj hc
  refine Bool.eq_false_iff.mpr fun hspace => ?_
  have hname := hchars d List.mem_cons_self
  rw [ImportStatement.isNameChar_of_isSpace hspace] at hname
  cases hname

theorem Spaced.append {lead' : Text} (h : Spaced ws lead) (h' : Spaced ws' lead') :
    Spaced (ws ++ ws') (lead ++ lead') := by
  induction h with
  | nil => exact h'
  | cons hgap _ ih =>
      rw [List.append_assoc, List.append_assoc]
      exact .cons hgap ih

theorem Spaced.append_iff : Spaced (ws ++ ws') x ↔ ∃ lead lead', x = lead ++ lead' ∧
    Spaced ws lead ∧ Spaced ws' lead' := by
  constructor
  · intro h
    induction ws generalizing x with
    | nil => exact ⟨[], x, rfl, .nil, h⟩
    | cons w ws ih =>
        cases h with
        | @cons _ gap rest _ hgap hrest =>
            obtain ⟨lead, lead', rfl, hlead, hlead'⟩ := ih hrest
            exact ⟨w ++ (gap ++ lead), lead', by simp, .cons hgap hlead, hlead'⟩
  · rintro ⟨lead, lead', rfl, hlead, hlead'⟩
    exact hlead.append hlead'

theorem Spaced.notSpace (hws : ∀ w ∈ ws, IsWord w) (h : Spaced ws lead)
    (hz : ∀ c ∈ z.head?, CharClass.isSpace c = false) : ∀ c ∈ (lead ++ z).head?,
    CharClass.isSpace c = false := by
  cases h with
  | nil => exact hz
  | cons =>
      rw [List.append_assoc]
      exact (hws _ List.mem_cons_self).notSpace _

theorem IsWord.eq_of_prefix (hw : IsWord w) (ho : IsWord o) (hgap : IsGap gap) {gap' : Text}
    (hgap' : IsGap gap') (hcut : w ++ (gap ++ y) = o ++ (gap' ++ z)) : w = o :=
  class_unique hcut hw.2 ho.2 (hgap.notName y) (hgap'.notName z)

theorem Spaced.exists_start (hws : ∀ w ∈ ws, IsWord w) (h : Spaced ws lead) (hw : IsWord w)
    (hgap : IsGap gap) (hcut : lead ++ z = x ++ (w ++ (gap ++ y)))
    (hx : ∀ c ∈ x.getLast?, isNameChar c = false) :
    (∃ ws₁ ws₂, ws = ws₁ ++ w :: ws₂ ∧ Spaced ws₁ x) ∨ ∃ x', x = lead ++ x' ∧
    z = x' ++ (w ++ (gap ++ y)) := by
  induction h generalizing x with
  | nil => exact .inr ⟨x, rfl, hcut⟩
  | @cons w' gap' lead ws hgap' hlead ih =>
      rw [List.append_assoc, List.append_assoc] at hcut
      have hw' := hws w' List.mem_cons_self
      cases x with
      | nil => exact .inl ⟨[], ws, by rw [hw'.eq_of_prefix hw hgap' hgap hcut]; rfl, .nil⟩
      | cons c x =>
          -- the place is behind the first word, and behind the white space that follows it
          obtain ⟨v, hv, hrest⟩ : ∃ v, c :: x = w' ++ v ∧
              gap' ++ (lead ++ z) = v ++ (w ++ (gap ++ y)) := by
            rcases List.append_eq_append_iff.mp hcut with ⟨v, hv, hrest⟩ | ⟨v, hv, -⟩
            · exact ⟨v, hv, hrest⟩
            · have hlast := List.getLast?_eq_getLast_of_ne_nil (List.cons_ne_nil c x)
              have hname :=
                hw'.2 _ (hv ▸ List.mem_append_left v (List.getLast_mem (List.cons_ne_nil c x)))
              rw [hx _ hlast] at hname
              cases hname
          obtain ⟨u, rfl, hlead'⟩ : ∃ u, v = gap' ++ u ∧ lead ++ z = u ++ (w ++ (gap ++ y)) := by
            rcases List.append_eq_append_iff.mp hrest with ⟨u, hu, hrest⟩ | ⟨u, hu, hrest⟩
            · exact ⟨u, hu, hrest⟩
            · cases u with
              | nil => exact ⟨[], by simpa using hu.symm, hrest.symm⟩
              | cons d u =>
                  have hspace := hgap'.2 d (hu ▸ List.mem_append_right v List.mem_cons_self)
                  rw [hw.notSpace _ d (by rw [hrest]; rfl)] at hspace
                  cases hspace
          have hu : ∀ d ∈ u.getLast?, isNameChar d = false := fun d hd => hx d (by
            have hne : u ≠ [] := by
              rintro rfl
              cases hd
            rw [hv, List.getLast?_append_of_ne_nil _ (by simp [hne]),
              List.getLast?_append_of_ne_nil _ hne]
            exact hd)
          rcases ih (fun w hw => hws w (List.mem_cons_of_mem _ hw)) hlead' hu with
              ⟨ws₁, ws₂, rfl, hws₁⟩ | ⟨x', rfl, hz⟩
          · exact .inl ⟨w' :: ws₁, ws₂, rfl, hv ▸ .cons hgap' hws₁⟩
          · exact .inr ⟨x', by rw [hv]; simp, hz⟩

/-! ## Declarations -/

def modifiers : List Text := ["default", "declare", "abstract"].map String.toList

/-- The words that alone are the form of a declaration. -/
def declarators : List Text :=
  ["interface", "type", "class", "enum", "const", "let", "function"].map String.toList

def forms : List (List Text) :=
  declarators.map ([·]) ++ [["const".toList, "enum".toList], ["async".toList, "function".toList]]

def reserved : List Text :=
  ["break", "case", "catch", "class", "const", "continue", "debugger", "default", "delete", "do",
    "else", "enum",
    "export", "extends", "false", "finally", "for", "function", "if", "import", "in", "instanceof",
    "new", "null",
    "return", "super", "switch", "this", "throw", "true", "try", "typeof", "var", "void", "while",
    "with"].map String.toList

/-- At a place a declaration of some form is exported: the words stand there, and the whole name
behind them. -/
def Declares (b : Text) (n : Nat) (form : List Text) (name : Text) : Prop :=
  ∃ ms front lead back, ms.Sublist modifiers ∧ b = front ++ (lead ++ (name ++ back)) ∧
  n = size front ∧
    WordStart front ∧ Spaced ("export".toList :: (ms ++ form)) lead ∧ Spells Pattern.name name ∧
      ∀ c ∈ back.head?, isNameChar c = false

/-- What stands at a place is neither the end of a longer name nor a member. -/
def Alone (b : Text) (n : Nat) : Prop := ∀ c ∈ (b.before n).getLast?, isNameChar c = false ∧ c ≠ '.'

instance (b : Text) (n : Nat) : Decidable (Alone b n) :=
  inferInstanceAs (Decidable (∀ c ∈ (b.before n).getLast?, isNameChar c = false ∧ c ≠ '.'))

theorem isWord_of_mem : ∀ w ∈ "export".toList :: (modifiers ++ declarators) ++ ["async".toList],
    IsWord w := by
  have hwords : ∀ w ∈ "export".toList :: (modifiers ++ declarators) ++ ["async".toList],
      w ≠ [] ∧ ∀ c ∈ w, isNameChar c = true := by decide
  exact hwords

theorem isWord_opening (hms : ms.Sublist modifiers) (hk : k ∈ declarators) :
    ∀ w ∈ "export".toList :: (ms ++ [k]), IsWord w := by
  intro w hw
  refine isWord_of_mem w (List.mem_append_left _ ?_)
  simp only [List.mem_cons, List.mem_append, List.not_mem_nil, or_false] at hw ⊢
  rcases hw with rfl | hw | rfl
  · exact .inl rfl
  · exact .inr (.inl (hms.mem hw))
  · exact .inr (.inr hk)

/-! ## How a declaration is read -/

theorem spells_gap (h : Spells Pattern.gap w) : IsGap w := by
  obtain ⟨u, v, rfl, hu, hv⟩ := spells_seq h
  cases hu with
  | @char _ c hc =>
      exact ⟨List.cons_ne_nil _ _, List.forall_mem_cons.mpr ⟨hc, spells_many_char hv⟩⟩

/-- The pattern of a word with white space behind it. -/
abbrev spaced (w : String) : Pattern := seq (word w) Pattern.gap

theorem spells_spaced {w : String} (h : Spells (spaced w) x) : Spaced [w.toList] x := by
  obtain ⟨u, gap, rfl, hu, hgap⟩ := spells_seq h
  rw [spells_literal hu, ← List.append_nil gap]
  exact .cons (spells_gap hgap) .nil

theorem refuses_spaced {w : String} (hw : IsWord w.toList) (ho : IsWord o) (hne : w.toList ≠ o)
    (hgap : IsGap gap) :
    Refuses rounds (spaced w) (Reading.past front (o ++ (gap ++ y)) cs) := by
  refine refuses_of_spells fun u v hcut hu => hne ?_
  cases spells_spaced hu with
  | @cons _ gap' lead _ hgap' hlead =>
      have hcut : o ++ (gap ++ y) = w.toList ++ (gap' ++ (lead ++ v)) := by
        simpa [Reading.past] using hcut
      exact (ho.eq_of_prefix hw hgap hgap' hcut).symm

theorem prefers_gap (hgap : IsGap gap) (hrest : ∀ c ∈ rest.head?, CharClass.isSpace c = false)
    (hrounds : gap.length ≤ rounds) (front : Text) (cs : List Capture) :
    Prefers rounds Pattern.gap (Reading.past front (gap ++ rest) cs)
    (Reading.past (front ++ gap) rest cs) :=
  .plus hgap.1 hgap.2 hrest hrounds front cs

theorem prefers_spaced (w : String) (hgap : IsGap gap)
    (hrest : ∀ c ∈ rest.head?, CharClass.isSpace c = false) (hrounds : gap.length ≤ rounds)
    (front : Text) (cs : List Capture) :
    Prefers rounds (spaced w) (Reading.past front (w.toList ++ (gap ++ rest)) cs)
      (Reading.past (front ++ (w.toList ++ gap)) rest cs) := by
  rw [← List.append_assoc front]
  exact .seq (.literal _ _) (prefers_gap hgap hrest hrounds _ _)

/-- Of several words the one that stands there is read. -/
theorem prefers_anyWord : ∀ {words : List String}, k ∈ words.map String.toList →
    (∀ w ∈ words.map String.toList, w ≠ k →
      Refuses rounds (literal w) (Reading.past front (k ++ rest) cs)) →
      Prefers rounds (anyWord words) (Reading.past front (k ++ rest) cs)
      (Reading.past (front ++ k) rest cs)
  | [w], hk, _ => by
      rw [List.mem_singleton.mp hk]
      exact .literal _ _
  | w :: w' :: words, hk, hothers => by
      by_cases heq : w.toList = k
      · rw [← heq]
        exact .first (.literal _ _) _
      · have hk : k ∈ (w' :: words).map String.toList := (List.mem_cons.mp hk).resolve_left fun h =>
          heq h.symm
        exact .second (hothers _ List.mem_cons_self heq)
          (prefers_anyWord hk fun w hw => hothers w (List.mem_cons_of_mem _ hw))

theorem prefers_declarator (hk : k ∈ declarators) (hgap : IsGap gap) :
    Prefers rounds (anyWord ["interface", "type", "class", "enum", "const", "let", "function"])
      (Reading.past front (k ++ (gap ++ y)) cs) (Reading.past (front ++ k) (gap ++ y) cs) := by
  refine prefers_anyWord hk fun w hw hne => refuses_of_spells fun u v hcut hu => hne ?_
  have hcut : k ++ (gap ++ y) = w ++ v := by
    rw [← spells_literal hu]
    exact hcut
  have hwords : ∀ w ∈ declarators, ∀ k ∈ declarators, w <+: k → w = k := by decide
  have hname : ∀ w ∈ declarators, ∀ c ∈ w, isNameChar c = true := by decide
  rcases List.append_eq_append_iff.mp hcut with ⟨z, rfl, hz⟩ | ⟨z, rfl, -⟩
  · cases z with
    | nil => exact List.append_nil k
    | cons c z =>
        have hc := hgap.notName y c (by rw [hz]; rfl)
        rw [hname _ hw c (List.mem_append_right k List.mem_cons_self)] at hc
        cases hc
  · exact hwords w hw _ hk (List.prefix_append w z)

theorem inOrder_cons {p : Pattern} {ps : List Pattern} (hps : ps ≠ []) : inOrder (p :: ps) =
    seq p (inOrder ps) := by
  cases ps with
  | nil => exact absurd rfl hps
  | cons => rfl

/-- Modifiers are read in their order, and those that are not there are passed over. -/
theorem prefers_modifiers {r : Reading} {tail : List Pattern} (htail : tail ≠ []) (hk : IsWord k)
    (hgap : IsGap gap) : ∀ {os : List String} {ms : List Text} {lead front : Text},
    (os.map String.toList).Nodup →
      (∀ w ∈ os.map String.toList, IsWord w ∧ w ≠ k) → ms.Sublist (os.map String.toList) →
      Spaced ms lead →
      lead.length ≤ rounds →
      Prefers rounds (inOrder tail) (Reading.past (front ++ lead) (k ++ (gap ++ y)) cs) r →
        Prefers rounds (inOrder (os.map (fun o => optional (spaced o)) ++ tail))
          (Reading.past front (lead ++ (k ++ (gap ++ y))) cs) r := by
  intro os
  induction os with
  | nil =>
      intro ms lead front _ _ hms hlead _ h
      obtain rfl := List.sublist_nil.mp hms
      cases hlead
      rwa [List.append_nil] at h
  | cons o os ih =>
      intro ms lead front hnodup hos hms hlead hrounds h
      obtain ⟨hnotMem, hnodup⟩ := List.nodup_cons.mp hnodup
      obtain ⟨ho, hos⟩ := List.forall_mem_cons.mp hos
      have hne : os.map (fun o => optional (spaced o)) ++ tail ≠ [] := fun hnil =>
        htail (List.append_eq_nil_iff.mp hnil).2
      rw [List.map_cons, List.cons_append, inOrder_cons hne]
      cases hms with
      | cons _ hms =>
          have hmissing :
              Refuses rounds (spaced o) (Reading.past front (lead ++ (k ++ (gap ++ y))) cs) := by
            cases hlead with
            | nil =>
                rw [List.nil_append]
                exact refuses_spaced ho.1 hk ho.2 hgap
            | @cons w gap' _ _ hgap' _ =>
                have hmem : w ∈ os.map String.toList := hms.mem List.mem_cons_self
                rw [List.append_assoc, List.append_assoc]
                exact refuses_spaced ho.1 (hos w hmem).1 (fun heq => hnotMem (heq ▸ hmem)) hgap'
          exact .seq (.missing hmissing) (ih hnodup hos hms hlead hrounds h)
      | @cons_cons ms _ _ hms =>
          cases hlead with
          | @cons _ gap' lead _ hgap' hlead =>
              have hwords : ∀ w ∈ ms, IsWord w := fun w hw => (hos w (hms.mem hw)).1
              rw [List.length_append, List.length_append] at hrounds
              rw [List.append_assoc, List.append_assoc]
              refine .seq
                (.present (prefers_spaced o hgap' (hlead.notSpace hwords (hk.notSpace _))
                  (by omega) _ _))
                (ih hnodup hos hms hlead (by omega) ?_)
              rwa [List.append_assoc front, List.append_assoc o.toList]

/-- The pattern of an exported name in its parts. -/
theorem exportDeclaration_eq : exportDeclaration =
    seq wordEdge (seq (word "export") (seq Pattern.gap (inOrder
    (["default", "declare", "abstract"].map (fun o => optional (spaced o)) ++
      [anyWord ["interface", "type", "class", "enum", "const", "let", "function"], Pattern.gap,
        capture 1 Pattern.name])))) := rfl

theorem prefers_wordEdge (hfront : WordStart front)
    (hrest : rest.head?.any CharClass.isWord = true) :
    Prefers rounds wordEdge (Reading.past front rest cs) (Reading.past front rest cs) := by
  refine fun _ _ => if_pos ?_
  rw [Cursor.atWordEdge]
  show (front.getLast?.any CharClass.isWord != rest.head?.any CharClass.isWord) = true
  rw [show front.getLast?.any CharClass.isWord = false from hfront, hrest]
  rfl

/-- The form and the whole name are read. -/
theorem prefers_declared (hk : k ∈ declarators) (hgap : IsGap gap)
    (hname : Spells Pattern.name name) (hback : ∀ c ∈ back.head?, isNameChar c = false)
    (hrounds : gap.length + name.length ≤ rounds) :
    Prefers rounds
    (inOrder [anyWord ["interface", "type", "class", "enum", "const", "let", "function"],
      Pattern.gap, capture 1 Pattern.name]) (Reading.past front (k ++ (gap ++ (name ++ back))) [])
      (Reading.past (front ++ k ++ gap ++ name) back [.past 1 (front ++ k ++ gap) name]) := by
  have hspace := IsWord.notSpace (spells_name hname) back
  exact .seq (prefers_declarator hk hgap) (.seq (prefers_gap hgap hspace (by omega) _ _)
    (.capture [] (ImportStatement.prefers_name hname hback (by omega))))

theorem Spaced.exists_opening {w : Text} (h : Spaced (w :: (ms ++ [k])) lead) : ∃ gap mid gap',
    lead = w ++ (gap ++ (mid ++ (k ++ gap'))) ∧ IsGap gap ∧ Spaced ms mid ∧ IsGap gap' := by
  cases h with
  | @cons _ gap _ _ hgap h =>
      obtain ⟨mid, last, rfl, hmid, hlast⟩ := Spaced.append_iff.mp h
      cases hlast with
      | @cons _ gap' _ _ hgap' hnil =>
          cases hnil with
          | nil => exact ⟨gap, mid, gap', by simp, hgap, hmid, hgap'⟩

/-- Where a declaration of one word stands, the pattern reads it with its whole name. -/
theorem matchAt?_declaration (hms : ms.Sublist modifiers) (hk : k ∈ declarators)
    (hfront : WordStart front) (hlead : Spaced ("export".toList :: (ms ++ [k])) lead)
    (hname : Spells Pattern.name name) (hback : ∀ c ∈ back.head?, isNameChar c = false)
    (hrounds : (lead ++ name).length ≤ rounds) :
    exportDeclaration.matchAt? rounds ⟨front.getLast?, size front, lead ++ (name ++ back)⟩ =
      some ⟨size front, size front + size (lead ++ name), lead ++ name,
        [.past 1 (front ++ lead) name]⟩ := by
  rw [← List.append_assoc]
  refine matchAt?_of_prefers ?_
  have hwords := isWord_opening hms hk
  have hkind : IsWord k := hwords k (by simp)
  have hmodifiers : ∀ w ∈ ms, IsWord w := fun w hw => hwords w (by simp [hw])
  obtain ⟨gap, mid, gap', rfl, hgap, hmid, hgap'⟩ := hlead.exists_opening
  simp only [List.length_append] at hrounds
  have hwhole :
      Prefers rounds exportDeclaration (Reading.past front ("export".toList ++ (gap ++ (mid ++
      (k ++ (gap' ++ (name ++ back)))))) [])
      (Reading.past (front ++ ("export".toList ++ gap) ++ mid ++ k ++ gap' ++
        name) back [.past 1 (front ++ ("export".toList ++ gap) ++ mid ++ k ++ gap') name]) := by
    rw [exportDeclaration_eq]
    refine .seq (prefers_wordEdge hfront (by rfl))
      (.assoc (.seq (prefers_spaced "export" hgap ?_ (by omega) front
      []) ?_))
    · exact hmid.notSpace hmodifiers (hkind.notSpace _)
    · refine prefers_modifiers (List.cons_ne_nil _ _) hkind hgap' (by decide)
        (fun w hw => ⟨?_, ?_⟩) hms hmid (by omega)
        (prefers_declared hk hgap' hname hback (by omega))
      · exact isWord_of_mem w
          (List.mem_append_left _ (List.mem_cons_of_mem _ (List.mem_append_left _ hw)))
      · have hapart : ∀ w ∈ modifiers, w ∉ declarators := by decide
        rintro rfl
        exact hapart w hw hk
  simpa using hwhole

/-! ## What the pattern finds -/

theorem spells_modifier {o : String} (h : Spells (optional (spaced o)) x) :
    ∃ ms : List Text, ms.Sublist [o.toList] ∧ Spaced ms x := by
  cases h with
  | altFirst h => exact ⟨_, .refl _, spells_spaced h⟩
  | altSecond h =>
      cases h
      exact ⟨[], List.nil_sublist _, .nil⟩

theorem spells_exportDeclaration (h : Spells exportDeclaration x) : ∃ ms k lead name,
    x = lead ++ name ∧
    ms.Sublist modifiers ∧ k ∈ declarators ∧ Spaced ("export".toList :: (ms ++ [k])) lead ∧
      Spells Pattern.name name := by
  obtain ⟨edge, _, rfl, hedge, h⟩ := spells_seq h
  obtain ⟨word, _, rfl, hword, h⟩ := spells_seq h
  obtain ⟨gap, _, rfl, hgap, h⟩ := spells_seq h
  obtain ⟨x, _, rfl, hx, h⟩ := spells_seq h
  obtain ⟨y, _, rfl, hy, h⟩ := spells_seq h
  obtain ⟨z, _, rfl, hz, h⟩ := spells_seq h
  obtain ⟨k, _, rfl, hk, h⟩ := spells_seq h
  obtain ⟨gap', name, rfl, hgap', hname⟩ := spells_seq h
  obtain ⟨xs, hxs, hx⟩ := spells_modifier hx
  obtain ⟨ys, hys, hy⟩ := spells_modifier hy
  obtain ⟨zs, hzs, hz⟩ := spells_modifier hz
  refine ⟨xs ++ (ys ++ zs), k, "export".toList ++ (gap ++ (x ++ (y ++ z) ++ (k ++ (gap' ++ [])))),
    name, ?_, hxs.append (hys.append hzs), spells_anyWord hk, ?_, spells_capture hname⟩
  · rw [spells_wordEdge hedge, spells_literal hword]
    simp
  · exact .cons (spells_gap hgap)
      ((hx.append (hy.append hz)).append (.cons (spells_gap hgap') .nil))

theorem spells_name_append (h : Spells Pattern.name x) (hy : ∀ c ∈ y, isNameChar c = true) :
    Spells Pattern.name (x ++ y) := by
  obtain ⟨u, v, rfl, hu, hv⟩ := spells_seq h
  rw [List.append_assoc]
  exact .seq hu (spells_many_of_forall (List.forall_mem_append.mpr ⟨spells_many_char hv, hy⟩))

/-- A match is a declaration with its whole name, which is its group. -/
theorem exists_of_mem (hm : m ∈ exportDeclaration.all b) : ∃ ms k front lead name back,
    ms.Sublist modifiers ∧
    k ∈ declarators ∧ b = front ++ (lead ++ (name ++ back)) ∧ m.start = size front ∧
    WordStart front ∧
      Spaced ("export".toList :: (ms ++ [k])) lead ∧ Spells Pattern.name name ∧
        (∀ c ∈ back.head?, isNameChar c = false) ∧ m.text = lead ++ name ∧
        m.groupText 1 = name := by
  obtain ⟨front, rest, hb, hstart, -, hleads⟩ := exists_leads_of_mem_all hm
  obtain ⟨front', rest', hb', hfound⟩ := exists_of_mem_all hm
  obtain ⟨rfl, rfl⟩ :=
    Text.append_inj_of_size (hb'.symm.trans hb) ((in_of_matchAt? hfound).2.symm.trans hstart)
  obtain ⟨ms, k, lead, name, htext, hms, hk, hlead, hname⟩ :=
    spells_exportDeclaration (in_of_mem_all hm).spells
  have hfront : WordStart front' := by
    obtain ⟨gap, mid, gap', rfl, -⟩ := hlead.exists_opening
    obtain ⟨edge, rest₁, cs, -, hedge, h₁, -⟩ := leads_past_seq hleads
    have hplace := leads_past_wordEdge (by rwa [spells_wordEdge hedge, List.append_nil] at h₁)
    rw [htext] at hplace
    simp only [List.append_assoc] at hplace
    exact wordStart_of_edge hplace (by decide)
  -- what is left of the name behind the match would be read as well
  have hcut : m.text ++ rest = lead ++
      ((name ++ rest.takeWhile isNameChar) ++ rest.dropWhile isNameChar) := by
    rw [htext]
    simp
  have hback : ∀ c ∈ (rest.dropWhile isNameChar).head?, isNameChar c = false := fun c hc =>
    Bool.eq_false_iff.mpr fun hname => by
      have hnot := List.head?_dropWhile_not isNameChar rest
      rw [hc] at hnot
      simp [hname] at hnot
  have hall : ∀ c ∈ rest.takeWhile isNameChar, isNameChar c = true := fun c hc =>
    List.mem_takeWhile_imp hc
  have hlength : (lead ++ (name ++ rest.takeWhile isNameChar)).length ≤ b.length + 1 := by
    rw [hb', hcut]
    simp only [List.length_append]
    omega
  rw [hcut] at hfound
  have hread :=
    matchAt?_declaration hms hk hfront hlead (spells_name_append hname hall) hback hlength
  obtain rfl := Option.some.inj (hfound.symm.trans hread)
  exact ⟨ms, k, front', lead, _, _, hms, hk, hb'.trans (by rw [hcut]), rfl, hfront, hlead,
    spells_name_append hname hall, hback, rfl, rfl⟩

theorem exists_of_declares (hk : k ∈ declarators) (h : Declares b n [k] name) :
    ∃ m ∈ exportDeclaration.all b,
    m.start ≤ n ∧ n < m.stop ∧ (m.start = n → m.groupText 1 = name) := by
  obtain ⟨ms, front, lead, back, hms, rfl, rfl, hfront, hlead, hname, hback⟩ := h
  have hread := fun (rounds : Nat) (hrounds : (lead ++ name).length ≤ rounds) =>
    matchAt?_declaration hms hk hfront hlead hname hback hrounds
  have hmatch : exportDeclaration.MatchesAt (front ++ (lead ++ (name ++ back))) (size front) := by
    refine ⟨front, lead ++ (name ++ back), rfl, rfl, ?_⟩
    rw [hread _ (by simp only [List.length_append]; omega)]
    rfl
  obtain ⟨m, hm, hle, hlt⟩ := exists_covering (fun u hu => spells_ne_nil hu rfl) hmatch
  refine ⟨m, hm, hle, hlt, fun hstart => ?_⟩
  obtain ⟨front', rest, hb, hfound⟩ := exists_of_mem_all hm
  obtain ⟨rfl, rfl⟩ := Text.append_inj_of_size hb (hstart.symm.trans (in_of_matchAt? hfound).2)
  rw [hread _ (by simp only [List.length_append]; omega)] at hfound
  rw [← Option.some.inj hfound]
  rfl

/-- No declaration starts inside of the words of another one, and inside of its name only if that is
the word `export`, which would be taken for one. -/
theorem group_eq_of_inside (hm : m ∈ exportDeclaration.all b) (h : Declares b n [k] name)
    (halone : Alone b n) (hlt : m.start < n) (hstop : n < m.stop) :
    m.groupText 1 = "export".toList := by
  obtain ⟨ms', k', front', lead', name', back', hms', hk', hb, hstart, -, hlead', hname', hback',
      htext, hgroup⟩ :=
    exists_of_mem hm
  obtain ⟨ms, front, lead, back, hms, rfl, rfl, -, hlead, -, -⟩ := h
  rw [hgroup]
  rw [(in_of_mem_all hm).stop, htext, Text.size_append] at hstop
  rw [hstart] at hlt hstop
  obtain ⟨x, rfl, hrest⟩ := Text.exists_middle hb.symm (Nat.le_of_lt hlt)
  have hne : x ≠ [] := by
    rintro rfl
    rw [List.append_nil] at hlt
    exact Nat.lt_irrefl _ hlt
  have hend : ∀ c ∈ x.getLast?, isNameChar c = false := fun c hc => by
    rw [Alone, Text.before_append, List.getLast?_append_of_ne_nil _ hne] at halone
    exact (halone c hc).1
  obtain ⟨gap, mid, gap', rfl, hgap, -⟩ := hlead.exists_opening
  have hexport : IsWord "export".toList := isWord_of_mem _ (by decide)
  have hcut : lead' ++ (name' ++ back') = x ++
      ("export".toList ++ (gap ++ (mid ++ (k ++ gap') ++ (name ++ back)))) := by
    simpa using hrest
  rcases hlead'.exists_start (isWord_opening hms' hk') hexport hgap hcut hend with
      ⟨ws₁, ws₂, hws, hws₁⟩ | ⟨z, rfl, hz⟩
  · -- a word of the form, or a modifier, would be `export`
    cases ws₁ with
    | nil =>
        cases hws₁
        exact absurd rfl hne
    | cons w' ws₁ =>
        have hmem : "export".toList ∈ ms' ++ [k'] := (List.cons.inj hws).2 ▸ by simp
        have hnone : "export".toList ∉ modifiers ∧ "export".toList ∉ declarators := by decide
        rcases List.mem_append.mp hmem with hmem | hmem
        · exact absurd (hms'.mem hmem) hnone.1
        · exact absurd (List.mem_singleton.mp hmem ▸ hk') hnone.2
  · cases z with
    | nil => exact class_unique hz (spells_name hname').2 hexport.2 hback' (hgap.notName _)
    | cons c z =>
        obtain ⟨v, rfl, -⟩ :=
          Text.exists_middle hz.symm (by simp only [Text.size_append] at hstop ⊢; omega)
        have hlast := List.getLast?_eq_getLast_of_ne_nil (List.cons_ne_nil c z)
        have hnot :=
          hend _ (by rw [List.getLast?_append_of_ne_nil _ (List.cons_ne_nil c z)]; exact hlast)
        have hchar :=
          (spells_name hname').2 _
          (List.mem_append_left v (List.getLast_mem (List.cons_ne_nil c z)))
        rw [hnot] at hchar
        cases hchar

theorem Declares.const_enum (h : Declares b n ["const".toList, "enum".toList] name) :
    Declares b n ["const".toList] "enum".toList := by
  obtain ⟨ms, front, lead, back, hms, rfl, rfl, hfront, hlead, hname, hback⟩ := h
  rw [show "export".toList :: (ms ++ ["const".toList, "enum".toList]) =
    "export".toList :: (ms ++ ["const".toList]) ++ ["enum".toList] by simp] at hlead
  obtain ⟨lead, last, rfl, hopen, hlast⟩ := Spaced.append_iff.mp hlead
  cases hlast with
  | @cons _ gap _ _ hgap hnil =>
      cases hnil with
      | nil =>
          refine ⟨ms, front, lead, gap ++ (name ++ back), hms,
            by simp, rfl, hfront, hopen, ?_, hgap.notName _⟩
          exact .seq (u := ['e']) (.char rfl) (spells_many_of_forall (by decide))

theorem Spaced.not_getLast? (h : Spaced ws lead) : ∀ c ∈ lead.getLast?, isNameChar c = false := by
  induction h with
  | nil => exact fun c hc => nomatch hc
  | @cons w gap lead ws hgap _ ih =>
      intro c hc
      by_cases hlead : lead = []
      · rw [hlead, List.append_nil, List.getLast?_append_of_ne_nil _ hgap.1] at hc
        exact ImportStatement.isNameChar_of_isSpace (hgap.2 c (List.mem_of_getLast? hc))
      · rw [List.getLast?_append_of_ne_nil _ (by simp [hlead]),
          List.getLast?_append_of_ne_nil _ hlead] at hc
        exact ih c hc

theorem Declares.not_async {name' : Text}
    (h : Declares b n ["async".toList, "function".toList] name) (hk : k ∈ declarators) :
    ¬ Declares b n [k] name' := by
  rintro ⟨ms', front', lead', back', hms', hb, hsize, -, hlead', -, -⟩
  obtain ⟨ms, front, lead, back, hms, rfl, rfl, -, hlead, -, -⟩ := h
  obtain ⟨-, hcut⟩ := Text.append_inj_of_size hb hsize
  have hwords' := isWord_opening hms' hk
  have hmodifiers : ∀ w ∈ "export".toList :: ms, w ∈ "export".toList :: modifiers := fun w hw =>
    List.mem_cons.mpr ((List.mem_cons.mp hw).imp_right fun h => hms.mem h)
  have hwords : ∀ w ∈ "export".toList :: ms, IsWord w := fun w hw =>
    isWord_of_mem w (List.mem_append_left _ (List.mem_append_left declarators (hmodifiers w hw)))
  rw [← List.cons_append] at hlead hlead'
  obtain ⟨x, last, rfl, hx, hlast⟩ := Spaced.append_iff.mp hlead
  obtain ⟨x', last', rfl, hx', hlast'⟩ := Spaced.append_iff.mp hlead'
  cases hlast with
  | @cons _ gap rest _ hgap _ =>
      cases hlast' with
      | @cons _ gap' _ _ hgap' hnil =>
          cases hnil with
          | nil =>
              -- `async` would be a word of the other reading, or the form of that a word in front
              -- of it
              rcases hlead'.exists_start hwords' (w := "async".toList) (z := name' ++ back')
                  (x := x)
                (y := rest ++ (name ++ back))
                  (isWord_of_mem _ (by decide)) hgap (by simpa using hcut.symm)
                hx.not_getLast? with ⟨ws₁, ws₂, hws, -⟩ | ⟨z, rfl, -⟩
              · have hmem : "async".toList ∈ "export".toList :: (ms' ++ [k]) := hws ▸ by simp
                have hnone : "async".toList ∉ "export".toList :: (modifiers ++ declarators) := by
                  decide
                refine hnone ?_
                simp only [List.mem_cons, List.mem_append, List.not_mem_nil, or_false] at hmem ⊢
                rcases hmem with hmem | hmem | rfl
                · exact .inl hmem
                · exact .inr (.inl (hms'.mem hmem))
                · exact .inr (.inr hk)
              · rcases hx.exists_start hwords (w := k) (z := []) (x := x') (y := z)
                    (hwords' k (by simp)) hgap' (by simp)
                  hx'.not_getLast? with ⟨ws₁, ws₂, hws, -⟩ | ⟨u, -, hu⟩
                · have hnone : ∀ w ∈ "export".toList :: modifiers, w ∉ declarators := by decide
                  exact hnone k (hmodifiers k (hws ▸ by simp)) hk
                · exact (hwords' k (by simp)).1
                    (List.append_eq_nil_iff.mp (List.append_eq_nil_iff.mp hu.symm).2).1

/-! ## What is exported -/

theorem mem_exportedSymbols {t : Text} : s ∈ exportedSymbols t ↔
    ∃ m ∈ exportDeclaration.all (Scan.blank t), m.groupText 1 = s := List.mem_map

theorem Declares.mem_or {t : Text} (hk : k ∈ declarators) (h : Declares (Scan.blank t) n [k] s)
    (halone : Alone (Scan.blank t) n) : s ∈ exportedSymbols t ∨
    "export".toList ∈ exportedSymbols t := by
  obtain ⟨m, hm, hle, hlt, hgroup⟩ := exists_of_declares hk h
  rcases Nat.eq_or_lt_of_le hle with hstart | hbefore
  · exact .inl (mem_exportedSymbols.mpr ⟨m, hm, hgroup hstart⟩)
  · exact .inr (mem_exportedSymbols.mpr ⟨m, hm, group_eq_of_inside hm h halone hbefore hlt⟩)

/-- Each exported name is that of a declaration of one word.  Such a declaration counts, unless the
word `export` is itself taken for a name.  Of a constant enumeration the word `enum` counts, and
where an asynchronous function is exported nothing is read. -/
theorem exported_names (t : Text) :
    (∀ s ∈ exportedSymbols t, ∃ n, ∃ k ∈ declarators, Declares (Scan.blank t) n [k] s) ∧
    ∀ n s, Alone (Scan.blank t) n →
      (∀ k ∈ declarators, Declares (Scan.blank t) n [k] s → s ∈ exportedSymbols t ∨
        "export".toList ∈ exportedSymbols t) ∧
      (Declares (Scan.blank t) n ["const".toList, "enum".toList] s →
        "enum".toList ∈ exportedSymbols t ∨ "export".toList ∈ exportedSymbols t) ∧
      (Declares (Scan.blank t) n ["async".toList, "function".toList] s →
        ∀ k ∈ declarators, ∀ s', ¬ Declares (Scan.blank t) n [k] s') := by
  refine ⟨fun s hs => ?_, fun n s halone =>
    ⟨fun k hk h => h.mem_or hk halone, fun h => ?_, fun h k hk s' =>
    h.not_async hk⟩⟩
  · obtain ⟨m, hm, hgroup⟩ := mem_exportedSymbols.mp hs
    obtain ⟨ms, k, front, lead, name, back, hms, hk, hb, hstart, hfront, hlead, hname, hback, -,
        hname'⟩ := exists_of_mem hm
    obtain rfl := hname'.symm.trans hgroup
    exact ⟨m.start, k, hk, ms, front, lead, back, hms, hb, hstart, hfront, hlead, hname, hback⟩
  · exact h.const_enum.mem_or (by decide) halone

/-- Behind a declaration that an asynchronous function is in front of. -/
theorem exported_names_ambient : "limit".toList ∈ exportedSymbols
    "export async function load() {}\nexport declare const limit: number;\n".toList := by
  have hdeclares :
      Declares
      (Scan.blank "export async function load() {}\nexport declare const limit: number;\n".toList)
      32
      ["const".toList] "limit".toList := by
    refine ⟨["declare".toList], "export async function load() {}\n".toList,
      "export declare const ".toList,
      ": number;\n".toList, by decide, by decide, by decide, rfl, ?_, ?_, by decide⟩
    · have hgap : IsGap [' '] := by decide
      exact .cons hgap (.cons hgap (.cons hgap .nil))
    · exact .seq (u := ['l']) (.char rfl) (spells_many_of_forall (by decide))
  refine (((exported_names _).2 32 _ ?_).1 _ (by decide) hdeclares).resolve_right (by decide)
  decide

/-- A word that names nothing may count, and the name of an exported declaration need not. -/
theorem not_only_names :
    (¬ ∀ t, ∀ s ∈ exportedSymbols t, ∃ n, ∃ form ∈ forms, Declares (Scan.blank t) n form s ∧
      s ∉ reserved) ∧
    ¬ ∀ t n s, ∀ form ∈ forms, Alone (Scan.blank t) n → Declares (Scan.blank t) n form s →
    s ∉ reserved →
      s ∈ exportedSymbols t := by
  have hsymbols : exportedSymbols "export const enum Color { Red }\n".toList = ["enum".toList] := by
    decide
  constructor
  · intro h
    obtain ⟨n, form, -, -, hreserved⟩ := h _ _ (hsymbols ▸ List.mem_singleton_self "enum".toList)
    exact hreserved (by decide)
  · intro h
    have hdeclares : Declares (Scan.blank "export const enum Color { Red }\n".toList) 0
        ["const".toList, "enum".toList] "Color".toList := by
      refine ⟨[], [], "export const enum ".toList, " { Red }\n".toList, by decide, by decide, by
        decide, rfl, ?_, ?_, by decide⟩
      · have hgap : IsGap [' '] := by decide
        exact .cons hgap (.cons hgap (.cons hgap .nil))
      · exact .seq (u := ['C']) (.char rfl) (spells_many_of_forall (by decide))
    have hmem := h _ 0 _ _ (by decide) (by decide) hdeclares (by decide)
    rw [hsymbols] at hmem
    exact absurd hmem (by decide)

end ServiceGate.Exported
