/-
# Cuts around parameters

The parameters that two patterns find are wrapped from the back.  A parameter is found whole: its
name goes on as far as a name can (`Whole`), and neither of the patterns finds one behind which
another follows.  So two different ones do not overlap (`eq_or_le_of_whole`).

Two spans that overlapped would be wrapped into one another, and the second cut would be made at an
offset of a text that is gone.  The two patterns look at different things behind a parameter, so the
same parameter may be found by both of them; it is then found with the same ends, because a name and
what ends it are told apart by every character (`name_unique`), and repetitions are dropped.
-/
import Mathlib.Data.List.Infix
import ServiceGate.Proofs.CharClass
import ServiceGate.Proofs.Checked.Edits

namespace ServiceGate

open Pattern Scan
open Text (Agree Bounds)

variable {t u v w q : Text} {m : Match} {start stop start' stop' : Nat} {a b : Nat × Nat}

/-! ## Whole parameters -/

def isNameChar (c : Char) : Bool := CharClass.isWord c || c == '$'

def parameterKinds : List Text := ["query".toList, "params".toList]

def parameterHead (kind : Text) : Text := "req.".toList ++ kind ++ ['.']

/-- A parameter of a request. -/
def IsParameter (w : Text) : Prop :=
  ∃ kind ∈ parameterKinds, ∃ name : Text, w = parameterHead kind ++ name ∧
    (∀ c ∈ name, isNameChar c = true) ∧ name ≠ []

/-- What may stand behind a parameter: no character of a name, and no parameter of its own. -/
structure EndsParameter (q : Text) : Prop where
  name : ∀ c ∈ q.head?, isNameChar c = false
  member : ∀ q', q = '.' :: q' → ∀ kind ∈ parameterKinds, ¬ kind <+: q'

/-- A parameter that stands between two offsets, whole. -/
def Whole (t : Text) (start stop : Nat) : Prop :=
  ∃ p w q, t = p ++ w ++ q ∧ start = Text.size p ∧ stop = start + Text.size w ∧ IsParameter w ∧
    EndsParameter q

theorem Whole.bounds (h : Whole t start stop) : Bounds t start stop := by
  obtain ⟨p, w, q, rfl, rfl, rfl, -⟩ := h
  exact Text.bounds_iff.mpr ⟨p, w, q, rfl, rfl, rfl⟩

/-! ## Whole parameters do not overlap -/

theorem class_unique {f : Char → Bool} {name name' q q' : Text} (h : name ++ q = name' ++ q')
    (hname : ∀ c ∈ name, f c = true) (hname' : ∀ c ∈ name', f c = true)
    (hq : ∀ c ∈ q.head?, f c = false) (hq' : ∀ c ∈ q'.head?, f c = false) : name = name' := by
  have htake : ∀ {name q : Text}, (∀ c ∈ name, f c = true) →
      (∀ c ∈ q.head?, f c = false) → (name ++ q).takeWhile f = name := by
    intro name q hname hq
    rw [List.takeWhile_append_of_pos hname]
    cases q with
    | nil => simp
    | cons c q => rw [List.takeWhile_cons, hq c rfl]; simp
  rw [← htake hname hq, h, htake hname' hq']

/-- A name and what ends it are told apart. -/
theorem name_unique {name name' q q' : Text} (h : name ++ q = name' ++ q')
    (hname : ∀ c ∈ name, isNameChar c = true) (hname' : ∀ c ∈ name', isNameChar c = true)
    (hq : ∀ c ∈ q.head?, isNameChar c = false) (hq' : ∀ c ∈ q'.head?, isNameChar c = false) :
    name = name' := class_unique h hname hname' hq hq'

theorem of_suffix_parameterHead : ∀ kind ∈ parameterKinds, ∀ w ∈ (parameterHead kind).tails,
    w <+: "req.".toList ∨ "req.".toList <+: w → w = [] ∨ w = parameterHead kind := by
  decide

theorem kind_unique : ∀ kind ∈ parameterKinds, ∀ kind' ∈ parameterKinds,
    parameterHead kind <+: parameterHead kind' ∨ parameterHead kind' <+: parameterHead kind →
      kind = kind' := by
  decide

theorem ne_parameter_in_name {name q x kind : Text} (hkind : kind ∈ parameterKinds)
    (hne : name ≠ []) (hname : ∀ c ∈ name, isNameChar c = true) (hq : EndsParameter q) :
    name ++ q ≠ parameterHead kind ++ x := by
  intro h
  have hreq : "req.".toList = ['r', 'e', 'q', '.'] := by decide
  rw [parameterHead, List.append_assoc, List.append_assoc, hreq] at h
  simp only [List.cons_append, List.nil_append] at h
  -- the name would have to end inside of the first three letters or to hold the sign behind them
  rcases name with _ | ⟨c₁, _ | ⟨c₂, _ | ⟨c₃, _ | ⟨c₄, name⟩⟩⟩⟩
  · exact hne rfl
  · obtain ⟨-, rfl⟩ := List.cons.inj h
    exact absurd (hq.name 'e' rfl) (by decide)
  · obtain ⟨-, hrest⟩ := List.cons.inj h
    obtain ⟨-, rfl⟩ := List.cons.inj hrest
    exact absurd (hq.name 'q' rfl) (by decide)
  · obtain ⟨-, hrest⟩ := List.cons.inj h
    obtain ⟨-, hrest⟩ := List.cons.inj hrest
    obtain ⟨-, rfl⟩ := List.cons.inj hrest
    exact hq.member _ rfl kind hkind (List.prefix_append _ _)
  · obtain ⟨-, hrest⟩ := List.cons.inj h
    obtain ⟨-, hrest⟩ := List.cons.inj hrest
    obtain ⟨-, hrest⟩ := List.cons.inj hrest
    obtain ⟨rfl, -⟩ := List.cons.inj hrest
    exact absurd (hname '.' (by simp)) (by decide)

/-- Of two parameters the later one starts behind the earlier one, or they are the same. -/
theorem eq_or_le_of_whole (h : Whole t start stop) (h' : Whole t start' stop')
    (hle : start ≤ start') : (start = start' ∧ stop = stop') ∨ stop ≤ start' := by
  obtain ⟨p, w, q, ht, rfl, rfl, ⟨kind, hkind, name, rfl, hname, hne⟩, hq⟩ := h
  obtain ⟨p', w', q', ht', rfl, rfl, ⟨kind', hkind', name', rfl, hname', -⟩, hq'⟩ := h'
  rw [List.append_assoc] at ht ht'
  obtain ⟨u, rfl, hu⟩ := Text.exists_middle (ht.symm.trans ht') hle
  by_cases hbehind : Text.size (parameterHead kind ++ name) ≤ Text.size u
  · exact .inr (by rw [Text.size_append p u]; omega)
  obtain ⟨v, hw, hv⟩ := Text.exists_middle hu.symm (Nat.le_of_not_le hbehind)
  have hvne : v ≠ [] := by
    rintro rfl
    rw [hw, List.append_nil] at hbehind
    exact hbehind (Nat.le_refl _)
  have hinside : ∀ {x}, x ++ v = name → False := fun {x} hx => by
    have hvname : ∀ c ∈ v, isNameChar c = true := fun c hc =>
      hname c (hx ▸ List.mem_append_right x hc)
    exact ne_parameter_in_name (x := name' ++ q') hkind' hvne hvname hq (by rw [← hv]; simp)
  rcases List.append_eq_append_iff.mp hw with ⟨x, -, hx⟩ | ⟨x, hhead, hx⟩
  · exact (hinside hx.symm).elim
  · have hsuffix : x ∈ (parameterHead kind).tails := by
      rw [List.mem_tails, hhead]
      exact List.suffix_append u x
    have hreq : ∀ kind, "req.".toList <+: parameterHead kind := fun kind => by
      rw [parameterHead, List.append_assoc]
      exact List.prefix_append _ _
    have hx' : x <+: v ++ q := by
      rw [hx, List.append_assoc]
      exact List.prefix_append _ _
    have hreq' : "req.".toList <+: v ++ q := by
      rw [← hv, List.append_assoc]
      exact (hreq kind').trans (List.prefix_append _ _)
    rcases of_suffix_parameterHead kind hkind x hsuffix
      (List.prefix_or_prefix_of_prefix hx' hreq') with rfl | rfl
    · exact (hinside (x := []) (by rw [hx]; rfl)).elim
    · have hnil : u = [] := by
        have hlength := congrArg List.length hhead
        rw [List.length_append] at hlength
        exact List.length_eq_zero_iff.mp (by omega)
      subst hnil
      rw [List.nil_append, List.append_assoc, List.append_assoc] at hu
      have hkinds : kind = kind' := kind_unique kind hkind kind' hkind'
        (List.prefix_or_prefix_of_prefix (List.prefix_append _ _) (by
          rw [hu]
          exact List.prefix_append _ _))
      subst hkinds
      have hnames := name_unique (List.append_cancel_left hu) hname hname' hq.name hq'.name
      subst hnames
      exact .inl ⟨by simp, by simp⟩

/-! ## The parameters that are found -/

theorem isNameChar_of_start {c : Char}
    (h : (CharClass.isAsciiLetter c || c == '_' || c == '$') = true) :
    isNameChar c = true := by
  simp only [Bool.or_eq_true, beq_iff_eq] at h
  rcases h with (hc | rfl) | rfl
  · have hle : ∀ {d : Char}, c ≤ d → c.toNat ≤ d.toNat := fun h => h
    have hascii : c.toNat < 128 := by
      simp only [CharClass.isAsciiLetter, Bool.or_eq_true, Bool.and_eq_true,
        decide_eq_true_eq] at hc
      rcases hc with ⟨-, hc⟩ | ⟨-, hc⟩
      · exact Nat.lt_of_le_of_lt (hle hc) (by decide)
      · exact Nat.lt_of_le_of_lt (hle hc) (by decide)
    simp [isNameChar, CharClass.isWord, hascii, hc]
  · decide
  · decide

theorem spells_name (h : Spells name u) : u ≠ [] ∧ ∀ c ∈ u, isNameChar c = true := by
  cases h with
  | seq hstart hrest =>
      cases hstart with
      | char hc =>
          exact ⟨List.cons_ne_nil _ _,
            List.forall_mem_cons.mpr ⟨isNameChar_of_start hc, spells_many_char hrest⟩⟩

theorem isParameter_of_spells (h : Spells Forbidden.parameter u) : IsParameter u := by
  cases h with
  | @seq _ _ _ _ hreq h =>
      cases h with
      | @seq _ _ kind _ hkind h =>
          cases h with
          | @seq _ _ _ name hdot hname =>
              obtain ⟨hne, hchars⟩ := spells_name hname
              refine ⟨kind, spells_anyWord hkind, name, ?_, hchars, hne⟩
              rw [spells_literal hreq, spells_literal hdot, parameterHead]
              simp

theorem endsParameter_of_converted (h : Spells (seq spaces (oneOf ",)")) v) :
    EndsParameter (v ++ q) := by
  cases h with
  | @seq _ _ blanks _ hblanks hsign =>
      cases hsign with
      | @char _ d hd =>
          have hends : ∀ c, c = d ∨ CharClass.isSpace c = true →
              isNameChar c = false ∧ c ≠ '.' := by
            rintro c (rfl | hc)
            · have hsigns : ∀ c ∈ ",)".toList, isNameChar c = false ∧ c ≠ '.' := by decide
              exact hsigns c (by simpa using hd)
            · refine ⟨?_, ?_⟩
              · rw [isNameChar, CharClass.isWord_of_isSpace hc, Bool.false_or]
                refine beq_eq_false_iff_ne.mpr ?_
                rintro rfl
                exact absurd hc (by decide)
              · rintro rfl
                exact absurd hc (by decide)
          obtain ⟨c, rest, hrest, hc⟩ : ∃ c rest, blanks ++ [d] ++ q = c :: rest ∧
              (c = d ∨ CharClass.isSpace c = true) := by
            cases blanks with
            | nil => exact ⟨d, q, rfl, .inl rfl⟩
            | cons c blanks => exact ⟨c, blanks ++ [d] ++ q, rfl,
                .inr (spells_many_char hblanks c List.mem_cons_self)⟩
          obtain ⟨hname, hdot⟩ := hends c hc
          rw [hrest]
          refine ⟨fun c' hc' => ?_, fun q' hq' => ?_⟩
          · rw [← Option.some.inj hc']
            exact hname
          · exact absurd (List.cons.inj hq').1 hdot

/-- A call of a method ends a parameter. -/
theorem endsParameter_of_method {words : List String} {rest : Pattern}
    (hwords : ∀ word ∈ words.map String.toList, ∀ kind ∈ parameterKinds,
      ¬ kind <+: word ∧ ¬ word <+: kind)
    (h : Spells (seq (word ".") (seq (anyWord words) rest)) v) : EndsParameter (v ++ q) := by
  cases h with
  | @seq _ _ _ _ hdot h =>
      cases h with
      | @seq _ _ method v hmethod _ =>
          have hcut : ".".toList ++ (method ++ v) ++ q = '.' :: (method ++ (v ++ q)) := by simp
          rw [spells_literal hdot, hcut]
          refine ⟨fun c hc => ?_, fun q' hq' kind hkind hprefix => ?_⟩
          · rw [← Option.some.inj hc]
            decide
          · obtain ⟨-, rfl⟩ := List.cons.inj hq'
            obtain ⟨hkind', hmethod'⟩ := hwords method (spells_anyWord hmethod) kind hkind
            rcases List.prefix_or_prefix_of_prefix hprefix (List.prefix_append method _) with h | h
            · exact hkind' h
            · exact hmethod' h

/-- The group in front of something that ends a parameter is a whole parameter. -/
theorem whole_of_fresh {r r' : Reading} {rest : Pattern} {g : Capture} (hr : Fresh t r)
    (h : Leads ((capture 1 Forbidden.parameter).seq rest) r r') (hrest : rest.groups = [])
    (hends : ∀ {v q}, Spells rest v → EndsParameter (v ++ q))
    (hg : r'.captures.find? (·.group == 1) = some g) : Whole t g.start g.stop := by
  obtain ⟨front, w, v, back, ht, hw, hv, hcaptures⟩ := hr.group h rfl hrest
  rw [hcaptures] at hg
  obtain rfl := Option.some.inj hg
  exact ⟨front, w, v ++ back, ht, rfl, rfl, isParameter_of_spells hw, hends hv⟩

theorem whole_of_converted (h : m ∈ Forbidden.convertedParameter.all t) {g : Capture}
    (hg : m.group? 1 = some g) : Whole t g.start g.stop := by
  obtain ⟨r, r', hr, hleads, hcaptures⟩ := exists_reading_of_mem_all h
  obtain ⟨r, hr, hleads⟩ := hr.second hleads rfl
  obtain ⟨r, hr, hleads⟩ := hr.second hleads rfl
  obtain ⟨r, hr, hleads⟩ := hr.second hleads rfl
  obtain ⟨r, hr, hleads⟩ := hr.second hleads rfl
  exact whole_of_fresh hr hleads rfl endsParameter_of_converted (hcaptures ▸ hg)

theorem whole_of_parameterMethod (h : m ∈ Forbidden.parameterMethod.all t) {g : Capture}
    (hg : m.group? 1 = some g) : Whole t g.start g.stop := by
  obtain ⟨r, r', hr, hleads, hcaptures⟩ := exists_reading_of_mem_all h
  obtain ⟨r, hr, hleads⟩ := hr.second hleads rfl
  exact whole_of_fresh hr hleads rfl (endsParameter_of_method (by decide)) (hcaptures ▸ hg)

/-! ## The spans to wrap -/

theorem whole_of_mem_parameterSpans (h : a ∈ Repair.parameterSpans (.of t)) : Whole t a.1 a.2 := by
  rw [Repair.parameterSpans] at h
  obtain ⟨g, hg, rfl⟩ := List.mem_map.mp (List.mem_mergeSort.mp (List.mem_eraseDups.mp h))
  obtain ⟨m, hm, hgroup⟩ := List.mem_filterMap.mp (List.mem_filter.mp hg).1
  rcases List.mem_append.mp hm with hm | hm
  · exact whole_of_converted hm hgroup
  · exact whole_of_parameterMethod hm hgroup

theorem pairwise_eraseDups {α : Type} [BEq α] [LawfulBEq α] {R : α → α → Prop} : ∀ {l : List α},
    l.Pairwise R → l.eraseDups.Pairwise fun a b => R a b ∧ a ≠ b
  | [], _ => .nil
  | a :: l, h => by
      obtain ⟨ha, hl⟩ := List.pairwise_cons.mp h
      rw [List.eraseDups_cons]
      refine .cons (fun b hb => ?_) (pairwise_eraseDups (hl.filter _))
      obtain ⟨hmem, hne⟩ := List.mem_filter.mp (List.mem_eraseDups.mp hb)
      exact ⟨ha b hmem, fun hab => by simp [hab] at hne⟩
  termination_by l => l.length
  decreasing_by
    have := List.length_filter_le (fun b => !b == a) l
    simp only [List.length_cons]
    omega

theorem pairwise_parameterSpans (t : Text) :
    (Repair.parameterSpans (.of t)).Pairwise fun a b => a.2 ≤ b.1 := by
  have hsorted : (Repair.parameterSpans (.of t)).Pairwise
      fun a b => Repair.spanNotAfter a b = true ∧ a ≠ b := by
    refine pairwise_eraseDups (List.pairwise_mergeSort ?_ ?_ _)
    · intro a b c hab hbc
      simp only [Repair.spanNotAfter, Bool.or_eq_true, Bool.and_eq_true, beq_iff_eq,
        decide_eq_true_eq] at *
      omega
    · intro a b
      simp only [Repair.spanNotAfter, Bool.or_eq_true, Bool.and_eq_true, beq_iff_eq,
        decide_eq_true_eq]
      omega
  refine hsorted.imp_of_mem fun {a b} ha hb ⟨horder, hne⟩ => ?_
  have hle : a.1 ≤ b.1 := by
    simp only [Repair.spanNotAfter, Bool.or_eq_true, Bool.and_eq_true, beq_iff_eq,
      decide_eq_true_eq] at horder
    omega
  rcases eq_or_le_of_whole (whole_of_mem_parameterSpans ha)
      (whole_of_mem_parameterSpans hb) hle with
    ⟨hstart, hstop⟩ | h
  · exact absurd (Prod.ext hstart hstop) hne
  · exact h

namespace Checked

def wrapSpan (t : Text) (span : Nat × Nat) : Except SpanFault Text := do
  let wrapped ← cut t span.1 span.2
  splice t span.1 span.2 ("String(".toList ++ wrapped ++ ")".toList)

def narrowParameters (t : Text) : Except SpanFault (Option Text) :=
  match Repair.parameterSpans (.of t) with
  | [] => return none
  | spans => do return some (← spans.foldrM (fun span out => wrapSpan out span) t)

theorem wrapSpan_eq (h : Bounds t a.1 a.2) : wrapSpan t a = .ok (Repair.wrapSpan t a) ∧
    Agree a.1 t (Repair.wrapSpan t a) := by
  rw [wrapSpan, cut_eq h, ok_bind]
  exact ⟨splice_eq h.start h.stop _, Text.agree_splice h.start _ _⟩

theorem narrowParameters_eq (t : Text) :
    narrowParameters t = .ok (Repair.narrowParameters t) := by
  have hspans := foldrM_eq (t := t) (l := Repair.parameterSpans (.of t))
    (f := fun span out => wrapSpan out span) (g := fun span out => Repair.wrapSpan out span)
    (fun a => a.1) (fun a => a.2)
    (fun a ha u hagree => wrapSpan_eq (hagree.bounds (whole_of_mem_parameterSpans ha).bounds))
    (fun a ha => (whole_of_mem_parameterSpans ha).bounds) (pairwise_parameterSpans t)
  rw [narrowParameters, Repair.narrowParameters]
  cases hlist : Repair.parameterSpans (.of t) with
  | nil => rfl
  | cons span spans =>
      rw [hlist] at hspans
      simp only [hspans]
      rfl

end Checked

end ServiceGate
