/-
# Where an unused member of an import is pointed at

The rule points at the first place in the statement at which the member's bound name occurs, as mere
text (`isFirst_memberOffset`).  There is always one, since the name is read from the statement's
braces.  It stands between separators there: so a name that is made of characters of names is a
whole word there (`exists_runAt`).

But a longer name in front of it may hold the same characters, or a comment, and then the finding
points into that (`not_always_whole_member`).  It points at a whole word in code exactly if none of
the occurrences in front of the first such word is anything else (`unused_imports_found`).
-/
import ServiceGate.Proofs.Checked.Rules
import ServiceGate.Proofs.Import.Usage
import ServiceGate.Proofs.Rule.Unawaited

namespace ServiceGate

open CharClass (isName)
open Scan
open Text (size size_append)

variable {s : Source} {t w : Text} {start stop k n : Nat} {i : ImportStatement} {x : ImportMember}
  {m : Match}

theorem Scan.exists_part_of_blank {u v : Text} (hne : w ≠ []) (hw : ∀ c ∈ w, c ≠ ' ')
    (h : blank t = u ++ w ++ v) : ∃ p q, t = p ++ w ++ q ∧ size p = size u := by
  induction w using List.reverseRecOn generalizing v with
  | nil => exact absurd rfl hne
  | append_singleton w c ih =>
      have hcut : blank t = u ++ w ++ c :: v := by simpa using h
      obtain ⟨p', q, ht, hsize⟩ := exists_of_blank (hw c (by simp)) hcut
      by_cases hnil : w = []
      · subst hnil
        exact ⟨p', q, by simpa using ht, by simpa using hsize⟩
      · obtain ⟨p, q', ht', hsize'⟩ := ih hnil (fun d hd => hw d (List.mem_append_left _ hd)) hcut
        -- the offset of the last character is that behind the others
        obtain ⟨rfl, -⟩ := Text.append_inj_of_size (ht.symm.trans ht') (by
          rw [hsize, size_append, size_append, hsize'])
        exact ⟨p, q, by simpa using ht, hsize'⟩

namespace Text

/-! ## What is found in a part -/

/-- A text stands at an offset of another one. -/
def OccursAt (t : Text) (n : Nat) (w : Text) : Prop := ∃ front back, t = front ++ w ++ back ∧
  n = size front

theorem RunAt.occursAt (h : t.RunAt n w) : t.OccursAt n w := by
  obtain ⟨front, back, hcut, hn, -⟩ := h
  exact ⟨front, back, hcut, hn⟩

theorem Bounds.found (hb : Bounds t start stop) (h : (t.between start stop).find? w = some k) :
    t.OccursAt (start + k) w ∧ start + k + size w ≤ stop ∧
      ∀ n, start ≤ n → n < start + k → ¬ t.OccursAt n w := by
  obtain ⟨p, part, q, rfl, rfl, rfl⟩ := bounds_iff.mp hb
  rw [between_append] at h
  obtain ⟨u, v, rfl, rfl, ⟨v, rfl⟩, hfirst⟩ := exists_of_findFrom? h
  rw [Nat.zero_add]
  refine ⟨⟨p ++ u, v ++ q, by simp, (size_append p u).symm⟩, ?_, ?_⟩
  · simp only [size_append]
    omega
  · rintro n hge hlt ⟨front, back, hcut, rfl⟩
    -- an occurrence in front of the found one would lie in the part as well
    have hcut' : p ++ (u ++ (w ++ (v ++ q))) = front ++ (w ++ back) := by
      simpa only [List.append_assoc] using hcut
    obtain ⟨lead, rfl, hlead⟩ := exists_middle hcut' hge
    rw [size_append] at hlt
    obtain ⟨inner, rfl, hinner⟩ := exists_middle hlead.symm (by omega)
    have hpos : 0 < inner.length := by
      refine List.length_pos_iff.mpr fun hnil => ?_
      rw [hnil, List.append_nil] at hlt
      omega
    refine hfirst lead (inner ++ (w ++ v)) (by simp) (by rw [List.length_append]; omega) ?_
    refine List.prefix_of_prefix_length_le ⟨back, hinner⟩ ⟨q, by simp⟩ ?_
    simp only [List.length_append]
    omega

theorem Bounds.contains (hb : Bounds t start stop) (h : t.OccursAt n w) (hstart : start ≤ n)
    (hstop : n + size w ≤ stop) : (t.between start stop).contains w = true := by
  obtain ⟨p, part, q, rfl, rfl, rfl⟩ := bounds_iff.mp hb
  obtain ⟨front, back, hcut, rfl⟩ := h
  rw [List.append_assoc, List.append_assoc] at hcut
  obtain ⟨lead, rfl, hlead⟩ := exists_middle hcut hstart
  rw [← List.append_assoc] at hlead
  rw [size_append] at hstop
  obtain ⟨rest, rfl, -⟩ := exists_middle hlead.symm (by rw [size_append]; omega)
  rw [between_append, contains_iff]
  exact ⟨lead, rest, rfl⟩

end Text

namespace Rule

/-! ## The offset of a finding -/

/-- A name stands in a statement at an offset, and at none in front of that. -/
structure IsFirstIn (t : Text) (i : ImportStatement) (name : Text) (n : Nat) : Prop where
  start_le : i.start ≤ n
  le_stop : n + size name ≤ i.stop
  occursAt : t.OccursAt n name
  first : ∀ k, i.start ≤ k → k < n → ¬ t.OccursAt k name

/-- A name stands in a statement at an offset as a whole word in code. -/
structure IsWholeIn (s : Source) (i : ImportStatement) (name : Text) (n : Nat) : Prop where
  start_le : i.start ≤ n
  le_stop : n + size name ≤ i.stop
  runAt : s.blanked.RunAt n name

end Rule

namespace ImportStatement

/-- The bound name of a member stands in the braces of its statement, with no character of a name
next to it. -/
theorem exists_bound (hm : m ∈ pattern.all t) (hx : x ∈ (ofMatch m).members) :
    ∃ front back, t = front ++ x.boundAs ++ back ∧ (ofMatch m).start ≤ size front ∧
      size front + size x.boundAs ≤ (ofMatch m).stop ∧
      (∀ c ∈ front.getLast?, isName c = false) ∧ ∀ c ∈ back.head?, isName c = false := by
  have hseparates : ∀ c, separates c = true → isName c = false := fun c hc => by
    rcases Bool.or_eq_true_iff.mp hc with hspace | hcomma
    · exact CharClass.isName_of_isSpace hspace
    · rw [beq_iff_eq.mp hcomma]
      decide
  obtain ⟨front, indent, gap, clauses, blanks, tail, back, quote, hread⟩ := exists_parts hm
  obtain ⟨head, inner, spaces, hclauses, hmembers⟩ := hread.members (List.ne_nil_of_mem hx)
  obtain ⟨a, b, rfl, hbefore, hbehind⟩ := (ImportMember.of_mem_readList (hmembers ▸ hx)).2.2
  obtain ⟨lead, rest, htext⟩ : ∃ lead rest, m.text =
      indent ++ (lead ++ '\x7b' :: a) ++ x.boundAs ++ (b ++ '\x7d' :: rest) :=
    ⟨"import".toList ++ gap ++ head, spaces ++ ("from".toList ++ (blanks ++
      ((ofMatch m).quote :: ((ofMatch m).moduleName ++ (quote :: tail))))), by
        rw [hread.text, hclauses]
        simp only [List.append_assoc, List.cons_append]⟩
  have hstop : (ofMatch m).stop = size front + size m.text := by
    rw [← hread.start]
    exact (Pattern.in_of_mem_all hm).stop
  refine ⟨front ++ (indent ++ (lead ++ '\x7b' :: a)), b ++ '\x7d' :: rest ++ back, ?_, ?_, ?_,
    fun c hc => ?_, fun c hc => ?_⟩
  · rw [hread.cut, htext]
    simp only [List.append_assoc]
  · rw [start_ofMatch hread, size_append, size_append, size_append]
    omega
  · rw [hstop, htext]
    simp only [size_append]
    omega
  · rw [← List.append_assoc, ← List.append_assoc, List.getLast?_append, List.getLast?_cons] at hc
    cases hlast : a.getLast? with
    | none =>
        rw [hlast] at hc
        obtain rfl := Option.some.inj hc
        decide
    | some d =>
        rw [hlast] at hc
        exact Option.some.inj hc ▸ hseparates d (hbefore d hlast)
  · cases b with
    | nil => exact Option.some.inj hc ▸ by decide
    | cons d b => exact hseparates c (hbehind c hc)

end ImportStatement

namespace Rule

theorem isFirst_memberOffset (hi : i ∈ ImportStatement.all s) (hx : x ∈ i.members) :
    IsFirstIn s.text i x.boundAs (memberOffset s.text i x) := by
  have hb := bounds_of_mem_imports hi
  obtain ⟨m, hm, rfl⟩ := exists_of_mem_imports hi
  obtain ⟨front, back, hcut, hstart, hstop, -⟩ := ImportStatement.exists_bound hm hx
  have hcontains := Text.Bounds.contains hb ⟨front, back, hcut, rfl⟩ hstart hstop
  obtain ⟨k, hk⟩ := Option.isSome_iff_exists.mp hcontains
  obtain ⟨hoccurs, hle, hfirst⟩ := Text.Bounds.found hb hk
  rw [memberOffset, hk]
  exact ⟨Nat.le_add_right _ _, hle, hoccurs, hfirst⟩

theorem runAt_blank (h : t.RunAt n w) (hleft : (blank t).OccursAt n w) : (blank t).RunAt n w := by
  obtain ⟨front, back, rfl, rfl, hne, hname, hfront, hback⟩ := h
  obtain ⟨u, v, hcut, hn⟩ := hleft
  have hbreak : (front ++ w ++ back).Break (size front) := ⟨front, w ++ back, by simp, rfl, hfront⟩
  refine ⟨u, v, hcut, hn, hne, hname, fun c hc => ?_, fun c hc => Bool.eq_false_iff.mpr fun hc' =>
    ?_⟩
  · obtain ⟨u', v', hcut', hn', hlast⟩ := break_blank hbreak
    rw [hcut, List.append_assoc] at hcut'
    obtain ⟨rfl, -⟩ := Text.append_inj_of_size hcut' (hn.symm.trans hn')
    exact hlast c hc
  · -- a character of a name behind the word would stand behind it in the text
    obtain ⟨v, rfl⟩ := List.head?_eq_some_iff.mp hc
    have hblank : c ≠ ' ' := fun heq => absurd (heq ▸ hc') (by decide)
    obtain ⟨p, q, ht, hp⟩ := exists_of_blank hblank hcut
    obtain ⟨-, hbehind⟩ := Text.append_inj_of_size ht (by rw [hp, size_append, size_append, hn])
    rw [hbehind] at hback
    exact Bool.false_ne_true ((hback c rfl).symm.trans hc')

/-- A name stands in the statement that binds it as a whole word. -/
theorem exists_runAt (hi : i ∈ ImportStatement.all s) (hx : x ∈ i.members)
    (hname : ∀ c ∈ x.boundAs, isName c = true) :
    ∃ n, i.start ≤ n ∧ n + size x.boundAs ≤ i.stop ∧ s.text.RunAt n x.boundAs := by
  obtain ⟨m, hm, rfl⟩ := exists_of_mem_imports hi
  obtain ⟨front, back, hcut, hstart, hstop, hfront, hback⟩ := ImportStatement.exists_bound hm hx
  have hne : x.boundAs ≠ [] := (ImportStatement.of_mem_members hm hx).1.boundAs.ne_nil
  exact ⟨size front, hstart, hstop, front, back, hcut, rfl, hne, hname, hfront, hback⟩

theorem IsFirstIn.le (h : IsFirstIn t i w n) (hk : t.OccursAt k w) (hstart : i.start ≤ k) : n ≤ k :=
  Nat.le_of_not_lt fun hlt => h.first k hstart hlt hk

theorem IsWholeIn.occursAt (h : IsWholeIn s i w n) : s.text.OccursAt n w := by
  obtain ⟨front, back, hcut, rfl, hne, hname, -⟩ := h.runAt
  have hblank : ∀ c ∈ w, c ≠ ' ' := fun c hc heq => absurd (heq ▸ hname c hc) (by decide)
  rw [s.blanked_eq] at hcut
  obtain ⟨p, q, ht, hsize⟩ := exists_part_of_blank hne hblank hcut
  exact ⟨p, q, ht, hsize.symm⟩

/-- The first occurrence is a whole word in code exactly if there is such a word in the statement
and everything in front of it that looks like the word is one. -/
theorem IsFirstIn.isWhole_iff (h : IsFirstIn s.text i w n) : IsWholeIn s i w n ↔
    ∃ k, IsWholeIn s i w k ∧ ∀ j, i.start ≤ j → j < k → s.text.OccursAt j w →
    IsWholeIn s i w j := by
  constructor
  · exact fun hwhole => ⟨n, hwhole, fun j hstart hlt hj => absurd hj (h.first j hstart hlt)⟩
  · rintro ⟨k, hwhole, hfront⟩
    rcases Nat.lt_or_eq_of_le (h.le hwhole.occursAt hwhole.start_le) with hlt | rfl
    · exact hfront n h.start_le hlt h.occursAt
    · exact hwhole

/-- Every finding belongs to a member of a statement, and stands at the first place in the statement
at which the bound name occurs.  That is a whole word in code exactly if there is such a word in the
statement and nothing in front of it only looks like it.  A name that is made of characters of names
stands as a whole word in the braces, and in code if it is not blanked there: so only what stands in
front of the member, or a comment around it, leads astray. -/
theorem unused_imports_found {ctx : Context} {f : Finding} (hf : f ∈ unusedOptionalImports ctx) :
    ∃ i ∈ ImportStatement.all ctx.source, ∃ x ∈ i.members, ∃ n,
      f = .found n x.boundAs (some (unusedMemberMessage i x)) ∧
      IsFirstIn ctx.source.text i x.boundAs n ∧
      (IsWholeIn ctx.source i x.boundAs n ↔ ∃ k, IsWholeIn ctx.source i x.boundAs k ∧
        ∀ j, i.start ≤ j → j < k → ctx.source.text.OccursAt j x.boundAs →
        IsWholeIn ctx.source i x.boundAs j) ∧
      ((∀ c ∈ x.boundAs, isName c = true) → ∃ k, n ≤ k ∧ k + size x.boundAs ≤ i.stop ∧
        ctx.source.text.RunAt k x.boundAs ∧
        (ctx.source.blanked.OccursAt k x.boundAs → IsWholeIn ctx.source i x.boundAs k)) := by
  obtain ⟨i, hi, hf⟩ := List.mem_flatMap.mp hf
  obtain ⟨x, hx, rfl⟩ := List.mem_map.mp hf
  have hmember := (List.mem_filter.mp hx).1
  have hfirst := isFirst_memberOffset hi hmember
  refine ⟨i, hi, x, hmember, _, rfl, hfirst, hfirst.isWhole_iff, fun hname => ?_⟩
  obtain ⟨k, hstart, hstop, hrun⟩ := exists_runAt hi hmember hname
  refine ⟨k, hfirst.le hrun.occursAt hstart, hstop, hrun, fun hleft => ⟨hstart, hstop, ?_⟩⟩
  rw [ctx.source.blanked_eq] at hleft ⊢
  exact runAt_blank hrun hleft

/-- A text in which the first occurrence of a member's name is the member. -/
theorem unused_imports_found_whole :
    let ctx := contextOf "import \x7b ZodError, ZodErrorMap \x7d from 'zod';\n".toList
    ∃ i ∈ ImportStatement.all ctx.source, IsWholeIn ctx.source i "ZodError".toList 9 := by
  intro ctx
  have hfound : ∃ f ∈ unusedOptionalImports ctx, f.offset = some 9 ∧
      f.matched = "ZodError".toList := by
    decide +kernel
  obtain ⟨f, hf, hoffset, hmatched⟩ := hfound
  obtain ⟨i, hi, x, -, n, rfl, hfirst, -⟩ := unused_imports_found hf
  obtain rfl : n = 9 := Option.some.inj hoffset
  have hname : x.boundAs = "ZodError".toList := hmatched
  rw [hname] at hfirst
  have hrun : ctx.source.blanked.RunAt 9 "ZodError".toList :=
    (Text.mem_runs (by decide) (by decide)).mp (by decide +kernel)
  exact ⟨i, hi, hfirst.start_le, hfirst.le_stop, hrun⟩

/-- The name of a member may be the beginning of another one in front of it. -/
theorem not_always_whole_member : ¬ ∀ (ctx : Context) (f : Finding), f ∈ unusedOptionalImports ctx →
    ∃ i ∈ ImportStatement.all ctx.source, ∃ x ∈ i.members, f.matched = x.boundAs ∧
      ∃ n, f.offset = some n ∧ IsWholeIn ctx.source i x.boundAs n := by
  intro h
  have hfound : ∃ f ∈ unusedOptionalImports
      (contextOf "import \x7b ZodErrorMap, ZodError \x7d from 'zod';\n".toList),
      f.offset = some 9 ∧ f.matched = "ZodError".toList := by decide +kernel
  obtain ⟨f, hf, hoffset, hmatched⟩ := hfound
  obtain ⟨i, -, x, -, hname, n, hn, hwhole⟩ := h _ f hf
  obtain rfl : n = 9 := Option.some.inj (hn.symm.trans hoffset)
  rw [← hname, hmatched] at hwhole
  exact absurd ((Text.mem_runs (by decide) (by decide)).mpr hwhole.runAt) (by decide +kernel)

end Rule

end ServiceGate
