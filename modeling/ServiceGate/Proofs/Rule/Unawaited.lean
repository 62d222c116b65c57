/-
# Queries that nothing awaits

The rule takes a statement to start behind the last semicolon or brace in front of a call, and asks
whether a word that takes up a promise stands from there on.  No query starts inside of another, so
every query in code comes under this test, and it is reported exactly if the test fails and no
handler is chained to it (`mem_unawaitedQueries_iff`).

A line feed is no such sign.  Where statements are ended by line feeds alone, a word of the
statement in front counts for the call (`not_always_reported`), though a repair takes the statement
to end there.
-/
import ServiceGate.Proofs.Rule.Unnarrowed
import ServiceGate.Proofs.Text.Runs
import ServiceGate.Repair.Edit
import ServiceGate.Rule.Storage

namespace ServiceGate.Rule

open Pattern
open Text (size)

variable {b p q call front back w : Text} {n k : Nat} {ctx : Context} {m : Match} {c d : Char}

/-! ## Queries -/

def queried : List Text := ["pool", "db", "client", "sql"].map String.toList

/-- A query up to its parenthesis. -/
def IsQuery (call : Text) : Prop :=
  ∃ x ∈ queried, ∃ u v w : Text, call = x ++ (u ++ '.' :: (v ++ ("query".toList ++ w))) ∧
    ∀ c ∈ u ++ (v ++ w), CharClass.isSpace c = true

/-- A query starts at a place. -/
def QueryAt (b : Text) (n : Nat) (call : Text) : Prop :=
  ∃ front back, b = front ++ (call ++ '(' :: back) ∧ n = size front ∧ WordStart front ∧ IsQuery call

theorem IsQuery.notMem (h : IsQuery call) : '(' ∉ call := by
  obtain ⟨x, hx, u, v, w, rfl, hspace⟩ := h
  have hqueried : ∀ x ∈ queried, '(' ∉ x := by decide
  have hparen : ∀ {z : Text}, (∀ c ∈ z, CharClass.isSpace c = true) → '(' ∉ z := fun hz hmem =>
    absurd (hz _ hmem) (by decide)
  simp only [List.forall_mem_append] at hspace
  simp only [List.mem_append, List.mem_cons, not_or]
  exact ⟨hqueried x hx, hparen hspace.1, by decide, hparen hspace.2.1, by decide, hparen hspace.2.2⟩

theorem QueryAt.eq {call' : Text} (h : QueryAt b n call) (h' : QueryAt b n call') :
    call = call' := by
  obtain ⟨front, back, rfl, rfl, -, hcall⟩ := h
  obtain ⟨front', back', hcut, hsize, -, hcall'⟩ := h'
  obtain ⟨rfl, htail⟩ := Text.append_inj_of_size hcut hsize
  exact Text.eq_of_notMem hcall.notMem hcall'.notMem htail

abbrev queryWords : Pattern :=
  inOrder [anyWord ["pool", "db", "client", "sql"], spaces, word ".", spaces, word "query", spaces,
    capture 1 (word "(")]

theorem spells_queryWords_iff : Spells queryWords w ↔ ∃ call, w = call ++ ['('] ∧ IsQuery call := by
  constructor
  · intro h
    obtain ⟨x, _, rfl, hx, h⟩ := spells_seq h
    obtain ⟨u, _, rfl, hu, h⟩ := spells_seq h
    obtain ⟨dot, _, rfl, hdot, h⟩ := spells_seq h
    obtain ⟨v, _, rfl, hv, h⟩ := spells_seq h
    obtain ⟨query, _, rfl, hquery, h⟩ := spells_seq h
    obtain ⟨w, paren, rfl, hw, hparen⟩ := spells_seq h
    obtain rfl := spells_literal hdot
    obtain rfl := spells_literal hquery
    obtain rfl := spells_literal (spells_capture hparen)
    refine ⟨x ++ (u ++ '.' :: (v ++ ("query".toList ++ w))),
      by simp, x, spells_anyWord hx, u, v, w, rfl, ?_⟩
    simp only [List.forall_mem_append]
    exact ⟨spells_many_char hu, spells_many_char hv, spells_many_char hw⟩
  · rintro ⟨_, rfl, x, hx, u, v, w, rfl, hspace⟩
    simp only [List.forall_mem_append] at hspace
    have htext : x ++ (u ++ '.' :: (v ++ ("query".toList ++ w))) ++ ['('] =
        x ++ (u ++ (".".toList ++ (v ++ ("query".toList ++ (w ++ "(".toList))))) := by simp
    rw [htext]
    exact .seq (spells_anyWord_of_mem hx) <| .seq (spells_many_of_forall hspace.1) <|
      .seq (spells_literal_self _) <| .seq (spells_many_of_forall hspace.2.1) <|
      .seq (spells_literal_self _) <| .seq (spells_many_of_forall hspace.2.2) <|
      .capture (spells_literal_self _)

theorem head_of_queried : ∀ x ∈ queried, x.head?.any (fun c => c ∈ "pdcs".toList) = true := by
  decide

theorem IsQuery.tail (h : IsQuery call) (hcut : call ++ ['('] = c :: w) : ∀ d ∈ w,
    d ∉ "pdcs".toList := by
  obtain ⟨x, hx, u, v, z, rfl, hspace⟩ := h
  have hqueried : ∀ x ∈ queried, x ≠ [] ∧ ∀ d ∈ x.tail, d ∉ "pdcs".toList := by decide
  obtain ⟨hne, hx⟩ := hqueried x hx
  obtain ⟨a, x, rfl⟩ := List.exists_cons_of_ne_nil hne
  simp only [List.cons_append, List.append_assoc] at hcut
  obtain ⟨-, rfl⟩ := List.cons.inj hcut
  have hspaces : ∀ d, CharClass.isSpace d = true → d ∉ "pdcs".toList := fun d hd hmem => by
    have hletters : ∀ d ∈ "pdcs".toList, CharClass.isSpace d = false := by decide
    rw [hletters d hmem] at hd
    cases hd
  have hsigns : ∀ d ∈ ".query(".toList, d ∉ "pdcs".toList := by decide
  simp only [List.forall_mem_append] at hspace
  intro d hd
  simp only [List.mem_append, List.mem_cons, List.not_mem_nil, or_false] at hd
  rcases hd with hd | hd | rfl | hd | hd | hd | rfl
  · exact hx d hd
  · exact hspaces d (hspace.1 d hd)
  · exact hsigns _ (by decide)
  · exact hspaces d (hspace.2.1 d hd)
  · exact hsigns d (List.mem_cons_of_mem _ (List.mem_append_left ['('] hd))
  · exact hspaces d (hspace.2.2 d hd)
  · exact hsigns _ (by decide)

theorem spells_queryCall (h : Spells queryCall w) : ∃ call, w = call ++ ['('] ∧ IsQuery call := by
  obtain ⟨e, w, rfl, hedge, h⟩ := spells_seq h
  rw [spells_wordEdge hedge]
  exact spells_queryWords_iff.mp h

theorem start_eq_of_query (hm : m ∈ queryCall.all b) (hmatch : queryCall.MatchesAt b n)
    (hle : m.start ≤ n) (hlt : n < m.stop) : m.start = n := by
  refine (Nat.eq_or_lt_of_le hle).resolve_right fun hbefore => ?_
  obtain ⟨front, c, w, d, v, back, u, back', -, -, -, hspells, hu, hv⟩ :=
    exists_overlap hm hmatch hbefore hlt
  obtain ⟨call, hcall, hquery⟩ := spells_queryCall hspells
  obtain ⟨_, rfl, x, hx, y, y', z, rfl, -⟩ := spells_queryCall hu
  obtain ⟨e, hhead, he⟩ := (Option.any_eq_true _ _).mp (head_of_queried x hx)
  obtain ⟨x, rfl⟩ : ∃ x', x = e :: x' := List.head?_eq_some_iff.mp hhead
  obtain ⟨rfl, -⟩ := List.cons.inj hv
  exact hquery.tail hcall.symm d (by simp) (of_decide_eq_true he)

theorem queryAt_of_mem (hm : m ∈ queryCall.all b) : ∃ call, QueryAt b m.start call ∧
    m.text = call ++ ['('] ∧ (m.group? 1).map (·.start) = some (m.start + size call) := by
  obtain ⟨front, back, hcut, hstart, -, hleads⟩ := exists_leads_of_mem_all hm
  obtain ⟨e, rest, cs, hrest, he, hedge, hwords⟩ := leads_past_seq hleads
  obtain rfl := spells_wordEdge he
  have hedge := leads_past_wordEdge hedge
  obtain ⟨call, htext, hquery⟩ := spells_queryCall (in_of_mem_all hm).spells
  have hfront : WordStart front := by
    obtain ⟨x, hx, u, v, w, hcall, -⟩ := hquery
    have hword : ∀ x ∈ queried, x.head?.any CharClass.isWord = true := by decide
    rw [htext, hcall] at hedge
    simp only [List.append_assoc] at hedge
    exact wordStart_of_edge hedge (hword x hx)
  refine ⟨call, ⟨front, back, by rw [hcut, htext, List.append_assoc]; rfl, hstart, hfront, hquery⟩,
    htext, ?_⟩
  obtain ⟨g, hg⟩ := (in_of_mem_all hm).kept 1 rfl
  obtain ⟨hnumber, body, x, y, hmem, hspells, hcut, hgstart, -⟩ := (in_of_mem_all hm).group hg
  obtain rfl : body = word "(" := by
    have hgroups : queryCall.groups = [(1, word "(")] := rfl
    rw [hgroups, List.mem_singleton] at hmem
    exact (Prod.mk.inj hmem).2
  -- the only parenthesis of the match is its last character
  rw [htext, spells_literal hspells] at hcut
  obtain ⟨z, rfl⟩ := Text.prefix_of_notMem (hcut.trans (by simp; rfl)) hquery.notMem
  rw [List.append_assoc, List.append_assoc, List.append_cancel_left_eq] at hcut
  obtain rfl : z = [] := by
    cases z with
    | nil => rfl
    | cons c z =>
        have hlength := congrArg List.length hcut
        simp at hlength
  rw [hg, Option.map_some, hgstart, List.append_nil]

theorem mem_queryCall_iff : (∃ m ∈ queryCall.all b, m.start = n ∧ m.text = call ++ ['('] ∧
    (m.group? 1).map (·.start) = some (n + size call)) ↔ QueryAt b n call := by
  constructor
  · rintro ⟨m, hm, rfl, htext, -⟩
    obtain ⟨call', hquery, htext', -⟩ := queryAt_of_mem hm
    obtain rfl := List.append_cancel_right (htext.symm.trans htext')
    exact hquery
  · intro h
    have hmatch : queryCall.MatchesAt b n := by
      obtain ⟨front, back, rfl, rfl, hstart, hcall⟩ := h
      obtain ⟨cs, hleads⟩ := (spells_queryWords_iff.mpr ⟨call, rfl, hcall⟩).leads rfl front back []
      rw [List.append_assoc] at hleads
      refine matchesAt_of_leads rfl (.seq (leads_wordEdge ?_) hleads)
      obtain ⟨x, hx, u, v, w, rfl, -⟩ := hcall
      have hword : ∀ x ∈ queried, x ≠ [] ∧ x.head?.any CharClass.isWord = true := by decide
      obtain ⟨hne, hhead⟩ := hword x hx
      obtain ⟨c, x, rfl⟩ := List.exists_cons_of_ne_nil hne
      rw [show front.getLast?.any CharClass.isWord = false from hstart]
      exact fun h => Bool.false_ne_true (h.trans hhead)
    obtain ⟨m, hm, hle, hlt⟩ := exists_covering (fun u hu => spells_ne_nil hu rfl) hmatch
    obtain rfl := start_eq_of_query hm hmatch hle hlt
    obtain ⟨call', hquery, htext, hgroup⟩ := queryAt_of_mem hm
    obtain rfl := h.eq hquery
    exact ⟨m, hm, rfl, htext, hgroup⟩

/-! ## What takes up a promise -/

/-- A sign behind which the rule takes a statement to start. -/
def isStop (c : Char) : Bool := c == ';' || c == '\x7b' || c == '\x7d'

theorem of_isStop (h : isStop c = true) :
    CharClass.isName c = false ∧ CharClass.isSpace c = false ∧ c ∉ "=>".toList := by
  simp only [isStop, Bool.or_eq_true, beq_iff_eq] at h
  rcases h with (rfl | rfl) | rfl <;> decide

def takers : List Text := ["await", "return", "yield"].map String.toList

/-- In front of a place, with no such sign between, a word stands that takes up a promise; or an
arrow stands directly in front of it. -/
inductive TakenUp (b : Text) (n : Nat) : Prop
  | word {w : Text} {k : Nat} : w ∈ takers → b.RunAt k w → k + size w ≤ n →
      (∀ c ∈ b.between k n, isStop c = false) → TakenUp b n
  | arrow {x blanks : Text} : b.before n = x ++ ("=>".toList ++ blanks) →
      (∀ c ∈ blanks, CharClass.isSpace c = true) → TakenUp b n

theorem between_of_cut (x y q : Text) : (x ++ y ++ q).between (size x) (size (x ++ y)) = y := by
  rw [Text.size_append]
  exact Text.between_append x y q

theorem exists_lead (p q : Text) : ∃ front lead, p = front ++ lead ∧
    (∀ c ∈ front.getLast?, isStop c = true) ∧ (∀ c ∈ lead, isStop c = false) ∧
      (p ++ q).between (statementStart (p ++ q) (size p)) (size p) = lead := by
  have hfree : ∀ {x y : Text}, p = x ++ y → (∀ i, p.lastWhere? isStop = some i → i < size x) →
      ∀ c ∈ y, isStop c = false := by
    intro x y hp hlast c hc
    by_contra hstop
    obtain ⟨u, v, rfl⟩ := List.append_of_mem hc
    rw [← List.append_assoc] at hp
    obtain ⟨i, hi, hle⟩ := Text.exists_lastWhere? (p := x ++ u) (q := v) (by simpa using hstop)
    have := hlast i (hp ▸ hi)
    rw [Text.size_append] at hle
    omega
  have hbefore : (p ++ q).before (size p) = p := Text.before_append p q
  have hstart : statementStart (p ++ q) (size p) = ((p.lastWhere? isStop).map (· + 1)).getD 0 := by
    have hstop : (p.lastWhere? fun c => c == ';' || c == '\x7b' || c == '\x7d') =
        p.lastWhere? isStop := rfl
    rw [statementStart, hbefore, hstop]
    cases p.lastWhere? isStop <;> rfl
  rw [hstart]
  cases hlast : p.lastWhere? isStop with
  | none =>
      refine ⟨[], p, rfl, (fun c hc => by cases hc), hfree (List.nil_append p).symm fun i hi =>
        ?_, ?_⟩
      · rw [hlast] at hi
        cases hi
      · exact between_of_cut [] p q
  | some i =>
      obtain ⟨u, c, v, hp, rfl, hc⟩ := Text.exists_of_lastWhere? hlast
      have hsize : size u + 1 = size (u ++ [c]) := by
        have hone : c.utf8Size = 1 := by
          simp only [isStop, Bool.or_eq_true, beq_iff_eq] at hc
          rcases hc with (rfl | rfl) | rfl <;> rfl
        rw [Text.size_append, Text.size, hone]
        rfl
      have hcut : p = u ++ [c] ++ v := by simp [hp]
      refine ⟨u ++ [c], v, hcut, fun d hd => ?_, hfree hcut fun i hi => ?_, ?_⟩
      · obtain rfl : c = d := by simpa using hd
        exact hc
      · obtain rfl := Option.some.inj (hlast.symm.trans hi)
        omega
      · show (p ++ q).between (size u + 1) (size p) = v
        rw [hsize, hcut]
        exact between_of_cut _ v q

theorem endsWith_trimEnd_iff {t : Text} (hc : CharClass.isSpace c = false) :
    t.trimEnd.endsWith (w ++ [c]) = true ↔ ∃ x blanks : Text, t = x ++ (w ++ [c] ++ blanks) ∧
      ∀ d ∈ blanks, CharClass.isSpace d = true := by
  rw [Text.endsWith, List.isSuffixOf_iff_suffix]
  constructor
  · rintro ⟨x, hx⟩
    refine ⟨x, (t.reverse.takeWhile CharClass.isSpace).reverse, ?_, fun d hd => ?_⟩
    · rw [← List.append_assoc, hx, Text.trimEnd, Text.trimEndWhere, ← List.reverse_append,
        List.takeWhile_append_dropWhile, List.reverse_reverse]
    · exact List.mem_takeWhile_imp (List.mem_reverse.mp hd)
  · rintro ⟨x, blanks, rfl, hblanks⟩
    have hreverse : (x ++ (w ++ [c] ++ blanks)).reverse = blanks.reverse ++ c ::
        (x ++ w).reverse := by simp
    refine ⟨x, ?_⟩
    rw [Text.trimEnd, Text.trimEndWhere, hreverse, List.dropWhile_append_of_pos
      (fun d hd => hblanks d (List.mem_reverse.mp hd)), List.dropWhile_cons_of_neg (by simp [hc])]
    simp

/-- A word is counted in the lead exactly if it stands in front of the place with no stop in
between. -/
theorem countWord_lead_iff {lead : Text} (hne : w ≠ []) (hname : ∀ c ∈ w, CharClass.isName c = true)
    (hfront : ∀ c ∈ front.getLast?, isStop c = true) (hlead : ∀ c ∈ lead, isStop c = false)
    (hend : ∀ c ∈ (front ++ lead).getLast?, c ∉ w) : 0 < lead.countWord w ↔
      ∃ k, (front ++ lead ++ q).RunAt k w ∧ k + size w ≤ size (front ++ lead) ∧
        ∀ c ∈ (front ++ lead ++ q).between k (size (front ++ lead)), isStop c = false := by
  have hbreak : ∀ c ∈ front.getLast?, CharClass.isName c = false := fun c hc =>
    (of_isStop (hfront c hc)).1
  have hpart := fun j => Text.runAt_part (p := front) (w := lead) (q := q) (n := j) hbreak hend
  rw [← Text.card_runs hne hname, Finset.card_pos]
  constructor
  · rintro ⟨j, hj⟩
    obtain ⟨hrun, hle⟩ := (hpart j).mp ((Text.mem_runs hne hname).mp hj)
    refine ⟨size front + j, hrun, by rw [Text.size_append]; omega, fun c hc => hlead c ?_⟩
    obtain ⟨x, y, hcut, hj, -⟩ := (Text.mem_runs hne hname).mp hj
    rw [hcut, hj, ← Text.size_append, List.append_assoc x w y, ← List.append_assoc front x,
      between_of_cut] at hc
    rw [hcut, List.append_assoc]
    exact List.mem_append_right x hc
  · rintro ⟨k, hrun, hle, hfree⟩
    have hbehind : size front ≤ k := by
      refine Nat.le_of_not_lt fun hlt => ?_
      obtain ⟨x, y, hcut, rfl, -⟩ := hrun
      rw [List.append_assoc x, List.append_assoc] at hcut
      obtain ⟨v, rfl, -⟩ := Text.exists_middle hcut.symm (Nat.le_of_lt hlt)
      rcases List.eq_nil_or_concat' v with rfl | ⟨v, c, rfl⟩
      · rw [List.append_nil] at hlt
        exact Nat.lt_irrefl _ hlt
      · -- the stop at the end of `front` would stand between
        have hstop := hfront c (by simp [← List.append_assoc])
        rw [List.append_assoc x, between_of_cut] at hfree
        rw [hfree c (by simp)] at hstop
        cases hstop
    obtain ⟨j, rfl⟩ := Nat.exists_eq_add_of_le hbehind
    rw [Text.size_append] at hle
    exact ⟨j, (Text.mem_runs hne hname).mpr ((hpart j).mpr ⟨hrun, by omega⟩)⟩

theorem takesPromise_iff (hstart : WordStart p) :
    takesPromise ((p ++ q).between (statementStart (p ++ q) (size p)) (size p)) = true ↔
      TakenUp (p ++ q) (size p) := by
  obtain ⟨front, lead, rfl, hfront, hlead, hbetween⟩ := exists_lead p q
  have htakers : ∀ w ∈ takers, w ≠ [] ∧ (∀ c ∈ w, CharClass.isName c = true) ∧
      ∀ c ∈ w, CharClass.isWord c = true := by decide
  have hend : ∀ w ∈ takers, ∀ c ∈ (front ++ lead).getLast?, c ∉ w := fun w hw c hc hmem => by
    rw [WordStart, Option.mem_def.mp hc, Option.any_some, (htakers w hw).2.2 c hmem] at hstart
    cases hstart
  have hword : (["await", "return", "yield"].any fun w => 0 < lead.countWord w.toList) = true ↔
      ∃ w ∈ takers, ∃ k, (front ++ lead ++ q).RunAt k w ∧ k + size w ≤ size (front ++ lead) ∧
        ∀ c ∈ (front ++ lead ++ q).between k (size (front ++ lead)), isStop c = false := by
    have hcount := fun w hw =>
      @countWord_lead_iff q front w lead (htakers w hw).1 (htakers w hw).2.1 hfront hlead
      (hend w hw)
    rw [List.any_eq_true]
    constructor
    · rintro ⟨w, hw, hpos⟩
      have hmem : w.toList ∈ takers := List.mem_map_of_mem hw
      exact ⟨w.toList, hmem, (hcount _ hmem).mp (of_decide_eq_true hpos)⟩
    · rintro ⟨w, hw, hk⟩
      have hpos := (hcount w hw).mpr hk
      obtain ⟨w, hmem, rfl⟩ := List.mem_map.mp hw
      exact ⟨w, hmem, decide_eq_true hpos⟩
  have harrow : lead.trimEnd.endsWith "=>".toList = true ↔ ∃ x blanks : Text,
      (front ++ lead ++ q).before (size (front ++ lead)) = x ++ ("=>".toList ++ blanks) ∧
        ∀ c ∈ blanks, CharClass.isSpace c = true := by
    have htrim := @endsWith_trimEnd_iff ['='] '>' lead (by decide)
    rw [show "=>".toList = ['='] ++ ['>'] from rfl, htrim, Text.before_append]
    constructor
    · rintro ⟨x, blanks, rfl, hblanks⟩
      exact ⟨front ++ x, blanks, by simp, hblanks⟩
    · rintro ⟨x, blanks, hcut, hblanks⟩
      rcases List.append_eq_append_iff.mp hcut with ⟨y, rfl, hy⟩ | ⟨y, rfl, hy⟩
      · exact ⟨y, blanks, hy, hblanks⟩
      · rcases List.eq_nil_or_concat' y with rfl | ⟨y, c, rfl⟩
        · exact ⟨[], blanks, hy.symm, hblanks⟩
        · have hc := (of_isStop (hfront c (by simp [← List.append_assoc]))).2
          have hmem : c ∈ ['='] ++ ['>'] ++ blanks := hy ▸ by simp
          rcases List.mem_append.mp hmem with hmem | hmem
          · exact absurd hmem hc.2
          · rw [hblanks c hmem] at hc
            cases hc.1
  rw [hbetween, takesPromise, Bool.or_eq_true, hword, harrow]
  constructor
  · rintro (⟨w, hw, k, hrun, hle, hfree⟩ | ⟨x, blanks, hx, hblanks⟩)
    · exact .word hw hrun hle hfree
    · exact .arrow hx hblanks
  · rintro (⟨hw, hrun, hle, hfree⟩ | ⟨hx, hblanks⟩)
    · exact .inl ⟨_, hw, _, hrun, hle, hfree⟩
    · exact .inr ⟨_, _, hx, hblanks⟩

/-! ## What is reported -/

/-- A query is reported exactly if nothing in front of it takes up its promise and no handler is
chained to it. -/
theorem mem_unawaitedQueries_iff {f : Finding} : f ∈ unawaitedQueries ctx ↔ ∃ n call,
    QueryAt ctx.source.blanked n call ∧ ¬ TakenUp ctx.source.blanked n ∧
      isChained ctx.source (n + size call) = false ∧ f = .found n (call ++ ['(']) none := by
  have htaken : ∀ {n call}, QueryAt ctx.source.blanked n call → (takesPromise
      (ctx.source.blanked.between (statementStart ctx.source.blanked n) n) = true ↔
        TakenUp ctx.source.blanked n) := by
    rintro n call ⟨front, back, hcut, rfl, hstart, -⟩
    rw [hcut]
    exact takesPromise_iff hstart
  have hchained : ∀ {m : Match} {n : Nat}, (m.group? 1).map (·.start) = some n →
      ((m.group? 1).any fun paren => isChained ctx.source paren.start) =
      isChained ctx.source n := by
    intro m n hgroup
    obtain ⟨g, hg, rfl⟩ := Option.map_eq_some_iff.mp hgroup
    rw [hg, Option.any_some]
  rw [unawaitedQueries, List.mem_map]
  constructor
  · rintro ⟨m, hm, rfl⟩
    obtain ⟨hm, hkept⟩ := List.mem_filter.mp hm
    obtain ⟨call, hquery, htext, hgroup⟩ := queryAt_of_mem hm
    rw [hchained hgroup, Bool.and_eq_true, Bool.not_eq_true', Bool.not_eq_true'] at hkept
    exact ⟨m.start, call, hquery, fun h => by simp [(htaken hquery).mpr h] at hkept, hkept.2, by
      rw [htext]⟩
  · rintro ⟨n, call, hquery, hfree, hunchained, rfl⟩
    obtain ⟨m, hm, rfl, htext, hgroup⟩ := mem_queryCall_iff.mpr hquery
    refine ⟨m, List.mem_filter.mpr ⟨hm, ?_⟩, by rw [htext]⟩
    rw [hchained hgroup, hunchained, Bool.eq_false_iff.mpr (mt (htaken hquery).mp hfree)]
    rfl

theorem not_takenUp {blanks : Text} (hp : ∀ c ∈ p.getLast?, isStop c = true)
    (hblanks : ∀ c ∈ blanks, CharClass.isSpace c = true) : ¬ TakenUp (p ++ blanks ++ q)
    (size (p ++ blanks)) := by
  -- behind a character of another kind comes the stop, or it is the stop
  have hsolid : ∀ {y z : Text} {d : Char}, p ++ blanks = y ++ d :: z → CharClass.isSpace d = false →
      (∀ c ∈ d :: z, isStop c = false) → False := by
    intro y z d hcut hspace hfree
    have hmem : d ∉ blanks := fun hmem => by
      rw [hblanks d hmem] at hspace
      cases hspace
    rcases List.append_eq_append_iff.mp hcut with ⟨x, rfl, rfl⟩ | ⟨x, rfl, hx⟩
    · exact hmem (by simp)
    · rcases List.eq_nil_or_concat' x with rfl | ⟨x, e, rfl⟩
      · exact hmem (List.nil_append blanks ▸ hx ▸ List.mem_cons_self)
      · have hstop := hp e (by simp [← List.append_assoc])
        rw [hfree e (hx ▸ by simp)] at hstop
        cases hstop
  have htakers : ∀ w ∈ takers, w ≠ [] ∧ ∀ c ∈ w, CharClass.isSpace c = false := by decide
  rintro (⟨hw, ⟨x, y, hcut, rfl, -⟩, hle, hfree⟩ | @⟨x, blanks', harrow, hspace⟩)
  · obtain ⟨hne, hchars⟩ := htakers _ hw
    obtain ⟨d, w, rfl⟩ := List.exists_cons_of_ne_nil hne
    obtain ⟨z, hz, -⟩ := Text.exists_middle hcut.symm (by rw [Text.size_append]; exact hle)
    rw [hz, List.append_assoc x, between_of_cut] at hfree
    exact hsolid (hz.trans (List.append_assoc x _ z)) (hchars d List.mem_cons_self) hfree
  · rw [Text.before_append] at harrow
    refine hsolid (y := x) (z := '>' :: blanks') (d := '=') harrow (by decide) fun c hc => ?_
    refine Bool.eq_false_iff.mpr fun hstop => ?_
    obtain ⟨-, hsolid, hsign⟩ := of_isStop hstop
    rcases List.mem_append.mp (show c ∈ ['=', '>'] ++ blanks' from hc) with hc | hc
    · exact hsign hc
    · exact Bool.false_ne_true (hsolid.symm.trans (hspace c hc))

/-- The queries in code that nothing takes up are reported, each at its place; and so is one whose
statement starts behind a semicolon or a brace. -/
theorem reports_unawaited (ctx : Context) :
    (∀ f, f ∈ unawaitedQueries ctx ↔ ∃ n call, QueryAt ctx.source.blanked n call ∧
      ¬ TakenUp ctx.source.blanked n ∧ isChained ctx.source (n + size call) = false ∧
        f = .found n (call ++ ['(']) none) ∧
    ∀ p blanks q call, ctx.source.blanked = p ++ blanks ++ q → (∀ c ∈ p.getLast?, isStop c = true) →
      (∀ c ∈ blanks, CharClass.isSpace c = true) →
      QueryAt ctx.source.blanked (size (p ++ blanks)) call →
        isChained ctx.source (size (p ++ blanks) + size call) = false →
          .found (size (p ++ blanks)) (call ++ ['(']) none ∈ unawaitedQueries ctx := by
  refine ⟨fun f => mem_unawaitedQueries_iff, fun p blanks q call hcut hp hblanks hquery hchained =>
    ?_⟩
  refine mem_unawaitedQueries_iff.mpr ⟨_, call, hquery, ?_, hchained, rfl⟩
  rw [hcut]
  exact not_takenUp hp hblanks

def contextOf (t : Text) : Context := ⟨.of t, .detect (.of t) .none, .default⟩

theorem reports_unawaited_ended : .found 13 "pool.query(".toList none ∈
    unawaitedQueries (contextOf "await foo();\npool.query('x');\n".toList) := by
  refine (reports_unawaited (contextOf "await foo();\npool.query('x');\n".toList)).2
    "await foo();".toList
    ['\n'] "pool.query(   );\n".toList "pool.query".toList (by decide) (by decide)
    (by decide) ?_ (by decide)
  exact ⟨"await foo();\n".toList, "   );\n".toList, by decide, by decide, rfl, "pool".toList, by
    decide, [], [], [], by decide, by decide⟩

/-- Behind a line feed that ends a statement, a query need not be reported. -/
theorem not_always_reported : ¬ ∀ (ctx : Context) (k n : Nat) (call : Text),
    QueryAt ctx.source.blanked n call →
    (∀ c ∈ ctx.source.blanked.between (ctx.source.blanked.lineStart n) n,
      CharClass.isSpace c = true) →
    k < n → Repair.statementStop ctx.source.text k ≤ ctx.source.text.lineStart n →
    isChained ctx.source (n + size call) = false →
      .found n (call ++ ['(']) none ∈ unawaitedQueries ctx := by
  intro h
  have hmem := h (contextOf "await foo()\npool.query('x')\n".toList) 0 12 "pool.query".toList
    ⟨"await foo()\n".toList, "   )\n".toList, by decide, by decide, rfl, "pool".toList, by decide,
      [], [], [], by decide, by decide⟩ (by decide) (by decide) (by decide) (by decide)
  have hnone : unawaitedQueries (contextOf "await foo()\npool.query('x')\n".toList) = [] := by
    decide
  rw [hnone] at hmem
  cases hmem

end ServiceGate.Rule
