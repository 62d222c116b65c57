/-
# What the repairs bind

A repair adds the names that are missing from the imports of a module, and a new specification
declares its name. Neither looks at what else the text binds, another module's import or a variable,
so a name may be bound twice (`not_always_unbound`).  What the repairs do to the names that a text
binds:

    importing            adds the names that are missing,    -- `binds_ensureNamedImport`
                         and takes nothing away
    a new specification  adds its own name                   -- `binds_synthesizeSpec`

So behind the repair an added name is bound once exactly if it was not bound in front of it
(`bound_once`).

The names of a text are counted: those that its imports bind, read as statements in code, and the
variables that the blanked text declares.  Both are found by a search, and the search goes stretch
by stretch where no match reaches over the ends of the stretch that is exchanged.
-/
import ServiceGate.Proofs.Balanced.Specification
import ServiceGate.Proofs.Project.Exported
import ServiceGate.Proofs.Repair.Bindings
import ServiceGate.Proofs.Repair.Inert

namespace ServiceGate

open Pattern Scan ImportStatement ImportMember

variable {p q u v v' w t x y front rest name moduleName : Text} {others names added : List Text}
  {c d : Char}
  {m m' : Match} {ms : List ImportMember} {i j new : ImportStatement} {old : Option ImportStatement}
  {e : Edit} {behind : Option Char} {n rounds free start stop stop' : Nat} {policy : Policy}

namespace Repair

/-! ## Names that a text binds -/

def bindings (i : ImportStatement) : List Text :=
  i.defaultName.toList ++ i.namespaceName.toList ++ i.members.map (·.boundAs)

open Pattern in
/-- The declaration of a variable; the group is the variable. -/
def variableDeclaration : Pattern :=
  inOrder [wordEdge, anyWord ["const", "let", "var"], gap, capture 1 Pattern.name]

/-- The variables that the matches of some text declare. -/
def namesOf (ms : List Match) : List Text := ms.map (·.groupText 1)

def importedNames (t : Text) : List Text := (ImportStatement.all (.of t)).flatMap bindings

def declaredNames (t : Text) : List Text := namesOf (variableDeclaration.all (blank t))

/-- The names that a text binds, each as often as it is bound. -/
def boundNames (t : Text) : List Text := importedNames t ++ declaredNames t

/-- What an edit adds to the names that a text binds. -/
structure Binds (t u : Text) (added : List Text) : Prop where
  bound : (boundNames u).Perm (boundNames t ++ added)
  /-- An added name is bound once if nothing else bound it. -/
  once : ∀ name ∈ added, (boundNames u).count name = 1 ↔ name ∉ boundNames t

theorem binds_of_perm {t u : Text} (hadded : added.Nodup)
    (h : (boundNames u).Perm (boundNames t ++ added)) :
    Binds t u added where
  bound := h
  once name hname := by
    rw [h.count_eq, List.count_append, List.count_eq_one_of_mem hadded hname, ← List.count_eq_zero]
    omega

theorem bindings_congr (h : SameImports i j) : bindings j = bindings i := by
  rw [bindings, bindings, h.defaultName, h.namespaceName, h.members]

theorem flatMap_bindings_congr {is js : List ImportStatement} (h : List.Forall₂ SameImports is js) :
    js.flatMap bindings = is.flatMap bindings := by
  induction h with
  | nil => rfl
  | cons hij _ ih => rw [List.flatMap_cons, List.flatMap_cons, bindings_congr hij, ih]

end Repair

/-! ## A stretch in the place of another -/

namespace Pattern

variable {P : Pattern}

/-- No match reaches over an end of a stretch, nor over one of the stretch in its place. -/
structure Parted (P : Pattern) (t u : Text) (start stop stop' : Nat) : Prop where
  front : P.Apart t start
  back : P.Apart t stop
  front' : P.Apart u start
  back' : P.Apart u stop'

instance (P : Pattern) (t u : Text) (start stop stop' : Nat) :
    Decidable (P.Parted t u start stop stop') :=
  decidable_of_iff (P.Apart t start ∧ P.Apart t stop ∧ P.Apart u start ∧ P.Apart u stop')
    ⟨fun h => ⟨h.1, h.2.1, h.2.2.1, h.2.2.2⟩, fun h => ⟨h.front, h.back, h.front', h.back'⟩⟩

/-- Where no match starts in a stretch or reaches over its ends, none is within it. -/
theorem within_eq_nil {P : Pattern} (hlead : P.leading = true) (htakes : P.takes = true)
    (h : ∀ m ∈ P.all (u ++ v ++ q), m.stop ≤ Text.size u ∨ Text.size (u ++ v) ≤ m.start) :
    P.Apart (u ++ v ++ q) (Text.size u) ∧ P.Apart (u ++ v ++ q) (Text.size (u ++ v)) ∧
      P.within u.getLast? (Text.size u) v = [] := by
  have hsize : Text.size u ≤ Text.size (u ++ v) := by
    rw [Text.size_append]
    exact Nat.le_add_right _ _
  have hfront : P.Apart (u ++ v ++ q) (Text.size u) := fun m hm hlt =>
    (h m hm).resolve_right (by omega)
  have hback : P.Apart (u ++ v ++ q) (Text.size (u ++ v)) := fun m hm hlt => by
    have := (h m hm).resolve_right (by omega)
    omega
  refine ⟨hfront, hback, List.eq_nil_iff_forall_not_mem.mpr fun m hm => ?_⟩
  have hmem : m ∈ P.all (u ++ v ++ q) := by
    rw [all_parts hlead htakes hfront hback]
    exact List.mem_append_left _ (List.mem_append_right _ hm)
  obtain ⟨hin, -, hle⟩ := in_of_mem_allFrom v hm
  have hlt := hin.start_lt htakes
  have hne := start_lt_stop hin htakes
  rcases h m hmem with hle' | hle' <;> omega

end Pattern

namespace Repair

theorem namesOf_like {ms ms' : List Match} {o o' : Nat}
    (h : List.Forall₂ (Match.Like o o') ms ms') :
    namesOf ms' = namesOf ms := by
  induction h with
  | nil => rfl
  | @cons m m' ms ms' hm _ ih =>
      have hgroup := hm.group? 1
      rw [namesOf, namesOf, List.map_cons, List.map_cons, ← namesOf, ← namesOf, ih, Match.groupText,
        Match.groupText]
      congr 1
      generalize m.group? 1 = g at hgroup ⊢
      generalize m'.group? 1 = g' at hgroup ⊢
      cases hgroup with
      | none => rfl
      | some hg => exact hg.text

/-- Where a stretch is exchanged, the declarations next to it stay. -/
theorem exists_declared
    (h : variableDeclaration.Parted (u ++ v ++ q) (u ++ v' ++ q) (Text.size u) (Text.size (u ++ v))
      (Text.size (u ++ v'))) (halike : LikeBehind (u ++ v).getLast? (u ++ v').getLast?) :
      ∃ before after,
    namesOf (variableDeclaration.all (u ++ v ++ q)) =
      before ++ namesOf (variableDeclaration.within u.getLast? (Text.size u) v) ++ after ∧
    namesOf (variableDeclaration.all (u ++ v' ++ q)) =
      before ++ namesOf (variableDeclaration.within u.getLast? (Text.size u) v') ++ after := by
  have hlike := within_like (p := variableDeclaration) rfl halike (Text.size (u ++ v))
    (Text.size (u ++ v')) q
  refine ⟨namesOf (variableDeclaration.all u),
    namesOf (variableDeclaration.within (u ++ v).getLast? (Text.size (u ++ v)) q), ?_, ?_⟩
  · rw [all_parts rfl rfl h.front h.back]
    simp only [namesOf, List.map_append]
  · rw [all_parts rfl rfl h.front' h.back', ← namesOf_like hlike]
    simp only [namesOf, List.map_append]

/-! ## An import that is written -/

theorem readList_braces_eq (hne : ms ≠ []) (hread : ∀ m ∈ ms, m.IsRead)
    (htype : ∀ m ∈ ms, m.imported = "type".toList → m.typeOnly = true ∨ m.imported = m.boundAs) :
    readList (braces ms) = ms := by
  rw [readList_braces hne hread, List.filterMap_congr (g := some), List.filterMap_some]
  exact fun m hm => (hread m hm).read?_render (htype m hm)

/-- The names that are added to a statement are bound behind those that it bound. -/
theorem perm_bindings_added {u : Text} {modules missing : List Text}
    (h : Added u modules old missing new) (hnone : ∀ i ∈ old, i.namespaceName = none)
    (hmembers :
      readList (braces ((old.map (·.members)).getD [] ++ missing.map ImportMember.named)) =
      (old.map (·.members)).getD [] ++ missing.map ImportMember.named) :
    bindings new = old.toList.flatMap bindings ++ missing := by
  have hbound : ∀ names : List Text, (names.map ImportMember.named).map (·.boundAs) = names :=
    fun names => by
    rw [List.map_map]
    exact List.map_id' names
  rw [bindings, h.defaultName, h.namespaceName, h.members, hmembers, List.map_append, hbound]
  cases old with
  | none => simp
  | some i => simp [bindings, hnone i rfl]

/-- An edit that puts an import at a place where no variable is declared. -/
structure LeavesVariables (e : Edit) (t : Text) : Prop where
  before : ∀ m ∈ variableDeclaration.all (blank t), m.stop ≤ e.start ∨ e.stop ≤ m.start
  behind : ∀ m ∈ variableDeclaration.all (blank (e.apply t)), m.stop ≤ e.start ∨
    e.start + Text.size e.new ≤ m.start
  alike : LikeBehind ((blank t).before e.stop).getLast?
    ((blank (e.apply t)).before (e.start + Text.size e.new)).getLast?

instance (e : Edit) (t : Text) : Decidable (LeavesVariables e t) :=
  decidable_of_iff ((∀ m ∈ variableDeclaration.all (blank t), m.stop ≤ e.start ∨ e.stop ≤ m.start) ∧
      (∀ m ∈ variableDeclaration.all (blank (e.apply t)), m.stop ≤ e.start ∨
        e.start + Text.size e.new ≤ m.start) ∧
      LikeBehind ((blank t).before e.stop).getLast?
        ((blank (e.apply t)).before (e.start + Text.size e.new)).getLast?)
    ⟨fun h => ⟨h.1, h.2.1, h.2.2⟩, fun h => ⟨h.before, h.behind, h.alike⟩⟩

theorem declaredNames_apply (hstands : e.Stands t) (h : LeavesVariables e t) :
    declaredNames (e.apply t) = declaredNames t := by
  obtain ⟨p, v, q, rfl, hstart, hstop⟩ : ∃ p v q, t = p ++ v ++ q ∧ e.start = Text.size p ∧
      e.stop = Text.size p + Text.size v := by
    obtain ⟨p, v, q, ht, hstart, hstop⟩ := Text.bounds_iff.mp hstands.loose.bounds
    exact ⟨p, v, q, ht, hstart, hstop⟩
  obtain ⟨happly, hp, hv, hv'⟩ := hstands.of_cut hstart hstop
  have hcut := hv.blank_append hp q
  have hcut' := hv'.blank_append hp q
  obtain ⟨hbefore, hbehind, halike⟩ := h
  have hsize : e.start = Text.size (blank p) := by rw [size_blank, hstart]
  have hsize' : e.stop = Text.size (blank p ++ blank v) := by
    rw [Text.size_append, size_blank, size_blank, hstop]
  have hsize'' : e.start + Text.size e.new = Text.size (blank p ++ blank e.new) := by
    rw [Text.size_append, size_blank, size_blank, hstart]
  rw [happly, hcut, hcut', hsize', hsize'', Text.before_append, Text.before_append] at halike
  rw [hcut, hsize', hsize] at hbefore
  rw [happly, hcut', hsize'', hsize] at hbehind
  obtain ⟨hfront, hback, hnone⟩ := within_eq_nil rfl rfl hbefore
  obtain ⟨hfront', hback', hnone'⟩ := within_eq_nil rfl rfl hbehind
  obtain ⟨before, after, hold, hnew⟩ := exists_declared ⟨hfront, hback, hfront', hback'⟩ halike
  rw [declaredNames, declaredNames, happly, hcut, hcut', hold, hnew, hnone, hnone']

/-- Where the edit stands, importing adds the names that are missing to those that the text binds.
-/
theorem binds_ensureNamedImport (hmodule : moduleName ≠ [] ∧ '\'' ∉ moduleName ∧ '"' ∉ moduleName)
    (hnames : ∀ name ∈ names, IsIdentifier name) (hnodup : names.Nodup)
    (htype : ∀ i ∈ ImportStatement.all (.of t), ∀ m ∈ i.members,
      m.imported = "type".toList → m.typeOnly = true ∨ m.imported = m.boundAs)
    (hedit : ∀ e ∈ importEdit? moduleName others names t, e.Stands t ∧ LeavesVariables e t) :
    Binds t (ensureNamedImport moduleName others names t)
      (missingNames (ImportStatement.all (.of t)) (moduleName :: others) names) := by
  refine binds_of_perm (hnodup.filter _) ?_
  rw [ensureNamedImport_eq]
  cases he : importEdit? moduleName others names t with
  | none =>
      rw [missingNames_of_importEdit? he, List.append_nil, Option.map_none, Option.getD_none]
  | some e =>
      obtain ⟨hstands, hvariables⟩ := hedit e he
      obtain ⟨new, hexchange, hnew⟩ :=
        exists_exchange hmodule (fun name hname => (hnames name hname).notMem) he hstands
      have hmissing :
          ∀ name ∈ missingNames (ImportStatement.all (.of t)) (moduleName :: others) names,
          IsIdentifier name := fun name hname => hnames name (mem_missingNames.mp hname).1
      have hread := isRead_added (t := t) (f := takesMembers (moduleName :: others)) hmissing
      obtain ⟨missing, hmissingNames, hne, -⟩ := eq_of_importEdit? he
      rw [← hmissingNames] at hnew hread ⊢
      have hold : ∀ i ∈ (ImportStatement.all (.of t)).find? (takesMembers (moduleName :: others)),
          i ∈ ImportStatement.all (.of t) ∧ i.namespaceName = none := fun i hi => by
        have htakes := List.find?_some hi
        simp only [takesMembers, Bool.and_eq_true, Option.isNone_iff_eq_none] at htakes
        exact ⟨List.mem_of_find?_eq_some hi, htakes.2⟩
      generalize (ImportStatement.all (.of t)).find? (takesMembers (moduleName :: others)) = old
          at hexchange hnew hread hold
      have hmembers := readList_braces_eq (by simp [hne]) hread fun m hm => by
        rcases List.mem_append.mp hm with hm | hm
        · cases old with
          | none => cases hm
          | some i => exact htype i (hold i rfl).1 m hm
        · obtain ⟨name, -, rfl⟩ := List.mem_map.mp hm
          exact fun _ => .inr rfl
      have hbindings := perm_bindings_added hnew (fun i hi => (hold i hi).2) hmembers
      obtain ⟨before, behind, behind', ht, hu, hbehind⟩ := hexchange
      rw [Option.map_some, Option.getD_some, boundNames, boundNames,
        declaredNames_apply hstands hvariables, importedNames, importedNames, ht, hu]
      simp only [List.flatMap_append, List.flatMap_cons, hbindings, flatMap_bindings_congr hbehind,
        List.append_assoc]
      refine .append_left _ (.append_left _ ?_)
      exact (List.perm_append_comm).trans (by simp)



/-! ## A constant that is declared -/

theorem spells_variableDeclaration (h : Spells variableDeclaration w) : ∃ k d rest,
    w = k ++ d :: rest ∧ k ∈ ["const", "let", "var"].map String.toList ∧
    CharClass.isSpace d = true := by
  obtain ⟨edge, _, rfl, hedge, h⟩ := spells_seq h
  obtain ⟨k, _, rfl, hk, h⟩ := spells_seq h
  obtain ⟨gap, name, rfl, hgap, -⟩ := spells_seq h
  obtain ⟨hne, hspace⟩ := Exported.spells_gap hgap
  obtain ⟨d, gap, rfl⟩ := List.exists_cons_of_ne_nil hne
  rw [spells_wordEdge hedge]
  exact ⟨k, d, gap ++ name, by simp, spells_anyWord hk, hspace d List.mem_cons_self⟩

theorem exists_opens (h : Spells variableDeclaration w) : ∃ x c d y, w = x ++ c :: d :: y ∧
    Opens c d := by
  obtain ⟨k, d, rest, rfl, hk, hd⟩ := spells_variableDeclaration h
  have hends : ∀ k ∈ ["const", "let", "var"].map String.toList,
      k = k.dropLast ++ [k.getLast?.getD ' '] ∧
      (k.getLast?.getD ' ' = 't' ∨ k.getLast?.getD ' ' = 'r') := by
    decide
  obtain ⟨hcut, hc⟩ := hends k hk
  exact ⟨k.dropLast, k.getLast?.getD ' ', d, rest, by rw [hcut]; simp, hc, hd⟩

theorem not_spells (h : (u ++ (w ++ v)).IsChain fun c d => ¬ Opens c d) :
    ¬ Spells variableDeclaration w := by
  intro hspells
  obtain ⟨x, c, d, y, rfl, hopens⟩ := exists_opens hspells
  have heq : u ++ ((x ++ c :: d :: y) ++ v) = (u ++ x) ++ c :: d :: (y ++ v) := by simp
  exact List.isChain_iff_forall_rel_of_append_cons_cons.mp h heq hopens

/-- Where a constant is declared, the pattern reads it with its whole name. -/
theorem matchAt?_declared (hfront : WordStart front) (hname : Spells Pattern.name name)
    (hrest : ∀ c ∈ rest.head?, isNameChar c = false) (hrounds : name.length + 1 ≤ rounds) :
    variableDeclaration.matchAt? rounds ⟨front.getLast?, Text.size front, "const ".toList ++ name ++
      rest⟩ =
      some ⟨Text.size front, Text.size front + Text.size ("const ".toList ++ name),
        "const ".toList ++ name, [.past 1 (front ++ "const ".toList) name]⟩ := by
  refine matchAt?_of_prefers ?_
  have hword : Prefers rounds (anyWord ["const", "let", "var"])
      (Reading.past front ("const".toList ++ ([' '] ++ (name ++ rest))) [])
      (Reading.past (front ++ "const".toList) ([' '] ++ (name ++ rest)) []) :=
    .first (.literal _ _) _
  have hspace := Exported.IsWord.notSpace (spells_name hname) rest
  have hblank : Exported.IsGap [' '] := by decide
  have hgap := Exported.prefers_gap hblank hspace (Nat.le_of_add_left_le hrounds)
    (front ++ "const".toList) []
  have hname : Prefers rounds Pattern.name
      (Reading.past (front ++ "const".toList ++ [' ']) (name ++ rest) [])
      (Reading.past (front ++ "const".toList ++ [' '] ++ name) rest []) :=
    ImportStatement.prefers_name hname hrest (Nat.le_of_succ_le hrounds)
  have hcapture : Prefers rounds (Pattern.capture 1 Pattern.name) _ _ := .capture [] hname
  have hedge : Prefers rounds wordEdge
      (Reading.past front ("const".toList ++ ([' '] ++ (name ++ rest))) []) _ :=
    Exported.prefers_wordEdge hfront (by rfl)
  have hwhole := Prefers.seq hedge (.seq hword (.seq hgap hcapture))
  simp only [List.append_assoc] at hwhole ⊢
  exact hwhole

/-- In text in which nothing opens a declaration none is found, wherever the search is let go on. -/
theorem allFrom_of_chain (hchain : rest.IsChain fun c d => ¬ Opens c d)
    (hcut : front ++ w = p ++ rest) :
    variableDeclaration.allFrom rounds (Text.size p) behind (Text.size front) w = [] := by
  refine List.eq_nil_iff_forall_not_mem.mpr fun m hm => ?_
  obtain ⟨hin, hfree, -⟩ := in_of_mem_allFrom w hm
  obtain ⟨u, v, htext, hstart⟩ := hin.cut
  rw [hstart] at hfree
  rw [hcut, List.append_assoc] at htext
  obtain ⟨x, -, rfl⟩ := Text.exists_middle htext hfree
  exact not_spells hchain hin.spells

/-- No declaration starts with white space. -/
theorem matchAt?_space (hc : CharClass.isSpace c = true) (w : Text) :
    variableDeclaration.matchAt? rounds ⟨front.getLast?, Text.size front, c :: w⟩ = none := by
  have hrefuses : Refuses rounds variableDeclaration (Reading.past front (c :: w) []) := by
    refine refuses_of_spells fun u v hcut hu => ?_
    obtain ⟨k, d, more, rfl, hk, -⟩ := spells_variableDeclaration hu
    have hwords : ∀ k ∈ ["const", "let", "var"].map String.toList, k ≠ [] ∧
        ∀ c ∈ k.head?, CharClass.isSpace c = false := by
      decide
    obtain ⟨hne, hhead⟩ := hwords k hk
    obtain ⟨e, k, rfl⟩ := List.exists_cons_of_ne_nil hne
    have hce : c = e := (List.cons.inj hcut).1
    exact absurd hc (by rw [hce, hhead e rfl]; exact Bool.false_ne_true)
  rw [matchAt?]
  exact congrArg (Option.map _) (hrefuses some)

/-- Of a constant that is declared behind white space, with nothing that opens a declaration behind
it, the name alone is found. -/
theorem namesOf_allFrom (hname : Spells Pattern.name name)
    (hrest : ∀ c ∈ rest.head?, isNameChar c = false)
    (hchain : rest.IsChain fun c d => ¬ Opens c d) : ∀ (lead : Text) {front : Text} {free : Nat},
      (∀ c ∈ lead, CharClass.isSpace c = true) → (lead = [] → WordStart front) →
        free ≤ Text.size front → (lead ++ ("const ".toList ++ name ++ rest)).length ≤ rounds →
      namesOf (variableDeclaration.allFrom rounds free front.getLast? (Text.size front)
        (lead ++ ("const ".toList ++ name ++ rest))) = [name]
  | [], front, free, _, hfront, hfree, hrounds => by
      have hmatch := @matchAt?_declared _ _ _ rounds (hfront rfl) hname hrest
        (by simp at hrounds; omega)
      obtain ⟨w, hw⟩ : ∃ w, "const ".toList ++ name ++ rest = 'c' :: w := ⟨_, rfl⟩
      have hnone : variableDeclaration.allFrom rounds
          (Text.size front + Text.size ("const ".toList ++ name)) (some 'c')
          (Text.size front + 'c'.utf8Size) w = [] := by
        have hsize : Text.size front + 'c'.utf8Size = Text.size (front ++ ['c']) := by
          rw [Text.size_append]
          rfl
        rw [hsize, ← Text.size_append]
        refine allFrom_of_chain hchain ?_
        rw [List.append_assoc, List.singleton_append, ← hw, List.append_assoc front]
      rw [List.nil_append]
      rw [hw] at hmatch ⊢
      rw [allFrom, if_pos hfree, hmatch]
      dsimp only
      rw [hnone]
      rfl
  | c :: lead, front, free, hlead, _, hfree, hrounds => by
      obtain ⟨hc, hlead⟩ := List.forall_mem_cons.mp hlead
      have hsize : Text.size front + c.utf8Size = Text.size (front ++ [c]) := by
        rw [Text.size_append]
        rfl
      have hlast : some c = (front ++ [c]).getLast? := List.getLast?_concat.symm
      rw [List.cons_append, allFrom, if_pos hfree, matchAt?_space hc]
      dsimp only
      rw [hsize, hlast]
      refine namesOf_allFrom hname hrest hchain lead hlead (fun _ => ?_) ?_
        (Nat.le_of_succ_le hrounds)
      · rw [WordStart, List.getLast?_concat, Option.any_some, CharClass.isWord_of_isSpace hc]
      · rw [← hsize]
        omega

theorem eq_of_opens {l r x y : Text} (hl : l.IsChain fun c d => ¬ Opens c d)
    (hr : r.IsChain fun c d => ¬ Opens c d) (hcut : l ++ r = x ++ c :: d :: y) (h : Opens c d) :
    l = x ++ [c] := by
  have hcut : l ++ r = (x ++ [c]) ++ d :: y := by simpa using hcut
  rcases List.append_eq_append_iff.mp hcut with ⟨z, hz, hr'⟩ | ⟨z, hz, hd⟩
  · -- the place would be in the text behind
    rcases List.eq_nil_or_concat z with rfl | ⟨z, e, rfl⟩
    · simpa using hz.symm
    · rw [List.concat_eq_append, ← List.append_assoc] at hz
      obtain ⟨-, hlast⟩ := List.append_inj' hz rfl
      obtain rfl : c = e := by simpa using hlast
      have hopens : ¬ Opens c d :=
        List.isChain_iff_forall_rel_of_append_cons_cons.mp hr
          (show _ = z ++ c :: d :: y by simp [hr'])
      exact absurd h hopens
  · cases z with
    | nil => simpa using hz
    | cons e z =>
        obtain ⟨rfl, -⟩ := List.cons.inj hd
        have hopens : ¬ Opens c d :=
          List.isChain_iff_forall_rel_of_append_cons_cons.mp hl
            (show _ = x ++ c :: d :: z by simp [hz])
        exact absurd h hopens

end Repair

/-! ## What is put in between statements -/

theorem Scan.InCode.blank_cut (h : InCode p c) (hw : ∀ x ∈ c :: w, isFlat x = true) (q : Text) :
    ∃ b r, blank (p ++ (c :: w ++ q)) = b ++ (c :: w ++ r) ∧ Text.size b = Text.size p := by
  obtain ⟨ms, s, hs, hreads⟩ := h
  have hreads : Reads (c :: w ++ q) .start 0 p ms s := hreads (w ++ q)
  refine ⟨ms.flatMap Mark.blank,
    (marksFrom s (Text.size p + Text.size (c :: w)) q).flatMap Mark.blank, ?_, ?_⟩
  · rw [blank, marks_cut hreads, marksFrom_flat hs q (c :: w) _ hw, List.flatMap_append,
      List.flatMap_append, flatMap_blank_code, map_snd_indexed]
  · rw [size_flatMap_markBlank, hreads.map_char]

namespace ImportStatement

/-- A stretch in whose code the keyword stands in front of no white space imports nothing. -/
theorem inCode_within (hp : EndsInCode p) (hapart : pattern.Apart (p ++ w ++ q) (Text.size p))
    (hapart' : pattern.Apart (p ++ w ++ q) (Text.size (p ++ w)))
    (hnone : ∀ x d r, blank w = x ++ ("import".toList ++ d :: r) → CharClass.isSpace d = false) :
    inCode (p ++ w ++ q) (pattern.within p.getLast? (Text.size p) w) = [] := by
  refine List.eq_nil_iff_forall_not_mem.mpr fun i hi => ?_
  obtain ⟨hi, hcode⟩ := List.mem_filter.mp hi
  obtain ⟨m, hm, rfl⟩ := List.mem_map.mp hi
  have hall := all_append (p := pattern) rfl rfl hapart'
  have hinner : pattern.Apart (p ++ w) (Text.size p) := fun m hm hlt => by
    refine hapart m ?_ hlt
    rw [hall]
    exact List.mem_append_left _ hm
  have hmem : m ∈ pattern.all (p ++ w) := by
    rw [all_append rfl rfl hinner]
    exact List.mem_append_right _ hm
  obtain ⟨front, indent, gap, clauses, blanks, tail, back, quote, h⟩ := exists_parts hmem
  obtain ⟨d, gap, rfl⟩ := List.exists_cons_of_ne_nil h.gap.1
  have hd := h.gap.2 d List.mem_cons_self
  obtain ⟨rest, hcut⟩ : ∃ rest, p ++ w = front ++ indent ++
      ('i' :: "mport".toList ++ [d] ++ rest) := by
    refine ⟨gap ++
      (clauses ++ ("from".toList ++ (blanks ++ ((ofMatch m).quote :: ((ofMatch m).moduleName ++
      (quote :: tail)))))) ++ back, ?_⟩
    rw [h.cut, h.text]
    simp
  rw [start_ofMatch h, hcut, List.append_assoc (front ++ indent)] at hcode
  have hflat : ∀ x ∈ 'i' :: ("mport".toList ++ [d]), isFlat x = true := by
    have hword : ∀ x ∈ 'i' :: "mport".toList, isFlat x = true := by decide
    rw [← List.cons_append]
    refine List.forall_mem_append.mpr ⟨hword, List.forall_mem_singleton.mpr ?_⟩
    exact isFlat_of_notMem_signs (CharClass.notMem_signs_of_isSpace hd)
  obtain ⟨b, r, hblank, hsize⟩ := (inCode_of_isCodeAt hcode).blank_cut hflat rest
  have hcut' : blank (p ++ w) = b ++ ('i' :: ("mport".toList ++ [d]) ++ r) := by
    rw [hcut, ← hblank]
    simp
  rw [hp.blank_append] at hcut'
  obtain ⟨x, -, hx⟩ := Text.exists_middle hcut' (by
    rw [size_blank, hsize, Text.size_append, ← h.start]
    exact Nat.le_trans (in_of_mem_allFrom w hm).2.2 (Nat.le_add_right _ _))
  rw [hnone x d r (by rw [hx]; simp)] at hd
  cases hd

end ImportStatement

namespace Repair

/-- What is put in at a place in code leaves the names that are bound next to it. -/
theorem boundNames_insert (hp : EndsInCode p) (hw : Closed w)
    (himports : Parted ImportStatement.pattern (p ++ q) (p ++ w ++ q) (Text.size p) (Text.size p)
      (Text.size (p ++ w)))
    (hdeclarations : Parted variableDeclaration (blank (p ++ q)) (blank (p ++ w ++ q)) (Text.size p)
      (Text.size p)
      (Text.size (p ++ w)))
    (halike : LikeBehind p.getLast? (p ++ w).getLast?)
    (halike' : LikeBehind (blank p).getLast? (blank p ++ blank w).getLast?)
    (hnone : ∀ x d r, blank w = x ++ ("import".toList ++ d :: r) → CharClass.isSpace d = false) :
    (boundNames (p ++ w ++ q)).Perm (boundNames (p ++ q) ++
      namesOf (variableDeclaration.within (blank p).getLast? (Text.size (blank p)) (blank w))) := by
  have himported : importedNames (p ++ w ++ q) = importedNames (p ++ q) := by
    have hbehind := @inCode_behind _ q [] w hp .nil hw (by rwa [List.append_nil])
    have hfront := inCode_front p q (w ++ q)
    rw [List.append_nil] at hbehind
    rw [importedNames, importedNames, all_eq_inCode, all_eq_inCode,
      all_parts rfl rfl himports.front' himports.back',
      all_append rfl rfl himports.front, inCode_append, inCode_append, inCode_append,
      inCode_within hp himports.front' himports.back' hnone, List.append_nil, List.flatMap_append,
      List.flatMap_append, flatMap_bindings_congr hbehind]
    rw [← List.append_assoc] at hfront
    rw [hfront]
    rfl
  have hsize : Text.size (p ++ w) = Text.size (blank p ++ blank w) := by
    rw [Text.size_append, Text.size_append, size_blank, size_blank]
  have hcut : blank (p ++ q) = blank p ++ [] ++ blank q := by rw [hp.blank_append, List.append_nil]
  rw [hcut, hw.blank_append hp, hsize, ← size_blank p] at hdeclarations
  obtain ⟨before, after, hold, hnew⟩ := @exists_declared (blank q) _ [] (blank w)
    (by rwa [List.append_nil (blank p)] at hdeclarations ⊢) (by rwa [List.append_nil])
  rw [within_nil rfl] at hold
  rw [boundNames, boundNames, himported, declaredNames, declaredNames, hcut, hw.blank_append hp,
    hold, hnew]
  simp only [namesOf, List.map_nil, List.append_nil, List.append_assoc]
  refine .append_left _ (.append_left _ ?_)
  exact List.perm_append_comm

/-! ## A specification that is written -/

/-- A place of a text at which something can be put in: in code, behind neither a word nor a line
break, with no import and no declaration that reaches over it or over an end of what is put in. -/
structure TakesStatement (t u : Text) (n : Nat) : Prop where
  loose : Loose t n n
  front : ∀ c ∈ (t.before n).getLast?, CharClass.isWord c = false ∧ c ≠ '\n'
  imports : Parted ImportStatement.pattern t u n n (n + (Text.size u - Text.size t))
  declarations : Parted variableDeclaration (blank t)
    (blank u) n n (n + (Text.size u - Text.size t))

instance (t u : Text) (n : Nat) : Decidable (TakesStatement t u n) :=
  decidable_of_iff (Loose t n n ∧ (∀ c ∈ (t.before n).getLast?, CharClass.isWord c = false ∧
    c ≠ '\n') ∧
      Parted ImportStatement.pattern t u n n (n + (Text.size u - Text.size t)) ∧
      Parted variableDeclaration (blank t) (blank u) n n (n + (Text.size u - Text.size t)))
    ⟨fun h => ⟨h.1, h.2.1, h.2.2.1, h.2.2.2⟩, fun h =>
      ⟨h.loose, h.front, h.imports, h.declarations⟩⟩

theorem getLast?_blank (h : ∀ c ∈ t.getLast?, CharClass.isWord c = false ∧ c ≠ '\n') :
    ∀ c ∈ (blank t).getLast?, CharClass.isWord c = false ∧ c ≠ '\n' := by
  rcases List.eq_nil_or_concat t with rfl | ⟨p, e, rfl⟩
  · exact fun c hc => nomatch hc
  · rw [List.concat_eq_append] at h ⊢
    obtain ⟨hword, hbreak⟩ := h e List.getLast?_concat
    obtain ⟨ms, k, ms', hmarks, hp⟩ := exists_marks_cut p e []
    obtain rfl : ms' = [] := by
      have hlength := congrArg List.length (text_of_marks_cut hmarks).1
      rw [hp] at hlength
      simpa using hlength
    have hne : Mark.blank ⟨Text.size p, e, k⟩ ≠ [] := by
      rw [Mark.blank]
      split
      · exact List.cons_ne_nil _ _
      · intro hnil
        have hlength := congrArg List.length hnil
        rw [List.length_replicate] at hlength
        exact absurd hlength (Nat.ne_of_gt e.utf8Size_pos)
    intro c hc
    rw [blank, hmarks, List.flatMap_append, List.flatMap_cons, List.flatMap_nil, List.append_nil,
      List.getLast?_append_of_ne_nil _ hne] at hc
    have hmem := List.mem_of_getLast? hc
    rw [Mark.blank] at hmem
    split at hmem
    · rw [List.mem_singleton.mp hmem]
      exact ⟨hword, hbreak⟩
    · rw [List.eq_of_mem_replicate hmem]
      decide

/-- The text of a new specification with what stands around it. -/
theorem exists_synthesized (h : synthesizeSpec policy t = some u)
    (hplace : t.IsBoundary (specOffset (.of t))) : ∃ p q lead trail,
    t = p ++ q ∧ Text.size p = specOffset (.of t) ∧
      u = p ++ (lead ++ specFor policy ((Route.all (.of t)).filter fun r =>
        !policy.isInfraPath r.normalPath) ++ trail) ++ q ∧
      (p ≠ [] ∧ lead = "\n\n".toList ∧ trail = [] ∨ p = [] ∧ lead = [] ∧
        trail = "\n\n".toList) := by
  obtain ⟨p, q, rfl, hsize⟩ := Text.isBoundary_iff.mp hplace
  obtain ⟨-, -, lead, trail, hu, hcases⟩ := exists_of_synthesizeSpec h
  refine ⟨p, q, lead, trail, rfl, hsize.symm, ?_, ?_⟩
  · rw [hu, hsize, Text.insertAt, Text.splice, Text.before_append, Text.after_append]
  · rw [hsize] at hcases
    refine hcases.imp (And.imp_left ?_) (And.imp_left Text.eq_nil_of_size)
    rintro hne rfl
    exact hne rfl

/-- Closed text with white space in front of a constant by the name of a specification, in which
nothing else is declared or imported. -/
structure DeclaresSpec (lead trail v : Text) : Prop where
  blanks : lead ∈ ["\n\n".toList, []]
  closed : Closed v
  ends : ∃ front, v = front ++ (";".toList ++ trail)
  reads : ∃ more, blank v =
      lead ++ ("const ".toList ++ specName ++ ' ' :: (more ++ (";".toList ++ trail))) ∧
    (' ' :: (specName ++ ' ' :: (more ++ (";".toList ++ trail)))).IsChain fun c d => ¬ Opens c d

theorem declaresSpec {lead trail : Text} {routes : List Route}
    (h : ∀ r ∈ routes, r.method ∈ Route.methodWords) (hlead : lead ∈ ["\n\n".toList, []])
    (htrail : trail ∈ ["\n\n".toList, []]) :
    DeclaresSpec lead trail (lead ++ specFor policy routes ++ trail) := by
  have hobject := @Inert.specObject policy _ h
  have hcloses : Closed (lead ++ specFor policy routes ++ trail) := by
    have hblanks : ∀ w ∈ ["\n\n".toList, []], Closed w := fun w hw =>
      closed_of_isSpace (by revert w; decide)
    have hbare : ∀ m ∈ Route.methodWords, IsBare m := by decide
    exact ((hblanks lead hlead).append (closed_specFor fun r hr => hbare _ (h r hr))).append
      (hblanks trail htrail)
  generalize hliteral : Spec.specObject policy (methodsByPath routes)
      (schemasOf policy routes) = literal at hobject
  have hback : ∀ trail ∈ ["\n\n".toList, []], Inert (";".toList ++ trail) ∧
      blank (";".toList ++ trail) = ";".toList ++ trail := by
    decide
  have hequals : Inert " = ".toList ∧ blank " = ".toList = ' ' :: "= ".toList := by decide
  have hfront : ∀ lead ∈ ["\n\n".toList, []], EndsInCode (lead ++ "const openApiSpec".toList) ∧
      blank (lead ++ "const openApiSpec".toList) = lead ++ ("const ".toList ++ specName) := by
    decide
  obtain ⟨hends, hblank⟩ := hfront lead hlead
  obtain ⟨hinert, hback⟩ := hback trail htrail
  have hshape : lead ++ specFor policy routes ++ trail =
      lead ++ "const openApiSpec".toList ++
      (" = ".toList ++ (literal ++ (";".toList ++ trail))) := by
    have hname : "const openApiSpec = ".toList = "const openApiSpec".toList ++ " = ".toList := by
      decide
    rw [Spec.specFor_eq, hname, hliteral]
    simp only [List.append_assoc]
  have hrest : blank (" = ".toList ++ (literal ++ (";".toList ++ trail))) =
      ' ' :: ("= ".toList ++ blank literal ++ (";".toList ++ trail)) := by
    rw [hequals.1.ends.blank_append, hobject.ends.blank_append, hequals.2, hback]
    simp only [List.cons_append, List.append_assoc]
  have hchain := (hequals.1.append (hobject.append hinert)).chain
  rw [hrest] at hchain
  refine ⟨hlead, hcloses, ⟨lead ++ "const openApiSpec".toList ++ (" = ".toList ++ literal), ?_⟩,
    "= ".toList ++ blank literal, ?_, ?_⟩
  · rw [hshape]
    simp only [List.append_assoc]
  · rw [hshape, hends.blank_append, hblank, hrest, List.append_assoc]
  · have hname : (' ' :: specName).IsChain fun c d => ¬ Opens c d := by decide
    have hlast : (' ' :: specName).getLast? = some 'c' := by decide
    rw [← List.cons_append]
    refine List.isChain_append.mpr ⟨hname, hchain, fun c hc d _ hopens => ?_⟩
    rw [hlast] at hc
    obtain rfl := Option.some.inj hc
    exact absurd hopens.1 (by decide)

theorem likeBehind_append (hw : ∀ c ∈ w.getLast?, CharClass.isWord c = false ∧ c ≠ '\n')
    (h : w ≠ [] ∧ v.getLast? = some ';' ∨ w = [] ∧ v.getLast? = some '\n') :
    LikeBehind w.getLast? (w ++ v).getLast? := by
  rcases h with ⟨hne, hv⟩ | ⟨rfl, hv⟩
  · have hlast := List.getLast?_eq_getLast_of_ne_nil hne
    obtain ⟨hword, hbreak⟩ := hw _ hlast
    rw [List.getLast?_append, hv, hlast]
    simp [LikeBehind, hword, hbreak]
    decide
  · rw [List.nil_append, hv]
    decide

namespace DeclaresSpec

variable {lead trail : Text}

/-- The keyword of an import would have to end with the letter in front of the name. -/
theorem not_import (h : DeclaresSpec lead trail v)
    (hcut : blank v = x ++ ("import".toList ++ d :: y)) : CharClass.isSpace d = false := by
  obtain ⟨more, hblank, hchain⟩ := h.reads
  refine Bool.eq_false_iff.mpr fun hd => ?_
  have hparts :
      (lead ++ "const".toList) ++ (' ' :: (specName ++ ' ' :: (more ++ (";".toList ++ trail)))) =
      (x ++ "impor".toList) ++ 't' :: d :: y := by
    have hconst : "const ".toList = "const".toList ++ [' '] := by decide
    have himport : "import".toList = "impor".toList ++ ['t'] := by decide
    rw [hblank, hconst, himport] at hcut
    simpa using hcut
  have hfixed : ∀ lead ∈ ["\n\n".toList, []],
      (lead ++ "const".toList).IsChain (fun c d => ¬ Opens c d) ∧
        ¬ "import".toList <:+ lead ++ "const".toList := by
    decide
  obtain ⟨hfirst, hsuffix⟩ := hfixed lead h.blanks
  refine hsuffix ⟨x, ?_⟩
  rw [eq_of_opens hfirst hchain hparts ⟨.inl rfl, hd⟩]
  simp

/-- The name is all that it declares. -/
theorem declares (h : DeclaresSpec lead trail v) (hfront : lead = [] → front = []) :
    namesOf (variableDeclaration.within front.getLast? (Text.size front) (blank v)) =
      [specName] := by
  obtain ⟨more, hblank, hchain⟩ := h.reads
  have hspaces : ∀ lead ∈ ["\n\n".toList, []], ∀ c ∈ lead, CharClass.isSpace c = true := by
    decide
  have hname : Spells Pattern.name specName :=
    .seq (u := ['o']) (.char rfl) (spells_many_of_forall (by decide))
  rw [hblank, within]
  refine namesOf_allFrom hname (by simp; decide) ?_ lead (hspaces lead h.blanks) (fun hnil => ?_)
    (Nat.le_refl _) (Nat.le_succ _)
  · rw [← List.cons_append] at hchain
    exact (List.isChain_append.mp hchain).2.1
  · rw [hfront hnil]
    rfl

/-- Behind it the search goes on as in front of it. -/
theorem alike (h : DeclaresSpec lead trail v)
    (hp : ∀ c ∈ p.getLast?, CharClass.isWord c = false ∧ c ≠ '\n')
    (hcases : p ≠ [] ∧ trail = [] ∨ p = [] ∧ trail = "\n\n".toList) :
    LikeBehind p.getLast? (p ++ v).getLast? ∧
      LikeBehind (blank p).getLast? (blank p ++ blank v).getLast? := by
  have hend : ∀ front : Text, p ≠ [] ∧ (front ++ (";".toList ++ trail)).getLast? = some ';' ∨
      p = [] ∧ (front ++ (";".toList ++ trail)).getLast? = some '\n' := by
    intro front
    rcases hcases with ⟨hne, rfl⟩ | ⟨rfl, rfl⟩
    · exact .inl ⟨hne, by simp⟩
    · exact .inr ⟨rfl, by simp⟩
  have hempty : blank p = [] ↔ p = [] := by
    constructor
    · exact fun hnil => Text.eq_nil_of_size (by rw [← size_blank, hnil]; rfl)
    · rintro rfl
      rfl
  constructor
  · obtain ⟨front, rfl⟩ := h.ends
    exact likeBehind_append hp (hend front)
  · obtain ⟨more, hblank, -⟩ := h.reads
    have hshape :
        lead ++ ("const ".toList ++ specName ++ ' ' :: (more ++ (";".toList ++ trail))) =
        lead ++ ("const ".toList ++ specName ++ ' ' :: more) ++ (";".toList ++ trail) := by
      simp
    refine likeBehind_append (getLast?_blank hp) ?_
    rw [hblank, hshape, ne_eq, hempty]
    exact hend _

end DeclaresSpec

/-- Where there is room for it, a new specification adds its name to those that the text binds. -/
theorem binds_synthesizeSpec (h : synthesizeSpec policy t = some u)
    (hplace : TakesStatement t u (specOffset (.of t))) :
    Binds t u [specName] := by
  obtain ⟨hloose, hfront, himports, hdeclarations⟩ := hplace
  obtain ⟨p, q, lead, trail, rfl, hsize, rfl, hcases⟩ := exists_synthesized h hloose.bounds.start
  have hspec : DeclaresSpec lead trail (lead ++ specFor policy
      ((Route.all (.of (p ++ q))).filter fun r => !policy.isInfraPath r.normalPath) ++ trail) := by
    refine declaresSpec (fun r hr => Route.method_mem (List.mem_filter.mp hr).1) ?_ ?_
    · rcases hcases with ⟨-, rfl, -⟩ | ⟨-, rfl, -⟩ <;> decide
    · rcases hcases with ⟨-, -, rfl⟩ | ⟨-, -, rfl⟩ <;> decide
  generalize lead ++ specFor policy _ ++ trail = v at *
  have hp : EndsInCode p := by
    have hends := hloose.front
    rwa [← hsize, Text.before_append] at hends
  have hwritten : Text.size p + (Text.size (p ++ v ++ q) - Text.size (p ++ q)) =
      Text.size (p ++ v) := by
    simp only [Text.size_append]
    omega
  rw [← hsize, Text.before_append] at hfront
  rw [← hsize, hwritten] at himports hdeclarations
  obtain ⟨halike, halike'⟩ := hspec.alike hfront
    (hcases.imp (fun h => ⟨h.1, h.2.2⟩) fun h => ⟨h.1, h.2.2⟩)
  have hperm := boundNames_insert hp hspec.closed himports hdeclarations halike halike'
    fun _ _ _ => hspec.not_import
  have hnil : lead = [] → blank p = [] := fun hlead => by
    rcases hcases with ⟨-, hnil, -⟩ | ⟨rfl, -⟩
    · rw [hlead] at hnil
      cases hnil
    · rfl
  rw [hspec.declares hnil] at hperm
  exact binds_of_perm (List.nodup_singleton specName) hperm

/-! ## Names that are bound once -/

/-- Where there is room for what they write, the repairs add the names that are missing from the
imports and the name of the specification to those that the text binds, so an added name is bound
once exactly if it was not bound before. -/
theorem bound_once (policy : Policy) (t : Text) :
    (∀ (moduleName : Text) (others names : List Text),
      (moduleName ≠ [] ∧ '\'' ∉ moduleName ∧ '"' ∉ moduleName) →
      (∀ name ∈ names, IsIdentifier name) →
        names.Nodup →
        (∀ i ∈ ImportStatement.all (.of t), ∀ m ∈ i.members,
          m.imported = "type".toList → m.typeOnly = true ∨ m.imported = m.boundAs) →
        (∀ e ∈ importEdit? moduleName others names t, e.Stands t ∧ LeavesVariables e t) →
          Binds t (ensureNamedImport moduleName others names t)
            (missingNames (ImportStatement.all (.of t)) (moduleName :: others) names)) ∧
    ∀ out, synthesizeSpec policy t = some out → TakesStatement t out (specOffset (.of t)) →
      Binds t out [specName] :=
  ⟨fun _ _ _ hmodule hnames hnodup htype hedit =>
      binds_ensureNamedImport hmodule hnames hnodup htype hedit,
    fun _ hout hplace => binds_synthesizeSpec hout hplace⟩

def unboundText : Text :=
  "import zod from 'zod';\nconst app = express();\napp.get('/a', h);\n".toList

theorem bound_once_default :
    (boundNames (ensureNamedImport "zod".toList [] ["z".toList] unboundText)).count "z".toList = 1 ∧
      ∃ out, synthesizeSpec .default unboundText = some out ∧
      (boundNames out).count specName = 1 := by
  constructor
  · have hmissing : "z".toList ∈
        missingNames (ImportStatement.all (.of unboundText)) ["zod".toList] ["z".toList] := by
      decide +kernel
    have hnot : "z".toList ∉ boundNames unboundText := by decide +kernel
    exact (((bound_once .default unboundText).1 "zod".toList [] ["z".toList] (by decide +kernel)
      (by decide +kernel) (by decide) (by decide +kernel)
      (by decide +kernel)).once _ hmissing).mpr hnot
  · have hsome : (synthesizeSpec .default unboundText).isSome := by decide +kernel
    have hroom : ∀ out ∈ synthesizeSpec .default unboundText,
        TakesStatement unboundText out (specOffset (.of unboundText)) := by
      decide +kernel
    have hnot : specName ∉ boundNames unboundText := by decide +kernel
    obtain ⟨out, hout⟩ := Option.isSome_iff_exists.mp hsome
    have hbinds := (bound_once .default unboundText).2 out hout (hroom out hout)
    exact ⟨out, hout, (hbinds.once _ List.mem_cons_self).mpr hnot⟩

/-- A name that another module binds is bound again, and so is the name of a specification that is
not written as a literal. -/
theorem not_always_unbound :
    (¬ ∀ (t moduleName : Text) (others names : List Text),
      ∀ name ∈ missingNames (ImportStatement.all (.of t)) (moduleName :: others) names,
      name ∉ boundNames t) ∧
    ¬ ∀ (policy : Policy) (t out : Text), synthesizeSpec policy t = some out →
    specName ∉ boundNames t := by
  constructor
  · intro h
    have hbound :=
      h "import \x7b z \x7d from './z';\n".toList "zod".toList [] ["z".toList] "z".toList
      (by decide +kernel)
    exact hbound (by decide +kernel)
  · intro h
    have hsome :
        (synthesizeSpec .default
          "const openApiSpec = buildSpec();\napp.get('/a', h);".toList).isSome := by
      decide +kernel
    obtain ⟨out, hout⟩ := Option.isSome_iff_exists.mp hsome
    exact h _ _ out hout (by decide +kernel)

end Repair

end ServiceGate
