/-
# Import statements that are read back

A statement is written as the keyword, its clauses and the module (`render_eq_statement`).  The
words `type`, `from` and `as` may be names as well, and every clause may be missing; where the
clauses are `Legible`, the text leaves the pattern of statements no choice all the same.  So at the
start of a line it is read to its end, with the same default, namespace, quote and module, and with
the members that are read of its braces (`Clauses.exists_matchAt?`).  A statement of members alone,
`import name, { member, member } from 'module';` with the default name if there is one, is always
legible (`written`, `matchAt?_written`).

The proof that the whole of a statement is preferred goes along the clauses from the end: for each
of them what comes behind it is a comma, a brace, a star or a blank and the word `from`
(`namespaceText_cons`, `membersText_cons`), and none of these can be taken for more of the clause in
front.
-/
import ServiceGate.Proofs.Import.Members
import ServiceGate.Proofs.Checked.Parameters
import ServiceGate.Proofs.Pattern.Found

namespace ServiceGate

open Pattern ImportMember

variable {rounds : Nat} {front rest w name moduleName : Text} {quote : Char} {cs : List Capture}
  {ms : List ImportMember} {i : ImportStatement} {c : Char}

namespace ImportStatement

/-- The default of a statement and the comma behind it. -/
def writtenDefault (defaultName : Option Text) : Text :=
  (defaultName.map (· ++ ", ".toList)).getD []

def written (defaultName : Option Text) (ms : List ImportMember) (quote : Char)
    (moduleName : Text) :
    Text :=
  "import".toList ++ ([' '] ++ (writtenDefault defaultName ++ ("\x7b".toList ++ (braces ms ++
    ("\x7d".toList ++ ([' '] ++ ("from".toList ++ ([' '] ++ ([quote] ++ (moduleName ++
      ([quote] ++ [';'])))))))))))

theorem written_eq (defaultName : Option Text) (ms : List ImportMember) (quote : Char)
    (moduleName : Text) : written defaultName ms quote moduleName = "import".toList ++ ([' '] ++
      (writtenDefault defaultName ++ ("\x7b".toList ++ (braces ms ++ ("\x7d".toList ++ ([' '] ++
        ("from".toList ++ ([' '] ++ ([quote] ++ (moduleName ++ ([quote] ++ [';']))))))))))) := by
  delta written
  rfl

/-- The parts of a statement of members that it was read from or is made of. -/
structure Parts (defaultName : Option Text) (ms : List ImportMember) (quote : Char)
    (moduleName : Text) :
    Prop where
  defaultName : ∀ name ∈ defaultName, Spells Pattern.name name
  members : '\x7d' ∉ braces ms
  quote : quote = '\'' ∨ quote = '"'
  moduleName : moduleName ≠ [] ∧ '\'' ∉ moduleName ∧ '"' ∉ moduleName

/-! ## Clauses -/

/-- What a statement binds, as it is written between the keyword and the module. -/
structure Clauses where
  typeOnly : Bool
  defaultName : Option Text
  namespaceName : Option Text
  /-- The members in their braces, if there are braces. -/
  members : Option (List ImportMember)

namespace Clauses

def goesOn (b : Clauses) : Bool := b.namespaceName.isSome || b.members.isSome

def typeText (b : Clauses) : Text := if b.typeOnly then "type".toList ++ [' '] else []

def defaultText (b : Clauses) : Text :=
  (b.defaultName.map (· ++ if b.goesOn then [',', ' '] else [' '])).getD []

def namespaceText (b : Clauses) : Text :=
  (b.namespaceName.map fun name =>
    "*".toList ++ ([' '] ++ ("as".toList ++ ([' '] ++ (name ++ [' ']))))).getD []

def membersText (b : Clauses) : Text :=
  (b.members.map fun ms => "\x7b".toList ++ (braces ms ++ ("\x7d".toList ++ [' ']))).getD []

/-- The clauses leave the pattern of statements no choice.  Without a clause the word `from` would
be read as the default, and a default `type` in front of it as the word that stands for types alone.
-/
structure Legible (b : Clauses) : Prop where
  defaultName : ∀ name ∈ b.defaultName, Spells Pattern.name name
  namespaceName : ∀ name ∈ b.namespaceName, Spells Pattern.name name
  members : ∀ ms ∈ b.members, '\x7d' ∉ braces ms
  binds : b.defaultName.isSome = true ∨ b.goesOn = true
  notType : b.typeOnly = false → b.defaultName = some "type".toList → b.goesOn = true

end Clauses

def moduleText (quote : Char) (moduleName : Text) : Text :=
  "from".toList ++ ([' '] ++ ([quote] ++ (moduleName ++ ([quote] ++ [';']))))

def Clauses.statement (b : Clauses) (quote : Char) (moduleName : Text) : Text :=
  "import".toList ++
  ([' '] ++ (b.typeText ++ (b.defaultText ++ (b.namespaceText ++ (b.membersText ++
    moduleText quote moduleName)))))

theorem written_eq_statement (defaultName : Option Text) (ms : List ImportMember) (quote : Char)
    (moduleName : Text) : written defaultName ms quote moduleName =
      Clauses.statement ⟨false, defaultName, none, some ms⟩ quote moduleName := by
  have hdefault : Clauses.defaultText ⟨false, defaultName, none, some ms⟩ =
      writtenDefault defaultName := rfl
  have htype : Clauses.typeText ⟨false, defaultName, none, some ms⟩ = [] := rfl
  have hnamespace : Clauses.namespaceText ⟨false, defaultName, none, some ms⟩ = [] := rfl
  have hmembers : Clauses.membersText ⟨false, defaultName, none, some ms⟩ =
      "\x7b".toList ++ (braces ms ++ ("\x7d".toList ++ [' '])) := rfl
  rw [written_eq, Clauses.statement, hdefault, htype, hnamespace, hmembers, moduleText]
  simp only [List.append_assoc, List.nil_append]

def bindings (i : ImportStatement) : Clauses where
  typeOnly := i.typeOnly
  defaultName := i.defaultName
  namespaceName := i.namespaceName
  members := if i.members.isEmpty then none else some i.members

/-- The clauses of a statement that binds something, with the blank behind them. -/
theorem join_clauses (hone : i.namespaceName = none ∨ i.members = [])
    (hbinds : i.defaultName.isSome = true ∨ i.namespaceName.isSome = true ∨ i.members ≠ []) :
    Text.join ", ".toList i.clauses ++ [' '] =
      i.bindings.defaultText ++ (i.bindings.namespaceText ++ i.bindings.membersText) := by
  have hjoin : ∀ sep u : Text, Text.join sep [u] = u := fun sep u => by simp [Text.join]
  have hjoin' : ∀ sep u v : Text, Text.join sep [u, v] = u ++ sep ++ v := fun sep u v => by
    simp [Text.join, List.intercalate]
  obtain ⟨_, _, typeOnly, defaultName, namespaceName, members, _, _⟩ := i
  rw [clauses]
  cases members with
  | nil =>
      rcases defaultName with _ | name <;> rcases namespaceName with _ | space
      · simp at hbinds
      · simp [renderMembers, bindings, Clauses.defaultText, Clauses.namespaceText,
          Clauses.membersText, hjoin]
      · simp [renderMembers, bindings, Clauses.defaultText, Clauses.namespaceText,
          Clauses.membersText, Clauses.goesOn, hjoin]
      · simp [renderMembers, bindings, Clauses.defaultText, Clauses.namespaceText,
          Clauses.membersText, Clauses.goesOn, hjoin']
  | cons m ms =>
      obtain rfl : namespaceName = none := hone.resolve_right (List.cons_ne_nil m ms)
      rcases defaultName with _ | name
      · simp [renderMembers, bindings, Clauses.defaultText, Clauses.namespaceText,
          Clauses.membersText, braces, hjoin]
      · simp [renderMembers, bindings, Clauses.defaultText, Clauses.namespaceText,
          Clauses.membersText, braces, Clauses.goesOn, hjoin']

/-- A statement that binds something is written with its clauses. -/
theorem render_eq_statement (hone : i.namespaceName = none ∨ i.members = [])
    (hbinds : i.defaultName.isSome = true ∨ i.namespaceName.isSome = true ∨ i.members ≠ []) :
    i.render = some (i.bindings.statement i.quote i.moduleName) := by
  have hclauses : i.clauses.isEmpty = false := by
    rcases hbinds with h | h | h
    · simp [clauses, Option.isSome_iff_ne_none.mp h]
    · simp [clauses, Option.isSome_iff_ne_none.mp h]
    · simp [clauses, renderMembers, h]
  have himport : "import ".toList = "import".toList ++ [' '] := rfl
  have hfrom : " from ".toList = [' '] ++ ("from".toList ++ [' ']) := rfl
  have htype : (if i.typeOnly then "type ".toList else []) = i.bindings.typeText := rfl
  have hjoin := join_clauses hone hbinds
  rw [render, hclauses, if_neg Bool.false_ne_true, htype, himport, hfrom, Clauses.statement,
    moduleText,
    ← List.append_assoc i.bindings.namespaceText, ← List.append_assoc i.bindings.defaultText,
    ← hjoin]
  simp only [List.append_assoc, List.cons_append, List.nil_append]

theorem render_eq_written (htype : i.typeOnly = false) (hnamespace : i.namespaceName = none)
    (hmembers : i.members ≠ []) :
    i.render = some (written i.defaultName i.members i.quote i.moduleName) := by
  rw [render_eq_statement (.inl hnamespace) (.inr (.inr hmembers)), written_eq_statement, bindings,
    htype, hnamespace, if_neg (by simpa using hmembers)]

theorem Parts.legible {defaultName : Option Text} (h : Parts defaultName ms quote moduleName) :
    Clauses.Legible ⟨false, defaultName, none, some ms⟩ where
  defaultName := h.defaultName
  namespaceName _ hname := by cases hname
  members _ hms := Option.some.inj hms ▸ h.members
  binds := .inr rfl
  notType _ _ := rfl

/-! ## Reading the parts -/

theorem isNameChar_of_isSpace (h : CharClass.isSpace c = true) : isNameChar c = false := by
  rw [isNameChar, CharClass.isWord_of_isSpace h, (CharClass.ascii_of_isSpace h).2.2.2]
  rfl

theorem refuses_type (h : Spells Pattern.name name) (hrest : ∀ c ∈ rest.head?, isNameChar c = false)
    (htype : name = "type".toList → ∀ c ∈ rest.head?, CharClass.isSpace c = false) :
    Refuses rounds (.capture 1 (seq (word "type") gap)) (Reading.past front (name ++ rest) cs) := by
  refine refuses_of_spells fun v z hcut hspells => ?_
  obtain ⟨first, blanks, rfl, hword, hgap⟩ := spells_seq (spells_capture hspells)
  obtain ⟨blank, others, rfl, hblank, -⟩ := spells_seq hgap
  obtain rfl := spells_literal hword
  cases hblank with
  | @char _ d hd =>
      -- the name ends in front of the rest, the word in front of the white space
      have htake : (name ++ rest).takeWhile isNameChar = name := by
        rw [List.takeWhile_append_of_pos (spells_name h).2]
        cases rest with
        | nil => exact List.append_nil _
        | cons e rest =>
            rw [List.takeWhile_cons_of_neg (by rw [hrest e rfl]; simp), List.append_nil]
      have htake' : ("type".toList ++ d :: (others ++ z)).takeWhile isNameChar = "type".toList := by
        rw [List.takeWhile_append_of_pos (by decide),
          List.takeWhile_cons_of_neg (by rw [isNameChar_of_isSpace hd]; simp), List.append_nil]
      have hcut : name ++ rest = "type".toList ++ d :: (others ++ z) := by
        simpa [Reading.past] using hcut
      have hname : name = "type".toList := by rw [← htake, hcut, htake']
      have hhead : rest = d :: (others ++ z) := List.append_cancel_left (hname ▸ hcut)
      have hspace := htype hname d (by rw [hhead]; rfl)
      exact absurd hd (by rw [hspace]; exact Bool.false_ne_true)

/-- A name is read up to its end. -/
theorem prefers_name (h : Spells Pattern.name name) (hrest : ∀ c ∈ rest.head?, isNameChar c = false)
    (hrounds : name.length ≤ rounds) :
    Prefers rounds Pattern.name (Reading.past front (name ++ rest) cs)
      (Reading.past (front ++ name) rest cs) := by
  obtain ⟨first, u, rfl, hfirst, hu⟩ := spells_seq h
  cases hfirst with
  | @char _ c hc =>
      have hmore : Prefers rounds (star nameChar) (Reading.past (front ++ [c]) (u ++ rest) cs)
          (Reading.past (front ++ [c] ++ u) rest cs) := by
        refine .star (spells_many_char hu) hrest ?_ _ _
        rw [List.length_append] at hrounds
        omega
      rw [List.append_assoc] at hmore
      exact .seq (.single hc) hmore

theorem prefers_blank (hrounds : 1 ≤ rounds) (hrest : ∀ c ∈ rest.head?, CharClass.isSpace c = false)
    (front : Text) (cs : List Capture) :
    Prefers rounds spaces (Reading.past front ([' '] ++ rest) cs)
    (Reading.past (front ++ [' ']) rest cs) :=
  .star (by decide) hrest hrounds _ _

namespace Clauses

variable {b : Clauses}

theorem membersText_cons (b : Clauses) (rest : Text) : ∃ s y,
    b.membersText ++ ("from".toList ++ rest) = s :: y ∧
    (s = '\x7b' ∨ s = 'f' ∧ b.members = none) := by
  cases hmembers : b.members with
  | none => exact ⟨'f', "rom".toList ++ rest, by simp [membersText, hmembers], .inr ⟨rfl, rfl⟩⟩
  | some ms =>
      exact ⟨'\x7b', braces ms ++ ("\x7d".toList ++ [' ']) ++ ("from".toList ++ rest),
        by simp [membersText, hmembers], .inl rfl⟩

theorem namespaceText_cons (b : Clauses) (rest : Text) : ∃ s y,
    b.namespaceText ++ (b.membersText ++ ("from".toList ++ rest)) = s :: y ∧
      (s = '*' ∨ s = '\x7b' ∨ s = 'f' ∧ b.goesOn = false) := by
  cases hnamespace : b.namespaceName with
  | none =>
      obtain ⟨s, y, hcons, hs⟩ := b.membersText_cons rest
      refine ⟨s, y, by simpa [namespaceText, hnamespace] using hcons, ?_⟩
      rcases hs with rfl | ⟨rfl, hmembers⟩
      · exact .inr (.inl rfl)
      · exact .inr (.inr ⟨rfl, by simp [goesOn, hnamespace, hmembers]⟩)
  | some name =>
      exact ⟨'*', _, by simp [namespaceText, hnamespace]; rfl, .inl rfl⟩

theorem notSpace_clauses (h : b.Legible) (rest : Text) :
    ∀ c ∈ (b.defaultText ++ (b.namespaceText ++ (b.membersText ++ ("from".toList ++ rest)))).head?,
      CharClass.isSpace c = false := by
  intro c hc
  cases hdefault : b.defaultName with
  | none =>
      obtain ⟨s, y, hcons, hs⟩ := b.namespaceText_cons rest
      have htext : b.defaultText = [] := by simp [defaultText, hdefault]
      rw [htext, List.nil_append, hcons] at hc
      obtain rfl := Option.some.inj hc
      rcases hs with rfl | rfl | ⟨rfl, -⟩ <;> decide
  | some name =>
      obtain ⟨hne, hchars⟩ := spells_name (h.defaultName name hdefault)
      have htext : ∃ more, b.defaultText = name ++ more := ⟨_, by rw [defaultText, hdefault]; rfl⟩
      obtain ⟨more, htext⟩ := htext
      rw [htext, List.append_assoc, List.head?_append_of_ne_nil _ hne] at hc
      refine Bool.eq_false_iff.mpr fun hspace => ?_
      have hchar := hchars c (List.mem_of_head? hc)
      rw [isNameChar_of_isSpace hspace] at hchar
      cases hchar

theorem prefers_type (h : b.Legible) (hrounds : 1 ≤ rounds) (front rest : Text)
    (cs : List Capture) :
    ∃ new, Prefers rounds (optional (capture 1 (seq (word "type") gap)))
      (Reading.past front (b.typeText ++ (b.defaultText ++ (b.namespaceText ++ (b.membersText ++
        ("from".toList ++ rest))))) cs)
      (Reading.past (front ++ b.typeText) (b.defaultText ++ (b.namespaceText ++ (b.membersText ++
        ("from".toList ++ rest)))) (new ++ cs)) ∧
      new.map (fun g => (g.group, g.text)) =
        if b.typeOnly then [(1, "type".toList ++ [' '])] else [] := by
  have hspace := notSpace_clauses h rest
  cases htype : b.typeOnly with
  | true =>
      have htext : b.typeText = "type".toList ++ [' '] := by rw [typeText, if_pos htype]
      refine ⟨[.past 1 front ("type".toList ++ [' '])], ?_, rfl⟩
      rw [htext, List.append_assoc]
      have hinner : Prefers rounds (seq (word "type") gap)
          (Reading.past front ("type".toList ++ ([' '] ++ (b.defaultText ++ (b.namespaceText ++
            (b.membersText ++ ("from".toList ++ rest)))))) cs)
          (Reading.past (front ++ ("type".toList ++ [' '])) (b.defaultText ++ (b.namespaceText ++
            (b.membersText ++ ("from".toList ++ rest)))) cs) := by
        rw [← List.append_assoc front]
        exact .seq (.literal _ _) (.plus (by simp) (by decide) hspace hrounds _ _)
      rw [← List.append_assoc "type".toList] at hinner ⊢
      exact .present (.capture cs hinner)
  | false =>
      have htext : b.typeText = [] := by rw [typeText, htype, if_neg Bool.false_ne_true]
      refine ⟨[], ?_, rfl⟩
      rw [htext, List.append_nil, List.nil_append, List.nil_append]
      obtain ⟨s, y, hcons, hs⟩ := b.namespaceText_cons rest
      rw [hcons]
      cases hdefault : b.defaultName with
      | none =>
          have hdefaultText : b.defaultText = [] := by simp [defaultText, hdefault]
          have hsign : (s == 't') = false := by
            rcases hs with rfl | rfl | ⟨rfl, -⟩ <;> decide
          have hword : Refuses rounds (word "type") (Reading.past front (s :: y) cs) :=
            .literal (w := "ype".toList) hsign
          rw [hdefaultText, List.nil_append]
          exact .missing ((hword.seq _).capture 1)
      | some name =>
          have hdefaultText : b.defaultText = name ++ if b.goesOn then [',', ' '] else [' '] := by
            rw [defaultText, hdefault]
            rfl
          rw [hdefaultText, List.append_assoc]
          refine .missing (refuses_type (h.defaultName name hdefault) ?_ fun hname => ?_)
          · split_ifs <;> simp <;> decide
          · rw [if_pos (h.notType htype (hname ▸ hdefault))]
            simp
            decide

theorem prefers_default (h : b.Legible) (hrounds : b.defaultText.length ≤ rounds)
    (front rest : Text) (cs : List Capture) :
    ∃ new, Prefers rounds
    (optional (inOrder [capture 2 Pattern.name, spaces, optional (word ","), spaces]))
      (Reading.past front (b.defaultText ++ (b.namespaceText ++ (b.membersText ++
        ("from".toList ++ rest)))) cs)
      (Reading.past (front ++ b.defaultText) (b.namespaceText ++ (b.membersText ++
        ("from".toList ++ rest))) (new ++ cs)) ∧
      new.map (fun g => (g.group, g.text)) = b.defaultName.toList.map fun name => (2, name) := by
  obtain ⟨s, y, hcons, hs⟩ := b.namespaceText_cons rest
  rw [hcons]
  have hsign : CharClass.isSpace s = false ∧ (s == ',') = false := by
    rcases hs with rfl | rfl | ⟨rfl, -⟩ <;> decide
  obtain ⟨hspace, hcomma⟩ := hsign
  have hhead : ∀ c ∈ (s :: y).head?, CharClass.isSpace c = false := fun c hc =>
    Option.some.inj hc ▸ hspace
  cases hdefault : b.defaultName with
  | none =>
      -- another clause follows, and it starts with no name
      have hgoesOn : b.goesOn = true := h.binds.resolve_left (by simp [hdefault])
      have hstart : (CharClass.isAsciiLetter s || s == '_' || s == '$') = false := by
        rcases hs with rfl | rfl | ⟨rfl, hno⟩
        · decide
        · decide
        · rw [hgoesOn] at hno
          cases hno
      have htext : b.defaultText = [] := by simp [defaultText, hdefault]
      have hname : Refuses rounds Pattern.name (Reading.past front (s :: y) cs) :=
        .seq (.char hstart) _
      refine ⟨[], ?_, rfl⟩
      rw [htext, List.append_nil, List.nil_append]
      exact .missing ((hname.capture 2).seq _)
  | some name =>
      have hname := h.defaultName name hdefault
      have htext : b.defaultText = name ++ if b.goesOn then [',', ' '] else [' '] := by
        rw [defaultText, hdefault]
        rfl
      rw [htext, List.length_append] at hrounds
      have hlength : 1 ≤ rounds := by split_ifs at hrounds <;> simp at hrounds <;> omega
      have hend : Prefers rounds (inOrder [spaces, optional (word ","), spaces])
          (Reading.past (front ++ name) ((if b.goesOn then [',', ' '] else [' ']) ++ s :: y)
            (.past 2 front name :: cs))
          (Reading.past (front ++ name ++ if b.goesOn then [',', ' '] else [' ']) (s :: y)
            (.past 2 front name :: cs)) := by
        split_ifs
        · have hblank :=
            prefers_blank hlength hhead (front ++ name ++ [',']) (.past 2 front name :: cs)
          rw [List.append_assoc _ [','] [' ']] at hblank
          exact .seq (.star_nil (by simp; decide)) (.seq (.present (.literal [','] _)) hblank)
        · have hmissing : Refuses rounds (word ",")
              (Reading.past (front ++ name ++ [' ']) (s :: y) (.past 2 front name :: cs)) :=
            .literal (w := []) hcomma
          exact .seq (prefers_blank hlength hhead _ _) (.seq (.missing hmissing) (.star_nil hhead))
      refine ⟨[.past 2 front name], ?_, rfl⟩
      rw [htext, List.append_assoc, ← List.append_assoc front]
      refine .present (.seq (.capture cs (prefers_name hname ?_ (by omega))) hend)
      split_ifs <;> simp <;> decide

theorem prefers_namespace (h : b.Legible) (hrounds : b.namespaceText.length ≤ rounds)
    (front rest : Text) (cs : List Capture) :
    ∃ new, Prefers rounds
      (optional (inOrder [word "*", spaces, word "as", gap, capture 3 Pattern.name, spaces]))
      (Reading.past front (b.namespaceText ++ (b.membersText ++ ("from".toList ++ rest))) cs)
      (Reading.past (front ++ b.namespaceText) (b.membersText ++ ("from".toList ++ rest))
        (new ++ cs)) ∧
      new.map (fun g => (g.group, g.text)) = b.namespaceName.toList.map fun name => (3, name) := by
  obtain ⟨s, y, hcons, hs⟩ := b.membersText_cons rest
  rw [hcons]
  have hsign : CharClass.isSpace s = false ∧ (s == '*') = false := by
    rcases hs with rfl | ⟨rfl, -⟩ <;> decide
  obtain ⟨hspace, hstar⟩ := hsign
  have hhead : ∀ c ∈ (s :: y).head?, CharClass.isSpace c = false := fun c hc =>
    Option.some.inj hc ▸ hspace
  cases hnamespace : b.namespaceName with
  | none =>
      have htext : b.namespaceText = [] := by simp [namespaceText, hnamespace]
      have hmissing : Refuses rounds (word "*") (Reading.past front (s :: y) cs) :=
        .literal (w := []) hstar
      refine ⟨[], ?_, rfl⟩
      rw [htext, List.append_nil, List.nil_append]
      exact .missing (hmissing.seq _)
  | some name =>
      have hname := h.namespaceName name hnamespace
      obtain ⟨hne, hchars⟩ := spells_name hname
      have htext : b.namespaceText =
          "*".toList ++ ([' '] ++ ("as".toList ++ ([' '] ++ (name ++ [' '])))) := by
        rw [namespaceText, hnamespace]
        rfl
      rw [htext] at hrounds ⊢
      have hlength : name.length ≤ rounds ∧ 1 ≤ rounds := by
        simp only [List.length_append, List.length_cons, List.length_nil] at hrounds
        omega
      have hnameHead : ∀ c ∈ (name ++ ([' '] ++ s :: y)).head?, CharClass.isSpace c = false := by
        intro c hc
        rw [List.head?_append_of_ne_nil _ hne] at hc
        refine Bool.eq_false_iff.mpr fun hblank => ?_
        have hchar := hchars c (List.mem_of_head? hc)
        rw [isNameChar_of_isSpace hblank] at hchar
        cases hchar
      refine ⟨[.past 3 (front ++ "*".toList ++ [' '] ++ "as".toList ++ [' ']) name], ?_, rfl⟩
      have hall :
          Prefers rounds (inOrder [word "*", spaces, word "as", gap, capture 3 Pattern.name,
            spaces])
          (Reading.past front ("*".toList ++ ([' '] ++ ("as".toList ++ ([' '] ++ (name ++ ([' '] ++
            s :: y)))))) cs)
          (Reading.past (front ++ "*".toList ++ [' '] ++ "as".toList ++ [' '] ++ name ++ [' '])
            (s :: y) (.past 3 (front ++ "*".toList ++ [' '] ++ "as".toList ++ [' ']) name :: cs)) :=
        .seq (.literal _ _) (.seq (prefers_blank hlength.2 (by simp; decide) _ _)
          (.seq (.literal _ _)
          (.seq (.plus (by simp) (by decide) hnameHead hlength.2 _ _)
            (.seq (.capture cs (prefers_name hname (by simp; decide) hlength.1))
              (prefers_blank hlength.2 hhead _ _)))))
      simpa only [List.append_assoc, List.cons_append, List.nil_append] using hall.present

theorem prefers_members (h : b.Legible) (hrounds : b.membersText.length ≤ rounds)
    (front rest : Text) (cs : List Capture) :
    ∃ new, Prefers rounds
      (optional (inOrder [word "\x7b", capture 4 (star (noneOf "\x7d")), word "\x7d", spaces]))
      (Reading.past front (b.membersText ++ ("from".toList ++ rest)) cs)
      (Reading.past (front ++ b.membersText) ("from".toList ++ rest) (new ++ cs)) ∧
      new.map (fun g => (g.group, g.text)) = b.members.toList.map fun ms => (4, braces ms) := by
  cases hmembers : b.members with
  | none =>
      have htext : b.membersText = [] := by simp [membersText, hmembers]
      have hmissing :
          Refuses rounds (word "\x7b") (Reading.past front ("from".toList ++ rest) cs) :=
        .literal (w := []) (by decide)
      refine ⟨[], ?_, rfl⟩
      rw [htext, List.append_nil, List.nil_append]
      exact .missing (hmissing.seq _)
  | some ms =>
      have htext : b.membersText = "\x7b".toList ++ (braces ms ++ ("\x7d".toList ++ [' '])) := by
        rw [membersText, hmembers]
        rfl
      have hinner : ∀ c ∈ braces ms, (!"\x7d".toList.contains c) = true := fun c hc => by
        simpa using fun heq : c = '\x7d' => h.members ms hmembers (heq ▸ hc)
      rw [htext] at hrounds ⊢
      have hlength : (braces ms).length ≤ rounds ∧ 1 ≤ rounds := by
        simp only [List.length_append, List.length_cons, List.length_nil] at hrounds
        omega
      refine ⟨[.past 4 (front ++ "\x7b".toList) (braces ms)], ?_, rfl⟩
      have hall :
          Prefers rounds (inOrder [word "\x7b", capture 4 (star (noneOf "\x7d")), word "\x7d",
            spaces])
          (Reading.past front ("\x7b".toList ++ (braces ms ++ ("\x7d".toList ++ ([' '] ++
            ("from".toList ++ rest))))) cs)
          (Reading.past (front ++ "\x7b".toList ++ braces ms ++ "\x7d".toList ++ [' '])
            ("from".toList ++ rest) (.past 4 (front ++ "\x7b".toList) (braces ms) :: cs)) :=
        .seq (.literal _ _) (.seq (.capture cs (.star hinner (by simp) hlength.1 _ _))
          (.seq (.literal _ _) (prefers_blank hlength.2 (by simp; decide) _ _)))
      simpa only [List.append_assoc, List.singleton_append] using hall.present

end Clauses

/-- The module is read, and the statement ends. -/
theorem prefers_module (hquote : quote = '\'' ∨ quote = '"')
    (hmodule : moduleName ≠ [] ∧ '\'' ∉ moduleName ∧ '"' ∉ moduleName)
    (hrounds : moduleName.length ≤ rounds) (front rest : Text) (cs : List Capture) :
    ∃ new : List Capture, new.map (fun g => (g.group, g.text)) = [(6, moduleName), (5, [quote])] ∧
      Prefers rounds (inOrder [word "from", spaces, capture 5 Pattern.quote,
          capture 6 (plus (noneOf "'\"")), Pattern.quote, indent, optional (word ";")])
        (Reading.past front (moduleText quote moduleName ++ rest) cs)
        (Reading.past (front ++ moduleText quote moduleName) rest (new ++ cs)) := by
  obtain ⟨hne, hsingle, hdouble⟩ := hmodule
  have hisQuote : "'\"".toList.contains quote = true := by
    rcases hquote with rfl | rfl <;> decide
  have hspace : CharClass.isSpace quote = false := by
    rcases hquote with rfl | rfl <;> decide
  have hinner : ∀ c ∈ moduleName, (!"'\"".toList.contains c) = true := fun c hc => by
    have hsingle : c ≠ '\'' := fun heq => hsingle (heq ▸ hc)
    have hdouble : c ≠ '"' := fun heq => hdouble (heq ▸ hc)
    simp [hsingle, hdouble]
  have hend : (!"'\"".toList.contains quote) = false := by rw [hisQuote]; rfl
  have hlength : 1 ≤ rounds := Nat.le_trans (List.length_pos_of_ne_nil hne) hrounds
  refine ⟨[.past 6 (front ++ "from".toList ++ [' '] ++ [quote]) moduleName,
    .past 5 (front ++ "from".toList ++ [' ']) [quote]], rfl, ?_⟩
  have hall : Prefers rounds (inOrder [word "from", spaces, capture 5 Pattern.quote,
      capture 6 (plus (noneOf "'\"")), Pattern.quote, indent, optional (word ";")])
      (Reading.past front ("from".toList ++ ([' '] ++ ([quote] ++ (moduleName ++ ([quote] ++
        ([';'] ++ rest)))))) cs)
      (Reading.past (front ++ "from".toList ++ [' '] ++ [quote] ++ moduleName ++ [quote] ++ [';'])
        rest
        (.past 6 (front ++ "from".toList ++ [' '] ++ [quote]) moduleName ::
          .past 5 (front ++ "from".toList ++ [' ']) [quote] :: cs)) :=
    .seq (.literal _ _) (.seq (prefers_blank hlength (by simpa using hspace) _ _)
      (.seq (.capture cs (.single hisQuote)) (.seq
        (.capture _ (.plus hne hinner (fun c hc => by rwa [← Option.some.inj hc]) hrounds _ _))
        (.seq (.single hisQuote) (.seq (.star_nil (by simp)) (.present (.literal _ _)))))))
  simpa only [moduleText, List.append_assoc, List.cons_append, List.nil_append] using hall

/-! ## Reading the statement -/

/-- The groups of a statement with these clauses, the latest first. -/
def Clauses.groups (b : Clauses) (quote : Char) (moduleName : Text) : List (Nat × Text) :=
  [(6, moduleName), (5, [quote])] ++ ((b.members.toList.map fun ms => (4, braces ms)) ++
    ((b.namespaceName.toList.map fun name => (3, name)) ++
      ((b.defaultName.toList.map fun name => (2, name)) ++
        if b.typeOnly then [(1, "type".toList ++ [' '])] else [])))

/-- At the start of a line a statement with legible clauses is read to its end. -/
theorem Clauses.prefers_statement {b : Clauses} (h : b.Legible)
    (hquote : quote = '\'' ∨ quote = '"')
    (hmodule : moduleName ≠ [] ∧ '\'' ∉ moduleName ∧ '"' ∉ moduleName)
    (hline : front.getLast?.all (· == '\n') = true) (hw : ∀ c ∈ w, Text.isIndent c = true)
    (hrounds : (w ++ b.statement quote moduleName).length ≤ rounds) (rest : Text) :
    ∃ cs, Prefers rounds pattern
    (Reading.past front ((w ++ b.statement quote moduleName) ++ rest) [])
        (Reading.past (front ++ (w ++ b.statement quote moduleName)) rest cs) ∧
      cs.map (fun g => (g.group, g.text)) = b.groups quote moduleName := by
  have hlengths : w.length ≤ rounds ∧ b.defaultText.length ≤ rounds ∧
      b.namespaceText.length ≤ rounds ∧
      b.membersText.length ≤ rounds ∧ moduleName.length ≤ rounds ∧ 1 ≤ rounds := by
    simp only [statement, moduleText, List.length_append, List.length_cons, List.length_nil]
      at hrounds
    omega
  obtain ⟨hwlength, hdefault, hnamespace, hmembers, hmoduleLength, hone⟩ := hlengths
  have hindent : ∀ c ∈ w, " \t".toList.contains c = true := fun c hc => by
    simpa [Text.isIndent] using hw c hc
  obtain ⟨tail, htail⟩ : ∃ tail, tail = [' '] ++ ([quote] ++ (moduleName ++ ([quote] ++ [';']))) ++
      rest :=
    ⟨_, rfl⟩
  have hfrom : moduleText quote moduleName ++ rest = "from".toList ++ tail := by
    rw [htail, moduleText, List.append_assoc "from".toList]
  have hkeyword : ∀ c ∈ (b.typeText ++ (b.defaultText ++ (b.namespaceText ++ (b.membersText ++
      ("from".toList ++ tail))))).head?, CharClass.isSpace c = false := by
    rw [typeText]
    split_ifs
    · exact fun c hc => Option.some.inj hc ▸ by decide
    · exact notSpace_clauses h tail
  obtain ⟨new₁, h₁, hnew₁⟩ := prefers_type h hone (front ++ w ++ "import".toList ++ [' ']) tail []
  obtain ⟨new₂, h₂, hnew₂⟩ := prefers_default h hdefault
    (front ++ w ++ "import".toList ++ [' '] ++ b.typeText) tail (new₁ ++ [])
  obtain ⟨new₃, h₃, hnew₃⟩ := prefers_namespace h hnamespace
    (front ++ w ++ "import".toList ++ [' '] ++ b.typeText ++ b.defaultText) tail
    (new₂ ++ (new₁ ++ []))
  obtain ⟨new₄, h₄, hnew₄⟩ := prefers_members h hmembers
    (front ++ w ++ "import".toList ++ [' '] ++ b.typeText ++ b.defaultText ++ b.namespaceText) tail
    (new₃ ++ (new₂ ++ (new₁ ++ [])))
  obtain ⟨new₅, hnew₅, h₅⟩ := prefers_module hquote hmodule hmoduleLength
    (front ++ w ++ "import".toList ++ [' '] ++ b.typeText ++ b.defaultText ++ b.namespaceText ++
      b.membersText) rest (new₄ ++ (new₃ ++ (new₂ ++ (new₁ ++ []))))
  rw [hfrom] at h₅
  refine ⟨new₅ ++ (new₄ ++ (new₃ ++ (new₂ ++ (new₁ ++ [])))), ?_, ?_⟩
  · have hall : Prefers rounds pattern (Reading.past front (w ++ ("import".toList ++ ([' '] ++
        (b.typeText ++ (b.defaultText ++ (b.namespaceText ++ (b.membersText ++ ("from".toList ++
          tail)))))))) [])
        (Reading.past (front ++ w ++ "import".toList ++ [' '] ++ b.typeText ++ b.defaultText ++
          b.namespaceText ++ b.membersText ++ moduleText quote moduleName) rest
            (new₅ ++ (new₄ ++ (new₃ ++ (new₂ ++ (new₁ ++ [])))))) :=
      .seq (.lineStart hline) (.seq (.star hindent (by simp) hwlength _ _) (.seq (.literal _ _)
        (.seq (.plus (List.cons_ne_nil ' ' []) (by decide) hkeyword hone _ _)
          (h₁.seq (h₂.seq (h₃.seq (h₄.seq h₅)))))))
    have htext : w ++ b.statement quote moduleName ++ rest = w ++
        ("import".toList ++ ([' '] ++ (b.typeText ++
        (b.defaultText ++ (b.namespaceText ++ (b.membersText ++ ("from".toList ++ tail))))))) := by
      rw [← hfrom, statement]
      simp only [List.append_assoc]
    rw [htext, statement]
    simpa only [List.append_assoc] using hall
  · simp only [List.map_append, hnew₁, hnew₂, hnew₃, hnew₄, hnew₅, List.append_nil, groups]

/-- The statement that the texts of the groups describe. -/
def ofGroups (start stop : Nat) (text : Nat → Option Text) : ImportStatement where
  start := start
  stop := stop
  typeOnly := (text 1).isSome
  defaultName := text 2
  namespaceName := text 3
  members := ((text 4).map readList).getD []
  quote := ((text 5).getD []).head?.getD '\''
  moduleName := (text 6).getD []

theorem ofMatch_eq (m : Match) : ofMatch m =
    ofGroups (m.start + Text.size (m.text.takeWhile Text.isIndent)) m.stop
      fun n => (m.group? n).map (·.text) := by
  simp only [ofMatch, ofGroups, Match.groupText, Option.isSome_map, Option.map_map]
  rfl

/-- What is read of a statement with legible clauses. -/
theorem Clauses.exists_matchAt? {b : Clauses} (h : b.Legible) (hquote : quote = '\'' ∨ quote = '"')
    (hmodule : moduleName ≠ [] ∧ '\'' ∉ moduleName ∧ '"' ∉ moduleName)
    (hline : front.getLast?.all (· == '\n') = true) (hw : ∀ c ∈ w, Text.isIndent c = true)
    (hrounds : (w ++ b.statement quote moduleName).length ≤ rounds) (rest : Text) :
    ∃ m, pattern.matchAt? rounds ⟨front.getLast?, Text.size front,
        (w ++ b.statement quote moduleName) ++ rest⟩ = some m ∧ m.start = Text.size front ∧
      ofMatch m = ⟨Text.size front + Text.size w,
        Text.size front + Text.size (w ++ b.statement quote moduleName), b.typeOnly, b.defaultName,
          b.namespaceName, (b.members.map fun ms => readList (braces ms)).getD [], quote,
          moduleName⟩ := by
  obtain ⟨cs, hprefers, hcs⟩ := prefers_statement h hquote hmodule hline hw hrounds rest
  refine ⟨_, matchAt?_of_prefers hprefers, rfl, ?_⟩
  have htake : (w ++ b.statement quote moduleName).takeWhile Text.isIndent = w := by
    rw [List.takeWhile_append_of_pos hw]
    simp [statement, Text.isIndent]
  have htexts : (fun n => (cs.find? (·.group == n)).map (·.text)) = fun n =>
      ((b.groups quote moduleName).find? (·.1 == n)).map (·.2) := by
    funext n
    rw [← hcs, List.find?_map, Option.map_map]
    rfl
  rw [ofMatch_eq]
  dsimp only [Match.group?]
  rw [htexts, htake]
  obtain ⟨typeOnly, defaultName, namespaceName, members⟩ := b
  cases typeOnly <;> cases defaultName <;> cases namespaceName <;> cases members <;> rfl

/-- What is read of a statement that is written. -/
theorem matchAt?_written {defaultName : Option Text} (h : Parts defaultName ms quote moduleName)
    (hline : front.getLast?.all (· == '\n') = true) (hw : ∀ c ∈ w, Text.isIndent c = true)
    (hrounds : (w ++ written defaultName ms quote moduleName).length ≤ rounds) (rest : Text) :
    ∃ m, pattern.matchAt? rounds ⟨front.getLast?, Text.size front,
        (w ++ written defaultName ms quote moduleName) ++ rest⟩ = some m ∧
      m.start = Text.size front ∧
      ofMatch m = ⟨Text.size front + Text.size w,
        Text.size front + Text.size (w ++ written defaultName ms quote moduleName), false,
        defaultName,
          none, readList (braces ms), quote, moduleName⟩ := by
  rw [written_eq_statement] at hrounds ⊢
  exact Clauses.exists_matchAt? h.legible h.quote h.moduleName hline hw hrounds rest

end ImportStatement

end ServiceGate
