/-
# The variable that the specification is bound to

The pattern of declarations reads a type up to the sign of equality and lets nothing else pass than
what is neither such a sign nor a semicolon (`exists_declaration`).  It does not ask where the type
ends.  So a declaration without a value, on a line that ends without a semicolon, is read on into
the next one, and the specification gets the name of the wrong variable (`not_always_alone`).

That is the only way in which another declaration comes in between, and a line feed the only way in
which the statement comes to its end (`alone_iff`).
-/
import ServiceGate.Proofs.Balanced.Specification
import ServiceGate.Proofs.ObjectLiteral.Pieces
import ServiceGate.Proofs.Repair.Bindings
import ServiceGate.Proofs.Repair.Removed
import ServiceGate.Proofs.Rule.Unnarrowed

namespace ServiceGate

open Pattern Repair
open Text (size)

variable {t p q w front back : Text} {n : Nat} {m : Match} {spec : Spec}

def declarers : List Text := ["const", "let", "var"].map String.toList

/-- A keyword that declares a variable starts at a place in code, and it is no part of a name. -/
structure Declarer (t : Text) (n : Nat) (front keyword back : Text) : Prop where
  cut : t = front ++ (keyword ++ back)
  place : n = size front
  keyword : keyword ∈ declarers
  front : ∀ c ∈ front.getLast?, isNameChar c = false
  back : ∀ c ∈ back.head?, isNameChar c = false
  code : (Scan.Source.of t).isCodeAt n = true

/-- A keyword that declares a variable starts at a place in code. -/
def DeclaresAt (t : Text) (n : Nat) : Prop := ∃ front keyword back, Declarer t n front keyword back

theorem declarers_chars : ∀ w ∈ declarers, w ≠ [] ∧ ∀ c ∈ w, isNameChar c = true := by decide

/-! ## Where a keyword can stand -/

theorem exists_char_of_part {u rest : Text} (hcut : p ++ (u ++ q) = front ++ rest)
    (hle : size p ≤ size front) (hlt : size front < size (p ++ u)) : ∃ v c x, u = v ++ c :: x ∧
    front = p ++ v ∧ rest = c :: (x ++ q) := by
  obtain ⟨v, rfl, hv⟩ := Text.exists_middle hcut hle
  obtain ⟨x, rfl, rfl⟩ := Text.exists_middle hv.symm (by
    rw [Text.size_append, Text.size_append] at hlt
    omega)
  cases x with
  | nil =>
      rw [List.append_nil] at hlt
      exact absurd hlt (Nat.lt_irrefl _)
  | cons c x => exact ⟨v, c, x, rfl, rfl, rfl⟩

namespace Declarer

variable {u w : Text}

theorem not_among (h : Declarer t n front w back) (hcut : t = p ++ (u ++ q))
    (hu : ∀ c ∈ u, isNameChar c = false) (hle : size p ≤ n) : size (p ++ u) ≤ n := by
  refine Nat.le_of_not_lt fun hlt => ?_
  rw [h.place] at hle hlt
  obtain ⟨v, c, x, rfl, -, hrest⟩ := exists_char_of_part (hcut.symm.trans h.cut) hle hlt
  obtain ⟨hne, hchars⟩ := declarers_chars w h.keyword
  obtain ⟨d, w, rfl⟩ := List.exists_cons_of_ne_nil hne
  obtain ⟨rfl, -⟩ := List.cons.inj hrest
  have hname := hchars d List.mem_cons_self
  rw [hu d (by simp)] at hname
  cases hname

theorem not_inside (h : Declarer t n front w back) (hcut : t = p ++ (u ++ q))
    (hu : ∀ c ∈ u, isNameChar c = true) (hlt : size p < n) : size (p ++ u) ≤ n := by
  refine Nat.le_of_not_lt fun hlt' => ?_
  rw [h.place] at hlt hlt'
  obtain ⟨v, c, x, rfl, hfront, -⟩ :=
    exists_char_of_part (hcut.symm.trans h.cut) (Nat.le_of_lt hlt) hlt'
  rcases List.eq_nil_or_concat' v with rfl | ⟨v, d, rfl⟩
  · rw [hfront, List.append_nil] at hlt
    exact Nat.lt_irrefl _ hlt
  · have hname := h.front d (by rw [hfront]; simp [← List.append_assoc])
    rw [hu d (by simp)] at hname
    cases hname

theorem eq_name (h : Declarer t n front w back) (hcut : t = p ++ (u ++ q)) (hn : n = size p)
    (hu : ∀ c ∈ u, isNameChar c = true) (hq : ∀ c ∈ q.head?, isNameChar c = false) : w = u := by
  obtain ⟨-, htail⟩ := Text.append_inj_of_size (hcut.symm.trans h.cut) (hn.symm.trans h.place)
  obtain ⟨-, hchars⟩ := declarers_chars w h.keyword
  rcases List.append_eq_append_iff.mp htail with ⟨x, rfl, rfl⟩ | ⟨x, rfl, rfl⟩
  · cases x with
    | nil => exact List.append_nil u
    | cons c x =>
        have hname := hq c rfl
        rw [hchars c (by simp)] at hname
        cases hname
  · cases x with
    | nil => exact (List.append_nil w).symm
    | cons c x =>
        have hname := h.back c rfl
        rw [hu c (by simp)] at hname
        cases hname

end Declarer

/-! ## How the specification is declared -/

namespace Spec

/-- The words of a declaration up to the brace of the object.  Where the annotation goes on behind
blanks, it does so with the sign in front of a type. -/
structure Words (keyword gap name ascription blanks : Text) : Prop where
  keyword : keyword ∈ declarers
  gap : gap ≠ [] ∧ ∀ c ∈ gap, CharClass.isSpace c = true
  name : IsIdentifier name
  unended : ∀ c ∈ ascription, c ≠ '=' ∧ c ≠ ';'
  typed : ∃ u v : Text, ascription = u ++ v ∧ (∀ c ∈ u, CharClass.isSpace c = true) ∧ ∀ c ∈ v.head?,
    c = ':'
  blanks : ∀ c ∈ blanks, CharClass.isSpace c = true

theorem ne_of_isSpace (c : Char) (hc : CharClass.isSpace c = true) : c ≠ '=' ∧ c ≠ ';' := by
  constructor <;> rintro rfl <;> exact absurd hc (by decide)

theorem Words.head_ascription {keyword gap name ascription blanks : Text}
    (h : Words keyword gap name ascription blanks) (rest : Text) :
    ∀ c ∈ (ascription ++ '=' :: rest).head?, isNameChar c = false := by
  intro c hc
  obtain ⟨u, v, hascription, hu, hv⟩ := h.typed
  rw [hascription, List.append_assoc] at hc
  cases u with
  | cons d u =>
      obtain rfl := Option.mem_some.mp hc
      exact ImportStatement.isNameChar_of_isSpace (hu d List.mem_cons_self)
  | nil =>
      cases v with
      | cons d v =>
          obtain rfl := Option.mem_some.mp hc
          rw [hv d rfl]
          decide
      | nil =>
          obtain rfl := Option.mem_some.mp hc
          decide

theorem spells_type {u : Text}
    (h : Spells (Pattern.optional (inOrder [word ":", spaces, plusLazy (noneOf "=;")])) u) :
    (∀ c ∈ u, c ≠ '=' ∧ c ≠ ';') ∧ ∀ c ∈ u.head?, c = ':' := by
  have hnone : ∀ c, (!"=;".toList.contains c) = true → c ≠ '=' ∧ c ≠ ';' := fun c hc => by
    constructor <;> rintro rfl <;> exact absurd hc (by decide)
  cases h with
  | altSecond h =>
      cases h with
      | empty => exact ⟨fun c hc => absurd hc List.not_mem_nil, fun c hc => by cases hc⟩
  | altFirst h =>
      obtain ⟨sign, rest, rfl, hsign, h⟩ := spells_seq h
      obtain ⟨blanks, type, rfl, hblanks, h⟩ := spells_seq h
      obtain ⟨first, others, rfl, hfirst, hothers⟩ := spells_seq h
      obtain rfl := spells_literal hsign
      refine ⟨fun c hc => ?_, fun c hc => (Option.mem_some.mp hc).symm⟩
      simp only [List.mem_append] at hc
      rcases hc with hc | hc | hc | hc
      · obtain rfl : c = ':' := by simpa using hc
        decide
      · exact ne_of_isSpace c (spells_spaces hblanks c hc)
      · cases hfirst with
        | char hfirst =>
            obtain rfl := List.mem_singleton.mp hc
            exact hnone c hfirst
      · exact hnone c (spells_many_char hothers c hc)

theorem head_of_declarers : ∀ k ∈ declarers, k.head?.any CharClass.isWord = true := by decide

/-- What the pattern of declarations reads. -/
theorem exists_words (hm : m ∈ declaration.all t) : ∃ front keyword gap name ascription blanks back,
    t = front ++ (m.text ++ back) ∧ m.start = size front ∧ m.stop = size (front ++ m.text) ∧
      m.text = keyword ++ (gap ++ (name ++ (ascription ++ '=' :: (blanks ++ ['\x7b'])))) ∧
      m.groupText 1 = name ∧ front.getLast?.any CharClass.isWord = false ∧
      Words keyword gap name ascription blanks := by
  obtain ⟨front, back, hcut, hstart, hstop, hleads⟩ := exists_leads_of_mem_all hm
  obtain ⟨e, rest₁, cs₁, hrest, he, hedge, h₁⟩ := leads_past_seq hleads
  obtain rfl : cs₁ = [] := hedge.captures_eq rfl
  obtain rfl := spells_wordEdge he
  obtain rfl : m.text ++ back = rest₁ := hrest
  have hedge := leads_past_wordEdge hedge
  obtain ⟨keyword, rest₂, cs₂, hrest₂, hkeyword, hword, h₂⟩ := leads_past_seq h₁
  obtain rfl : cs₂ = [] := hword.captures_eq rfl
  obtain ⟨gap, rest₃, cs₃, rfl, hgap, hspaces, h₃⟩ := leads_past_seq h₂
  obtain rfl : cs₃ = [] := hspaces.captures_eq rfl
  cases h₃ with
  | seq hcapture h₄ =>
      obtain ⟨name, rest₄, rfl, hname, rfl⟩ := leads_past_capture hcapture rfl
      have hcaptures : m.captures = [.past 1 (front ++ [] ++ keyword ++ gap) name] :=
        h₄.captures_eq rfl
      have hgroup : m.groupText 1 = name := by
        rw [Match.groupText, Match.group?, hcaptures]
        rfl
      obtain ⟨w, rest₅, cs₅, rfl, hlast, hspells⟩ := h₄.past rfl
      obtain rfl : back = rest₅ := congrArg (·.cursor.rest) hlast
      obtain ⟨u, v, rfl, hu, hspells⟩ := spells_seq hspells
      obtain ⟨type, v, rfl, htype, hspells⟩ := spells_seq hspells
      obtain ⟨sign, v, rfl, hsign, hspells⟩ := spells_seq hspells
      obtain ⟨blanks, brace, rfl, hblanks, hbrace⟩ := spells_seq hspells
      obtain rfl := spells_literal hsign
      obtain rfl := spells_literal hbrace
      have htext :
          m.text = keyword ++ (gap ++ (name ++ (u ++ type ++ '=' :: (blanks ++ ['\x7b'])))) := by
        refine (List.append_cancel_right_eq _ back _).mp (hrest₂.trans ?_)
        simp
      have hmem : keyword ∈ declarers := spells_anyWord hkeyword
      rw [hrest₂] at hedge
      obtain ⟨htype, hhead⟩ := spells_type htype
      refine ⟨front, keyword, gap, name, u ++ type, blanks, back, hcut, hstart, hstop, htext,
        hgroup,
        wordStart_of_edge hedge (head_of_declarers keyword hmem), hmem, ?_,
        ⟨(spells_name hname).1, (spells_name hname).2⟩, ?_,
        ⟨u, type, rfl, spells_spaces hu, hhead⟩, spells_spaces hblanks⟩
      · obtain ⟨first, others, rfl, hfirst, hothers⟩ := spells_seq hgap
        cases hfirst with
        | char hfirst =>
            exact ⟨List.cons_ne_nil _ _,
              List.forall_mem_cons.mpr ⟨hfirst, spells_many_char hothers⟩⟩
      · intro c hc
        exact (List.mem_append.mp hc).elim (fun hc => ne_of_isSpace c (spells_spaces hu c hc))
          (htype c)

/-- A specification is declared by these words in code, up to the brace of its literal. -/
structure DeclaredBy (t : Text) (spec : Spec) (front keyword gap ascription blanks back : Text) :
    Prop where
  cut : t = front ++
    (keyword ++ (gap ++ (spec.name ++ (ascription ++ '=' :: (blanks ++ '\x7b' :: back)))))
  declaredAt : spec.declaredAt = size front
  openAt : spec.literal.openAt =
    size (front ++ (keyword ++ (gap ++ (spec.name ++ (ascription ++ '=' :: blanks)))))
  code : (Scan.Source.of t).isCodeAt spec.declaredAt = true
  edge : front.getLast?.any CharClass.isWord = false
  words : Words keyword gap spec.name ascription blanks

theorem exists_declaredBy (h : find? (.of t) = some spec) :
    ∃ front keyword gap ascription blanks back,
    DeclaredBy t spec front keyword gap ascription blanks back := by
  obtain ⟨m, hm, hspec⟩ := List.exists_of_findSome?_eq_some h
  obtain ⟨hcode, o, ho, rfl⟩ : (Scan.Source.of t).isCodeAt m.start = true ∧ ∃ o,
      ObjectLiteral.readAt? t (m.stop - 1) = some o ∧ spec = ⟨m.groupText 1, m.start, o⟩ := by
    unfold ofMatch? at hspec
    split_ifs at hspec with hcode
    refine ⟨hcode, ?_⟩
    split at hspec
    · cases hspec
    · next o ho =>
        split_ifs at hspec
        exact ⟨o, ho, (Option.some.inj hspec).symm⟩
  obtain ⟨front, keyword, gap, name, ascription, blanks, back, hcut, hstart, hstop, htext, rfl,
      hedge, hwords⟩ :=
    exists_words hm
  obtain ⟨-, -, -, -, -, -, -, -, hopen, -⟩ := ObjectLiteral.exists_inner ho
  refine ⟨front, keyword, gap, ascription, blanks, back, ?_, hstart, ?_, hcode, hedge, hwords⟩
  · refine Eq.trans hcut ?_
    rw [htext]
    simp
  · have hbrace : '\x7b'.utf8Size = 1 := rfl
    rw [hopen, hstop, htext]
    simp only [Text.size_append, Text.size, hbrace]
    omega

/-! ## Whether the declaration is the only one -/

/-- Between the keyword of the declaration and the brace of the object stand no other keyword that
declares a variable and no end of a statement. -/
structure Alone (t : Text) (spec : Spec) : Prop where
  keyword : ∀ n, DeclaresAt t n → spec.declaredAt < n → spec.literal.openAt ≤ n
  statement : spec.literal.openAt ≤ statementStop t spec.declaredAt

namespace DeclaredBy

variable {keyword gap ascription blanks : Text}

theorem declaresAt_name (h : DeclaredBy t spec front keyword gap ascription blanks back)
    (hname : spec.name ∈ declarers) : DeclaresAt t (size (front ++ (keyword ++ gap))) := by
  obtain ⟨hgap, hspace⟩ := h.words.gap
  have hcut : t = front ++ (keyword ++ gap) ++
      (spec.name ++ (ascription ++ '=' :: (blanks ++ '\x7b' :: back))) := by
    rw [h.cut]
    simp only [List.append_assoc]
  refine ⟨front ++ (keyword ++ gap), spec.name, _, hcut, rfl, hname, fun c hc => ?_,
    h.words.head_ascription _, ?_⟩
  · rw [← List.append_assoc, List.getLast?_append_of_ne_nil _ hgap] at hc
    exact ImportStatement.isNameChar_of_isSpace (hspace c (List.mem_of_getLast? hc))
  · have hflat : ∀ w ∈ declarers, ∀ c ∈ w, Scan.isFlat c = true ∧
        CharClass.isAsciiSpace c = false := by decide
    have hcode := h.code
    obtain ⟨hne, -⟩ := declarers_chars keyword h.words.keyword
    obtain ⟨c, w, hkeyword⟩ := List.exists_cons_of_ne_nil hne
    obtain ⟨hne', -⟩ := declarers_chars spec.name hname
    obtain ⟨d, name, hcons⟩ := List.exists_cons_of_ne_nil hne'
    rw [h.declaredAt, h.cut, hkeyword, List.cons_append] at hcode
    have hin := (Scan.inCode_of_isCodeAt hcode).append (w := w ++ gap) (fun x hx => ?_) d
    · rw [hcut, hcons, hkeyword]
      have hd := hflat spec.name hname d (hcons ▸ List.mem_cons_self)
      exact hin.isCodeAt hd.1 hd.2 _
    · rw [← List.cons_append, ← hkeyword] at hx
      rcases List.mem_append.mp hx with hx | hx
      · exact (hflat keyword h.words.keyword x hx).1
      · exact isFlat_of_notMem_signs (CharClass.notMem_signs_of_isSpace (hspace x hx))

/-- The other keywords in front of the brace stand where the name or the annotation does. -/
theorem keyword_iff (h : DeclaredBy t spec front keyword gap ascription blanks back) :
    (∀ n, DeclaresAt t n → spec.declaredAt < n → spec.literal.openAt ≤ n) ↔ spec.name ∉ declarers ∧
      ∀ n, DeclaresAt t n → size (front ++ (keyword ++ (gap ++ spec.name))) ≤ n →
        size (front ++ (keyword ++ (gap ++ (spec.name ++ ascription)))) ≤ n := by
  obtain ⟨hkeyword, hgap, hname, -, -, hblanks⟩ := h.words
  obtain ⟨hne, hchars⟩ := declarers_chars keyword hkeyword
  have hpos : ∀ {u : Text}, u ≠ [] → 0 < size u := fun hu =>
    Nat.pos_of_ne_zero fun hzero => hu (Text.eq_nil_of_size hzero)
  have hcut := h.cut
  rw [h.declaredAt, h.openAt]
  constructor
  · refine fun hkeep => ⟨fun hmem => ?_, fun n hn hle => ?_⟩
    · have hle := hkeep _ (h.declaresAt_name hmem) (by
        have := hpos hne
        simp only [Text.size_append]
        omega)
      have := hpos hname.ne_nil
      simp only [Text.size_append, Text.size] at hle
      omega
    · have hlt := hkeep n hn (by
        have := hpos hne
        simp only [Text.size_append] at hle
        omega)
      simp only [Text.size_append, Text.size] at hlt ⊢
      omega
  · rintro ⟨hkeep, hascription⟩ n ⟨front', w, back', hn⟩ hlt
    have h₁ := hn.not_inside hcut hchars hlt
    rw [← List.append_assoc] at hcut
    have h₂ :=
      hn.not_among hcut (fun c hc => ImportStatement.isNameChar_of_isSpace (hgap.2 c hc)) h₁
    rw [← List.append_assoc] at hcut
    rcases Nat.eq_or_lt_of_le h₂ with heq | hlt
    · have hw := hn.eq_name hcut heq.symm hname.chars (h.words.head_ascription _)
      exact absurd (hw ▸ hn.keyword) hkeep
    · have h₃ := hn.not_inside hcut hname.chars hlt
      have h₄ := hascription n ⟨front', w, back', hn⟩ (by simpa only [List.append_assoc] using h₃)
      have hrest : t = front ++ (keyword ++ (gap ++ (spec.name ++ ascription))) ++
          ('=' :: blanks ++ '\x7b' :: back) := by
        rw [h.cut]
        simp only [List.append_assoc, List.cons_append]
      have h₅ := hn.not_among hrest (List.forall_mem_cons.mpr ⟨by decide, fun c hc =>
        ImportStatement.isNameChar_of_isSpace (hblanks c hc)⟩) h₄
      simpa only [List.append_assoc] using h₅

/-- A line feed, and nothing else, can end the statement in front of the brace. -/
theorem statement_iff (h : DeclaredBy t spec front keyword gap ascription blanks back) :
    spec.literal.openAt ≤ statementStop t spec.declaredAt ↔
      ∀ before m behind, Scan.marks t spec.declaredAt = before ++ m :: behind → m.char = '\n' →
        Ends t (before.foldl depthBehind 0) m → spec.literal.openAt ≤ m.offset := by
  have hcut : t = front ++ (keyword ++ (gap ++ (spec.name ++ (ascription ++ '=' :: blanks))) ++
      '\x7b' :: back) := by
    rw [h.cut]
    simp only [List.append_assoc, List.cons_append]
  have hfree : ∀ c ∈ keyword ++ (gap ++ (spec.name ++ (ascription ++ '=' :: blanks))), c ≠ ';' := by
    have hspace : ∀ {u : Text}, (∀ c ∈ u, CharClass.isSpace c = true) → ';' ∉ u := fun hu hmem =>
      (ne_of_isSpace _ (hu _ hmem)).2 rfl
    have hname : ∀ {u : Text}, (∀ c ∈ u, isNameChar c = true) → ';' ∉ u := fun hu hmem =>
      absurd (hu _ hmem) (by decide)
    rintro c hc rfl
    simp only [List.mem_append, List.mem_cons] at hc
    rcases hc with hc | hc | hc | hc | hc | hc
    · exact hname (declarers_chars keyword h.words.keyword).2 hc
    · exact hspace h.words.gap.2 hc
    · exact hname h.words.name.chars hc
    · exact (h.words.unended _ hc).2 rfl
    · cases hc
    · exact hspace h.words.blanks hc
  rw [le_statementStop_iff]
  constructor
  · rintro ⟨-, hends⟩ before m behind hmarks hfeed hend
    have hle := hends before m behind hmarks hend
    rwa [endAt, hfeed, if_neg (by decide)] at hle
  · refine fun hfeed => ⟨?_, fun before m behind hmarks hend => ?_⟩
    · rw [h.openAt, hcut]
      simp only [Text.size_append, Text.size]
      omega
    · have hle : m.offset ≤ endAt m := by
        rw [endAt]
        split_ifs <;> omega
      refine Nat.le_of_not_lt fun hlt => ?_
      rcases hend.2 with ⟨hsemicolon, -⟩ | ⟨hchar, -⟩
      · have hmem : m ∈ Scan.marks t spec.declaredAt :=
          hmarks ▸ List.mem_append_right _ List.mem_cons_self
        obtain ⟨p, q, hp, hoffset, hge⟩ := Scan.exists_of_mem_marks hmem
        rw [h.declaredAt, hoffset] at hge
        rw [h.openAt] at hlt
        obtain ⟨u, c, v, hu, -, hrest⟩ := exists_char_of_part (hcut.symm.trans hp) hge (by omega)
        obtain rfl : m.char = c := (List.cons.inj hrest).1
        exact hfree m.char (hu ▸ List.mem_append_right u List.mem_cons_self) hsemicolon
      · have := hfeed before m behind hmarks hchar hend
        omega

end DeclaredBy

/-- Where the endpoint for the specification is added, behind the last route, it answers with the
variable. -/
def Serves (t name : Text) : Prop :=
  ∀ out, injectEndpoint .spec t = some out → ∃ r n, (Route.all (.of t)).getLast? = some r ∧
    r.statementStop? t = some n ∧
    out = ensureNamedImport Rule.express [] ["Request".toList, "Response".toList] (t.insertAt n
      ("\n\n".toList ++ r.receiver ++
        ".get('/openapi.json', (_req: Request, res: Response) => \x7b\n  res.json(".toList ++
        name ++
        ");\n\x7d);".toList))

theorem serves_name (h : find? (.of t) = some spec) : Serves t spec.name := by
  intro out hout
  obtain ⟨-, r, n, hr, hn, hout⟩ := exists_of_injectEndpoint hout
  have hopen : ".get('/openapi.json', (_req: Request, res: Response) => \x7b\n  res.json(".toList =
      ".get('".toList ++ (Endpoint.path .spec).toList ++
        "', (_req: Request, res: Response) => \x7b\n  ".toList ++ "res.json(".toList := rfl
  have hclose : ");\n\x7d);".toList = ");".toList ++ "\n\x7d);".toList := rfl
  have hbody : Endpoint.body spec.name .spec = "res.json(".toList ++ spec.name ++ ");".toList := rfl
  refine ⟨r, n, hr, hn, hout.trans ?_⟩
  rw [handlerTypes, specNameOf, h, hopen, hclose, Option.map_some, Option.getD_some,
    Endpoint.render, hbody]
  simp only [List.append_assoc]

/-- The declaration of a specification is the only one exactly if its annotation holds no other and
no line feed ends its statement; and the endpoint answers with the variable that the keyword of the
declaration stands in front of. -/
theorem alone_iff (h : find? (.of t) = some spec) : ∃ front keyword gap ascription blanks back,
    DeclaredBy t spec front keyword gap ascription blanks back ∧
      (Alone t spec ↔ spec.name ∉ declarers ∧
        (∀ n, DeclaresAt t n → size (front ++ (keyword ++ (gap ++ spec.name))) ≤ n →
          size (front ++ (keyword ++ (gap ++ (spec.name ++ ascription)))) ≤ n) ∧
        ∀ before m behind, Scan.marks t spec.declaredAt = before ++ m :: behind → m.char = '\n' →
          Ends t (before.foldl depthBehind 0) m → spec.literal.openAt ≤ m.offset) ∧
      Serves t spec.name := by
  obtain ⟨front, keyword, gap, ascription, blanks, back, hdecl⟩ := exists_declaredBy h
  refine ⟨front, keyword, gap, ascription, blanks, back, hdecl, ?_, serves_name h⟩
  rw [← and_assoc, ← hdecl.keyword_iff, ← hdecl.statement_iff]
  exact ⟨fun h => ⟨h.keyword, h.statement⟩, fun h => ⟨h.1, h.2⟩⟩

def typedSpec : Text := "const api: Doc = \x7b openapi: '3.0.0' \x7d;\napp.get('/a', h);\n".toList

theorem alone_iff_typed : ∃ spec, find? (.of typedSpec) = some spec ∧
    ∃ front keyword gap ascription blanks back,
    DeclaredBy typedSpec spec front keyword gap ascription blanks back ∧
      (Alone typedSpec spec ↔ spec.name ∉ declarers ∧
        (∀ n, DeclaresAt typedSpec n → size (front ++ (keyword ++ (gap ++ spec.name))) ≤ n →
          size (front ++ (keyword ++ (gap ++ (spec.name ++ ascription)))) ≤ n) ∧
        ∀ before m behind, Scan.marks typedSpec spec.declaredAt = before ++ m :: behind →
          m.char = '\n' →
          Ends typedSpec (before.foldl depthBehind 0) m → spec.literal.openAt ≤ m.offset) ∧
      Serves typedSpec spec.name := by
  obtain ⟨spec, hspec⟩ :=
    Option.isSome_iff_exists.mp (show (find? (.of typedSpec)).isSome = true by decide)
  exact ⟨spec, hspec, alone_iff hspec⟩

def unendedDeclaration : Text :=
  "let port: number\nconst spec = \x7b openapi: '3.0.0' \x7d;\n".toList

/-- Where the line above declares a variable without a value and ends without a semicolon, the
specification gets the name of that variable. -/
theorem not_always_alone : ¬ ∀ (t : Text) (spec : Spec), find? (.of t) = some spec →
    Alone t spec := by
  intro h
  have hfound : (find? (.of unendedDeclaration)).map (fun spec =>
      (spec.name, spec.declaredAt, spec.literal.openAt)) =
      some ("port".toList, 0, 30) := by decide
  obtain ⟨spec, hspec, heq⟩ := Option.map_eq_some_iff.mp hfound
  obtain ⟨-, hplaces⟩ := Prod.mk.inj heq
  obtain ⟨hdeclared, hopen⟩ := Prod.mk.inj hplaces
  have hkeyword : DeclaresAt unendedDeclaration 17 :=
    ⟨"let port: number\n".toList, "const".toList, " spec = \x7b openapi: '3.0.0' \x7d;\n".toList,
      by decide, by decide, by decide, by decide, by decide, by decide⟩
  have hle := (h _ spec hspec).keyword 17 hkeyword (by omega)
  omega

end Spec

end ServiceGate
