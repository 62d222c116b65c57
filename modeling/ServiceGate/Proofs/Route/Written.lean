/-
# Registrations of routes

The method of a route is one of five words (`method_mem`), which are in lower case already.  A
registration is read part by part, so a route stands in the text as it is written
(`exists_written`).

`Written` cuts a text around a registration: the receiver and its dot, the method, the parenthesis
and the path between its quotes.  A path may stand in quotes of three kinds, each with a group of
its own; `leads_quotedPath` is about any of them, and `leads_anyPath` forgets which one it was.
-/
import ServiceGate.Proofs.Pattern.Sound
import ServiceGate.Proofs.Pattern.Stretches
import ServiceGate.Proofs.Route.Paths
import ServiceGate.Proofs.Scan.Reading
import ServiceGate.Route.Basic

namespace ServiceGate

/-! ## Methods -/

namespace Route

def methodWords : List Text := ["get", "post", "put", "patch", "delete"].map String.toList

theorem exists_of_mem_routes {s : Scan.Source} {r : Route} (h : r ∈ Route.all s) :
    ∃ m ∈ pattern.all s.text, r.receiver = m.groupText 1 ∧ r.method = m.groupText 2 := by
  obtain ⟨m, hm, hr⟩ := List.mem_filterMap.mp (List.mem_filter.mp h).1
  obtain ⟨args, -, hr⟩ := Option.bind_eq_some_iff.mp hr
  obtain ⟨path, -, hr⟩ := Option.bind_eq_some_iff.mp hr
  obtain rfl := Option.some.inj hr
  exact ⟨m, hm, rfl, rfl⟩

theorem method_mem {s : Scan.Source} {r : Route} (h : r ∈ Route.all s) :
    r.method ∈ methodWords := by
  obtain ⟨m, hm, -, hmethod⟩ := exists_of_mem_routes h
  rw [hmethod]
  exact Pattern.spells_anyWord ((Pattern.in_of_mem_all hm).spells_groupText rfl rfl)

end Route

end ServiceGate

/-!
## What a registration looks like

A match of the pattern of routes is read part by part, so the route that it describes stands in the
text as `receiver.method('/path'`: the dot, the method, the parenthesis and the path between two
quotes of one kind (`exists_written`).
-/

namespace ServiceGate

namespace Pattern

variable {p q : Pattern} {r r' : Reading} {number : Nat}

/-! ## Reading part by part -/

theorem Leads.parts (h : Leads (p.seq q) r r') : ∃ r₁, Leads p r r₁ ∧ Leads q r₁ r' := by
  cases h with
  | seq hp hq => exact ⟨_, hp, hq⟩

theorem Leads.plain (h : Leads p r r') (hp : p.groups = []) :
    ∃ u, r.cursor.rest = u ++ r'.cursor.rest ∧ Spells p u ∧ r'.captures = r.captures := by
  obtain ⟨u, new, hu, hspells, hnew, hin⟩ := h.moves
  cases new with
  | nil => exact ⟨u, hu.rest, hspells, hnew⟩
  | cons g new =>
      obtain ⟨body, -, -, hmem, -⟩ := hin g List.mem_cons_self
      rw [hp] at hmem
      cases hmem

/-- A group keeps what it reads. -/
theorem Leads.group (h : Leads (Pattern.capture number p) r r') (hp : p.groups = []) :
    ∃ u g, r.cursor.rest = u ++ r'.cursor.rest ∧ Spells p u ∧ r'.captures = g :: r.captures ∧
      g.group = number ∧ g.text = u := by
  cases h with
  | @capture _ _ _ r₁ hbody =>
      obtain ⟨u, -, hu, -⟩ := hbody.moves
      obtain ⟨v, hv, hspells, hcaptures⟩ := hbody.plain hp
      obtain rfl : v = u := List.append_cancel_right (hv.symm.trans hu.rest)
      exact ⟨v, _, hv, hspells, by rw [Reading.keep, hcaptures], rfl, hu.textTo_eq⟩

theorem spells_spaces {u : Text} (h : Spells spaces u) : ∀ c ∈ u, CharClass.isSpace c = true :=
  spells_many_char h

end Pattern

open Pattern

namespace Route

variable {x : Text} {m : Match} {r : Route} {before : Option Char} {n : Nat}

/-- A registration as it is written in a text that starts at an offset. -/
structure Written (n : Nat) (x : Text) (r : Route) : Prop where
  cut : ∃ front gap lead back quote, x = front ++ r.receiver ++ '.' :: (r.method ++ gap) ++
      '(' :: (lead ++ quote :: (r.path ++ quote :: back)) ∧ r.offset = n + Text.size front ∧
        (∀ c ∈ gap, CharClass.isSpace c = true) ∧ (∀ c ∈ lead, CharClass.isSpace c = true) ∧
          Scan.isQuote quote = true ∧ quote ∉ r.path
  method : r.method ∈ ["get", "post", "put", "patch", "delete"].map String.toList
  path : r.path.head? = some '/'

/-- A path between two quotes of one kind. -/
theorem leads_quotedPath {word : String} {quote : Char} {number : Nat} {r₁ r₂ : Reading}
    (hquote : word.toList = [quote]) (h : Leads (quotedPath number word) r₁ r₂) :
    ∃ path g, r₁.cursor.rest = quote :: (path ++ quote :: r₂.cursor.rest) ∧ path.head? = some '/' ∧
      (quote ≠ '/' → quote ∉ path) ∧ r₂.captures = g :: r₁.captures ∧ g.group = number ∧
        g.text = path := by
  have hword : Pattern.word word = .char (· == quote) := by rw [Pattern.word, hquote, literal]
  have hnone : noneOf word = .char fun c => c != quote := by
    rw [noneOf, hquote]
    congr 1
    funext c
    rw [Bool.eq_iff_iff]
    simp
  rw [quotedPath, hword, hnone] at h
  obtain ⟨r₃, hopen, h⟩ := h.parts
  obtain ⟨r₄, hpath, hclose⟩ := h.parts
  obtain ⟨u, hu, huspells, hucaptures⟩ := hopen.plain rfl
  obtain ⟨v, g, hv, hvspells, hvcaptures, hgroup, htext⟩ := hpath.group rfl
  obtain ⟨w, hw, hwspells, hwcaptures⟩ := hclose.plain rfl
  obtain ⟨slash, path, hpathText, hslash, hrest⟩ := spells_seq hvspells
  have hone : ∀ {u : Text}, Spells (.char (· == quote)) u → u = [quote] := fun h => by
    cases h with
    | char hc => rw [beq_iff_eq.mp hc]
  rw [hone huspells] at hu
  rw [hone hwspells] at hw
  rw [spells_literal hslash] at hpathText
  have hfree := spells_many_char hrest
  refine ⟨v, g, ?_, by rw [hpathText]; rfl, fun hne hmem => ?_, ?_, hgroup, htext⟩
  · rw [hu, hv, hw]
    rfl
  · rw [hpathText] at hmem
    rcases List.mem_append.mp hmem with hmem | hmem
    · exact hne (List.mem_singleton.mp hmem)
    · exact absurd rfl (bne_iff_ne.mp (hfree quote hmem))
  · rw [hwcaptures, hvcaptures, hucaptures]

/-- A path between quotes of any kind. -/
theorem leads_anyPath {r₁ r₂ : Reading}
    (h : Leads (anyOf [quotedPath 4 "'", quotedPath 5 "\"", quotedPath 6 "\x60"]) r₁ r₂) :
    ∃ path g quote, r₁.cursor.rest = quote :: (path ++ quote :: r₂.cursor.rest) ∧
      path.head? = some '/' ∧ quote ∉ path ∧ Scan.isQuote quote = true ∧
        r₂.captures = g :: r₁.captures ∧ (g.group = 4 ∨ g.group = 5 ∨ g.group = 6) ∧
        g.text = path := by
  obtain ⟨word, quote, number, hquote, hword, hnumber, h⟩ : ∃ word quote number,
      Scan.isQuote quote = true ∧ word.toList = [quote] ∧ (number = 4 ∨ number = 5 ∨ number = 6) ∧
        Leads (quotedPath number word) r₁ r₂ := by
    cases h with
    | altFirst h => exact ⟨_, _, _, rfl, rfl, .inl rfl, h⟩
    | altSecond h =>
        cases h with
        | altFirst h => exact ⟨_, _, _, rfl, rfl, .inr (.inl rfl), h⟩
        | altSecond h => exact ⟨_, _, _, rfl, rfl, .inr (.inr rfl), h⟩
  obtain ⟨path, g, hrest, hhead, hfree, hcaptures, hgroup, htext⟩ := leads_quotedPath hword h
  exact ⟨path, g, quote, hrest, hhead, hfree (by rintro rfl; cases hquote), hquote, hcaptures,
    hgroup ▸ hnumber, htext⟩

theorem exists_written (hm : m ∈ pattern.within before n x) (hr : ofMatch? m = some r) :
    Written n x r := by
  obtain ⟨front, rest, rfl, hfound⟩ := exists_matchAt?_of_mem x hm
  obtain ⟨last, hrun, rfl⟩ := Option.map_eq_some_iff.mp hfound
  obtain ⟨last', hleads, hlast⟩ := exists_leads pattern hrun
  obtain rfl := Option.some.inj hlast
  obtain ⟨r₁, hedge, h⟩ := hleads.parts
  obtain ⟨r₂, hreceiver, h⟩ := h.parts
  obtain ⟨r₃, hdot, h⟩ := h.parts
  obtain ⟨r₄, hmethod, h⟩ := h.parts
  obtain ⟨r₅, hgap, h⟩ := h.parts
  obtain ⟨r₆, hopen, h⟩ := h.parts
  obtain ⟨r₇, hlead, hpath⟩ := h.parts
  obtain ⟨u₁, hu₁, hs₁, hc₁⟩ := hedge.plain rfl
  obtain ⟨receiver, g₁, hu₂, -, hc₂, hn₁, ht₁⟩ := hreceiver.group rfl
  obtain ⟨u₃, hu₃, hs₃, hc₃⟩ := hdot.plain rfl
  obtain ⟨method, g₂, hu₄, hs₄, hc₄, hn₂, ht₂⟩ := hmethod.group rfl
  obtain ⟨gap, hu₅, hs₅, hc₅⟩ := hgap.plain rfl
  obtain ⟨paren, g₃, hu₆, hs₆, hc₆, hn₃, -⟩ := hopen.group rfl
  obtain ⟨lead, hu₇, hs₇, hc₇⟩ := hlead.plain rfl
  obtain ⟨path, g₄, quote, hu₈, hhead, hfree, hquote, hc₈, hn₄, ht₄⟩ := leads_anyPath hpath
  have hcaptures : last'.captures = [g₄, g₃, g₂, g₁] := by
    rw [hc₈, hc₇, hc₆, hc₅, hc₄, hc₃, hc₂, hc₁]
  have hcut : rest = receiver ++ '.' :: (method ++ gap) ++ '(' ::
      (lead ++ quote :: (path ++ quote ::
      last'.cursor.rest)) := by
    rw [spells_wordEdge hs₁] at hu₁
    rw [spells_literal hs₃] at hu₃
    rw [spells_literal hs₆] at hu₆
    rw [show rest = [] ++ r₁.cursor.rest from hu₁, hu₂, hu₃, hu₄, hu₅, hu₆, hu₇, hu₈]
    simp
  have hroute : r.receiver = receiver ∧ r.method = method ∧ r.path = path ∧
      r.offset = n + Text.size front := by
    obtain ⟨args, -, hr⟩ := Option.bind_eq_some_iff.mp hr
    obtain ⟨found, hfound, hr⟩ := Option.bind_eq_some_iff.mp hr
    obtain rfl := Option.some.inj hr
    have hfourth : found = g₄ := by
      simp only [Match.group?, hcaptures, List.find?_cons, hn₁, hn₂, hn₃] at hfound
      rcases hn₄ with hn₄ | hn₄ | hn₄ <;> simpa [hn₄, eq_comm] using hfound
    have hbehind : (g₄.group == 1) = false ∧ (g₄.group == 2) = false := by
      rcases hn₄ with hn₄ | hn₄ | hn₄ <;> rw [hn₄] <;> decide
    refine ⟨?_, ?_, hfourth ▸ ht₄, rfl⟩
    · simp [Match.groupText, Match.group?, hcaptures, hbehind, hn₁, hn₂, hn₃, ht₁]
    · simp [Match.groupText, Match.group?, hcaptures, hbehind, hn₂, hn₃, ht₂]
  obtain ⟨hreceiverEq, hmethodEq, hpathEq, hoffset⟩ := hroute
  refine ⟨⟨front, gap, lead, last'.cursor.rest, quote, ?_, hoffset, spells_spaces hs₅,
    spells_spaces hs₇, hquote, hpathEq ▸ hfree⟩, hmethodEq ▸ spells_anyWord hs₄, hpathEq ▸ hhead⟩
  rw [hcut, hreceiverEq, hmethodEq, hpathEq]
  simp

end Route

end ServiceGate
