/-
# Edits that keep balance

A stretch of a text is `Loose` if it starts in code outside of all templates and is closed by
itself. What is cut out or replaced where it is loose, or put in at a loose place, leaves the text
as balanced as it was, if what is written is closed.

The edits that a repair makes in turn are made from the back, each at a place of the text as it was
(`balanced_foldr`); replacing matches from the front comes to the same (`foldr_splice_eq`).

Balance is a fact about the scan of the whole text, and an edit changes the scan from its place on.
So nothing is said here of brackets alone.  A `Closed` stretch leads the scanner from code back to
code with the same regions open and the same brackets, and that is what may be exchanged
(`Loose.balanced_splice`) or put in (`Loose.balanced_insertAt`).

Removing a stretch takes the indentation in front of it and the line ending behind it along, if
nothing else stands on the line.  What is loose from the start of its line on can go either way
(`balanced_removeSpan`).
-/
import ServiceGate.Proofs.ObjectLiteral.Layout
import ServiceGate.Proofs.Scan.Exchange
import ServiceGate.Proofs.Text.Kept
import ServiceGate.Repair.Edit

namespace ServiceGate

open Scan
open Text (Agree Bounds)

variable {α : Type} {p q t u w : Text} {n start stop : Nat}

/-! ## Closed text -/

theorem Solid.closed {top : Bool} (h : Solid top t) : Closed t := by
  intro rest s n hs
  obtain ⟨mode, regions, last⟩ := s
  obtain ⟨rfl, rfl⟩ := hs
  obtain ⟨ms, l', hms, hrow⟩ := h rest last n
  exact ⟨ms, _, hms, ⟨rfl, rfl⟩, fun d => hrow.neutral.trackAll d⟩

theorem isSoft_of_notMem_signs {c : Char} (h : c ∉ CharClass.signs) : isSoft c = true := by
  by_contra hsoft
  exact h (mem_signs_of_not_soft (Bool.not_eq_true _ ▸ hsoft))

theorem solid_of_notMem_signs {top : Bool} (h : ∀ c ∈ w, c ∉ CharClass.signs) : Solid top w :=
  .ofSoft fun c hc => isSoft_of_notMem_signs (h c hc)

theorem closed_of_isSpace (h : ∀ c ∈ w, CharClass.isSpace c = true) : Closed w := by
  have hsolid : Solid true w :=
    solid_of_notMem_signs fun c hc => CharClass.notMem_signs_of_isSpace (h c hc)
  exact hsolid.closed

/-- A text in code goes on in code behind a closed stretch, unless that ends with a slash. -/
theorem Scan.EndsInCode.append (hp : EndsInCode p) (hw : Closed w) (hlast : w.getLast? ≠ some '/') :
    EndsInCode (p ++ w) := by
  obtain ⟨hagrees, hslash⟩ := hp
  obtain ⟨ms, s', hms, hs', -⟩ := hw [] _ 0 hagrees
  have hafter := hms.after_eq
  rw [List.append_nil] at hafter
  refine ⟨?_, ?_⟩
  · rw [(reads_of_after p 0 hagrees.1 hslash w).after_eq, hafter]
    exact hs'
  · rw [List.getLast?_append]
    cases hw' : w.getLast? with
    | none => exact hslash
    | some c => rwa [hw'] at hlast

/-! ## Loose stretches -/

/-- A stretch that starts in code outside of all templates and is closed by itself. -/
structure Loose (t : Text) (start stop : Nat) : Prop where
  bounds : Bounds t start stop
  front : EndsInCode (t.before start)
  closed : isClosed (t.between start stop) = true

instance (t : Text) (start stop : Nat) : Decidable (Loose t start stop) :=
  decidable_of_iff ((start ≤ stop ∧ t.IsBoundary start ∧ t.IsBoundary stop) ∧
      EndsInCode (t.before start) ∧ isClosed (t.between start stop) = true)
    ⟨fun ⟨⟨hle, hstart, hstop⟩, hfront, hclosed⟩ => ⟨⟨hle, hstart, hstop⟩, hfront, hclosed⟩,
      fun h => ⟨⟨h.bounds.le, h.bounds.start, h.bounds.stop⟩, h.front, h.closed⟩⟩

theorem splice_append (p w q u : Text) :
    (p ++ w ++ q).splice (Text.size p) (Text.size p + Text.size w) u = p ++ u ++ q := by
  have hbefore : (p ++ w ++ q).before (Text.size p) = p := by
    rw [List.append_assoc, Text.before_append]
  rw [Text.splice, hbefore, ← Text.size_append, Text.after_append]

theorem Loose.balanced_splice (h : Loose t start stop) (hu : Closed u) :
    balanced (t.splice start stop u) = balanced t := by
  obtain ⟨hbounds, hfront, hclosed⟩ := h
  obtain ⟨p, w, q, rfl, rfl, rfl⟩ := Text.bounds_iff.mp hbounds
  rw [Text.between_append] at hclosed
  rw [List.append_assoc, Text.before_append] at hfront
  rw [splice_append]
  exact (balanced_exchange hfront (closed_of_isClosed hclosed) hu q).symm

theorem Loose.balanced_insertAt (h : Loose t n n) (hu : Closed u) :
    balanced (t.insertAt n u) = balanced t :=
  h.balanced_splice hu

theorem balanced_append (hu : Closed u) (t : Text) : balanced (u ++ t) = balanced t :=
  (balanced_exchange (p := []) ⟨⟨rfl, rfl⟩, by simp⟩ hu .nil t)

/-! ## Edits from the back -/

theorem balanced_foldr {edit : α → Text → Text} (startOf stopOf : α → Nat) : ∀ {l : List α},
    (∀ a ∈ l, ∀ u, Agree (stopOf a) t u →
      balanced (edit a u) = balanced u ∧ Agree (startOf a) u (edit a u)) →
    (∀ a ∈ l, Bounds t (startOf a) (stopOf a)) → l.Pairwise (fun a b => stopOf a ≤ startOf b) →
      balanced (l.foldr edit t) = balanced t
  | [], _, _, _ => rfl
  | a :: l, hedit, hbounds, horder => by
      obtain ⟨ha, hl⟩ := List.forall_mem_cons.mp hedit
      obtain ⟨hb, hbounds⟩ := List.forall_mem_cons.mp hbounds
      obtain ⟨hfirst, horder⟩ := List.pairwise_cons.mp horder
      have hkept := Text.agree_foldr startOf stopOf (fun b hb u h => (hl b hb u h).2) hbounds horder
      rw [List.foldr_cons, (ha _ (hkept _ hb.stop hfirst)).1,
        balanced_foldr startOf stopOf hl hbounds horder]

namespace Repair

/-- Replacing ordered matches one after the other comes to replacing them from the back. -/
theorem foldr_splice_eq (new : Match → Text) : ∀ {ms : List Match} {start : Nat},
    t.IsBoundary start → (∀ m ∈ ms, Bounds t m.start m.stop) → (∀ m ∈ ms, start ≤ m.start) →
      ms.Pairwise (fun m m' => m.stop ≤ m'.start) →
        ms.foldr (fun m u => u.splice m.start m.stop (new m)) t =
          t.before start ++ replaceMatches t new start ms
  | [], start, hstart, _, _, _ => by
      rw [List.foldr_nil, replaceMatches, Text.before_append_after hstart]
  | m :: ms, start, hstart, hbounds, hbehind, horder => by
      obtain ⟨hm, hms⟩ := List.forall_mem_cons.mp hbounds
      obtain ⟨hfirst, horder⟩ := List.pairwise_cons.mp horder
      have hgap : Bounds t start m.start := ⟨hbehind m List.mem_cons_self, hstart, hm.start⟩
      have hcut : ∀ {a b : Nat}, Bounds t a b → t.before b = t.before a ++ t.between a b := by
        intro a b h
        obtain ⟨p, w, q, rfl, rfl, rfl⟩ := Text.bounds_iff.mp h
        rw [Text.between_append, ← Text.size_append, Text.before_append, List.append_assoc,
          Text.before_append]
      rw [List.foldr_cons, foldr_splice_eq new hm.stop hms hfirst horder, replaceMatches, hcut hm]
      have hsplice := splice_append (t.before m.start) (t.between m.start m.stop)
        (replaceMatches t new m.stop ms) (new m)
      rw [Text.size_before hm.start, Text.size_between hm] at hsplice
      rw [hsplice, hcut hgap]
      simp only [List.append_assoc]

/-! ## Removing a stretch -/

theorem exists_two_stretches {a b c : Nat} (h : Bounds t a b) (h' : Bounds t b c) : ∃ p u w q,
    t = p ++ u ++ w ++ q ∧ a = Text.size p ∧ b = Text.size p + Text.size u ∧
      c = Text.size p + Text.size u + Text.size w := by
  obtain ⟨p, u, y, rfl, rfl, rfl⟩ := Text.bounds_iff.mp h
  obtain ⟨x, w, q, hx, hsize, rfl⟩ := Text.bounds_iff.mp h'
  rw [← Text.size_append] at hsize
  obtain ⟨v, rfl, rfl⟩ :=
    Text.exists_middle (hx.trans (List.append_assoc x w q)) (Nat.le_of_eq hsize)
  have hv : v = [] := Text.eq_nil_of_size (by rw [Text.size_append (p ++ u)] at hsize; omega)
  subst hv
  exact ⟨p, u, w, q, by simp, rfl, rfl, by rw [List.append_nil, Text.size_append]⟩

theorem isSpace_of_isIndent {c : Char} (h : Text.isIndent c = true) :
    CharClass.isSpace c = true := by
  rw [Text.isIndent, Bool.or_eq_true, beq_iff_eq, beq_iff_eq] at h
  rcases h with rfl | rfl <;> decide

theorem exists_of_behindLineEnd? {k : Nat} (h : behindLineEnd? (p ++ q) (Text.size p) = some k) :
    ∃ e r, q = e ++ r ∧ k = Text.size p + Text.size e ∧ ∀ c ∈ e, CharClass.isSpace c = true := by
  rw [behindLineEnd?, Text.after_append] at h
  split at h
  · next r => exact ⟨['\r', '\n'], r, rfl, (Option.some.inj h).symm, by decide⟩
  · next r => exact ⟨['\n'], r, rfl, (Option.some.inj h).symm, by decide⟩
  · exact ⟨[], [], rfl, (Option.some.inj h).symm, by decide⟩
  · cases h

theorem balanced_removeSpan (h : Loose t (t.lineStart start) stop) (hstart : Bounds t start stop)
    (hindent : ∀ c ∈ t.between (t.lineStart start) start, CharClass.isSpace c = true) :
    balanced (removeSpan t start stop) = balanced t := by
  obtain ⟨p, b, w, q, ht, hline, hb, hw⟩ :=
    exists_two_stretches (Text.bounds_lineStart hstart.start) hstart
  obtain ⟨hbounds, hp, hclosed⟩ := h
  rw [hline] at hindent hp hclosed
  rw [hb, ht, List.append_assoc (p ++ b), Text.between_append] at hindent
  have hsize : stop = Text.size p + Text.size (b ++ w) := by
    rw [hw, Text.size_append, Nat.add_assoc]
  have hbw : t = p ++ (b ++ w) ++ q := by simp [ht]
  rw [hsize, hbw, Text.between_append] at hclosed
  rw [hbw, List.append_assoc, Text.before_append] at hp
  have hafter : t.after stop = q := by rw [hbw, hsize, ← Text.size_append, Text.after_append]
  obtain ⟨r, hq⟩ : ∃ r, q = q.takeWhile Text.isIndent ++ r :=
    ⟨_, (List.takeWhile_append_dropWhile).symm⟩
  generalize hind : q.takeWhile Text.isIndent = ind at hq
  have hblank : ∀ c ∈ ind, CharClass.isSpace c = true := fun c hc =>
    isSpace_of_isIndent (List.mem_takeWhile_imp (hind ▸ hc))
  have hstop : behindIndent t stop = Text.size (p ++ (b ++ w) ++ ind) := by
    rw [behindIndent, hafter, hind, hsize, ← Text.size_append, ← Text.size_append]
  -- what goes is closed together with the white space around it
  have hcut : ∀ {e r' : Text}, r = e ++ r' → (∀ c ∈ e, CharClass.isSpace c = true) →
      Closed (b ++ w ++ ind ++ e) := fun _ he =>
    ((closed_of_isClosed hclosed).append (closed_of_isSpace hblank)).append (closed_of_isSpace he)
  have hstretch : balanced (t.splice start (behindIndent t stop) []) = balanced t := by
    have hsplice := splice_append (p ++ b) (w ++ ind) r []
    have hall : p ++ b ++ (w ++ ind) ++ r = t := by rw [hbw, hq]; simp
    have hend : Text.size (p ++ b) + Text.size (w ++ ind) = behindIndent t stop := by
      rw [hstop, ← Text.size_append]; simp
    have hexchange := balanced_exchange hp (hcut (e := []) rfl (by simp))
      (closed_of_isSpace hindent) r
    rw [hall, hend, Text.size_append, ← hb] at hsplice
    rw [hsplice, ← hall]
    simpa using hexchange.symm
  unfold removeSpan
  dsimp only
  split_ifs
  · cases hend : behindLineEnd? t (behindIndent t stop) with
    | none => exact hstretch
    | some k =>
        have hall : t = p ++ (b ++ w) ++ ind ++ r := by rw [hbw, hq]; simp
        rw [hstop, hall] at hend
        obtain ⟨e, r', hr, hk, he⟩ := exists_of_behindLineEnd? hend
        have hsplice := splice_append p (b ++ w ++ ind ++ e) r' []
        have hall' : p ++ (b ++ w ++ ind ++ e) ++ r' = t := by rw [hall, hr]; simp
        have hend' : Text.size p + Text.size (b ++ w ++ ind ++ e) = k := by
          rw [hk, ← Text.size_append, ← Text.size_append]; simp
        rw [hall', hend', ← hline] at hsplice
        show balanced (t.splice (t.lineStart start) k []) = _
        rw [hsplice, ← hall']
        exact (balanced_exchange hp (hcut hr he) .nil r').symm
  · exact hstretch

end Repair

end ServiceGate
