import Mathlib.Order.Bounds.Basic
import SchemaLang.Proofs.Counting
import SchemaLang.Proofs.Nesting

/-!
# Combining spans

The combination of spans of one source is the least span that they all are inside.

* Spans are ordered by `Span.Inside`. To be above a combination is to be above both spans (`Span.combine_le_iff`).
* The order compares offsets only. `Span.Over` says that a span goes from one place to a later one of a set of places,
  of which no two have the same offset; so it is for the positions in a text (`Position.injOn_isIn`). Two such spans are
  the same if the same spans are above them (`Span.Over.eq_of_le_iff`).
* `Span.Hull` says of a span that it goes from the first start to the last stop of some spans. It is the least span
  above them (`Span.Hull.isLUB`), and combining the spans in any order gives it (`Span.hull_iff_eq_foldl`).
* Main result: `Span.combine_least`.
-/

namespace SchemaLang

/-- No two positions in a text have the same offset. -/
theorem Position.injOn_isIn (text : String) : Set.InjOn Position.offset {p | p.IsIn text} := by
  rintro ⟨offset, line, column⟩ hp ⟨_, line', column'⟩ hq rfl
  obtain rfl : line = line' := hp.line_eq.trans hq.line_eq.symm
  obtain rfl : column = column' := hp.column_eq.trans hq.column_eq.symm
  rfl

namespace Span

/-- A span is below the spans of the same source that it is inside. -/
instance : Preorder Span where
  le := Inside
  le_refl _ := ⟨rfl, Nat.le_refl _, Nat.le_refl _⟩
  le_trans _ _ _ hab hbc :=
    ⟨hab.1.trans hbc.1, Nat.le_trans hbc.2.1 hab.2.1, Nat.le_trans hab.2.2 hbc.2.2⟩

/-- A span of a source from one of some places to one that is not in front of it. -/
structure Over (file : Nat) (places : Set Position) (a : Span) : Prop where
  file_eq : a.file = file
  start_mem : a.start ∈ places
  stop_mem : a.stop ∈ places
  start_le_stop : a.start.offset ≤ a.stop.offset

/-- The span of the same source from the first start to the last stop of some spans. -/
structure Hull (spans : Set Span) (s : Span) : Prop where
  file_eq : ∀ a ∈ spans, s.file = a.file
  start_mem : ∃ a ∈ spans, s.start = a.start
  start_le : ∀ a ∈ spans, s.start.offset ≤ a.start.offset
  stop_mem : ∃ a ∈ spans, s.stop = a.stop
  le_stop : ∀ a ∈ spans, a.stop.offset ≤ s.stop.offset

variable {file : Nat} {places : Set Position} {a b c s t : Span} {spans : Set Span} {l : List Span}

/-! ## Two spans -/

/-- The start is that of one of the spans, and no later than that of the other. -/
theorem start_combine (a b : Span) :
    (a.combine b).start = a.start ∧ a.start.offset ≤ b.start.offset ∨
      (a.combine b).start = b.start ∧ b.start.offset ≤ a.start.offset := by
  by_cases h : b.start.offset < a.start.offset
  · exact .inr ⟨if_pos h, Nat.le_of_lt h⟩
  · exact .inl ⟨if_neg h, Nat.not_lt.1 h⟩

/-- The stop is that of one of the spans, and no earlier than that of the other. -/
theorem stop_combine (a b : Span) :
    (a.combine b).stop = a.stop ∧ b.stop.offset ≤ a.stop.offset ∨
      (a.combine b).stop = b.stop ∧ a.stop.offset ≤ b.stop.offset := by
  by_cases h : a.stop.offset < b.stop.offset
  · exact .inr ⟨if_pos h, Nat.le_of_lt h⟩
  · exact .inl ⟨if_neg h, Nat.not_lt.1 h⟩

theorem combine_le_iff (h : a.file = b.file) : a.combine b ≤ c ↔ a ≤ c ∧ b ≤ c := by
  show Inside _ _ ↔ Inside _ _ ∧ Inside _ _
  have hfile : (a.combine b).file = a.file := rfl
  simp only [Inside, hfile, ← h]
  rcases start_combine a b with ⟨hs, hle⟩ | ⟨hs, hle⟩ <;> rcases stop_combine a b with ⟨ht, hle'⟩ | ⟨ht, hle'⟩ <;>
    rw [hs, ht] <;> omega

theorem isLUB_combine (h : a.file = b.file) : IsLUB {a, b} (a.combine b) := by
  refine isLUB_iff_le_iff.2 fun c => ?_
  rw [combine_le_iff h, upperBounds_insert, upperBounds_singleton]
  rfl

theorem combine_self (a : Span) : a.combine a = a := by
  simp [combine]

namespace Over

theorem combine (ha : Over file places a) (hb : Over file places b) : Over file places (a.combine b) := by
  refine ⟨ha.file_eq, ?_, ?_, ?_⟩
  · rcases start_combine a b with ⟨hs, _⟩ | ⟨hs, _⟩ <;> rw [hs]
    · exact ha.start_mem
    · exact hb.start_mem
  · rcases stop_combine a b with ⟨ht, _⟩ | ⟨ht, _⟩ <;> rw [ht]
    · exact ha.stop_mem
    · exact hb.stop_mem
  · have hab := ((combine_le_iff (ha.file_eq.trans hb.file_eq.symm)).1 le_rfl).1
    exact hab.2.1.trans (ha.start_le_stop.trans hab.2.2)

/-- Spans of places that no two have the same offset are the same if the same spans are above them. -/
theorem eq_of_le_iff (h : Set.InjOn Position.offset places) (ha : Over file places a) (hb : Over file places b)
    (hle : ∀ c, a ≤ c ↔ b ≤ c) : a = b := by
  obtain ⟨hfile, hstart, hstop⟩ : a.Inside b := (hle b).2 le_rfl
  obtain ⟨_, hstart', hstop'⟩ : b.Inside a := (hle a).1 le_rfl
  have hs := h ha.start_mem hb.start_mem (Nat.le_antisymm hstart' hstart)
  have ht := h ha.stop_mem hb.stop_mem (Nat.le_antisymm hstop hstop')
  obtain ⟨f, p, q⟩ := a
  obtain ⟨g, p', q'⟩ := b
  obtain rfl : f = g := hfile
  obtain rfl : p = p' := hs
  obtain rfl : q = q' := ht
  rfl

theorem combine_comm (h : Set.InjOn Position.offset places) (ha : Over file places a) (hb : Over file places b) :
    a.combine b = b.combine a := by
  have hab := ha.file_eq.trans hb.file_eq.symm
  refine (ha.combine hb).eq_of_le_iff h (hb.combine ha) fun c => ?_
  rw [combine_le_iff hab, combine_le_iff hab.symm, and_comm]

theorem combine_assoc (h : Set.InjOn Position.offset places) (ha : Over file places a) (hb : Over file places b)
    (hc : Over file places c) : (a.combine b).combine c = a.combine (b.combine c) := by
  have hab := ha.file_eq.trans hb.file_eq.symm
  have hbc := hb.file_eq.trans hc.file_eq.symm
  refine ((ha.combine hb).combine hc).eq_of_le_iff h (ha.combine (hb.combine hc)) fun d => ?_
  have hleft : (a.combine b).combine c ≤ d ↔ a.combine b ≤ d ∧ c ≤ d := combine_le_iff (hab.trans hbc)
  have hright : a.combine (b.combine c) ≤ d ↔ a ≤ d ∧ b.combine c ≤ d := combine_le_iff hab
  rw [hleft, hright, combine_le_iff hab, combine_le_iff hbc, and_assoc]

end Over

/-! ## Lists of spans -/

/-- The hull of a combination and other spans is that of all of them. -/
theorem Hull.of_combine (hab : a.file = b.file) (h : Hull (insert (a.combine b) spans) s) :
    Hull (insert a (insert b spans)) s where
  file_eq := by
    obtain ⟨hfile, hrest⟩ := Set.forall_mem_insert.1 h.file_eq
    exact Set.forall_mem_insert.2 ⟨hfile, Set.forall_mem_insert.2 ⟨hfile.trans hab, hrest⟩⟩
  start_mem := by
    obtain ⟨x, rfl | hx, hs⟩ := h.start_mem
    · rcases start_combine a b with ⟨he, _⟩ | ⟨he, _⟩
      · exact ⟨a, by simp, hs.trans he⟩
      · exact ⟨b, by simp, hs.trans he⟩
    · exact ⟨x, by simp [hx], hs⟩
  start_le := by
    obtain ⟨hle, hrest⟩ := Set.forall_mem_insert.1 h.start_le
    refine Set.forall_mem_insert.2 ⟨?_, Set.forall_mem_insert.2 ⟨?_, hrest⟩⟩ <;>
      rcases start_combine a b with ⟨he, _⟩ | ⟨he, _⟩ <;> rw [he] at hle <;> omega
  stop_mem := by
    obtain ⟨x, rfl | hx, ht⟩ := h.stop_mem
    · rcases stop_combine a b with ⟨he, _⟩ | ⟨he, _⟩
      · exact ⟨a, by simp, ht.trans he⟩
      · exact ⟨b, by simp, ht.trans he⟩
    · exact ⟨x, by simp [hx], ht⟩
  le_stop := by
    obtain ⟨hle, hrest⟩ := Set.forall_mem_insert.1 h.le_stop
    refine Set.forall_mem_insert.2 ⟨?_, Set.forall_mem_insert.2 ⟨?_, hrest⟩⟩ <;>
      rcases stop_combine a b with ⟨he, _⟩ | ⟨he, _⟩ <;> rw [he] at hle <;> omega

theorem setOf_mem_cons (a : Span) (l : List Span) : {x | x ∈ a :: l} = insert a {x | x ∈ l} := by
  ext x
  simp

/-- Combining the spans of a source one after the other gives their hull. -/
theorem hull_foldl (h : ∀ x ∈ l, a.file = x.file) : Hull {x | x ∈ a :: l} (l.foldl combine a) := by
  induction l generalizing a with
  | nil => exact ⟨by simp, ⟨a, by simp⟩, by simp, ⟨a, by simp⟩, by simp⟩
  | cons b l ih =>
    obtain ⟨hb, hl⟩ := List.forall_mem_cons.1 h
    have hfold : Hull {x | x ∈ a.combine b :: l} ((b :: l).foldl combine a) := ih hl
    rw [setOf_mem_cons] at hfold
    rw [setOf_mem_cons, setOf_mem_cons]
    exact hfold.of_combine hb

/-- The hull of spans is the least span above all of them. -/
theorem Hull.isLUB (h : Hull spans s) : IsLUB spans s := by
  refine ⟨fun x hx => ⟨(h.file_eq x hx).symm, h.start_le x hx, h.le_stop x hx⟩, fun c hc => ?_⟩
  obtain ⟨a, ha, hs⟩ := h.start_mem
  obtain ⟨b, hb, ht⟩ := h.stop_mem
  have hac : a.Inside c := hc ha
  have hbc : b.Inside c := hc hb
  refine ⟨(h.file_eq a ha).trans hac.1, ?_, ?_⟩
  · rw [hs]
    exact hac.2.1
  · rw [ht]
    exact hbc.2.2

theorem Hull.over (hspans : ∀ x ∈ spans, Over file places x) (h : Hull spans s) : Over file places s := by
  obtain ⟨a, ha, hs⟩ := h.start_mem
  obtain ⟨b, hb, ht⟩ := h.stop_mem
  refine ⟨(h.file_eq a ha).trans (hspans a ha).file_eq, hs ▸ (hspans a ha).start_mem, ht ▸ (hspans b hb).stop_mem, ?_⟩
  exact (h.start_le a ha).trans ((hspans a ha).start_le_stop.trans (h.le_stop a ha))

/-- Spans of places that no two have the same offset have one hull. -/
theorem Hull.unique (h : Set.InjOn Position.offset places) (hspans : ∀ x ∈ spans, Over file places x)
    (hs : Hull spans s) (ht : Hull spans t) : s = t :=
  (hs.over hspans).eq_of_le_iff h (ht.over hspans) fun c => by rw [isLUB_le_iff hs.isLUB, isLUB_le_iff ht.isLUB]

theorem hull_iff_eq_foldl (h : Set.InjOn Position.offset places) (hl : ∀ x ∈ a :: l, Over file places x) :
    Hull {x | x ∈ a :: l} s ↔ s = l.foldl combine a := by
  obtain ⟨ha, htail⟩ := List.forall_mem_cons.1 hl
  have hfold : Hull {x | x ∈ a :: l} (l.foldl combine a) :=
    hull_foldl fun x hx => ha.file_eq.trans (htail x hx).file_eq.symm
  constructor
  · exact fun hs => hs.unique h hl hfold
  · rintro rfl
    exact hfold

/-- Spans of one source between places that no two have the same offset have a combination between such places, which
is the least span of the source that both are inside. So combining is commutative, idempotent and associative, and
combining any spans, of which there is one, one after the other gives their hull, in whatever order and however often
they are taken. -/
theorem combine_least (file : Nat) (places : Set Position) (h : Set.InjOn Position.offset places) :
    (∀ a b, Over file places a → Over file places b → Over file places (a.combine b) ∧
      IsLUB {a, b} (a.combine b) ∧ a.combine b = b.combine a ∧ a.combine a = a) ∧
    (∀ a b c, Over file places a → Over file places b → Over file places c →
      (a.combine b).combine c = a.combine (b.combine c)) ∧
    ∀ a l, (∀ x ∈ a :: l, Over file places x) →
      (∀ s, Hull {x | x ∈ a :: l} s ↔ s = l.foldl combine a) ∧
        ∀ b m, (∀ x, x ∈ b :: m ↔ x ∈ a :: l) → m.foldl combine b = l.foldl combine a := by
  refine ⟨fun a b ha hb => ⟨ha.combine hb, isLUB_combine (ha.file_eq.trans hb.file_eq.symm), ha.combine_comm h hb,
    combine_self a⟩, fun a b c ha hb hc => ha.combine_assoc h hb hc,
    fun a l hl => ⟨fun s => hull_iff_eq_foldl h hl, fun b m hm => ?_⟩⟩
  have hset : {x | x ∈ b :: m} = {x | x ∈ a :: l} := Set.ext hm
  have hfold := (hull_iff_eq_foldl h fun x hx => hl x ((hm x).1 hx)).2 rfl
  rw [hset] at hfold
  exact (hull_iff_eq_foldl h hl).1 hfold

/-- Two spans that overlap over the end of a line, and an empty one inside both. -/
theorem combine_least_overlapping :
    let places : Set Position := {p | p.IsIn "\u00e9\n \u00fc."}
    let a : Span := ⟨2, ⟨2, 1, 3⟩, ⟨6, 2, 4⟩⟩
    let b : Span := ⟨2, ⟨0, 1, 1⟩, ⟨3, 2, 1⟩⟩
    let c : Span := ⟨2, ⟨3, 2, 1⟩, ⟨3, 2, 1⟩⟩
    Set.InjOn Position.offset places ∧ (∀ x ∈ [a, b, c], Over 2 places x) ∧ IsLUB {a, b} (a.combine b) ∧
      (a.combine b).combine c = a.combine (b.combine c) ∧ Hull {x | x ∈ [a, b, c]} ⟨2, ⟨0, 1, 1⟩, ⟨6, 2, 4⟩⟩ ∧
        [b, a, b].foldl combine c = [b, c].foldl combine a := by
  intro places a b c
  have hplaces : Set.InjOn Position.offset places := Position.injOn_isIn _
  have hover : ∀ x ∈ [a, b, c], Over 2 places x := by
    simp only [List.forall_mem_cons, List.not_mem_nil, false_imp_iff, implies_true, and_true]
    refine ⟨⟨rfl, ?_, ?_, by decide⟩, ⟨rfl, ?_, ?_, by decide⟩, ⟨rfl, ?_, ?_, by decide⟩⟩ <;>
      exact ⟨by decide, by decide, by decide⟩
  obtain ⟨hpair, hassoc, hfold⟩ := combine_least 2 places hplaces
  have ha := hover a (by simp)
  have hb := hover b (by simp)
  obtain ⟨hhull, hsame⟩ := hfold a [b, c] hover
  refine ⟨hplaces, hover, (hpair a b ha hb).2.1, hassoc a b c ha hb (hover c (by simp)), (hhull _).2 (by decide),
    hsame c [b, a, b] fun x => ?_⟩
  simp only [List.mem_cons, List.not_mem_nil, or_false]
  tauto

end Span

end SchemaLang
