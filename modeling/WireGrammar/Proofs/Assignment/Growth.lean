import Mathlib.Data.List.Basic
import WireGrammar.Relation.Evaluate

/-!
# Growth of assignments

Whatever is done to an assignment puts records and values on top of those it has, and only for variables that are
worked on (`Assignment.Grows`); all others read as before (`Grows.entry?_eq`, `Grows.known?_eq`). A comparison of the
relations that wait changes nothing but which of them wait (`verified?_eq_some_iff`).
-/

namespace WireGrammar.Assignment

/-- One assignment extends another by records and values of the given variables. -/
structure Grows (ids : List VarId) (a b : Assignment) : Prop where
  entries : ∃ new, b.entries = new ++ a.entries ∧ ∀ e ∈ new, e.1 ∈ ids
  learned : ∃ new, b.learned = new ++ a.learned ∧ ∀ e ∈ new, e.1 ∈ ids
  committed : b.committed = a.committed
  scope : b.scope = a.scope

section Grows

variable {ids ids' : List VarId} {a b c : Assignment} {id : VarId}

namespace Grows

theorem refl (ids : List VarId) (a : Assignment) : Grows ids a a :=
  ⟨⟨[], rfl, by simp⟩, ⟨[], rfl, by simp⟩, rfl, rfl⟩

theorem trans (h₁ : Grows ids a b) (h₂ : Grows ids b c) : Grows ids a c := by
  obtain ⟨e₁, he₁, hi₁⟩ := h₁.entries
  obtain ⟨e₂, he₂, hi₂⟩ := h₂.entries
  obtain ⟨l₁, hl₁, hj₁⟩ := h₁.learned
  obtain ⟨l₂, hl₂, hj₂⟩ := h₂.learned
  refine ⟨⟨e₂ ++ e₁, by rw [he₂, he₁, List.append_assoc], fun e he => ?_⟩,
    ⟨l₂ ++ l₁, by rw [hl₂, hl₁, List.append_assoc], fun e he => ?_⟩,
    h₂.committed.trans h₁.committed, h₂.scope.trans h₁.scope⟩
  · exact (List.mem_append.mp he).elim (hi₂ e) (hi₁ e)
  · exact (List.mem_append.mp he).elim (hj₂ e) (hj₁ e)

theorem mono (h : Grows ids a b) (hs : ids ⊆ ids') : Grows ids' a b := by
  obtain ⟨e, he, hi⟩ := h.entries
  obtain ⟨l, hl, hj⟩ := h.learned
  exact ⟨⟨e, he, fun x hx => hs (hi x hx)⟩, ⟨l, hl, fun x hx => hs (hj x hx)⟩, h.committed, h.scope⟩

/-- Which relations wait is no part of what grows. -/
theorem of_pending (p : List Relation) (h : Grows ids a b) : Grows ids a { b with pending := p } :=
  ⟨h.entries, h.learned, h.committed, h.scope⟩

theorem record (h : Grows ids a b) (hid : id ∈ ids) (content : Content) : Grows ids a (b.record id content) := by
  obtain ⟨e, he, hi⟩ := h.entries
  refine ⟨⟨(id, .content content) :: e, by rw [Assignment.record, he, List.cons_append], ?_⟩,
    h.learned, h.committed, h.scope⟩
  exact List.forall_mem_cons.mpr ⟨hid, hi⟩

theorem setCell (h : Grows ids a b) (hid : id ∈ ids) (cell : Cell) : Grows ids a (b.setCell id cell) := by
  obtain ⟨e, he, hi⟩ := h.entries
  refine ⟨⟨(id, .cell cell) :: e, by rw [Assignment.setCell, he, List.cons_append], ?_⟩,
    h.learned, h.committed, h.scope⟩
  exact List.forall_mem_cons.mpr ⟨hid, hi⟩

theorem learn (h : Grows ids a b) (hid : id ∈ ids) (value : BitString) : Grows ids a (b.learn id value) := by
  obtain ⟨l, hl, hj⟩ := h.learned
  refine ⟨h.entries, ⟨(id, value) :: l, by rw [Assignment.learn, hl, List.cons_append], ?_⟩,
    h.committed, h.scope⟩
  exact List.forall_mem_cons.mpr ⟨hid, hj⟩

end Grows

theorem lookup_append_of_notMem {β : Type} {new old : List (VarId × β)} (hi : ∀ e ∈ new, e.1 ∈ ids) (h : id ∉ ids) :
    (new ++ old).lookup id = old.lookup id := by
  have none : new.lookup id = none := by
    rw [List.lookup_eq_none_iff]
    intro e he
    rw [bne_iff_ne]
    rintro rfl
    exact h (hi e he)
  rw [List.lookup_append, none, Option.none_or]

namespace Grows

/-- A variable that nothing is done to keeps its record. -/
theorem entry?_eq (h : Grows ids a b) (hid : id ∉ ids) : b.entry? id = a.entry? id := by
  obtain ⟨e, he, hi⟩ := h.entries
  unfold entry?
  rw [he, lookup_append_of_notMem hi hid]

theorem cell?_eq (h : Grows ids a b) (hid : id ∉ ids) : b.cell? id = a.cell? id := by
  rw [cell?, h.entry?_eq hid, cell?]

theorem content?_eq (h : Grows ids a b) (hid : id ∉ ids) : b.content? id = a.content? id := by
  rw [content?, h.entry?_eq hid, content?]

theorem learned_eq (h : Grows ids a b) (hid : id ∉ ids) : b.learned.lookup id = a.learned.lookup id := by
  obtain ⟨l, hl, hj⟩ := h.learned
  rw [hl, lookup_append_of_notMem hj hid]

/-- A variable that nothing is done to has the value that it had. -/
theorem known?_eq (h : Grows ids a b) (hid : id ∉ ids) : b.known? id = a.known? id := by
  rw [known?, h.learned_eq hid, h.committed, known?]

end Grows

end Grows

/-! ## Records -/

section Records

variable {a b : Assignment}

theorem entry?_record (a : Assignment) (id : VarId) (content : Content) (other : VarId) :
    entry? (a.record id content) other = if other = id then some (.content content) else a.entry? other := by
  unfold entry? record
  rw [List.lookup_cons]
  by_cases h : other = id
  · rw [h, BEq.rfl, if_pos rfl]
  · rw [beq_eq_false_iff_ne.mpr h, if_neg h]

theorem entry?_record_self (id : VarId) (content : Content) :
    entry? (a.record id content) id = some (.content content) := by
  rw [entry?_record, if_pos rfl]

theorem entry?_setCell (a : Assignment) (id : VarId) (cell : Cell) (other : VarId) :
    entry? (a.setCell id cell) other = if other = id then some (.cell cell) else a.entry? other := by
  unfold entry? setCell
  rw [List.lookup_cons]
  by_cases h : other = id
  · rw [h, BEq.rfl, if_pos rfl]
  · rw [beq_eq_false_iff_ne.mpr h, if_neg h]

theorem cell?_eq_some_iff {id : VarId} {cell : Cell} : a.cell? id = some cell ↔ a.entry? id = some (.cell cell) := by
  unfold cell?
  cases a.entry? id with
  | none => simp
  | some entry => cases entry <;> simp

theorem cell?_setCell (id : VarId) (cell : Cell) (other : VarId) :
    (a.setCell id cell).cell? other = if other = id then some cell else a.cell? other := by
  rw [cell?, entry?_setCell]
  by_cases h : other = id
  · rw [if_pos h, if_pos h]
  · rw [if_neg h, if_neg h, cell?]

theorem cell?_record_of_ne {id other : VarId} (h : other ≠ id) (content : Content) :
    (a.record id content).cell? other = a.cell? other := by
  rw [cell?, entry?_record, if_neg h, cell?]

theorem known?_learn (a : Assignment) (id : VarId) (value : BitString) (other : VarId) :
    (a.learn id value).known? other = if other = id then some value else a.known? other := by
  unfold known? learn
  rw [List.lookup_cons]
  by_cases he : other = id
  · rw [he, BEq.rfl, if_pos rfl]
    rfl
  · rw [beq_false_of_ne he, if_neg he]

theorem content?_of_record {id : VarId} {c : Content} (h : a.entry? id = some (.content c)) :
    a.content? id = some c := by
  rw [content?, h, Option.map_some]

/-- A relation with a value reads as its own slot. -/
theorem content?_of_cell? {id : VarId} (h : (a.cell? id).isSome) : a.content? id = some (.slot id) := by
  obtain ⟨cell, hc⟩ := Option.isSome_iff_exists.mp h
  rw [content?, cell?_eq_some_iff.mp hc, Option.map_some]

theorem pending_awaitRelation (r : Relation) : (a.awaitRelation r).pending ⊆ a.pending ++ [r] := by
  unfold awaitRelation
  split
  · exact List.subset_append_left _ _
  · exact List.Subset.refl _

theorem entries_awaitRelation (a : Assignment) (r : Relation) : (a.awaitRelation r).entries = a.entries := by
  unfold awaitRelation
  split <;> rfl

/-- A relation that is made to wait does so, and no other. -/
theorem isPending_awaitRelation (a : Assignment) (r : Relation) (id : VarId) :
    (a.awaitRelation r).isPending id = (a.isPending id || r.id == id) := by
  unfold awaitRelation
  split
  next hp =>
    by_cases hid : r.id = id
    · rw [← hid, hp, Bool.true_or]
    · rw [beq_eq_false_iff_ne.mpr hid, Bool.or_false]
  next => simp [isPending]

theorem Grows.awaitRelation {ids : List VarId} (h : Grows ids a b) (r : Relation) :
    Grows ids a (b.awaitRelation r) := by
  unfold Assignment.awaitRelation
  split
  · exact h
  · exact h.of_pending _

theorem cell?_awaitRelation (r : Relation) (id : VarId) : (a.awaitRelation r).cell? id = a.cell? id := by
  unfold awaitRelation
  split <;> rfl

end Records

/-! ## Comparing the relations that wait -/

section Verified

variable {a b : Assignment} {r : Relation}

/-- Whether one of the relations agrees with what was read for it, and goes by this identity. -/
def anyAgrees (a : Assignment) (relations : List Relation) (id : VarId) : Bool :=
  relations.any fun r => r.id == id && r.agrees? a == some true

theorem agrees?_eq_none_iff : r.agrees? a = none ↔ r.evaluate a = .ok .waiting := by
  unfold Relation.agrees?
  dsimp only
  split
  next h => simp [h]
  next h => simp [h]
  next h => simp [h]
  next h => simp [h]

theorem endWait_pending (id : VarId) : (a.endWait id).pending = a.pending.filter (·.id != id) := rfl

/-- No relation compared disagrees, and those that agree, with all that go by their identity, wait no more. -/
theorem verifyEach_eq_iff (relations : List Relation) (a b : Assignment) :
    verifyEach relations a = (true, b) ↔
      (∀ r ∈ relations, r.agrees? a ≠ some false) ∧
        b = { a with pending := a.pending.filter fun r => !a.anyAgrees relations r.id } := by
  induction relations generalizing a with
  | nil => simp [verifyEach, anyAgrees, eq_comm]
  | cons r rest ih =>
    rw [verifyEach]
    split
    next h =>
      rw [ih]
      simp [h, anyAgrees]
    next h =>
      have same : ∀ p : Relation, (!a.anyAgrees rest p.id && p.id != r.id) = !a.anyAgrees (r :: rest) p.id := by
        intro p
        simp only [anyAgrees, List.any_cons, h, bne, Bool.not_or, BEq.rfl, Bool.and_true]
        rw [Bool.and_comm, Bool.beq_comm]
      have waits : (a.endWait r.id).pending.filter (fun p => !(a.endWait r.id).anyAgrees rest p.id) =
          a.pending.filter fun p => !a.anyAgrees (r :: rest) p.id := by
        rw [endWait_pending, List.filter_filter]
        exact List.filter_congr fun p _ => same p
      rw [ih, waits, List.forall_mem_cons, h]
      constructor
      · rintro ⟨hr, hb⟩
        exact ⟨⟨by simp, hr⟩, hb⟩
      · rintro ⟨⟨-, hr⟩, hb⟩
        exact ⟨hr, hb⟩
    next h => simp [h]

/-- A comparison succeeds when no relation disagrees, and nothing changes but that those that agree wait no more. -/
theorem verified?_eq_some_iff :
    a.verified? = some b ↔
      (∀ r ∈ a.pending, r.agrees? a ≠ some false) ∧
        b = { a with pending := a.pending.filter fun r => !a.anyAgrees a.pending r.id } := by
  rw [← verifyEach_eq_iff, verified?, verify]
  cases h : verifyEach a.pending a with
  | mk ok c => cases ok <;> simp

theorem verified?_of_pending_nil (h : a.pending = []) : a.verified? = some a := by
  rw [verified?_eq_some_iff, h]
  refine ⟨by simp, ?_⟩
  rw [List.filter_nil, ← h]

theorem Grows.verified? {ids : List VarId} {c : Assignment} (h : Grows ids a b) (hv : b.verified? = some c) :
    Grows ids a c := by
  obtain ⟨-, rfl⟩ := verified?_eq_some_iff.mp hv
  exact h.of_pending _

end Verified

end WireGrammar.Assignment
