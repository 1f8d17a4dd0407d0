import WireGrammar.Proofs.Relation.Filling

/-!
# Computing with more that is known

An assignment lies below one that differs from it only in cells that have got a value, of the length announced for them
if there is one (`Assignment.Below`). Bits and lengths that are known below are known above (`Below.targetBits?_eq`,
`Below.targetLength?_eq`). So what a relation computes below it computes above as well, as long as its own cell is the
same (`Relation.evaluate_of_below`): a value once found is final, and so is a failure.
-/

namespace WireGrammar

open Assignment

/-- What may stand in the place of a record later: a value for an awaited cell, of the length announced for it. -/
inductive Entry.Becomes : Option Entry → Option Entry → Prop where
  | same (e? : Option Entry) : Becomes e? e?
  | value {announced? : Option Nat} {bits : BitString} (kept : ∀ n ∈ announced?, bits.length = n) :
      Becomes (some (.cell (.awaited announced?))) (some (.cell (.known bits)))

theorem Entry.Becomes.antisymm {e? f? : Option Entry} (h : Becomes e? f?) (h' : Becomes f? e?) : f? = e? := by
  cases h with
  | same => rfl
  | value => cases h'

namespace Assignment

variable {a b c : Assignment} {id t exclude : VarId} {announced? : Option Nat} {bits : BitString}

/-- The upper one knows what the lower one knows, and perhaps the values of more cells. -/
structure Below (a b : Assignment) : Prop where
  entry : ∀ id, Entry.Becomes (a.entry? id) (b.entry? id)
  learned : b.learned = a.learned
  committed : b.committed = a.committed
  scope : b.scope = a.scope

namespace Below

theorem refl (a : Assignment) : Below a a :=
  ⟨fun id => .same (a.entry? id), rfl, rfl, rfl⟩

variable (h : Below a b)

include h

/-- A cell that is not the same has got the value that it was awaiting. -/
theorem cell?_cases (id : VarId) : b.cell? id = a.cell? id ∨ ∃ announced? bits,
    a.cell? id = some (.awaited announced?) ∧ b.cell? id = some (.known bits) ∧ ∀ n ∈ announced?, bits.length = n := by
  have entry := h.entry id
  unfold Assignment.cell?
  generalize a.entry? id = e? at entry
  generalize b.entry? id = f? at entry
  cases entry with
  | same => exact Or.inl rfl
  | value kept => exact Or.inr ⟨_, _, rfl, rfl, kept⟩

/-- A value is final. -/
theorem cell?_known (hc : a.cell? id = some (.known bits)) : b.cell? id = some (.known bits) := by
  rcases h.cell?_cases id with same | ⟨_, _, awaited, -, -⟩
  · rw [same, hc]
  · rw [hc] at awaited
    cases awaited

theorem slotBits?_eq {exclude : Option VarId} (hs : (a.slotBits? exclude id).isSome) :
    b.slotBits? exclude id = a.slotBits? exclude id := by
  rw [Assignment.slotBits?, Assignment.chunkBits?] at hs ⊢
  rw [Assignment.slotBits?, Assignment.chunkBits?]
  rcases h.cell?_cases id with same | ⟨announced?, bits, awaited, known, kept⟩
  · rw [same]
  · rw [awaited] at hs ⊢
    rw [known]
    simp only [Option.bind_eq_bind, Option.bind_some] at hs ⊢
    by_cases own : some id = exclude
    · rw [if_pos own] at hs ⊢
      rw [if_pos own]
      cases announced? with
      | none => cases hs
      | some n =>
        show some (BitString.zeros bits.length) = some (BitString.zeros n)
        rw [kept n rfl]
    · rw [if_neg own] at hs
      cases hs

theorem slotLength?_eq (hs : (a.slotLength? id).isSome) : b.slotLength? id = a.slotLength? id := by
  rw [Assignment.slotLength?] at hs ⊢
  rw [Assignment.slotLength?]
  rcases h.cell?_cases id with same | ⟨announced?, bits, awaited, known, kept⟩
  · rw [same]
  · rw [awaited] at hs ⊢
    rw [known]
    cases announced? with
    | none => cases hs
    | some n =>
      show some bits.length = some n
      rw [kept n rfl]

/-- The bits of a target that are known below. -/
theorem targetBits?_eq (hs : (a.targetBits? t exclude).isSome) : b.targetBits? t exclude = a.targetBits? t exclude := by
  have known : b.known? = a.known? := by
    funext id
    rw [known?, known?, h.learned, h.committed]
  have entry := h.entry t
  unfold Assignment.targetBits? at hs ⊢
  rw [h.scope, known]
  generalize a.entry? t = e? at entry hs
  generalize b.entry? t = f? at entry
  cases entry with
  | value => cases hs
  | same =>
    cases e? with
    | none => rfl
    | some e =>
      cases e with
      | cell _ => rfl
      | content content => exact flatten_mono (fun _ _ hq => h.slotBits?_eq hq) hs

/-- The length of a target that is known below; a value keeps the length announced for it. -/
theorem targetLength?_eq (hs : (a.targetLength? t).isSome) : b.targetLength? t = a.targetLength? t := by
  have known : b.known? = a.known? := by
    funext id
    rw [known?, known?, h.learned, h.committed]
  have entry := h.entry t
  unfold Assignment.targetLength? Assignment.length? at hs ⊢
  rw [h.scope, known]
  generalize a.entry? t = e? at entry hs
  generalize b.entry? t = f? at entry
  cases entry with
  | @value announced? bits kept =>
    cases announced? with
    | none => cases hs
    | some n =>
      show some bits.length = some n
      rw [kept n rfl]
  | same =>
    cases e? with
    | none => rfl
    | some e =>
      cases e with
      | cell _ => rfl
      | content content => exact measure_mono (fun _ _ hq => h.slotLength?_eq hq) hs

end Below

end Assignment

/-- What a relation computes below it computes above, if it has the same cell there. -/
theorem Relation.evaluate_of_below {r : Relation} {a b : Assignment} (h : Below a b) (own : b.cell? r.id = a.cell? r.id)
    (hw : r.evaluate a ≠ .ok .waiting) : r.evaluate b = r.evaluate a := by
  apply evaluate_mono hw
  · intro _ t _ _ hs
    exact h.targetBits?_eq hs
  · intro _ t _ _ hs
    exact h.targetLength?_eq hs
  · intro _ _
    rw [ownLength?, ownLength?, own]

end WireGrammar
