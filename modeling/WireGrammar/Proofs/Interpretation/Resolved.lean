import WireGrammar.Proofs.Interpretation.Trace

/-!
# Traces of contents

The content of a generated field has values of relations in some places, and slots in others. Together with values for
these slots it is a trace (`Atom.Resolves.traced`), which says of each place what stands there, so the places of one
relation can be filled with zeros (`Trace.blank`).
-/

namespace WireGrammar

/-- The mark with zeros for the value of a relation. -/
def Mark.blank (id : VarId) : Mark → Mark
  | bit b => bit b
  | value other bits => value other (if other = id then .zeros bits.length else bits)

namespace Trace

/-- The bits of a trace. -/
def bits (t : Trace) : BitString :=
  .ofList t.spelled

/-- The trace with zeros in all places of a relation. -/
def blank (id : VarId) (t : Trace) : Trace :=
  t.map (Mark.blank id)

@[simp] theorem bits_ofBits (b : BitString) : (ofBits b).bits = b := by
  rw [bits, spelled_ofBits, BitString.ofList_toList]

theorem bits_cons (m : Mark) (t : Trace) : bits (m :: t) = .ofList m.spelled ++ t.bits :=
  BitString.toList_injective (by simp [bits, spelled])

theorem bits_value_cons (id : VarId) (b : BitString) (t : Trace) : bits (.value id b :: t) = b ++ t.bits := by
  rw [bits_cons, Mark.spelled, BitString.ofList_toList]

/-- A trace without values of a relation has no places of it to fill. -/
theorem blank_of_notMem {id : VarId} {t : Trace} (h : ∀ b, .value id b ∉ t) : t.blank id = t := by
  refine (List.map_congr_left fun m hm => ?_).trans (List.map_id t)
  cases m with
  | bit b => rfl
  | value other bits =>
    have apart : other ≠ id := by
      rintro rfl
      exact h bits hm
    rw [Mark.blank, if_neg apart]
    rfl

/-- A trace is known from its places and the values in them. -/
theorem eq_of_atoms {value : VarId → BitString} {t u : Trace} (h : t.atoms = u.atoms)
    (ht : ∀ id b, .value id b ∈ t → b = value id) (hu : ∀ id b, .value id b ∈ u → b = value id) : t = u := by
  induction t generalizing u with
  | nil => exact (List.map_eq_nil_iff.mp h.symm).symm
  | cons m t ih =>
    cases u with
    | nil => cases h
    | cons n u =>
      obtain ⟨hm, h⟩ := List.cons.inj h
      have rest : t = u := ih h (fun id b hb => ht id b (List.mem_cons_of_mem _ hb))
        fun id b hb => hu id b (List.mem_cons_of_mem _ hb)
      cases m with
      | bit b =>
        cases n with
        | bit c => rw [rest, Atom.bit.inj hm]
        | value other c => cases hm
      | value id b =>
        cases n with
        | bit c => cases hm
        | value other c =>
          obtain rfl : id = other := Atom.slot.inj hm
          rw [rest, ht id b List.mem_cons_self, hu id c List.mem_cons_self]

/-- A trace of a content: its places are those of `xs`, and those that are slots in `ys` have the values `σ`. -/
structure Resolved (V : VarId → BitString → Prop) (σ : VarId → BitString) (xs ys : List Atom) (t : Trace) : Prop where
  atoms : t.atoms = xs
  bits : t.bits = Atom.fill σ ys
  value : ∀ id b, .value id b ∈ t → V id b ∨ .slot id ∈ ys ∧ b = σ id
  slot : ∀ id, .slot id ∈ ys → .value id (σ id) ∈ t
  /-- Where all places of a relation are slots, zeros may stand for its value. -/
  blank : ∀ id, (.slot id ∈ xs → ∀ b, ¬ V id b) →
    (t.blank id).bits = Atom.fill (fun q => if q = id then .zeros (σ q).length else σ q) ys

end Trace

open Trace

/-- The bits of a trace are those of its places under the values in it. -/
theorem Atom.fill_atoms {value : VarId → BitString} {t : Trace} (h : ∀ id b, .value id b ∈ t → b = value id) :
    Atom.fill value t.atoms = t.bits := by
  induction t with
  | nil => rfl
  | cons m t ih =>
    have rest := ih fun id b hb => h id b (List.mem_cons_of_mem _ hb)
    rw [Trace.atoms, List.map_cons, fill_cons, bits_cons]
    refine congrArg₂ _ ?_ rest
    cases m with
    | bit b => rfl
    | value id b => rw [h id b List.mem_cons_self, Mark.atom, fill_slot, Mark.spelled, BitString.ofList_toList]

/-- Values of other bits, but of the same lengths, leave the length of a trace as it is. -/
theorem Atom.length_fill_atoms {value : VarId → BitString} {t : Trace}
    (h : ∀ id b, .value id b ∈ t → (value id).length = b.length) :
    (Atom.fill value t.atoms).length = t.bits.length := by
  induction t with
  | nil => rfl
  | cons m t ih =>
    have rest := ih fun id b hb => h id b (List.mem_cons_of_mem _ hb)
    rw [Trace.atoms, List.map_cons, fill_cons, bits_cons, BitString.length_append, BitString.length_append]
    refine congrArg₂ _ ?_ rest
    cases m with
    | bit b => rfl
    | value id b => rw [Mark.atom, fill_slot, Mark.spelled, BitString.ofList_toList, h id b List.mem_cons_self]

/-- With values for its slots, a content is a trace. -/
theorem Atom.Resolves.traced {V : VarId → BitString → Prop} {xs ys : List Atom} (h : Atom.Resolves V xs ys)
    (σ : VarId → BitString) : ∃ t, Resolved V σ xs ys t := by
  induction h with
  | nil => exact ⟨[], rfl, rfl, fun id b hm => (nomatch hm), fun id hm => (nomatch hm), fun id _ => rfl⟩
  | @keep x xs ys h ih =>
    obtain ⟨t, ht⟩ := ih
    have later {id : VarId} (hv : .slot id ∈ x :: xs → ∀ b, ¬ V id b) := ht.blank id fun hm =>
      hv (List.mem_cons_of_mem _ hm)
    cases x with
    | bit b =>
      refine ⟨.bit b :: t, congrArg (List.cons (Atom.bit b)) ht.atoms, ?_, fun id bits hm => ?_, fun id hm => ?_,
        fun id hv => ?_⟩
      · rw [bits_cons, ht.bits, fill_cons]
        rfl
      · exact (ht.value id bits ((List.mem_cons.mp hm).resolve_left nofun)).imp_right fun ⟨hs, he⟩ =>
          ⟨List.mem_cons_of_mem _ hs, he⟩
      · exact List.mem_cons_of_mem _ (ht.slot id ((List.mem_cons.mp hm).resolve_left nofun))
      · rw [Trace.blank, List.map_cons, bits_cons, fill_cons]
        exact congrArg _ (later hv)
    | slot q =>
      refine ⟨.value q (σ q) :: t, congrArg (List.cons (Atom.slot q)) ht.atoms, ?_, fun id bits hm => ?_,
        fun id hm => ?_, fun id hv => ?_⟩
      · rw [bits_value_cons, ht.bits, fill_slot_cons]
      · rcases List.mem_cons.mp hm with he | hm
        · cases he
          exact Or.inr ⟨List.mem_cons_self, rfl⟩
        · exact (ht.value id bits hm).imp_right fun ⟨hs, he⟩ => ⟨List.mem_cons_of_mem _ hs, he⟩
      · rcases List.mem_cons.mp hm with he | hm
        · cases he
          exact List.mem_cons_self
        · exact List.mem_cons_of_mem _ (ht.slot id hm)
      · rw [Trace.blank, List.map_cons, Mark.blank, bits_value_cons, fill_slot_cons]
        exact congrArg _ (later hv)
  | @fill q b xs ys hvalue h ih =>
    obtain ⟨t, ht⟩ := ih
    refine ⟨.value q b :: t, congrArg (List.cons (Atom.slot q)) ht.atoms, ?_, fun id bits hm => ?_, fun id hm => ?_,
      fun id hv => ?_⟩
    · rw [bits_value_cons, ht.bits, fill_append, fill_ofBits]
    · rcases List.mem_cons.mp hm with he | hm
      · cases he
        exact Or.inl hvalue
      · exact (ht.value id bits hm).imp_right fun ⟨hs, he⟩ => ⟨List.mem_append_right _ hs, he⟩
    · exact List.mem_cons_of_mem _ (ht.slot id ((List.mem_append.mp hm).resolve_left slot_notMem_ofBits))
    · -- a place that has got its value is none of the relation
      have apart : q ≠ id := by
        rintro rfl
        exact hv List.mem_cons_self b hvalue
      rw [Trace.blank, List.map_cons, Mark.blank, if_neg apart, bits_value_cons, fill_append, fill_ofBits]
      exact congrArg _ (ht.blank id fun hm => hv (List.mem_cons_of_mem _ hm))

end WireGrammar
