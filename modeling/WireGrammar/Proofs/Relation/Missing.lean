import WireGrammar.Proofs.Interpretation.Waiting

/-!
# What a relation that waits lacks

A relation that waits has not got the length or the bits of a target, or its own length (`Relation.wants_of_waiting`).
In particular it does not wait once all its targets have bits (`Relation.evaluate_ne_waiting`), and it does as long as
one of them is neither recorded nor known from memory (`Relation.evaluate_of_misses`).
-/

namespace WireGrammar

open Assignment

theorem mapM_eq_none {α β : Type} {f : α → Option β} {xs : List α} (h : xs.mapM f = none) : ∃ x ∈ xs, f x = none := by
  by_contra hn
  have all : ∀ x ∈ xs, (f x).isSome := fun x hx =>
    Option.isSome_iff_ne_none.mpr fun he => hn ⟨x, hx, he⟩
  have some := isSome_mapM.mpr all
  rw [h] at some
  cases some

namespace Relation

variable {r : Relation} {a : Assignment}

/-- The target of a relation whose length is missing: one without a length, or the relation itself. -/
theorem exists_of_targetsLength? {own? : Option Nat} (h : r.targetsLength? a own? = none) :
    ∃ t ∈ r.targets, (t = r.id ∧ own? = none) ∨ (t ≠ r.id ∧ a.targetLength? t = none) := by
  obtain ⟨t, ht, hn⟩ := mapM_eq_none (Option.map_eq_none_iff.mp h)
  split at hn
  next he => exact ⟨t, ht, Or.inl ⟨he, hn⟩⟩
  next hne => exact ⟨t, ht, Or.inr ⟨hne, hn⟩⟩

/-- The same of bits. -/
theorem exists_of_targetsBits? (h : r.targetsBits? a = none) :
    ∃ t ∈ r.targets, (t = r.id ∧ r.ownLength? a = none) ∨ (t ≠ r.id ∧ a.targetBits? t r.id = none) := by
  obtain ⟨t, ht, hn⟩ := mapM_eq_none (Option.map_eq_none_iff.mp h)
  split at hn
  next he => exact ⟨t, ht, Or.inl ⟨he, Option.map_eq_none_iff.mp hn⟩⟩
  next hne => exact ⟨t, ht, Or.inr ⟨hne, hn⟩⟩

/-- What a relation that waits has not got yet: its own length, or the length or the bits of another target. -/
inductive Wants (r : Relation) (a : Assignment) : Prop where
  | own (hs : r.ReadsItself) (h : r.ownLength? a = none)
  | length {t : VarId} (ht : t ∈ r.targets) (hne : t ≠ r.id) (hl : r.rule.readsLengthsOnly = true)
    (h : a.targetLength? t = none)
  | bits {t : VarId} (ht : t ∈ r.targets) (hne : t ≠ r.id) (hl : r.rule.readsLengthsOnly = false)
    (h : a.targetBits? t r.id = none)

/-- A relation that waits wants something. -/
theorem wants_of_waiting (h : r.evaluate a = .ok .waiting) : r.Wants a := by
  have missing (hl : r.rule.readsLengthsOnly = false) (hc : r.rule ≠ .copy) (h : r.targetsBits? a = none) :
      r.Wants a := by
    obtain ⟨t, ht, ⟨rfl, hn⟩ | ⟨hne, hn⟩⟩ := exists_of_targetsBits? h
    · refine .own ⟨ht, ?_⟩ hn
      cases hr : r.rule with
      | size | padding => rw [hr] at hl; cases hl
      | copy => exact absurd hr hc
      | internetChecksum | crc32 | keyedDigest => trivial
    · exact .bits ht hne hl hn
  unfold evaluate at h
  split at h
  next scale hr =>
    split at h
    next => exact absurd h (writeInt_ne_waiting _)
    next hn =>
      obtain ⟨t, ht, ⟨rfl, hn⟩ | ⟨hne, hn⟩⟩ := exists_of_targetsLength? hn
      · exact .own ⟨ht, by rw [hr]; trivial⟩ hn
      · exact .length ht hne (by rw [hr]; rfl) hn
  next hr =>
    split at h
    next t ht =>
      split at h
      next => cases h
      next hne =>
        refine .bits (ht ▸ List.mem_singleton_self t) hne (by rw [hr]; rfl) ?_
        cases hb : a.targetBits? t r.id with
        | none => rfl
        | some bits =>
          rw [hb] at h
          cases h
    next => cases h
  next hr =>
    split at h
    next => exact absurd h (writeInt_ne_waiting _)
    next hn => exact missing (by rw [hr]; rfl) (by rw [hr]; nofun) hn
  next hr =>
    split at h
    next => exact absurd h (writeInt_ne_waiting _)
    next hn => exact missing (by rw [hr]; rfl) (by rw [hr]; nofun) hn
  next algorithm key hr =>
    split at h
    next => cases h
    next hn => exact missing (by rw [hr]; rfl) (by rw [hr]; nofun) hn
  next modulo once scale hr =>
    split at h
    next =>
      cases hc : r.type.constant? with
      | none =>
        rw [hc] at h
        cases h
      | some unit =>
        rw [hc] at h
        cases h
    next hn =>
      obtain ⟨t, ht, ⟨-, hn⟩ | ⟨hne, hn⟩⟩ := exists_of_targetsLength? hn
      · cases hn
      · exact .length ht hne (by rw [hr]; rfl) hn

end Relation

/-! ## Targets that are missing or known -/

section Missing

variable {a : Assignment} {id : VarId} (h : a.misses id = true)

include h

theorem Assignment.targetBits?_of_misses (exclude : VarId) : a.targetBits? id exclude = none := by
  obtain ⟨he, hs⟩ := Bool.and_eq_true_iff.mp h
  rw [targetBits?, Option.isNone_iff_eq_none.mp he]
  dsimp only
  split
  · rfl
  next outside => exact Option.isNone_iff_eq_none.mp ((Bool.or_eq_true_iff.mp hs).resolve_left outside)

theorem Assignment.targetLength?_of_misses : a.targetLength? id = none := by
  obtain ⟨he, hs⟩ := Bool.and_eq_true_iff.mp h
  rw [targetLength?, Option.isNone_iff_eq_none.mp he]
  dsimp only
  split
  · rfl
  next outside =>
    rw [Option.isNone_iff_eq_none.mp ((Bool.or_eq_true_iff.mp hs).resolve_left outside), Option.map_none]

/-- A relation waits while one of its targets is missing. -/
theorem Relation.evaluate_of_misses {r : Relation} (ht : id ∈ r.targets) (other : id ≠ r.id)
    (single : r.rule = .copy → r.targets = [id]) : r.evaluate a = .ok .waiting := by
  have none {α : Type} {f : VarId → Option α} (hf : f id = none) : r.targets.mapM f = none := by
    rw [← Option.not_isSome_iff_eq_none, isSome_mapM]
    intro all
    have some := all id ht
    rw [hf] at some
    cases some
  have bits : r.targetsBits? a = .none := by
    rw [targetsBits?, none (by rw [if_neg other, targetBits?_of_misses h])]
    rfl
  have lengths (own? : Option Nat) : r.targetsLength? a own? = .none := by
    rw [targetsLength?, none (by rw [if_neg other, targetLength?_of_misses h])]
    rfl
  unfold evaluate
  split
  next => rw [lengths]
  next hr =>
    rw [single hr]
    dsimp only
    rw [if_neg other, targetBits?_of_misses h, Option.elim_none]
  next => rw [bits]
  next => rw [bits]
  next => rw [bits]
  next => rw [lengths]

end Missing

/-- A relation does not wait when all its targets are others and have bits. -/
theorem Relation.evaluate_ne_waiting {r : Relation} {a : Assignment} (own : r.id ∉ r.targets)
    (bits : ∀ t ∈ r.targets, (a.targetBits? t r.id).isSome) (lengths : ∀ t ∈ r.targets, (a.targetLength? t).isSome) :
    r.evaluate a ≠ .ok .waiting := by
  intro hw
  cases wants_of_waiting hw with
  | own hs h => exact own hs.1
  | length ht hne hl h =>
    have some := lengths _ ht
    rw [h] at some
    cases some
  | bits ht hne hl h =>
    have some := bits _ ht
    rw [h] at some
    cases some

end WireGrammar
