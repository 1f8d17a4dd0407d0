import WireGrammar.Proofs.Binary64.Rounding
import WireGrammar.Proofs.Interpretation.Ahead
import WireGrammar.Proofs.Variable.Checked

/-!
# Paddings that stand before what they fill up

A padding is computed from the lengths of its targets: so many bits, with the last unit cut wherever these end. Read
before its targets it is looked for in whole units only (`Relation.padUnit`), up to what a whole modulus takes, which
is never too little (`Relation.paddingLength_le`). What a padding computes is always plausible, so it is accepted before
its targets exactly if it is accepted behind them and is made of whole units (`paddings_recognised`).
-/

namespace WireGrammar

open Assignment Variable

/-- A greater part of the scaled length is made up by no fewer units. -/
theorem Scale.unapply_mono {scale : Scale} (hpos : scale.factor.isFinitePositive = true) {part part' : Nat}
    (h : part ≤ part') : scale.unapply part ≤ scale.unapply part' :=
  Int.toNat_le_toNat (Binary64.truncate_mono (by decide) (Binary64.div_mono hpos (Binary64.ofNat_mono h)))

namespace Relation

/-- The number of bits in whose multiples a padding is looked for before its targets: the shortest of its type. -/
def padUnit (r : Relation) : Nat :=
  max r.type.bounds.1 1

/-- A padding with the parameters with which it can be built. -/
structure IsPadding (r : Relation) (modulo : Nat) (once : Bool) (scale : Scale) : Prop where
  rule : r.rule = .padding modulo once scale
  factor : scale.factor.isFinitePositive = true
  filled : r.type.bounds.2 ≠ some 0

/-- The parameters with which a padding can be built. -/
theorem parameters_of_mkRelation {r : Relation} {v : Variable} (made : mkRelation r = .ok v) {modulo : Nat}
    {once : Bool} {scale : Scale} (rule : r.rule = .padding modulo once scale) :
    scale.factor.isFinitePositive = true ∧ 0 < modulo ∧ r.type.bounds.2 ≠ some 0 := by
  obtain ⟨-, -, -, checked⟩ := mkRelation_eq_ok made
  rw [checkRule, rule] at checked
  dsimp only at checked
  split at checked
  next => cases checked
  next factor =>
    split at checked
    next => cases checked
    next h => exact ⟨by simpa using factor, Nat.pos_of_ne_zero fun hm => h (.inl hm), fun hb => h (.inr hb)⟩

theorem isPadding_of_mkRelation {r : Relation} {v : Variable} (made : mkRelation r = .ok v) {modulo : Nat} {once : Bool}
    {scale : Scale} (rule : r.rule = .padding modulo once scale) : r.IsPadding modulo once scale := by
  obtain ⟨factor, -, filled⟩ := parameters_of_mkRelation made rule
  exact ⟨rule, factor, filled⟩

/-- A padding is no longer than what a whole modulus takes. -/
theorem paddingLength_le {scale : Scale} (hpos : scale.factor.isFinitePositive = true) (modulo : Nat) (once : Bool)
    (total : Nat) : paddingLength modulo once scale total ≤ scale.unapply modulo := by
  refine Scale.unapply_mono hpos ?_
  split
  · exact Nat.zero_le _
  · exact Nat.sub_le _ _

namespace IsPadding

variable {r : Relation} {modulo : Nat} {once : Bool} {scale : Scale} {a : Assignment} {bits : BitString}

/-- Candidates are the multiples of the unit that fit. -/
theorem mem_candidateLengths (h : r.IsPadding modulo once scale) {remaining n : Nat} :
    n ∈ r.candidateLengths remaining ↔ n ≤ scale.unapply modulo ∧ n ≤ remaining ∧ r.padUnit ∣ n := by
  rw [candidateLengths, h.rule]
  dsimp only
  rw [DataType.mem_multiplesDown (Nat.lt_of_lt_of_le Nat.one_pos (Nat.le_max_right _ _)), Nat.le_min, and_assoc,
    ← Nat.dvd_iff_mod_eq_zero, padUnit]
  exact and_iff_right (Nat.zero_le n)

variable (h : r.IsPadding modulo once scale)

include h

/-- A padding whose unit is fixed fills any number of bits. -/
theorem length_fillWith_unit {unit : BitString} (hu : r.type.constant? = some unit) (n : Nat) :
    (fillWith unit n).length = n := by
  have filled : unit.isEmpty = false := by
    rw [Bool.eq_false_iff, Ne, BitString.isEmpty_iff]
    rintro rfl
    refine h.filled ?_
    rw [(DataType.bounds_of_constant hu).1]
    rfl
  rw [length_fillWith, filled, if_neg Bool.false_ne_true]

/-- A padding computes so many bits: its unit again and again, or any bits if that is not fixed. -/
theorem computes_iff {total : Nat} (ht : r.targetsLength? a (some 0) = some total) :
    r.Computes a bits ↔ bits.length = paddingLength modulo once scale total ∧
      ∀ unit ∈ r.type.constant?, fillWith unit bits.length = bits := by
  have value : r.evaluate a = .ok (r.type.constant?.elim (.length (paddingLength modulo once scale total))
      fun unit => .ready (fillWith unit (paddingLength modulo once scale total))) := by
    rw [evaluate, h.rule]
    dsimp only
    rw [ht]
  rw [Computes, value]
  cases hu : r.type.constant? with
  | none => simp [eq_comm]
  | some unit =>
    have length := h.length_fillWith_unit hu (paddingLength modulo once scale total)
    simp only [Option.elim_some, Except.ok.injEq, Outcome.ready.injEq, reduceCtorEq, false_and, exists_false, or_false,
      Option.mem_def, Option.some.injEq, forall_eq']
    constructor
    · rintro rfl
      rw [length]
      exact ⟨rfl, rfl⟩
    · rintro ⟨hn, hb⟩
      rwa [← hn]

/-- A padding that is computed has a length that its targets determine. -/
theorem exists_total (hc : r.Computes a bits) : ∃ total, r.targetsLength? a (some 0) = some total ∧
    bits.length = paddingLength modulo once scale total ∧
      ∀ unit ∈ r.type.constant?, fillWith unit bits.length = bits := by
  cases ht : r.targetsLength? a (some 0) with
  | none =>
    refine absurd ?_ hc.not_waiting
    rw [evaluate, h.rule]
    dsimp only
    rw [ht]
  | some total => exact ⟨total, rfl, (h.computes_iff ht).mp hc⟩

/-- The length of the targets determines what a padding computes. -/
theorem exists_computes {total : Nat} (ht : r.targetsLength? a (some 0) = some total) :
    ∃ bits, r.Computes a bits ∧ bits.length = paddingLength modulo once scale total := by
  cases hu : r.type.constant? with
  | none =>
    refine ⟨.zeros (paddingLength modulo once scale total), (h.computes_iff ht).mpr ⟨rfl, ?_⟩, rfl⟩
    rw [hu]
    nofun
  | some unit =>
    have length := h.length_fillWith_unit hu (paddingLength modulo once scale total)
    refine ⟨fillWith unit (paddingLength modulo once scale total), (h.computes_iff ht).mpr ⟨length, ?_⟩, length⟩
    rw [hu]
    rintro _ ⟨⟩
    rw [length]

/-- What a padding computes may be read for it before it is computed, if it is made of whole units. -/
theorem recognised (hc : r.Computes a bits) : r.isPlausible bits = true ∧
    ∀ remaining, bits.length ≤ remaining → (bits.length ∈ r.candidateLengths remaining ↔ r.padUnit ∣ bits.length) := by
  obtain ⟨total, -, length, repeats⟩ := h.exists_total hc
  constructor
  · rw [isPlausible, h.rule]
    dsimp only
    rw [Option.all_eq_true]
    exact fun unit hu => beq_iff_eq.mpr (repeats unit hu)
  · intro remaining fits
    rw [h.mem_candidateLengths]
    have most : bits.length ≤ scale.unapply modulo := length ▸ paddingLength_le h.factor modulo once total
    exact ⟨fun hn => hn.2.2, fun hn => ⟨most, fits, hn⟩⟩

end IsPadding

end Relation

/--
Paddings are recognised wherever they stand, if they are made of whole units. A padding that can be built computes as
many bits as its targets ask for. What it computes is plausible, and its length is among the candidates as soon as it
fits, exactly if it is a multiple of the unit; exactly then a padding is read before fields without relations, the
targets among them, where it is read behind them.
-/
theorem paddings_recognised {r : Relation} {v : Variable} (made : mkRelation r = .ok v) {modulo : Nat} {once : Bool}
    {scale : Scale} (rule : r.rule = .padding modulo once scale) :
    (∀ a total, r.targetsLength? a (some 0) = some total →
      ∃ bits, r.Computes a bits ∧ bits.length = Relation.paddingLength modulo once scale total) ∧
    (∀ a bits, r.Computes a bits → r.isPlausible bits = true ∧ ∀ remaining, bits.length ≤ remaining →
      (bits.length ∈ r.candidateLengths remaining ↔ r.padUnit ∣ bits.length)) ∧
    ∀ {init : List Variable} {last : Variable} {a : Assignment} {reading : Reading} {offset : Nat}
      {p : Assignment × Nat}, r.Covers init last → a.PlaceFor r.id init last →
      (∀ q, .relation q ∉ preorderAll (init ++ [last])) → SameBounds (preorderAll (init ++ [last])) →
      (∀ v ∈ init ++ [last], v.Remembers a.known?) →
      p ∈ (reading.interpretAll (init ++ [last]) a offset).toList →
      ∀ {before behind : Reading} {base start base' : Nat} {bits : BitString}, reading.Stands before base →
        bits.matchesAt before.data start = true → start + bits.length = base + offset → reading.Stands behind base' →
        bits.matchesAt behind.data (base' + p.2) = true →
        ((∃ p' ∈ (before.interpretAll (.relation r :: (init ++ [last])) a start).toList,
            p'.1.bits? r.id = some bits ∧ SameBits (init ++ [last]) p.1 p'.1 ∧ p'.2 = base + p.2) ↔
          (∃ p' ∈ (behind.interpretAll (init ++ [last] ++ [.relation r]) a (base' + offset)).toList,
            p'.1.bits? r.id = some bits ∧ SameBits (init ++ [last]) p.1 p'.1 ∧ p'.2 = base' + p.2 + bits.length) ∧
          r.padUnit ∣ bits.length) := by
  have padding := Relation.isPadding_of_mkRelation made rule
  refine ⟨fun a total => padding.exists_computes, fun a bits => padding.recognised, ?_⟩
  intro init last a reading offset p covers place free same remembers hp before behind base start base' bits stands hb
    next stands' hb'
  rw [covers.before_iff place free same remembers hp stands hb next,
    covers.behind_iff place free same remembers hp stands' hb']
  obtain ⟨fits, -⟩ := Reading.bitsAt_of_matchesAt hb
  constructor
  · rintro ⟨listed, -, computed⟩
    exact ⟨computed, ((padding.recognised computed).2 _ fits).mp listed⟩
  · rintro ⟨computed, multiple⟩
    obtain ⟨accepted, listed⟩ := padding.recognised computed
    exact ⟨(listed _ fits).mpr multiple, accepted, computed⟩

/-- A unit of three bytes that is cut after two of them makes two bytes four, but is not looked for. -/
example : Relation.paddingLength 32 false ⟨.ofNat 1, 0⟩ 16 = 16 ∧
    16 ∉ Relation.candidateLengths ⟨.ofRoot 0, "fill", .padding 32 false ⟨.ofNat 1, 0⟩, [.ofRoot 1],
      .raw (.only [0x61, 0x62, 0x63])⟩ 32 := by
  decide +kernel

/-- Two bytes. -/
def twoBytes : Variable :=
  .data (.ofRoot 1) "bytes" (.rawExactly 2) .ephemeral

/-- What makes two bytes a multiple of four, with a unit of one byte. -/
def fourByteFill : Relation :=
  ⟨.ofRoot 0, "fill", .padding 32 false ⟨.ofNat 1, 0⟩, [twoBytes.id], .raw (.only [0x2e])⟩

/-- Two bytes of padding are read before two bytes that they make four. -/
theorem paddings_recognised_fourByteFill :
    mkRelation fourByteFill = .ok (.relation fourByteFill) ∧
      ∃ p' ∈ ((⟨.ofBytes [0x2e, 0x2e, 0x61, 0x62], 5⟩ : Reading).interpretAll [.relation fourByteFill, twoBytes]
          .empty 0).toList, p'.1.bits? fourByteFill.id = some (.ofBytes [0x2e, 0x2e]) ∧ p'.2 = 32 := by
  have made : mkRelation fourByteFill = .ok (.relation fourByteFill) := rfl
  have found : (((⟨.ofBytes [0x61, 0x62], 5⟩ : Reading).interpretAll [twoBytes] .empty 0).toList.any fun p =>
      p.2 == 16 && fourByteFill.targetsLength? p.1 (some 0) == some 16) = true := by
    decide +kernel
  obtain ⟨p, hp, hfound⟩ := List.any_eq_true.mp found
  simp only [Bool.and_eq_true, beq_iff_eq] at hfound
  obtain ⟨hend, total⟩ := hfound
  have computed : fourByteFill.Computes p.1 (.ofBytes [0x2e, 0x2e]) :=
    ((Relation.isPadding_of_mkRelation made rfl).computes_iff total).mpr
      ⟨by decide +kernel, by rintro _ ⟨⟩; decide +kernel⟩
  have covers : fourByteFill.Covers [] twoBytes :=
    ⟨fun t ht => ⟨twoBytes, List.mem_singleton_self _, (List.mem_singleton.mp ht).symm⟩,
      List.mem_singleton_self _, nofun⟩
  have place : Assignment.empty.PlaceFor fourByteFill.id [] twoBytes :=
    ⟨by decide, by decide, by decide, by decide, idle_of_pending_nil rfl _, by simp [Assignment.empty]⟩
  have free : ∀ q, .relation q ∉ preorderAll ([] ++ [twoBytes]) := by simp [twoBytes, preorderAll, preorder]
  have same : SameBounds (preorderAll ([] ++ [twoBytes])) := by simp [SameBounds, twoBytes, preorderAll, preorder]
  have remembers : ∀ v ∈ [] ++ [twoBytes], v.Remembers Assignment.empty.known? :=
    fun v _ => remembers_empty v
  have stands : Reading.Stands ⟨.ofBytes [0x61, 0x62], 5⟩ ⟨.ofBytes [0x61, 0x62, 0x2e, 0x2e], 5⟩ 0 :=
    ⟨rfl, by decide +kernel⟩
  have follows : (BitString.ofBytes [0x2e, 0x2e]).matchesAt (.ofBytes [0x61, 0x62, 0x2e, 0x2e]) (0 + p.2) = true := by
    rw [hend]
    decide +kernel
  have behind := (covers.behind_iff place free same remembers hp stands follows).mpr computed
  have stands' : Reading.Stands ⟨.ofBytes [0x61, 0x62], 5⟩ ⟨.ofBytes [0x2e, 0x2e, 0x61, 0x62], 5⟩ 16 :=
    ⟨rfl, by decide +kernel⟩
  have leads : (BitString.ofBytes [0x2e, 0x2e]).matchesAt (.ofBytes [0x2e, 0x2e, 0x61, 0x62]) 0 = true := by
    decide +kernel
  obtain ⟨-, -, read⟩ := paddings_recognised made rfl
  obtain ⟨p', hp', hbits, -, hstop⟩ :=
    (read covers place free same remembers hp stands' leads rfl stands follows).mpr ⟨behind, by decide⟩
  exact ⟨made, p', hp', hbits, by rw [hstop, hend]⟩

end WireGrammar
