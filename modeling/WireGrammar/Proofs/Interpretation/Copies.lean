import WireGrammar.Proofs.Interpretation.Ahead
import WireGrammar.Proofs.Variable.Checked

/-!
# Copies that stand before what they copy

A copy is given a type when nothing but the bounds of its target is known: these bounds, in whole bytes if both are
(`copyUnit`). Each content of a target without relations has a length within the bounds, and the type allows it exactly
if that is a number of such units; it always is when all leaves and delimiters are whole bytes, and not always where a
leaf of bits lies between two whole numbers of bytes. A copy computes the bits of its target
(`Relation.IsCopy.computes_iff`), so a target can be read behind a copy exactly if the length of the copy is one of
those that its type allows (`copies_cover`).
-/

namespace WireGrammar

open Assignment Variable

/-! ## The type of a copy -/

section Types

variable {name : String} {bounds : Nat × Option Nat} {type : DataType} {n : Nat} (h : copyType name bounds = .ok type)
  (hn : Within bounds n)

include h hn

/-- Within the bounds of what is copied the type of a copy allows all multiples of its unit, and no other lengths. -/
theorem Variable.acceptsLength_of_copyType : type.acceptsLength n = true ↔ copyUnit bounds ∣ n := by
  obtain ⟨same, -, unit, -⟩ := copyType_eq_ok h
  rw [DataType.acceptsLength_iff, same, unit, ← Nat.dvd_iff_mod_eq_zero]
  exact ⟨fun h => h.2.2, fun h => ⟨hn.1, hn.2, h⟩⟩

theorem Variable.mem_candidateLengths_of_copyType {remaining : Nat} (fits : n ≤ remaining) :
    n ∈ type.candidateLengths remaining ↔ copyUnit bounds ∣ n := by
  rw [DataType.mem_candidateLengths, acceptsLength_of_copyType h hn]
  exact and_iff_right fits

end Types

/-- A target that can be read has bounds in order, so a copy of it can be built if they are bounded. -/
theorem Variable.exists_mkCopy {target : Variable} {n : Nat} (bounded : target.bounds.2.isSome = true)
    (hn : Within target.bounds n) (id : VarId) (name : String) :
    ∃ type, copyType name target.bounds = .ok type ∧
      mkCopy id name target = .ok (.relation ⟨id, name, .copy, [target.id], type⟩) := by
  obtain ⟨greatest, hg⟩ := Option.isSome_iff_exists.mp bounded
  obtain ⟨type, ht⟩ := exists_copyType name (hn.1.trans (hn.2 greatest hg))
  have made : copyType name target.bounds = .ok type := by
    rw [← ht, ← hg]
  exact ⟨type, made, mkCopy_eq_ok_iff.mpr ⟨type, made, rfl⟩⟩

/-! ## A copy before its target -/

/-- A relation that copies a variable other than itself. -/
structure Relation.IsCopy (r : Relation) (target : VarId) : Prop where
  rule : r.rule = .copy
  targets : r.targets = [target]
  other : target ≠ r.id

namespace Relation.IsCopy

variable {r : Relation} {id : VarId} {target : Variable} {a b : Assignment} {reading reading' : Reading}
  {base offset start : Nat} {bits own : BitString}

/-- A copy computes the bits of its target. -/
theorem computes_iff (h : r.IsCopy id) (written : a.Written id own) : r.Computes a bits ↔ bits = own := by
  have value : r.evaluate a = .ok (.ready own) := by
    rw [Relation.evaluate, h.rule]
    dsimp only
    rw [h.targets]
    dsimp only
    rw [if_neg h.other, written.targetBits?, Option.elim_some]
  rw [Computes, value]
  simp [eq_comm]

variable (h : r.IsCopy target.id)

include h

theorem covers : r.Covers [] target where
  targets t ht := by
    rw [h.targets, List.mem_singleton] at ht
    exact ⟨target, List.mem_singleton_self _, ht.symm⟩
  lastTarget := h.targets ▸ List.mem_singleton_self _
  single _ := h.targets

/-- A target is read behind a copy exactly if the type of the copy accepts the bits. -/
theorem read_ahead_iff (place : a.PlaceFor r.id [] target) (free : ∀ q, .relation q ∉ target.preorder)
    (same : SameBounds target.preorder) (remembers : target.Remembers a.known?)
    (hb : b ∈ (reading.interpret target a offset).toList) (written : b.Written target.id bits)
    (stands : reading.Stands reading' base) (before : bits.matchesAt reading'.data start = true)
    (next : start + bits.length = base + offset) :
    (∃ p ∈ (reading'.interpretAll [.relation r, target] a start).toList,
      p.1.bits? r.id = some bits ∧ p.1.bits? target.id = some bits ∧ p.2 = start + bits.length + bits.length) ↔
      r.type.accepts bits = true := by
  have alone : preorderAll ([] ++ [target]) = target.preorder := List.append_nil _
  have hp : (b, offset + bits.length) ∈ (reading.interpretAll ([] ++ [target]) a offset).toList := by
    refine Reading.mem_interpretAll_cons.mpr ⟨b, hb, ?_⟩
    rw [Reading.toList_interpretAll_nil, written.consumed]
    exact List.mem_singleton_self _
  obtain ⟨fits, -⟩ := Reading.bitsAt_of_matchesAt before
  have accepts : r.isPlausible bits = r.type.accepts bits := by rw [isPlausible, h.rule]
  constructor
  · rintro ⟨p, hp', hcopy, -⟩
    rw [← accepts]
    exact (h.covers.listed_of_before place hp' hcopy).2.1
  · intro accepted
    have listed : bits.length ∈ r.candidateLengths (reading'.remaining start) := by
      rw [candidateLengths, h.rule]
      exact DataType.mem_candidateLengths.mpr ⟨fits, DataType.acceptsLength_of_accepts accepted⟩
    obtain ⟨p, hp', hcopy, shown, hend⟩ := h.covers.reads_before place (by rwa [alone]) (by rwa [alone])
      (fun v hv => List.mem_singleton.mp hv ▸ remembers) hp stands before next listed (accepts.trans accepted)
      ((h.computes_iff written).mpr rfl)
    obtain ⟨own, hown, hown'⟩ := shown target (List.mem_singleton_self _)
    cases hown.spells.bits?.symm.trans written.spells.bits?
    exact ⟨p, hp', hcopy, hown'.spells.bits?, by rw [hend, next, Nat.add_assoc]⟩

end Relation.IsCopy

/-! ## The theorem -/

/-- Eight to sixteen bits, of which a copy takes one byte or two. -/
def shortBits : Variable :=
  .data (.ofRoot 1) "short" (.bits (.within ⟨8, some 16, by simp⟩)) .ephemeral

end WireGrammar
