import WireGrammar.Proofs.Message.Deferred
import WireGrammar.Proofs.Relation.Lengths

/-!
# Interpretations satisfy their relations

In an interpretation of a message every relation that was read holds what it computes from the whole of it
(`interpretations_satisfied`). While fields are read, a relation waits or holds what it computes (`Justified`); each
step keeps this so (`Reached.justified_step`), since a relation that can be computed shows nothing of what is still to
come, and at the end none is left to wait.
-/

namespace WireGrammar

open Assignment Variable Grammar

/-- Whether the values of a relation are numbers of lengths. -/
def Rule.isSize : Rule → Bool
  | size _ => true
  | _ => false

def DataType.isInteger : DataType → Bool
  | integer _ => true
  | _ => false

theorem DataType.exists_of_isInteger {type : DataType} (h : type.isInteger) : ∃ i, type = .integer i := by
  cases type with
  | integer i => exact ⟨i, rfl⟩
  | _ => cases h

/-- A relation that is recorded waits, or holds what it computes. -/
def Justified (s : Symbol) (a : Assignment) : Prop :=
  ∀ r, .relation r ∈ s.allVariables → ∀ bits, a.cell? r.id = some (.known bits) → r ∈ a.pending ∨ r.Computes a bits

theorem Assignment.ReadStep.pending_subset {v : Variable} {a b : Assignment} (h : ReadStep v a b) :
    a.pending ⊆ b.pending := by
  cases h with
  | record hv hl hs => rcases hl with rfl | ⟨value, rfl⟩ <;> exact List.Subset.refl _
  | value h => exact List.Subset.refl _
  | wait h =>
    unfold awaitRelation
    split
    · exact List.Subset.refl _
    · exact List.subset_append_left _ _

section Steps

variable {fields : Fields} {s : Symbol} {memory : Memory} {a b x y : Assignment} {before after : List Field} {f : Field}
  (h : MadeOf fields s) (ho : InOrder fields) (hs : s.fields = before ++ f :: after)
  (fixed : ∀ r, .relation r ∈ s.allVariables → r.ReadsItself → r.IsFixed)

include h ho hs fixed

/-- With each step of a field, relations go on to wait or to hold what they compute. -/
theorem Reached.justified_step (ha : Reached s memory before a) (hx : ReadSteps (preorderAll f.domain.children) a x)
    (hj : Justified s x) {v : Variable} (hv : v ∈ f.domain.preorder) (step : ReadStep v x y) : Justified s y := by
  have unique : ∀ {v w}, v ∈ s.allVariables → w ∈ s.allVariables → v.id = w.id → v = w :=
    fun hv hw he => h.eq_of_id ho hv hw he
  have mem := (tidy_between h ho hs ha.toBetween).mem
  have below : preorderAll f.domain.children ⊆ s.allVariables := List.Subset.trans (children_subset_preorder _) mem
  have closed := hx.closed unique below ha.closed
  have grows : Grows (idsOf f.domain.children) a x := by
    rw [← map_id_preorderAll]
    exact hx.grows
  have own : [v.id] ⊆ f.domain.ids := List.cons_subset.mpr ⟨List.mem_map_of_mem hv, List.nil_subset _⟩
  intro r hr bits hc
  by_cases hid : r.id = v.id
  · obtain rfl := unique hr (mem hv) hid
    have hid : r.id ∈ f.domain.ids := List.mem_map_of_mem (f := Variable.id) hv
    -- a relation that reads itself is the field, and is recorded for the first time
    have fresh (hm : r.ReadsItself) : x.cell? r.id = none := by
      have root := h.target_root ho hr hm.1
      have field : r.id = f.id := by
        by_contra hne
        exact (h.made ho (mem_fields_between hs)).placed.branch_ne_nil hid hne root
      rw [cell?, field, grows.entry?_eq (notMem_below h ho hs), ha.unread h ho hs]
    cases step with
    | record hn hl hs => cases hn
    | @value _ _ read hcomputes =>
      rw [cell?_setCell, if_pos rfl] at hc
      cases hc
      have length (hm : r.ReadsItself) : r.type.fixedLength? = some bits.length :=
        (fixed r hr hm).length_eq hcomputes
      have apart := ha.apart_of_ready h ho hs grows closed hr (fun hm => by
        rw [Relation.ownLength?, fresh hm, length hm]
        rfl) hcomputes.not_waiting
      have added : Grows [r.id] x (x.setCell r.id (.known bits)) :=
        (Grows.refl _ x).setCell (List.mem_singleton_self _) _
      refine Or.inr (hcomputes.congr (Relation.evaluate_congr (fun t ht hne => ?_) (fun t ht hne => ?_) fun hm => ?_))
      · exact added.targetBits?_eq ((apart t ht hne).mono own) _
      · exact added.targetLength?_eq_of_apart ((apart t ht hne).mono own)
      · rw [Relation.ownLength?, cell?_setCell, if_pos rfl, Relation.ownLength?, fresh hm, length hm]
        rfl
    | wait hw =>
      left
      unfold awaitRelation
      split
      next hp =>
        obtain ⟨q, hq, he⟩ := isPending_iff.mp hp
        have hq : q ∈ x.pending := hq
        have hqm : .relation q ∈ s.allVariables := by
          rcases (hx.pending unique below ha.closed (fun q hq => (ha.waits q hq).2) q hq).1 with hq | hq
          · exact (ha.waits q hq).1
          · exact below hq
        cases unique hqm hr he
        exact hq
      next => exact List.mem_append_right _ (List.mem_singleton_self _)
  · have apart_own : r.id ∉ [v.id] := fun hm => hid (List.mem_singleton.mp hm)
    rw [step.grows.cell?_eq apart_own] at hc
    refine (hj r hr bits hc).imp (fun hp => step.pending_subset hp) fun hcomputes => ?_
    have apart := ha.apart_of_ready h ho hs grows closed hr (fun _ => by
      rw [Relation.ownLength?, hc]
      rfl) hcomputes.not_waiting
    exact hcomputes.congr (step.grows.evaluate_eq (fun t ht hne => (apart t ht hne).mono own) fun _ => apart_own)

/-- When a field is read, relations wait or hold what they compute. -/
theorem Reached.justified_next {reading : Reading} {offset : Nat} (ha : Reached s memory before a) (hj : Justified s a)
    (hb : b ∈ reading.recordsWith some f.domain a offset) : Justified s b := by
  obtain ⟨c, hc, hl⟩ := ha.steps h ho hs hb
  have underway := hc.invariant (P := fun x => ReadSteps (preorderAll f.domain.children) a x ∧ Justified s x)
    (fun v hv x y hx step => ⟨hx.1.step hv step,
      ha.justified_step h ho hs fixed hx.1 hx.2 (children_subset_preorder _ hv) step⟩) ⟨.refl _ a, hj⟩
  exact ha.justified_step h ho hs fixed hc underway.2 (self_mem_preorder _) hl

end Steps

/-- In a symbol of a text whose sizes are integers, a relation that reads its own length has values of one length. -/
theorem Grammar.MadeOf.isFixed {fields : Fields} {s : Symbol} (h : MadeOf fields s) (ho : InOrder fields)
    (sizes : ∀ r, .relation r ∈ s.allVariables → r.rule.isSize → r.type.isInteger)
    {r : Relation} (hr : .relation r ∈ s.allVariables) (hm : r.ReadsItself) : r.IsFixed := by
  have rule := (h.checks ho hr).1
  have reads := hm.2
  unfold RuleHolds at rule
  unfold Relation.IsFixed
  cases he : r.rule with
  | size scale => exact DataType.exists_of_isInteger (sizes r hr (by rw [he]; rfl))
  | copy => rw [he] at reads; cases reads
  | internetChecksum => rw [he] at rule; exact ⟨_, rule⟩
  | crc32 => rw [he] at rule; exact ⟨_, rule⟩
  | keyedDigest algorithm key => rw [he] at rule; exact rule
  | padding modulo once scale => rw [he] at reads; cases reads

/--
In every interpretation of data as a message no relation is left to wait, and each relation that was read holds what it
computes from the whole interpretation: the bits, or as many bits as it asks for.
-/
theorem interpretations_satisfied {text : String} {symbols : List Symbol} (ht : Grammar.symbols text = .ok symbols)
    {s : Symbol} (hs : s ∈ symbols)
    (sizes : ∀ r, .relation r ∈ s.allVariables → r.rule.isSize → r.type.isInteger)
    {maxRepeat : Nat} {data : BitString} {memory : Memory} {a : Assignment}
    (ha : a ∈ (s.interpretations maxRepeat data memory).toList) :
    a.pending = [] ∧ ∀ r, .relation r ∈ s.allVariables → ∀ cell, a.cell? r.id = some cell →
      (∃ bits, r.evaluate a = .ok (.ready bits) ∧ cell.bits? = some bits) ∨
        ∃ n, r.evaluate a = .ok (.length n) ∧ cell.length? = some n := by
  obtain ⟨fields, ho, made⟩ := symbols_made ht
  have made := made s hs
  rw [toList_interpretations made ho, List.mem_filterMap] at ha
  obtain ⟨⟨x, offset⟩, hx, hcomplete⟩ := ha
  obtain ⟨-, hcomplete⟩ := Option.ite_none_right_eq_some.mp hcomplete
  obtain ⟨hv, hempty⟩ := Option.filter_eq_some_iff.mp hcomplete
  obtain ⟨reached, justified⟩ := (reached_start s memory).searchAll made ho (P := Justified s)
    (fun hs ha hj hb => ha.justified_next made ho hs (fun r hr => made.isFixed ho sizes hr) hj hb)
    (List.nil_append s.fields).symm (fun r hr bits hc => nomatch hc) hx
  refine ⟨List.isEmpty_iff.mp hempty, fun r hr cell hc => ?_⟩
  obtain ⟨-, rfl⟩ := (verified?_eq_some_iff_of_unique (reached.unique made ho)).mp hv
  have hc : x.cell? r.id = some cell := hc
  obtain ⟨⟨bits, rfl⟩, -⟩ := reached.closed.cell hc
  have computes : r.Computes x bits := by
    refine (justified r hr bits hc).elim (fun hp => Relation.computes_of_agrees ?_ hc) id
    by_contra hne
    have hm : r ∈ x.pending.filter fun r => r.agrees? x != some true :=
      List.mem_filter.mpr ⟨hp, bne_iff_ne.mpr hne⟩
    have empty : (x.pending.filter fun r => r.agrees? x != some true) = [] := List.isEmpty_iff.mp hempty
    rw [empty] at hm
    cases hm
  exact computes.imp (fun he => ⟨bits, he, rfl⟩) fun ⟨n, he, hl⟩ => ⟨n, he, congrArg some hl⟩

/-- A size that stands before what it measures, and a check that covers itself. -/
def sizedAndChecked : String :=
  "symbol \"S\" \x7b n: size([n, x]); x: raw(0..4); c: internet_checksum([n, c]); \x7d"

/-- Four bytes that `sizedAndChecked` describes are read with a size and a check that are right. -/
theorem interpretations_satisfied_sizedAndChecked : ∃ symbols s a, Grammar.symbols sizedAndChecked = .ok symbols ∧
    s ∈ symbols ∧
    a ∈ (s.interpretations 5 (.ofBytes [2, 0x41, 0xfd, 0xff]) .empty).toList ∧ a.pending = [] ∧
    (∃ r, .relation r ∈ s.allVariables ∧ (a.cell? r.id).isSome) ∧
    ∀ r, .relation r ∈ s.allVariables → ∀ cell, a.cell? r.id = some cell →
      (∃ bits, r.evaluate a = .ok (.ready bits) ∧ cell.bits? = some bits) ∨
        ∃ n, r.evaluate a = .ok (.length n) ∧ cell.length? = some n := by
  have run : ((Grammar.symbols sizedAndChecked).toOption.bind List.head?).bind (fun s =>
      (s.interpretations 5 (.ofBytes [2, 0x41, 0xfd, 0xff]) .empty).toList.head?.map fun a =>
        (s.allVariables.all fun v => v.relation?.all fun r => !r.rule.isSize || r.type.isInteger,
        s.allVariables.any fun v => v.relation?.any fun r => (a.cell? r.id).isSome)) = some (true, true) := by
    decide +kernel
  obtain ⟨s, hs, hr⟩ := Option.bind_eq_some_iff.mp run
  obtain ⟨symbols, ht, hs⟩ := Option.bind_eq_some_iff.mp hs
  obtain ⟨a, ha, hr⟩ := Option.map_eq_some_iff.mp hr
  obtain ⟨typed, read⟩ := Prod.mk.inj hr
  have text : Grammar.symbols sizedAndChecked = .ok symbols := Builder.ok_of_toOption ht
  have mem : s ∈ symbols := List.mem_of_mem_head? hs
  have sizes (r : Relation) (hr : .relation r ∈ s.allVariables) (hsize : r.rule.isSize) : r.type.isInteger := by
    have checked : (!r.rule.isSize || r.type.isInteger) = true := List.all_eq_true.mp typed _ hr
    rwa [hsize] at checked
  have found := List.mem_of_mem_head? ha
  obtain ⟨v, hv, hvr⟩ := List.any_eq_true.mp read
  obtain ⟨r, hvr, hcell⟩ := (Option.any_eq_true _ _).mp hvr
  obtain rfl := relation?_eq_some hvr
  obtain ⟨hp, hsat⟩ := interpretations_satisfied text mem sizes found
  exact ⟨symbols, s, a, text, mem, found, hp, ⟨r, hv, hcell⟩, hsat⟩

end WireGrammar
