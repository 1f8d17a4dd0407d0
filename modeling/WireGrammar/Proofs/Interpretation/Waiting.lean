import Mathlib.Data.List.Basic
import WireGrammar.Proofs.Assignment.Content
import WireGrammar.Proofs.Interpretation.Steps
import WireGrammar.Proofs.Relation.Stability

/-!
# Which relations wait

While data are read every relation recorded has bits, and every slot is that of a recorded relation
(`Assignment.Closed`). A relation then waits exactly when a target of it is neither recorded nor known from memory
(`evaluate_waiting_iff`). When relations refer to whole fields, one that lacks a target at the start of a field goes on
waiting until the field is recorded (`Underway.step`).

* `Underway`: what stays true from step to step while the variables below a field are read.
-/

namespace WireGrammar

/-- Whether a target is neither recorded nor known from memory. -/
def Assignment.misses (a : Assignment) (target : VarId) : Bool :=
  (a.entry? target).isNone && (a.scope.contains target || (a.known? target).isNone)

/-- Whether a target of the relation, other than itself, is missing. -/
def Relation.lacks (r : Relation) (a : Assignment) : Bool :=
  r.targets.any fun t => t != r.id && a.misses t

namespace Assignment

/-- All relations that are recorded have bits, and all slots are those of recorded relations. -/
structure Closed (all : List Variable) (a : Assignment) : Prop where
  cell : ∀ {id cell}, a.cell? id = some cell → (∃ bits, cell = .known bits) ∧ ∃ r, .relation r ∈ all ∧ r.id = id
  slots : ∀ {id content}, a.entry? id = some (.content content) → ∀ q, .slot q ∈ content.atoms → (a.cell? q).isSome

variable {all : List Variable} {a : Assignment}

namespace Closed

variable (h : a.Closed all)

include h

theorem bits {id : VarId} (hc : (a.cell? id).isSome) : ∃ bits, a.cell? id = some (.known bits) := by
  obtain ⟨cell, hcell⟩ := Option.isSome_iff_exists.mp hc
  obtain ⟨⟨bits, rfl⟩, -⟩ := h.cell hcell
  exact ⟨bits, hcell⟩

/-- What is recorded has bits, also when those of a relation are to be read as zeros. -/
theorem isSome_flatten {id : VarId} {content : Content} (he : a.entry? id = some (.content content))
    (exclude : Option VarId) : (a.flatten content exclude).isSome := by
  refine Option.isSome_iff_exists.mpr ⟨_, flatten_eq_some_iff.mpr ⟨fun q hq => ?_, rfl⟩⟩
  obtain ⟨bits, hb⟩ := h.bits (h.slots he q hq)
  simp only [slotBits?, chunkBits?, hb, Option.bind_eq_bind, Option.bind_some]
  split <;> rfl

theorem isSome_measure {id : VarId} {content : Content} (he : a.entry? id = some (.content content)) :
    (a.measure content).isSome := by
  refine Option.isSome_iff_exists.mpr ⟨_, measure_eq_some_iff.mpr ⟨fun q hq => ?_, rfl⟩⟩
  obtain ⟨bits, hb⟩ := h.bits (h.slots he q hq)
  unfold slotLength?
  rw [hb]
  rfl

/-- A target has bits unless it is missing. -/
theorem isSome_targetBits? (t exclude : VarId) : (a.targetBits? t exclude).isSome = !a.misses t := by
  unfold targetBits? misses
  cases he : a.entry? t with
  | none =>
    cases hs : a.scope.contains t with
    | true => simp
    | false => cases a.known? t <;> simp
  | some entry =>
    cases entry with
    | content content => simpa using h.isSome_flatten he _
    | cell cell =>
      obtain ⟨⟨bits, rfl⟩, -⟩ := h.cell (cell?_eq_some_iff.mpr he)
      simp [Cell.bits?]

/-- A target has a length unless it is missing. -/
theorem isSome_targetLength? (t : VarId) : (a.targetLength? t).isSome = !a.misses t := by
  unfold targetLength? length? misses
  cases he : a.entry? t with
  | none =>
    cases hs : a.scope.contains t with
    | true => simp
    | false => cases a.known? t <;> simp
  | some entry =>
    cases entry with
    | content content => simpa using h.isSome_measure he
    | cell cell =>
      obtain ⟨⟨bits, rfl⟩, -⟩ := h.cell (cell?_eq_some_iff.mpr he)
      simp [Cell.length?]

end Closed

end Assignment

namespace Relation

open Assignment

variable {all : List Variable} {a : Assignment} {r : Relation}

theorem writeInt_ne_waiting (n : Int) : r.writeInt n ≠ .ok .waiting := by
  unfold writeInt
  split <;> nofun

/-- What is read from every target is there unless the relation lacks one. -/
theorem isSome_mapM_targets {α : Type} {read : VarId → Option α} (own : Option α)
    (hn : r.id ∈ r.targets → own.isSome) (hr : ∀ t, (read t).isSome = !a.misses t) :
    (r.targets.mapM fun t => if t = r.id then own else read t).isSome = !r.lacks a := by
  rw [Bool.eq_iff_iff, isSome_mapM, Bool.not_eq_true', lacks, List.any_eq_false]
  refine forall₂_congr fun t ht => ?_
  by_cases other : t = r.id
  · subst other
    simp [hn ht]
  · simp [hr, other]

/-- A relation waits exactly when it lacks a target, as long as its own length is known if it reads that. -/
theorem evaluate_waiting_iff (h : a.Closed all) (hc : r.rule = .copy → ∃ t, r.targets = [t])
    (hn : r.ReadsItself → (r.ownLength? a).isSome) : r.evaluate a = .ok .waiting ↔ r.lacks a = true := by
  have missing {α : Type} {o : Option α} (ho : o.isSome = !r.lacks a) : o = none ↔ r.lacks a = true := by
    rw [← Option.not_isSome_iff_eq_none, ho]
    simp
  have lengths {own? : Option Nat} (ho : r.id ∈ r.targets → own?.isSome) :
      r.targetsLength? a own? = none ↔ r.lacks a = true := by
    refine missing ?_
    rw [targetsLength?, Option.map_eq_map, Option.isSome_map]
    exact isSome_mapM_targets own? ho h.isSome_targetLength?
  have bits (hn : r.id ∈ r.targets → (r.ownLength? a).isSome) : r.targetsBits? a = none ↔ r.lacks a = true := by
    refine missing ?_
    rw [targetsBits?, Option.map_eq_map, Option.isSome_map]
    refine isSome_mapM_targets _ (fun ht => ?_) fun t => h.isSome_targetBits? t r.id
    rw [Option.map_eq_map, Option.isSome_map]
    exact hn ht
  unfold ReadsItself at hn
  unfold evaluate
  split
  next scale hr =>
    rw [← lengths fun hm => hn ⟨hm, by rw [hr]; trivial⟩]
    cases r.targetsLength? a (r.ownLength? a) with
    | none => exact iff_of_true rfl rfl
    | some total => exact iff_of_false (writeInt_ne_waiting _) nofun
  next hr =>
    obtain ⟨t, ht⟩ := hc hr
    have lacks_eq : r.lacks a = (t != r.id && a.misses t) := by rw [lacks, ht, List.any_cons, List.any_nil, Bool.or_false]
    by_cases other : t = r.id
    · rw [ht, lacks_eq]
      simp [other]
    · have single : a.targetBits? t r.id = none ↔ r.lacks a = true := by
        refine missing ?_
        rw [h.isSome_targetBits?, lacks_eq, bne_iff_ne.mpr other, Bool.true_and]
      rw [ht]
      dsimp only
      rw [if_neg other, ← single]
      cases a.targetBits? t r.id with
      | none => exact iff_of_true rfl rfl
      | some bits => exact iff_of_false nofun nofun
  next hr =>
    rw [← bits fun hm => hn ⟨hm, by rw [hr]; trivial⟩]
    cases r.targetsBits? a with
    | none => exact iff_of_true rfl rfl
    | some data => exact iff_of_false (writeInt_ne_waiting _) nofun
  next hr =>
    rw [← bits fun hm => hn ⟨hm, by rw [hr]; trivial⟩]
    cases r.targetsBits? a with
    | none => exact iff_of_true rfl rfl
    | some data => exact iff_of_false (writeInt_ne_waiting _) nofun
  next algorithm key hr =>
    rw [← bits fun hm => hn ⟨hm, by rw [hr]; trivial⟩]
    cases r.targetsBits? a with
    | none => exact iff_of_true rfl rfl
    | some data => exact iff_of_false nofun nofun
  next modulo once scale hr =>
    have own : r.id ∈ r.targets → (some 0 : Option Nat).isSome := fun _ => rfl
    rw [← lengths own]
    cases r.targetsLength? a (some 0) with
    | none => exact iff_of_true rfl rfl
    | some total =>
      refine iff_of_false ?_ nofun
      dsimp only
      cases r.type.constant? with
      | none => nofun
      | some unit => nofun

/-- What a relation lacks depends only on its targets. -/
theorem lacks_congr {b : Assignment} (h : ∀ t ∈ r.targets, b.misses t = a.misses t) : r.lacks b = r.lacks a := by
  unfold lacks
  rw [Bool.eq_iff_iff, List.any_eq_true, List.any_eq_true]
  exact exists_congr fun t => and_congr_right fun ht => by rw [h t ht]

end Relation

theorem Assignment.Grows.misses_eq {ids : List VarId} {a b : Assignment} (h : Grows ids a b) {t : VarId}
    (ht : t ∉ ids) : b.misses t = a.misses t := by
  unfold misses
  rw [h.entry?_eq ht, h.known?_eq ht, h.scope]

/-! ## While a field is read -/

section Field

open Assignment Variable

/-- A field in which relations refer to whole fields only; a relation is late when it lacks a target at the start. -/
structure Tidy (all : List Variable) (f : Variable) (start : Assignment) (late : VarId → Bool) : Prop where
  nodup : f.ids.Nodup
  mem : f.preorder ⊆ all
  unique : ∀ {v w}, v ∈ all → w ∈ all → v.id = w.id → v = w
  outside : ∀ {r}, .relation r ∈ preorderAll f.children → ∀ t ∈ r.targets, t ∉ idsOf f.children
  single : ∀ {r}, .relation r ∈ all → r.rule = .copy → ∃ t, r.targets = [t]
  /-- What waits at the start lies outside of the field. -/
  fresh : ∀ q ∈ start.pending, q.id ∉ idsOf f.children
  late_iff : ∀ {r}, .relation r ∈ preorderAll f.children → late r.id = r.lacks start

/-- What is true while the variables below a field are read: the late relations among those recorded wait. -/
structure Underway (all : List Variable) (f : Variable) (start : Assignment) (late : VarId → Bool) (a : Assignment) :
    Prop where
  grows : Grows (idsOf f.children) start a
  closed : a.Closed all
  waits : ∀ {r}, .relation r ∈ preorderAll f.children → (a.cell? r.id).isSome → a.isPending r.id = late r.id
  pending : ∀ q ∈ a.pending, q ∈ start.pending ∨ late q.id = true ∧ .relation q ∈ preorderAll f.children

/-- The step with which the reading of a variable ends. -/
inductive LastRead : Variable → Assignment → Assignment → Prop where
  | record {v : Variable} {a b c : Assignment} {content : Content} (hv : v.relation? = none)
    (hl : Grows [v.id] a b ∧ b.entries = a.entries ∧ b.pending = a.pending)
    (hs : ∀ q, .slot q ∈ content.atoms → (a.cell? q).isSome)
    (h : (b.record v.id content).verified? = some c) : LastRead v a c
  | known {r : Relation} {a c : Assignment} {bits : BitString} (he : r.evaluate a ≠ .ok .waiting)
    (h : (a.setCell r.id (.known bits)).verified? = some c) : LastRead (.relation r) a c
  | wait {r : Relation} {a c : Assignment} {bits : BitString} (he : r.evaluate a = .ok .waiting)
    (h : ((a.setCell r.id (.known bits)).awaitRelation r).verified? = some c) : LastRead (.relation r) a c

namespace Assignment

variable {all : List Variable} {a b : Assignment} {id : VarId}

theorem cell?_record_of_none (hn : a.cell? id = none) (content : Content) (other : VarId) :
    (a.record id content).cell? other = a.cell? other := by
  by_cases h : other = id
  · rw [h, hn, cell?, entry?_record, if_pos rfl]
  · exact cell?_record_of_ne h content

theorem Closed.congr (h : a.Closed all) (he : b.entries = a.entries) : b.Closed all := by
  have entries : ∀ id, b.entry? id = a.entry? id := fun id => congrArg (List.lookup id) he
  have cells : ∀ id, b.cell? id = a.cell? id := fun id => by rw [cell?, entries, cell?]
  exact ⟨fun hc => h.cell (by rwa [← cells]), fun hc q hq => by rw [cells]; exact h.slots (by rwa [← entries]) q hq⟩

theorem Closed.record (h : a.Closed all) (hn : a.cell? id = none) {content : Content}
    (hs : ∀ q, .slot q ∈ content.atoms → (a.cell? q).isSome) : (a.record id content).Closed all := by
  refine ⟨fun hc => h.cell (by rwa [cell?_record_of_none hn] at hc), fun {i c} hc q hq => ?_⟩
  rw [cell?_record_of_none hn]
  rw [entry?_record] at hc
  split at hc
  · cases hc
    exact hs q hq
  · exact h.slots hc q hq

theorem Closed.setCell (h : a.Closed all) {r : Relation} (hr : .relation r ∈ all) (bits : BitString) :
    (a.setCell r.id (.known bits)).Closed all := by
  refine ⟨fun {i cell} hc => ?_, fun {i c} hc q hq => ?_⟩
  · rw [cell?_setCell] at hc
    split at hc
    next he =>
      cases hc
      exact ⟨⟨bits, rfl⟩, r, hr, he.symm⟩
    next => exact h.cell hc
  · rw [cell?_setCell]
    split
    · rfl
    · rw [entry?_setCell] at hc
      split at hc
      · cases hc
      · exact h.slots hc q hq

/-- Only relations have values. -/
theorem Closed.cell?_eq_none (h : a.Closed all) (unique : ∀ {v w}, v ∈ all → w ∈ all → v.id = w.id → v = w)
    {v : Variable} (hv : v ∈ all) (hr : v.relation? = none) : a.cell? v.id = none := by
  cases hc : a.cell? v.id with
  | none => rfl
  | some cell =>
    obtain ⟨-, r, hrel, hid⟩ := h.cell hc
    rw [← unique hrel hv hid] at hr
    cases hr

theorem isPending_iff : a.isPending id = true ↔ ∃ q ∈ a.pending, q.id = id := by
  simp [isPending]

end Assignment

namespace LastRead

variable {all : List Variable} {v : Variable} {a b : Assignment}

/-- The last step leaves all relations with bits. -/
theorem closed (hl : LastRead v a b) (unique : ∀ {v w}, v ∈ all → w ∈ all → v.id = w.id → v = w) (hv : v ∈ all)
    (h : a.Closed all) : b.Closed all := by
  have after {x : Assignment} (hx : x.Closed all) (hb : x.verified? = some b) : b.Closed all := by
    obtain ⟨-, rfl⟩ := verified?_eq_some_iff.mp hb
    exact hx.congr rfl
  cases hl with
  | @record _ _ x _ content hr hx hs hb =>
    have cells : ∀ id, x.cell? id = a.cell? id := fun id => by rw [cell?, entry?, hx.2.1, cell?, entry?]
    refine after ((h.congr hx.2.1).record ?_ fun q hq => by rw [cells]; exact hs q hq) hb
    rw [cells]
    exact h.cell?_eq_none unique hv hr
  | known he hb => exact after (h.setCell hv _) hb
  | @wait r _ _ bits he hb =>
    exact after ((h.setCell hv bits).congr (entries_awaitRelation _ r)) hb

/-- What waits behind the last step waited before or is the variable itself. -/
theorem pending (hl : LastRead v a b) : ∀ q ∈ b.pending, q ∈ a.pending ∨ v.id = q.id := by
  intro q hq
  cases hl with
  | record hr hx hs hb =>
    obtain ⟨-, rfl⟩ := verified?_eq_some_iff.mp hb
    exact Or.inl (hx.2.2 ▸ (List.mem_filter.mp hq).1)
  | known he hb =>
    obtain ⟨-, rfl⟩ := verified?_eq_some_iff.mp hb
    exact Or.inl (List.mem_filter.mp hq).1
  | wait he hb =>
    obtain ⟨-, rfl⟩ := verified?_eq_some_iff.mp hb
    refine (List.mem_append.mp (pending_awaitRelation _ (List.mem_filter.mp hq).1)).imp_right fun hq => ?_
    rw [List.mem_singleton.mp hq]
    rfl

end LastRead

/-! ## Steps below a field -/

namespace Underway

variable {all : List Variable} {f : Variable} {start : Assignment} {late : VarId → Bool} {a b : Assignment}
  {r : Relation}

/-- What waits with an identity below the field is a late relation of the field. -/
theorem pending_below (h : Underway all f start late a) (hf : Tidy all f start late) {q : Relation}
    (hq : q ∈ a.pending) (hid : q.id ∈ idsOf f.children) :
    late q.id = true ∧ .relation q ∈ preorderAll f.children :=
  (h.pending q hq).resolve_left fun hs => hf.fresh q hs hid

section Waits

variable (h : Underway all f start late a) (hf : Tidy all f start late) (hr : .relation r ∈ preorderAll f.children)

theorem below {v : Variable} (hv : v ∈ preorderAll f.children) : v.id ∈ idsOf f.children := by
  rw [← map_id_preorderAll]
  exact List.mem_map_of_mem hv

theorem mem_all (hf : Tidy all f start late) {v : Variable} (hv : v ∈ preorderAll f.children) : v ∈ all :=
  hf.mem (children_subset_preorder f hv)

include h hf hr

/-- A relation that is late lacks the same targets as at the start. -/
theorem lacks_eq : r.lacks a = late r.id := by
  rw [hf.late_iff hr]
  exact Relation.lacks_congr fun t ht => h.grows.misses_eq (hf.outside hr t ht)

theorem waiting_iff : r.evaluate a = .ok .waiting ↔ late r.id = true := by
  rw [Relation.evaluate_waiting_iff h.closed (hf.single (mem_all hf hr))
    (fun hm => absurd (below hr) (hf.outside hr r.id hm.1)), h.lacks_eq hf hr]

end Waits

section Steps

variable (hf : Tidy all f start late)

include hf

theorem record {v : Variable} {content : Content} (h : Underway all f start late a)
    (hv : v ∈ preorderAll f.children) (hr : v.relation? = none)
    (hl : Grows [v.id] a b ∧ b.entries = a.entries ∧ b.pending = a.pending)
    (hs : ∀ q, .slot q ∈ content.atoms → (a.cell? q).isSome) :
    Underway all f start late (b.record v.id content) := by
  obtain ⟨hg, he, hp⟩ := hl
  have cells : ∀ id, b.cell? id = a.cell? id := fun id => by rw [cell?, entry?, he, cell?, entry?]
  have none : b.cell? v.id = none := by
    rw [cells]
    exact h.closed.cell?_eq_none hf.unique (mem_all hf hv) hr
  refine ⟨h.grows.trans ?_, (h.closed.congr he).record none fun q hq => by rw [cells]; exact hs q hq, ?_, ?_⟩
  · exact (hg.mono (List.cons_subset.mpr ⟨below hv, List.nil_subset _⟩)).record (below hv) content
  · intro r hr hc
    rw [cell?_record_of_none none, cells] at hc
    rw [← h.waits hr hc, isPending, isPending]
    exact congrArg (List.any · _) hp
  · intro q hq
    exact h.pending q (hp ▸ hq)

theorem setCell {r : Relation} (h : Underway all f start late a) (hr : .relation r ∈ preorderAll f.children)
    (he : r.evaluate a ≠ .ok .waiting) (bits : BitString) :
    Underway all f start late (a.setCell r.id (.known bits)) := by
  have early : late r.id = false := by
    rw [← Bool.not_eq_true, ← h.waiting_iff hf hr]
    exact he
  refine ⟨h.grows.trans ((Grows.refl _ a).setCell (below hr) _), h.closed.setCell (mem_all hf hr) bits, ?_, h.pending⟩
  intro q hq hc
  rw [cell?_setCell] at hc
  split at hc
  next hid =>
    rw [hid, early, ← Bool.not_eq_true]
    intro hp
    obtain ⟨p, hp, hpid⟩ := isPending_iff.mp hp
    have := (h.pending_below hf hp (hpid ▸ below hr)).1
    rw [hpid, early] at this
    cases this
  next => exact h.waits hq hc

theorem await {r : Relation} (h : Underway all f start late a) (hr : .relation r ∈ preorderAll f.children)
    (he : r.evaluate a = .ok .waiting) (bits : BitString) :
    Underway all f start late ((a.setCell r.id (.known bits)).awaitRelation r) := by
  have isLate : late r.id = true := (h.waiting_iff hf hr).mp he
  have closed : ((a.setCell r.id (.known bits)).awaitRelation r).Closed all :=
    (h.closed.setCell (mem_all hf hr) bits).congr (entries_awaitRelation _ r)
  have pending {id : VarId} : ((a.setCell r.id (.known bits)).awaitRelation r).isPending id =
      (a.isPending id || r.id == id) := isPending_awaitRelation _ r id
  refine ⟨h.grows.trans (((Grows.refl _ a).setCell (below hr) _).awaitRelation r), closed, ?_, fun q hq => ?_⟩
  · intro q hq hc
    rw [cell?_awaitRelation, cell?_setCell] at hc
    rw [pending]
    split at hc
    next hid => rw [hid, BEq.rfl, Bool.or_true, isLate]
    next hid => rw [h.waits hq hc, beq_eq_false_iff_ne.mpr (Ne.symm hid), Bool.or_false]
  · rcases List.mem_append.mp (pending_awaitRelation r hq) with hq | hq
    · exact h.pending q hq
    · rw [List.mem_singleton.mp hq]
      exact Or.inr ⟨isLate, hr⟩

/-- A comparison lets no late relation of the field go. -/
theorem verified (h : Underway all f start late a) (hv : a.verified? = some b) : Underway all f start late b := by
  obtain ⟨-, rfl⟩ := verified?_eq_some_iff.mp hv
  have agrees {q : Relation} (hq : q ∈ a.pending) (hi : q.id ∈ idsOf f.children) : q.agrees? a = none := by
    obtain ⟨hl, hm⟩ := h.pending_below hf hq hi
    have := (h.waiting_iff hf hm).mpr hl
    unfold Relation.agrees?
    rw [this]
  refine ⟨h.grows.of_pending _, h.closed.congr rfl, fun {r} hr hc => ?_, fun q hq => h.pending q (List.mem_filter.mp hq).1⟩
  have none : a.anyAgrees a.pending r.id = false := by
    rw [anyAgrees, List.any_eq_false]
    intro q hq hqr
    rw [Bool.and_eq_true, beq_iff_eq] at hqr
    rw [agrees hq (hqr.1 ▸ below hr)] at hqr
    simp at hqr
  rw [← h.waits hr hc, Bool.eq_iff_iff, isPending_iff, isPending_iff]
  constructor
  · rintro ⟨q, hq, hid⟩
    exact ⟨q, (List.mem_filter.mp hq).1, hid⟩
  · rintro ⟨q, hq, hid⟩
    exact ⟨q, List.mem_filter.mpr ⟨hq, by rw [hid, none]; rfl⟩, hid⟩

/-- What is true while a field is read stays true with each variable below it. -/
theorem step {v : Variable} (h : Underway all f start late a) (hv : v ∈ preorderAll f.children)
    (hl : LastRead v a b) : Underway all f start late b := by
  cases hl with
  | record hr hl hs hb => exact (h.record hf hv hr hl hs).verified hf hb
  | known he hb => exact (h.setCell hf hv he _).verified hf hb
  | wait he hb => exact (h.await hf hv he _).verified hf hb

end Steps

/-- A relation of the field that is recorded waits exactly when it is late. -/
theorem isPending_eq (hf : Tidy all f start late) (h : Underway all f start late a) {id : VarId}
    (hid : id ∈ idsOf f.children) (hc : (a.cell? id).isSome) : a.isPending id = late id := by
  obtain ⟨cell, hcell⟩ := Option.isSome_iff_exists.mp hc
  obtain ⟨-, r, hr, rfl⟩ := h.closed.cell hcell
  rw [← map_id_preorderAll] at hid
  obtain ⟨w, hw, hwid⟩ := List.mem_map.mp hid
  obtain rfl := hf.unique (mem_all hf hw) hr hwid
  exact h.waits hw hc

end Underway

end Field

end WireGrammar
