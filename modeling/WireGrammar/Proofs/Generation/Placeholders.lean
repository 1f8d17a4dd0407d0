import WireGrammar.Proofs.Generation.Steps
import WireGrammar.Proofs.Relation.Filling

/-!
# Placeholders

While values are generated, a relation that waits has a cell with the length announced for it, and one that does not
wait has a value of some kind (`Assignment.Orderly`). Each record keeps this so (`Makes.orderly`), and so does settling,
in which values that are right go on being right (`Settles.sound`). Where no relation that waits can be computed,
settling does nothing (`Settles.eq_of_stuck`).
-/

namespace WireGrammar.Assignment

open Generation

variable {all : List Variable} {bound : Bindings} {V W : Relation → BitString → Prop} {a b : Assignment} {v : Variable}

/-- No relation that waits can be computed. -/
def Stuck (a : Assignment) : Prop :=
  ∀ r ∈ a.pending, r.evaluate a = .ok .waiting

theorem Settles.eq_of_stuck (h : Settles a b) (hs : a.Stuck) : b = a := by
  cases h with
  | refl => rfl
  | fill hr hc _ => exact absurd (hs _ hr) hc.not_waiting

/--
Relations without a mutator wait with the length that is announced for them, or have a value of some kind; those that
wait are relations of the given variables, each once.
-/
structure Orderly (all : List Variable) (bound : Bindings) (V : Relation → BitString → Prop) (a : Assignment) :
    Prop where
  mem : ∀ r ∈ a.pending, .relation r ∈ all
  distinct : a.Distinct
  unbound : ∀ r ∈ a.pending, bound.has r.id = false
  awaited : ∀ r ∈ a.pending, a.cell? r.id = some (.awaited (announcedLength? r))
  values : ∀ r, .relation r ∈ all → bound.has r.id = false → ∀ bits, a.cell? r.id = some (.known bits) → V r bits

theorem Orderly.mono (h : Orderly all bound V a)
    (hV : ∀ r, .relation r ∈ all → bound.has r.id = false → ∀ bits, a.cell? r.id = some (.known bits) →
      V r bits → W r bits) : Orderly all bound W a :=
  ⟨h.mem, h.distinct, h.unbound, h.awaited,
    fun r hr hm bits hc => hV r hr hm bits hc (h.values r hr hm bits hc)⟩

section Unique

variable (unique : ∀ {v w}, v ∈ all → w ∈ all → v.id = w.id → v = w)

include unique

/-- What is recorded for other kinds of variables leaves relations as they are. -/
theorem Orderly.record (h : Orderly all bound V a) (hv : v ∈ all) (hn : v.relation? = none)
    (he : b.entries = a.entries) (hp : b.pending = a.pending) (content : Content) :
    Orderly all bound V (b.record v.id content) := by
  have cells {r : Relation} (hr : .relation r ∈ all) : (b.record v.id content).cell? r.id = a.cell? r.id := by
    rw [cell?_record_of_ne fun hid => ?_]
    · rw [cell?, entry?, he, cell?, entry?]
    · rw [← unique hr hv hid] at hn
      cases hn
  have pending : (b.record v.id content).pending = a.pending := hp
  refine ⟨?_, h.distinct.sublist (pending ▸ List.Sublist.refl _), ?_, ?_, fun r hr hm bits hc => ?_⟩
  · rw [pending]
    exact h.mem
  · rw [pending]
    exact h.unbound
  · rw [pending]
    exact fun r hr => (cells (h.mem r hr)).trans (h.awaited r hr)
  · exact h.values r hr hm bits ((cells hr).symm.trans hc)

/-- A relation that does not wait gets a value. -/
theorem Orderly.setCell (h : Orderly all bound V a) {r : Relation} {bits : BitString} (hr : .relation r ∈ all)
    (hp : r ∉ a.pending) (hV : bound.has r.id = false → V r bits) :
    Orderly all bound V (a.setCell r.id (.known bits)) := by
  refine ⟨h.mem, h.distinct, h.unbound, fun q hq => ?_, fun q hq hm known hc => ?_⟩
  · rw [cell?_setCell, if_neg fun he => ?_]
    · exact h.awaited q hq
    · cases unique (h.mem q hq) hr he
      exact hp hq
  · rw [cell?_setCell] at hc
    split at hc
    next he =>
      cases unique hq hr he
      cases hc
      exact hV hm
    next => exact h.values q hq hm known hc

/-- A relation begins to wait, or goes on waiting. -/
theorem Orderly.await (h : Orderly all bound V a) {r : Relation} (hr : .relation r ∈ all)
    (hm : bound.has r.id = false) :
    Orderly all bound V ((a.setCell r.id (.awaited (announcedLength? r))).awaitRelation r) := by
  have members : ∀ q ∈ ((a.setCell r.id (.awaited (announcedLength? r))).awaitRelation r).pending,
      q ∈ a.pending ∨ q = r := fun q hq =>
    (List.mem_append.mp (pending_awaitRelation r hq)).imp_right List.mem_singleton.mp
  refine ⟨fun q hq => ?_, Distinct.awaitRelation (a := a.setCell r.id _) h.distinct r, fun q hq => ?_, fun q hq => ?_,
    fun q hq hb known hc => ?_⟩
  · rcases members q hq with hq | rfl
    · exact h.mem q hq
    · exact hr
  · rcases members q hq with hq | rfl
    · exact h.unbound q hq
    · exact hm
  · rw [cell?_awaitRelation, cell?_setCell]
    split
    next he =>
      rcases members q hq with hq | rfl
      · rw [unique (h.mem q hq) hr he |> Variable.relation.inj]
      · rfl
    next he =>
      rcases members q hq with hq | rfl
      · exact h.awaited q hq
      · exact absurd rfl he
  · rw [cell?_awaitRelation, cell?_setCell] at hc
    split at hc
    · cases hc
    · exact h.values q hq hb known hc

/-- A relation that waits gets its value and waits no more. -/
theorem Orderly.fillIn (h : Orderly all bound V a) {r : Relation} {bits : BitString} (hr : r ∈ a.pending)
    (hV : V r bits) : Orderly all bound V (a.fillIn r.id bits) := by
  have members {q : Relation} (hq : q ∈ (a.fillIn r.id bits).pending) : q ∈ a.pending ∧ q.id ≠ r.id := by
    obtain ⟨hq, hne⟩ := List.mem_filter.mp hq
    exact ⟨hq, bne_iff_ne.mp hne⟩
  refine ⟨fun q hq => h.mem q (members hq).1, h.distinct.sublist List.filter_sublist,
    fun q hq => h.unbound q (members hq).1, fun q hq => ?_, fun q hq hm known hc => ?_⟩
  · rw [cell?_fillIn, if_neg (members hq).2]
    exact h.awaited q (members hq).1
  · rw [cell?_fillIn] at hc
    split at hc
    next he =>
      cases unique hq (h.mem r hr) he
      cases hc
      exact hV
    next => exact h.values q hq hm known hc

/-- A record keeps relations in order, if what a relation computes is a value of the kind. -/
theorem Makes.orderly (hm : Makes bound v a b) (hv : v ∈ all) (h : Orderly all bound V a) (hs : a.Stuck)
    (hV : ∀ r bits, v = .relation r → r.Computes a bits → b = a.setCell r.id (.known bits) → V r bits) :
    Orderly all bound V b := by
  cases hm with
  | data hleaf => exact h.record unique hv rfl hleaf.kept.1 hleaf.kept.2 _
  | mutated hb =>
    refine h.setCell unique hv (fun hp => ?_) fun hn => ?_
    · rw [h.unbound _ hp] at hb
      cases hb
    · rw [hn] at hb
      cases hb
  | ready hn hc => exact h.setCell unique hv (fun hp => hc.not_waiting (hs _ hp)) fun _ => hV _ _ rfl hc rfl
  | wait hn hw => exact h.await unique hv hn
  | @node _ _ content hnode =>
    have none : v.relation? = none := by
      cases v with
      | relation r => cases hnode
      | data id name type scope => cases hnode
      | choice id name children => rfl
      | sequence id name children => rfl
      | repetition id name child count delimiter => rfl
    exact h.record unique hv none rfl rfl _

/-- Settling puts values into cells, so all variables go on showing what they show. -/
theorem Settles.content?_eq (hs : Settles a b) (h : Orderly all bound V a) (id : VarId) : b.content? id = a.content? id := by
  have any : Orderly all bound (fun _ _ => True) a := h.mono fun _ _ _ _ _ _ => trivial
  clear h
  induction hs with
  | refl => rfl
  | fill hq _ _ ih => exact (ih (any.fillIn unique hq trivial)).trans (content?_fillIn (any.awaited _ hq) id)

/-- In settling, values that are right go on being right, and a relation that gets a value gets one that is right. -/
theorem Settles.sound (hs : Settles a b) (h : Orderly all bound (fun r bits => r.Sound all a bits) a)
    (own : ∀ r, .relation r ∈ all → r.rule.readsLengthsOnly = false → r.IsFixed ∨
      ∀ t ∈ r.targets, ∀ content, a.content? t = some content → .slot r.id ∉ content.atoms) :
    Orderly all bound (fun r bits => r.Sound all b bits) b ∧
      ∀ r, .relation r ∈ all → ∀ bits, r.Sound all a bits → r.Sound all b bits := by
  induction hs with
  | refl => exact ⟨h, fun _ _ _ hv => hv⟩
  | @fill a b q value hq hc hs ih =>
    have hqm := h.mem q hq
    have awaited := h.awaited q hq
    have kept {r : Relation} (hr : .relation r ∈ all) {bits : BitString} (hv : r.Sound all a bits) :
        r.Sound all (a.fillIn q.id value) bits :=
      hv.fillIn hqm awaited hc (fun he => Variable.relation.inj (unique hqm hr he)) (own r hr)
    have next : Orderly all bound (fun r bits => r.Sound all (a.fillIn q.id value) bits) (a.fillIn q.id value) :=
      (h.mono fun r hr _ _ _ hv => kept hr hv).fillIn unique hq (kept hqm hc.sound)
    obtain ⟨orderly, sound⟩ := ih next fun r hr hl => (own r hr hl).imp_right fun ho t ht content hcontent =>
      ho t ht content ((content?_fillIn awaited t).symm.trans hcontent)
    exact ⟨orderly, fun r hr bits hv => sound r hr bits (kept hr hv)⟩

end Unique

end WireGrammar.Assignment
