import Mathlib.Data.List.Forall2
import WireGrammar.Proofs.Assignment.Content
import WireGrammar.Proofs.Assignment.Growth
import WireGrammar.Proofs.Variable.Tree

/-!
# What the value of a relation depends on

A relation reads its targets: the contents recorded for them, the cells of the relations that have a slot in these, and
its own length where it refers to itself. So what is added for other variables does not change its value
(`Grows.evaluate_eq`, `Grows.agrees?_eq`).

* `Assignment.Homed`: the slots in the content of a variable are those of relations below it.
-/

namespace WireGrammar

namespace Assignment

variable {a b : Assignment} {ids : List VarId}

/-- The bits of a content depend only on its slots. -/
theorem flatten_congr {c : Content} (h : ∀ id, Atom.slot id ∈ c.atoms → b.cell? id = a.cell? id)
    (exclude : Option VarId) : b.flatten c exclude = a.flatten c exclude := by
  have bits {id : VarId} (hid : Atom.slot id ∈ c.atoms) : b.slotBits? exclude id = a.slotBits? exclude id := by
    rw [slotBits?, chunkBits?, h id hid, slotBits?, chunkBits?]
  refine Option.ext fun value => ?_
  rw [flatten_eq_some_iff, flatten_eq_some_iff]
  refine and_congr (forall₂_congr fun id hid => by rw [bits hid]) ?_
  rw [Atom.fill_congr fun id hid => by rw [bits hid]]

/-- What is known of a variable does not depend on the given ones: neither it nor a slot in its content is one. -/
def Apart (a : Assignment) (ids : List VarId) (id : VarId) : Prop :=
  id ∉ ids ∧ ∀ content, a.entry? id = some (.content content) → ∀ q, .slot q ∈ content.atoms → q ∉ ids

/-- No slot that a variable shows is one of the given ones. -/
theorem Apart.slot_notMem {t q : VarId} {content : Content} (h : a.Apart ids t) (hc : a.content? t = some content)
    (hq : .slot q ∈ content.atoms) : q ∉ ids := by
  unfold content? at hc
  obtain ⟨entry, he, hc⟩ := Option.map_eq_some_iff.mp hc
  cases entry with
  | content own =>
    cases hc
    exact h.2 _ he q hq
  | cell cell =>
    cases hc
    rw [Content.atoms_slot, List.mem_singleton] at hq
    cases hq
    exact h.1

section Targets

variable (hg : Grows ids a b) {t : VarId} (ht : a.Apart ids t)

include hg ht

theorem Grows.length?_eq : b.length? t = a.length? t := by
  unfold length?
  rw [hg.entry?_eq ht.1]
  cases he : a.entry? t with
  | none => rfl
  | some entry =>
    cases entry with
    | cell cell => rfl
    | content content => exact measure_congr fun q hq => hg.cell?_eq (ht.2 content he q hq)

theorem Grows.targetBits?_eq (exclude : VarId) : b.targetBits? t exclude = a.targetBits? t exclude := by
  unfold targetBits?
  rw [hg.entry?_eq ht.1, hg.scope, hg.known?_eq ht.1]
  cases he : a.entry? t with
  | none => rfl
  | some entry =>
    cases entry with
    | cell cell => rfl
    | content content => exact flatten_congr (fun q hq => hg.cell?_eq (ht.2 content he q hq)) _

theorem Grows.targetLength?_eq_of_apart : b.targetLength? t = a.targetLength? t := by
  unfold targetLength?
  rw [hg.entry?_eq ht.1, hg.scope, hg.known?_eq ht.1, hg.length?_eq ht]

end Targets

/-- The slots in the contents of variables are those of relations below them. -/
def Homed (vars : List Variable) (a : Assignment) : Prop :=
  ∀ v ∈ vars, ∀ content, a.entry? v.id = some (.content content) → ∀ q, .slot q ∈ content.atoms → q ∈ v.ids

theorem Homed.congr {vars : List Variable} (h : a.Homed vars) (he : b.entries = a.entries) : b.Homed vars :=
  fun v hv content hc => h v hv content (by unfold entry? at hc; rwa [he] at hc)

end Assignment

section Lists

variable {α β : Type} {f g : α → Option β} {xs : List α}

theorem mapM_congr_mem (h : ∀ x ∈ xs, f x = g x) : xs.mapM f = xs.mapM g := by
  induction xs with
  | nil => rfl
  | cons x xs ih =>
    obtain ⟨hx, hxs⟩ := List.forall_mem_cons.mp h
    rw [List.mapM_cons, List.mapM_cons, hx, ih hxs]

theorem mapM_eq_some_iff {ys : List β} : xs.mapM f = some ys ↔ List.Forall₂ (fun x y => f x = some y) xs ys := by
  induction xs generalizing ys with
  | nil => simp [eq_comm]
  | cons x xs ih =>
    simp only [List.mapM_cons, Option.bind_eq_bind, Option.bind_eq_some_iff, Option.pure_def, Option.some.injEq, ih]
    constructor
    · rintro ⟨y, hy, rest, hrest, rfl⟩
      exact .cons hy hrest
    · rintro (_ | ⟨hy, hrest⟩)
      exact ⟨_, hy, _, hrest, rfl⟩

theorem exists_of_mem_mapM {ys : List β} (h : xs.mapM f = some ys) {y : β} (hy : y ∈ ys) : ∃ x ∈ xs, f x = some y := by
  replace h := mapM_eq_some_iff.mp h
  induction h with
  | nil => cases hy
  | cons hx _ ih =>
    rcases List.mem_cons.mp hy with rfl | hy
    · exact ⟨_, List.mem_cons_self, hx⟩
    · obtain ⟨x, hm, hfx⟩ := ih hy
      exact ⟨x, List.mem_cons_of_mem _ hm, hfx⟩

theorem isSome_mapM : (xs.mapM f).isSome ↔ ∀ x ∈ xs, (f x).isSome := by
  induction xs with
  | nil => simp
  | cons x xs ih =>
    rw [List.mapM_cons, List.forall_mem_cons, ← ih]
    cases f x with
    | none => simp
    | some y => cases xs.mapM f <;> simp

end Lists

namespace Relation

open Assignment

variable {a b : Assignment} {r : Relation}

/-- The bits are what the relation computes from an assignment, as far as that determines them. -/
def Computes (r : Relation) (a : Assignment) (bits : BitString) : Prop :=
  r.evaluate a = .ok (.ready bits) ∨ ∃ n, r.evaluate a = .ok (.length n) ∧ bits.length = n

theorem Computes.not_waiting {bits : BitString} (h : r.Computes a bits) : r.evaluate a ≠ .ok .waiting := by
  rcases h with h | ⟨n, h, -⟩ <;> rw [h] <;> nofun

theorem Computes.congr {bits : BitString} (h : r.Computes a bits) (he : r.evaluate b = r.evaluate a) :
    r.Computes b bits := by
  rwa [Computes, he]

/-- A relation that agrees holds what it computes. -/
theorem computes_of_agrees {bits : BitString} (h : r.agrees? a = some true) (hc : a.cell? r.id = some (.known bits)) :
    r.Computes a bits := by
  unfold agrees? at h
  rw [hc] at h
  dsimp only at h
  split at h
  next => cases h
  next expected he =>
    have agree : some bits = some expected := eq_of_beq (Option.some.inj h)
    cases agree
    exact Or.inl he
  next n he =>
    have agree : some bits.length = some n := eq_of_beq (Option.some.inj h)
    cases agree
    exact Or.inr ⟨_, he, rfl⟩
  next => cases h

theorem Computes.agrees {bits : BitString} (h : r.Computes a bits) (hc : a.cell? r.id = some (.known bits)) :
    r.agrees? a = some true := by
  unfold agrees?
  rcases h with h | ⟨n, h, hn⟩ <;> rw [h, hc]
  · simp [Cell.bits?]
  · simp [Cell.length?, hn]

/-- Whether the value depends on the length of the relation itself: it is among its targets, and its rule reads it. -/
def ReadsItself (r : Relation) : Prop :=
  r.id ∈ r.targets ∧
    match r.rule with
    | .copy | .padding .. => False
    | .size _ | .internetChecksum | .crc32 | .keyedDigest .. => True

/-- The value of a relation depends on the bits and lengths of its targets, and on its own length if it reads that. -/
theorem evaluate_congr (hb : ∀ t ∈ r.targets, t ≠ r.id → b.targetBits? t r.id = a.targetBits? t r.id)
    (hl : ∀ t ∈ r.targets, t ≠ r.id → b.targetLength? t = a.targetLength? t)
    (ho : r.ReadsItself → r.ownLength? b = r.ownLength? a) : r.evaluate b = r.evaluate a := by
  have bits (ho : r.id ∈ r.targets → r.ownLength? b = r.ownLength? a) : r.targetsBits? b = r.targetsBits? a := by
    unfold targetsBits?
    rw [mapM_congr_mem fun t ht => ?_]
    by_cases h : t = r.id
    · rw [if_pos h, if_pos h, ho (h ▸ ht)]
    · rw [if_neg h, if_neg h, hb t ht h]
  have lengths {x y : Option Nat} (ho : r.id ∈ r.targets → x = y) : r.targetsLength? b x = r.targetsLength? a y := by
    unfold targetsLength?
    rw [mapM_congr_mem fun t ht => ?_]
    by_cases h : t = r.id
    · rw [if_pos h, if_pos h, ho (h ▸ ht)]
    · rw [if_neg h, if_neg h, hl t ht h]
  unfold ReadsItself at ho
  unfold evaluate
  split
  next scale hr => rw [lengths fun h => ho ⟨h, by rw [hr]; trivial⟩]
  next hr =>
    split
    next t ht =>
      by_cases h : t = r.id
      · rw [if_pos h, if_pos h]
      · rw [if_neg h, if_neg h, hb t (by rw [ht]; exact List.mem_singleton_self t) h]
    next => rfl
  next hr => rw [bits fun h => ho ⟨h, by rw [hr]; trivial⟩]
  next hr => rw [bits fun h => ho ⟨h, by rw [hr]; trivial⟩]
  next algorithm key hr => rw [bits fun h => ho ⟨h, by rw [hr]; trivial⟩]
  next modulo once scale hr => rw [lengths fun _ => rfl]

end Relation

namespace Assignment.Grows

variable {a b : Assignment} {ids : List VarId} {r : Relation}

/-- What is added apart from the targets of a relation does not change its value. -/
theorem evaluate_eq (hg : Grows ids a b) (ht : ∀ t ∈ r.targets, t ≠ r.id → a.Apart ids t)
    (ho : r.ReadsItself → r.id ∉ ids) : r.evaluate b = r.evaluate a := by
  refine Relation.evaluate_congr (fun t h hne => hg.targetBits?_eq (ht t h hne) _)
    (fun t h hne => hg.targetLength?_eq_of_apart (ht t h hne)) fun h => ?_
  rw [Relation.ownLength?, hg.cell?_eq (ho h), Relation.ownLength?]

/-- What is added apart from a relation and its targets does not change whether its bits are what it computes. -/
theorem agrees?_eq (hg : Grows ids a b) (ht : ∀ t ∈ r.targets, t ≠ r.id → a.Apart ids t) (hr : r.id ∉ ids) :
    r.agrees? b = r.agrees? a := by
  unfold Relation.agrees?
  rw [hg.evaluate_eq ht fun _ => hr, hg.cell?_eq hr]

end Assignment.Grows

end WireGrammar
