import Mathlib.Data.List.Basic
import WireGrammar.Generation
import WireGrammar.Proofs.Assignment.Growth
import WireGrammar.Proofs.DataType.Draw
import WireGrammar.Proofs.Relation.Stability

/-!
# What generation returns

Conditions on whatever generation returns from mutators of some kind (`Returns`), above all given which leaves have a
mutator (`Yields`), with one law for each way to put computations together, and what settling does to an assignment: it
fills in values, each of them what its relation computes at that moment (`Settles`), and when it ends all relations that
still wait have to (`settled_yields`).

* `Bindings`: the leaves that have a mutator. Generation never changes which ones these are.
-/

namespace WireGrammar

/-! ## Mutators -/

/-- Which leaves have a mutator, if there are mutators at all. -/
abbrev Bindings : Type :=
  Option (VarId → Bool)

/-- Whether a leaf is among them. -/
def Bindings.has (bound : Bindings) (id : VarId) : Bool :=
  bound.any (· id)

/-- Whether a leaf has a mutator. -/
def Mutators.hasLeaf (m : Mutators) (id : VarId) : Bool :=
  (m.leaves.lookup id).isSome

/-- The leaves that the mutators of a supply are bound to. -/
def Supply.bindings {ρ : Type} (supply : Supply ρ) : Bindings :=
  supply.mutators?.map Mutators.hasLeaf

theorem Mutators.hasLeaf_congr {m next : Mutators} (h : next.leaves = m.leaves) : next.hasLeaf = m.hasLeaf := by
  funext id
  rw [hasLeaf, h, hasLeaf]

theorem Mutators.lookup_bind {α : Type} (id other : VarId) (mutator : α) (bindings : List (VarId × α)) :
    (bind id mutator bindings).lookup other = if other = id then some mutator else bindings.lookup other := by
  unfold bind
  rw [List.lookup_cons, Store.lookup_filter_ne]
  by_cases h : other = id
  · simp [h]
  · rw [beq_eq_false_iff_ne.mpr h, if_neg h, if_neg h]

/-- A leaf that has a mutator has one again after it was used. -/
theorem Mutators.hasLeaf_bindLeaf {m : Mutators} {id : VarId} (h : m.hasLeaf id = true) (mutator : LeafMutator) :
    (m.bindLeaf id mutator).hasLeaf = m.hasLeaf := by
  funext other
  change ((bind id mutator m.leaves).lookup other).isSome = m.hasLeaf other
  rw [lookup_bind]
  by_cases he : other = id
  · rw [if_pos he, he, h]
    rfl
  · rw [if_neg he]
    rfl

/-- To pick a child leaves the mutators of leaves alone. -/
theorem Mutators.leaves_pickChild? {m next : Mutators} {id : VarId} {children : Nat} {result : Except MutationError Nat}
    (h : m.pickChild? id children = some (result, next)) : next.leaves = m.leaves := by
  obtain ⟨source, -, he⟩ := Option.map_eq_some_iff.mp h
  split at he <;> cases he <;> rfl

/-- To pick a count leaves the mutators of leaves alone. -/
theorem Mutators.leaves_pickCount? {m next : Mutators} {id : VarId} {result : Except MutationError Nat}
    (h : m.pickCount? id = some (result, next)) : next.leaves = m.leaves := by
  obtain ⟨source, -, he⟩ := Option.map_eq_some_iff.mp h
  cases he
  rfl

/-! ## Conditions on results -/

section Returns

variable {ρ α β : Type} {J : Option Mutators → Prop} {P P' : α → Prop} {Q : β → Prop}

/-- Two computations one after the other: the second goes on from what the first leaves, unless that fails. -/
theorem run_run_bind {ε σ : Type} (r : ExceptT ε (StateM σ) α) (f : α → ExceptT ε (StateM σ) β) (s : σ) :
    (ExceptT.run (r >>= f)).run s = match r.run.run s with
      | (.ok x, next) => (f x).run.run next
      | (.error e, next) => (.error e, next) := by
  change StateT.bind r.run (ExceptT.bindCont f) s = _
  unfold StateT.bind
  change ExceptT.bindCont f (r.run.run s).1 (r.run.run s).2 = _
  cases r.run.run s with
  | mk result next => cases result <;> rfl

theorem Gen.run_bind (g : Gen ρ α) (f : α → Gen ρ β) (supply : Supply ρ) :
    (g >>= f).run.run supply = match g.run.run supply with
      | (.ok x, next) => (f x).run.run next
      | (.error e, next) => (.error e, next) := by
  rw [run_run_bind]
  rcases g.run.run supply with ⟨result, next⟩
  cases result <;> rfl

/-- What is returned by two computations one after the other is returned by the second from what the first leaves. -/
theorem Gen.ok_of_bind {g : Gen ρ α} {f : α → Gen ρ β} {supply last : Supply ρ} {y : β}
    (h : (g >>= f).run.run supply = (.ok y, last)) :
    ∃ x next, g.run.run supply = (.ok x, next) ∧ (f x).run.run next = (.ok y, last) := by
  rw [run_bind] at h
  split at h
  next x next hg => exact ⟨x, next, hg, h⟩
  next => cases h

/-- When two computations one after the other fail, then one of them does. -/
theorem Gen.error_of_bind {g : Gen ρ α} {f : α → Gen ρ β} {supply last : Supply ρ} {e : GenerationError}
    (h : (g >>= f).run.run supply = (.error e, last)) :
    g.run.run supply = (.error e, last) ∨
      ∃ x next, g.run.run supply = (.ok x, next) ∧ (f x).run.run next = (.error e, last) := by
  rw [run_bind] at h
  split at h
  next x next hg => exact Or.inr ⟨x, next, hg, h⟩
  next e' next hg =>
    cases h
    exact Or.inl hg

/-- The same of two computations that settle relations. -/
theorem Settling.run_bind (m : Settling ρ α) (f : α → Settling ρ β) (a : Assignment) (source : ρ) :
    ((m >>= f).run.run a).run source = match (m.run.run a).run source with
      | ((.ok x, b), next) => ((f x).run.run b).run next
      | ((.error e, b), next) => ((.error e, b), next) := by
  change (ExceptT.bindCont f ((m.run.run a).run source).1.1 ((m.run.run a).run source).1.2).run
    ((m.run.run a).run source).2 = _
  obtain ⟨⟨result, b⟩, next⟩ := (m.run.run a).run source
  cases result <;> rfl

/-- From mutators of some kind, whatever is returned satisfies a condition, and the mutators are still of that kind. -/
def Returns (J : Option Mutators → Prop) (g : Gen ρ α) (P : α → Prop) : Prop :=
  ∀ supply, J supply.mutators? → ∀ x next, g.run.run supply = (.ok x, next) → J next.mutators? ∧ P x

namespace Returns

theorem pure {x : α} (h : P x) : Returns (ρ := ρ) J (Pure.pure x) P := by
  intro supply hs y next hy
  cases hy
  exact ⟨hs, h⟩

theorem throw (e : GenerationError) : Returns (ρ := ρ) J (MonadExcept.throw e) P := by
  intro supply hs y next hy
  cases hy

theorem bind {g : Gen ρ α} {f : α → Gen ρ β} (h : Returns J g P) (hf : ∀ x, P x → Returns J (f x) Q) :
    Returns J (g >>= f) Q := by
  intro supply hs y last hy
  obtain ⟨x, next, hx, hy⟩ := Gen.ok_of_bind hy
  obtain ⟨hn, hx⟩ := h supply hs x next hx
  exact hf x hx next hn y last hy

theorem mono {g : Gen ρ α} (h : Returns J g P) (hp : ∀ x, P x → P' x) : Returns J g P' := by
  intro supply hs x next hx
  obtain ⟨hn, hp'⟩ := h supply hs x next hx
  exact ⟨hn, hp x hp'⟩

end Returns

/-- Whatever is returned with mutators of the given leaves satisfies a condition. -/
def Yields (bound : Bindings) (g : Gen ρ α) (P : α → Prop) : Prop :=
  ∀ supply, supply.bindings = bound → ∀ x next, g.run.run supply = (.ok x, next) → next.bindings = bound ∧ P x

/-- The kind of mutators is here which leaves they are bound to. -/
theorem yields_iff_returns {bound : Bindings} {g : Gen ρ α} :
    Yields bound g P ↔ Returns (fun mutators? => mutators?.map Mutators.hasLeaf = bound) g P :=
  Iff.rfl

namespace Yields

variable {bound : Bindings}

theorem pure {x : α} (h : P x) : Yields (ρ := ρ) bound (Pure.pure x) P :=
  yields_iff_returns.mpr (.pure h)

theorem throw (e : GenerationError) : Yields (ρ := ρ) bound (MonadExcept.throw e) P :=
  yields_iff_returns.mpr (.throw e)

theorem bind {g : Gen ρ α} {f : α → Gen ρ β} (h : Yields bound g P) (hf : ∀ x, P x → Yields bound (f x) Q) :
    Yields bound (g >>= f) Q :=
  yields_iff_returns.mpr (Returns.bind h hf)

theorem mono {g : Gen ρ α} (h : Yields bound g P) (hp : ∀ x, P x → P' x) : Yields bound g P' :=
  yields_iff_returns.mpr (Returns.mono h hp)

end Yields

end Returns

namespace Generation

variable {ρ α : Type} {J : Option Mutators → Prop} {bound : Bindings}

/-- What mutators return and leave behind is what the one that has a say does. -/
theorem fromMutators?_run (pick : Mutators → Option (Except MutationError α × Mutators)) (supply : Supply ρ) :
    (fromMutators? pick).run.run supply = match supply.mutators?.bind pick with
      | none => (.ok none, supply)
      | some (.ok x, m) => (.ok (some x), { supply with mutators? := some m })
      | some (.error e, m) => (.error (.mutation e), { supply with mutators? := some m }) := by
  have supplied : (get : Gen ρ (Supply ρ)).run.run supply = (.ok supply, supply) := rfl
  unfold fromMutators?
  rw [Gen.run_bind, supplied]
  dsimp only
  cases supply.mutators?.bind pick with
  | none => rfl
  | some p =>
    obtain ⟨result, m⟩ := p
    cases result <;> rfl

theorem fromSource_returns {P : α → Prop} {draw : StateM ρ α} (h : Draws draw P) : Returns J (fromSource draw) P := by
  intro supply hs x next hx
  cases hx
  exact ⟨hs, h supply.source⟩

theorem fromSource_yields {P : α → Prop} {draw : StateM ρ α} (h : Draws draw P) :
    Yields bound (fromSource draw) P :=
  yields_iff_returns.mpr (fromSource_returns h)

/-- What mutators may leave behind and return, and what is returned where they have no say. -/
theorem fromMutators?_returns {P : Option α → Prop} {pick : Mutators → Option (Except MutationError α × Mutators)}
    (without : J none → P none)
    (picks : ∀ m, J (some m) → (pick m = none → P none) ∧
      ∀ result next, pick m = some (result, next) → J (some next) ∧ ∀ x, result = .ok x → P (some x)) :
    Returns (ρ := ρ) J (fromMutators? pick) P := by
  intro supply hs x last hx
  rw [fromMutators?_run] at hx
  cases hm : supply.mutators? with
  | none =>
    rw [hm] at hx hs
    cases hx
    exact ⟨hm.symm ▸ hs, without hs⟩
  | some m =>
    rw [hm] at hx hs
    obtain ⟨quiet, picked⟩ := picks m hs
    rw [Option.bind_some] at hx
    cases hp : pick m with
    | none =>
      rw [hp] at hx
      cases hx
      exact ⟨hm.symm ▸ hs, quiet hp⟩
    | some p =>
      obtain ⟨result, next⟩ := p
      obtain ⟨kept, value⟩ := picked result next hp
      rw [hp] at hx
      cases result with
      | error e => cases hx
      | ok y =>
        cases hx
        exact ⟨kept, value y rfl⟩

theorem fromMutators?_yields {P : Option α → Prop} {pick : Mutators → Option (Except MutationError α × Mutators)}
    (without : bound = none → P none)
    (picks : ∀ m, bound = some m.hasLeaf → (pick m = none → P none) ∧
      ∀ result next, pick m = some (result, next) → next.hasLeaf = m.hasLeaf ∧ ∀ x, P (some x)) :
    Yields (ρ := ρ) bound (fromMutators? pick) P := by
  refine yields_iff_returns.mpr (fromMutators?_returns (fun h => without h.symm) fun m hm => ?_)
  obtain ⟨quiet, picked⟩ := picks m hm.symm
  refine ⟨quiet, fun result next hp => ?_⟩
  obtain ⟨kept, value⟩ := picked result next hp
  exact ⟨(congrArg some kept).trans hm, fun x _ => value x⟩

/-- The mutator of a leaf has a say exactly when there is one. -/
theorem fromLeaf?_yields (id : VarId) (use : LeafMutator → Except MutationError BitString × LeafMutator) :
    Yields (ρ := ρ) bound (fromLeaf? id use) (·.isSome = bound.has id) := by
  refine fromMutators?_yields (fun h => by rw [h]; rfl) fun m hm => ?_
  have has : bound.has id = m.hasLeaf id := by rw [hm]; rfl
  rw [has]
  refine ⟨fun h => ?_, fun result next h => ?_⟩
  · rw [Mutators.hasLeaf, Option.map_eq_none_iff.mp h]
    rfl
  · obtain ⟨mutator, hl, he⟩ := Option.map_eq_some_iff.mp h
    have own : m.hasLeaf id = true := by rw [Mutators.hasLeaf, hl]; rfl
    cases he
    exact ⟨Mutators.hasLeaf_bindLeaf own _, fun x => own.symm⟩

theorem mode?_yields (id : VarId) : Yields (ρ := ρ) bound (mode? id) (·.isSome = bound.has id) := by
  intro supply hs x next hx
  cases hx
  refine ⟨hs, ?_⟩
  rw [← hs, Supply.bindings]
  cases supply.mutators? with
  | none => rfl
  | some m =>
    change ((m.leaves.lookup id).map LeafMutator.mode).isSome = m.hasLeaf id
    rw [Option.isSome_map, Mutators.hasLeaf]

end Generation

/-! ## Settling -/

namespace Assignment

variable {a b c : Assignment}

/-- Values are filled in for some of the relations that wait, each as the relation computes it at that moment. -/
inductive Settles : Assignment → Assignment → Prop where
  | refl (a : Assignment) : Settles a a
  | fill {a b : Assignment} {r : Relation} {bits : BitString} (hr : r ∈ a.pending) (hc : r.Computes a bits)
    (h : Settles (a.fillIn r.id bits) b) : Settles a b

theorem Settles.trans (h₁ : Settles a b) (h₂ : Settles b c) : Settles a c := by
  induction h₁ with
  | refl => exact h₂
  | fill hr hc _ ih => exact .fill hr hc (ih h₂)

/-- Filling in a value takes relations out of those that wait, and puts none there. -/
theorem Settles.pending_sublist (h : Settles a b) : b.pending.Sublist a.pending := by
  induction h with
  | refl => exact List.Sublist.refl _
  | fill hr hc _ ih => exact ih.trans List.filter_sublist

theorem Settles.grows (h : Settles a b) : Grows (a.pending.map (·.id)) a b := by
  induction h with
  | refl => exact Grows.refl _ _
  | @fill a b r bits hr hc _ ih =>
    have step : Grows (a.pending.map (·.id)) a (a.fillIn r.id bits) :=
      ((Grows.refl _ a).setCell (List.mem_map_of_mem hr) _).of_pending _
    exact step.trans (ih.mono (List.map_subset _ List.filter_sublist.subset))

/-- No two relations that wait go by one identity. -/
def Distinct (a : Assignment) : Prop :=
  (a.pending.map (·.id)).Nodup

theorem Distinct.sublist (h : a.Distinct) (hs : b.pending.Sublist a.pending) : b.Distinct :=
  List.Nodup.sublist (hs.map _) h

end Assignment

section Rounds

open Assignment

variable {ρ α β : Type}

/-- Whatever is returned, with the assignment that is left behind, satisfies a condition. -/
def Leaves (m : Settling ρ α) (a : Assignment) (P : α → Assignment → Prop) : Prop :=
  Draws (m.run.run a) fun p => ∀ x, p.1 = .ok x → P x p.2

namespace Leaves

variable {a : Assignment} {P : α → Assignment → Prop} {Q : β → Assignment → Prop}

theorem pure {x : α} (h : P x a) : Leaves (ρ := ρ) (Pure.pure x) a P := by
  rintro g y hy
  cases hy
  exact h

theorem throw (e : GenerationError) : Leaves (ρ := ρ) (MonadExcept.throw e) a P := by
  rintro g y hy
  cases hy

theorem bind {m : Settling ρ α} {f : α → Settling ρ β} (h : Leaves m a P) (hf : ∀ x b, P x b → Leaves (f x) b Q) :
    Leaves (m >>= f) a Q := by
  intro g y hy
  rw [Settling.run_bind] at hy ⊢
  have hm := h g
  generalize (m.run.run a).run g = left at hm hy ⊢
  obtain ⟨⟨result, b⟩, next⟩ := left
  cases result with
  | error e => cases hy
  | ok x => exact hf x b (hm x rfl) next y hy

theorem get : Leaves (ρ := ρ) MonadState.get a fun x b => x = a ∧ b = a := by
  rintro g y hy
  cases hy
  exact ⟨rfl, rfl⟩

theorem update (f : Assignment → Assignment) : Leaves (ρ := ρ) (modify f) a fun _ b => b = f a := by
  rintro g y hy
  cases hy
  rfl

theorem draw {D : α → Prop} {m : StateM ρ α} (h : Draws m D) : Leaves (m : Settling ρ α) a fun x b => D x ∧ b = a := by
  rintro g y hy
  cases hy
  exact ⟨h g, rfl⟩

end Leaves

/-- What fills a place has the length of the place. -/
theorem length_drawFill [RandomSource ρ] (r : Relation) (n : Nat) : Draws (ρ := ρ) (r.drawFill n) (·.length = n) := by
  refine (Draws.any _).bind fun drawn _ => Draws.pure ?_
  rw [BitString.length_append, BitString.length_slice]
  change _ + (n - _) = n
  omega

variable [RandomSource ρ] {a : Assignment}

/-- A round fills in values; when it fills in none, all relations of the list have to wait. -/
theorem settleRound_leaves (rs : List Relation) (a : Assignment) (hs : rs ⊆ a.pending) (hn : (rs.map (·.id)).Nodup) :
    Leaves (ρ := ρ) (settleRound rs) a fun filled b => Settles a b ∧
      (filled = false → b = a ∧ ∀ r ∈ rs, r.evaluate a = .ok .waiting) ∧
      (filled = true → b.pending.length < a.pending.length) := by
  induction rs generalizing a with
  | nil => exact Leaves.pure ⟨.refl a, fun _ => ⟨rfl, by simp⟩, by simp⟩
  | cons r rest ih =>
    obtain ⟨hr, hrest⟩ := List.cons_subset.mp hs
    obtain ⟨apart, hn⟩ := List.nodup_cons.mp hn
    have filled (bits : BitString) (hc : r.Computes a bits) :
        Leaves (ρ := ρ) (do discard (settleRound rest); return true) (a.fillIn r.id bits) fun filled b =>
          Settles a b ∧ (filled = false → b = a ∧ ∀ q ∈ r :: rest, q.evaluate a = .ok .waiting) ∧
            (filled = true → b.pending.length < a.pending.length) := by
      have kept : rest ⊆ (a.fillIn r.id bits).pending := fun q hq =>
        List.mem_filter.mpr ⟨hrest hq, bne_iff_ne.mpr fun he => apart (List.mem_map.mpr ⟨q, hq, he⟩)⟩
      refine Leaves.bind (P := fun _ b => Settles (a.fillIn r.id bits) b) ?_ fun _ b hb =>
        Leaves.pure ⟨.fill hr hc hb, by simp, fun _ => ?_⟩
      · refine Leaves.bind (ih (a.fillIn r.id bits) kept hn) fun _ b hb => Leaves.pure hb.1
      · refine Nat.lt_of_le_of_lt hb.pending_sublist.length_le ?_
        refine List.length_filter_lt_length_iff_exists.mpr ⟨r, hr, ?_⟩
        simp
    rw [settleRound]
    refine Leaves.get.bind fun x b hx => ?_
    obtain ⟨rfl, rfl⟩ := hx
    split
    next e h => exact Leaves.throw _
    next h =>
      intro g x hx
      obtain ⟨hs, hf, ht⟩ := ih b hrest hn g x hx
      exact ⟨hs, fun hn => ⟨(hf hn).1, List.forall_mem_cons.mpr ⟨h, (hf hn).2⟩⟩, ht⟩
    next bits h =>
      refine (Leaves.update _).bind fun _ c hc => ?_
      rw [hc]
      exact filled bits (Or.inl h)
    next n h =>
      refine (Leaves.draw (length_drawFill r n)).bind fun bits c hc => ?_
      refine (Leaves.update _).bind fun _ d hd => ?_
      rw [hd, hc.2]
      exact filled bits (Or.inr ⟨n, h, hc.1⟩)

/-- As many rounds as relations wait are enough. -/
theorem settleRounds_leaves (n : Nat) (a : Assignment) (hd : a.Distinct) :
    Leaves (ρ := ρ) (settleRounds n) a fun _ b => Settles a b ∧
      (a.pending.length ≤ n → ∀ r ∈ b.pending, r.evaluate b = .ok .waiting) := by
  induction n generalizing a with
  | zero =>
    refine Leaves.pure ⟨.refl a, fun h => ?_⟩
    rw [List.eq_nil_of_length_eq_zero (Nat.le_zero.mp h)]
    simp
  | succ n ih =>
    rw [settleRounds]
    refine Leaves.get.bind fun x b hx => ?_
    obtain ⟨rfl, rfl⟩ := hx
    refine (settleRound_leaves b.pending b (List.Subset.refl _) hd).bind fun filled c hc => ?_
    obtain ⟨hs, hf, ht⟩ := hc
    cases filled with
    | false =>
      obtain ⟨rfl, hw⟩ := hf rfl
      exact Leaves.pure ⟨hs, fun _ => hw⟩
    | true =>
      intro g x hx
      obtain ⟨hs', hn⟩ := ih c (hd.sublist hs.pending_sublist) g x hx
      have hlt := ht rfl
      exact ⟨hs.trans hs', fun hl => hn (by omega)⟩

/-- All relations that wait have been given a value, as far as they can be computed. -/
def Assignment.Settled (a b : Assignment) : Prop :=
  Settles a b ∧ ∀ r ∈ b.pending, r.evaluate b = .ok .waiting

/-- Settling fills in values of relations that wait, until all that are left have to wait. -/
theorem Generation.settled_returns {J : Option Mutators → Prop} (a : Assignment) (hd : a.Distinct) :
    Returns (ρ := ρ) J (Generation.settled a) (Settled a) := by
  have h : Draws (ρ := ρ) a.settle fun p => p.1 = .ok () → Settled a p.2 := by
    intro g hp
    obtain ⟨hs, hw⟩ := settleRounds_leaves a.pending.length a hd g () hp
    exact ⟨hs, hw (Nat.le_refl _)⟩
  refine (Generation.fromSource_returns h).bind fun p hp => ?_
  obtain ⟨result, b⟩ := p
  cases result with
  | error e => exact Returns.throw e
  | ok x => exact Returns.pure (hp rfl)

theorem Generation.settled_yields {bound : Bindings} (a : Assignment) (hd : a.Distinct) :
    Yields (ρ := ρ) bound (Generation.settled a) (Settled a) :=
  yields_iff_returns.mpr (settled_returns a hd)

end Rounds

end WireGrammar
