import WireGrammar.Proofs.Generation.Placeholders
import WireGrammar.Proofs.Relation.Below

/-!
# Settling does not depend on the order

Each round of settling visits the relations that wait one after the other, and each value filled in may let others be
computed, wherever they stand. Yet the order decides nothing. Where an end is reached in which announced lengths are
kept, every relation that got a value there computes this value from all that is known at the end, with its own cell
still a placeholder (`Assignment.EndsIn`). Whatever is filled in on another way to settle computes the same, because it
lies below this end (`EndsIn.fillIn`): no relation fails there, and the other way has the same end
(`settle_order_independent`). So a relation fails in all orders or in none.

* `settle_loop`: the rounds come to an end, so that their number need not be limited.
* `Registered.settlesInLength`: sizes, checksums and digests keep the lengths that are announced for them.
-/

namespace WireGrammar

namespace Assignment

variable {a b e : Assignment} {r : Relation} {bits : BitString}

/-! ## Placeholders -/

/-- The same state with the relations that wait in another order. -/
def inOrder (a : Assignment) (order : List Relation) : Assignment :=
  { a with pending := order }

/-- The relations that wait, as generation registers them: each once, with a placeholder for its value, which does not
have to be drawn. -/
structure Registered (a : Assignment) : Prop where
  distinct : a.Distinct
  awaited : ∀ r ∈ a.pending, ∃ announced?, a.cell? r.id = some (.awaited announced?)
  closed : ∀ r ∈ a.pending, ¬ r.IsOpenPadding

/-- So they are registered wherever generation settles them, if no padding leaves its unit open. -/
theorem Orderly.registered {all : List Variable} {bound : Bindings} {V : Relation → BitString → Prop}
    (h : Orderly all bound V a) (closed : ∀ r, .relation r ∈ all → ¬ r.IsOpenPadding) : a.Registered where
  distinct := h.distinct
  awaited := fun r hr => ⟨_, h.awaited r hr⟩
  closed := fun r hr => closed r (h.mem r hr)

theorem Distinct.eq_of_id (h : a.Distinct) {q : Relation} (hq : q ∈ a.pending) (hr : r ∈ a.pending) (he : q.id = r.id) :
    q = r :=
  List.inj_on_of_nodup_map h hq hr he

theorem mem_pending_fillIn {id : VarId} {q : Relation} :
    q ∈ (a.fillIn id bits).pending ↔ q ∈ a.pending ∧ q.id ≠ id := by
  show q ∈ a.pending.filter _ ↔ _
  rw [List.mem_filter, bne_iff_ne]

theorem cell?_fillIn_of_mem {id : VarId} {q : Relation} (hq : q ∈ (a.fillIn id bits).pending) :
    (a.fillIn id bits).cell? q.id = a.cell? q.id := by
  rw [cell?_fillIn, if_neg (mem_pending_fillIn.mp hq).2]

/-- The relation that got its value waits no more, and the others wait as before. -/
theorem Registered.fillIn (h : a.Registered) (id : VarId) (bits : BitString) : (a.fillIn id bits).Registered where
  distinct := h.distinct.sublist List.filter_sublist
  awaited := by
    intro q hq
    rw [cell?_fillIn_of_mem hq]
    exact h.awaited q (mem_pending_fillIn.mp hq).1
  closed := fun q hq => h.closed q (mem_pending_fillIn.mp hq).1

theorem Registered.settles (h : a.Registered) (hs : Settles a b) : b.Registered := by
  induction hs with
  | refl => exact h
  | fill _ _ _ ih => exact ih (h.fillIn _ _)

/-- The same relations in another order. -/
theorem Registered.reorder (h : a.Registered) {order : List Relation} (perm : order.Perm a.pending) :
    (a.inOrder order).Registered where
  distinct := by
    show (order.map (·.id)).Nodup
    exact (perm.map _).nodup_iff.mpr h.distinct
  awaited := fun r hr => h.awaited r (perm.mem_iff.mp hr)
  closed := fun r hr => h.closed r (perm.mem_iff.mp hr)

/-- The values that relations have got have the lengths that were announced for them. -/
def KeepsLengths (a b : Assignment) : Prop :=
  ∀ r ∈ a.pending, ∀ n bits, a.cell? r.id = some (.awaited (some n)) → b.cell? r.id = some (.known bits) →
    bits.length = n

/-- A value that was filled in stays. -/
theorem Settles.cell?_filled (h : Settles (a.fillIn r.id bits) b) : b.cell? r.id = some (.known bits) := by
  rw [h.grows.cell?_eq, cell?_fillIn, if_pos rfl]
  intro hid
  obtain ⟨q, hq, he⟩ := List.mem_map.mp hid
  exact (mem_pending_fillIn.mp hq).2 he

/-- Where all values that a relation computes have the length announced for it, the announced lengths are kept. -/
theorem Settles.keepsLengths (h : Settles a b) (distinct : a.Distinct)
    (fixed : ∀ r ∈ a.pending, ∀ n, a.cell? r.id = some (.awaited (some n)) → ∀ s bits, r.Computes s bits →
      bits.length = n) : KeepsLengths a b := by
  induction h with
  | refl a =>
    intro r hr n bits awaited known
    rw [awaited] at known
    cases known
  | @fill a b r value hr hc hs ih =>
    intro q hq n bits awaited known
    by_cases own : q.id = r.id
    · obtain rfl := distinct.eq_of_id hq hr own
      rw [hs.cell?_filled] at known
      cases known
      exact fixed q hq n awaited a _ hc
    · have hq' : q ∈ (a.fillIn r.id value).pending := mem_pending_fillIn.mpr ⟨hq, own⟩
      refine ih (distinct.sublist List.filter_sublist) ?_ q hq' n bits ?_ known
      · intro p hp m hm
        rw [cell?_fillIn_of_mem hp] at hm
        exact fixed p (mem_pending_fillIn.mp hp).1 m hm
      · rw [cell?_fillIn_of_mem hq', awaited]

/-! ## Ends -/

/-- The placeholder of a relation may stand in the upper assignment again. -/
theorem Below.setCell (h : Below a b) {id : VarId} {cell : Cell} (hc : a.cell? id = some cell) :
    Below a (b.setCell id cell) where
  entry := by
    intro other
    rw [entry?_setCell]
    by_cases own : other = id
    · rw [if_pos own, own, cell?_eq_some_iff.mp hc]
      exact .same _
    · rw [if_neg own]
      exact h.entry other
  learned := h.learned
  committed := h.committed
  scope := h.scope

/-- Where all ways to settle lead to: a relation still waits there, or it has the value that it computes from what is
known there with a placeholder for itself. -/
structure EndsIn (a e : Assignment) : Prop where
  below : Below a e
  pending : e.pending ⊆ a.pending
  waits : ∀ r ∈ e.pending, e.cell? r.id = a.cell? r.id ∧ r.evaluate e = .ok .waiting
  filled : ∀ r ∈ a.pending, r ∉ e.pending → ∃ bits, e.cell? r.id = some (.known bits) ∧
    ∀ cell, a.cell? r.id = some cell → r.evaluate (e.setCell r.id cell) = .ok (.ready bits)

namespace EndsIn

/-- What a relation computes on the way is the value that it has in the end. -/
theorem found (h : EndsIn a e) (registered : a.Registered) (hr : r ∈ a.pending) (hw : r.evaluate a ≠ .ok .waiting) :
    r ∉ e.pending ∧ ∃ bits, e.cell? r.id = some (.known bits) ∧ r.evaluate a = .ok (.ready bits) := by
  have gone : r ∉ e.pending := by
    intro hp
    obtain ⟨own, waiting⟩ := h.waits r hp
    rw [Relation.evaluate_of_below h.below own hw] at waiting
    exact hw waiting
  obtain ⟨bits, known, ready⟩ := h.filled r hr gone
  obtain ⟨announced?, awaited⟩ := registered.awaited r hr
  refine ⟨gone, bits, known, ?_⟩
  have own : (e.setCell r.id (.awaited announced?)).cell? r.id = a.cell? r.id := by
    rw [cell?_setCell, if_pos rfl, awaited]
  rw [← Relation.evaluate_of_below (h.below.setCell awaited) own hw]
  exact ready _ awaited

/-- Each value that is filled in leads to the same end. -/
theorem fillIn (h : EndsIn a e) (registered : a.Registered) (hr : r ∈ a.pending) (hc : r.Computes a bits) :
    EndsIn (a.fillIn r.id bits) e := by
  obtain ⟨gone, value, known, ready⟩ := h.found registered hr hc.not_waiting
  obtain rfl : bits = value := by
    rcases hc with hc | ⟨n, hc, -⟩
    · rw [hc] at ready
      cases ready
      rfl
    · rw [hc] at ready
      cases ready
  have pending : e.pending ⊆ (a.fillIn r.id bits).pending := by
    intro q hq
    refine mem_pending_fillIn.mpr ⟨h.pending hq, fun own => ?_⟩
    obtain rfl := registered.distinct.eq_of_id (h.pending hq) hr own
    exact gone hq
  have below : Below (a.fillIn r.id bits) e := by
    refine ⟨fun other => ?_, h.below.learned, h.below.committed, h.below.scope⟩
    rw [entry?_fillIn]
    by_cases own : other = r.id
    · rw [if_pos own, own, cell?_eq_some_iff.mp known]
      exact .same _
    · rw [if_neg own]
      exact h.below.entry other
  refine ⟨below, pending, fun q hq => ?_, fun q hq hn => ?_⟩
  · rw [cell?_fillIn_of_mem (pending hq)]
    exact h.waits q hq
  · rw [cell?_fillIn_of_mem hq]
    exact h.filled q (mem_pending_fillIn.mp hq).1 hn

/-- The same relations in another order lead to the same end. -/
theorem reorder (h : EndsIn a e) {order : List Relation} (same : ∀ r, r ∈ order ↔ r ∈ a.pending) :
    EndsIn (a.inOrder order) e where
  below := ⟨h.below.entry, h.below.learned, h.below.committed, h.below.scope⟩
  pending := fun r hr => (same r).mpr (h.pending hr)
  waits := h.waits
  filled := fun r hr => h.filled r ((same r).mp hr)

/-- No relation fails on the way to an end. -/
theorem evaluate_ne_error (h : EndsIn a e) (registered : a.Registered) (hr : r ∈ a.pending) (error : RelationError) :
    r.evaluate a ≠ .error error := by
  intro he
  obtain ⟨-, bits, -, ready⟩ := h.found registered hr (by rw [he]; nofun)
  rw [he] at ready
  cases ready

end EndsIn

/-- Whatever has been filled in, the end is the same. -/
theorem Settles.endsIn (h : Settles a b) (registered : a.Registered) (he : EndsIn a e) : b.Registered ∧ EndsIn b e := by
  induction h with
  | refl a => exact ⟨registered, he⟩
  | fill hr hc _ ih => exact ih (registered.fillIn _ _) (he.fillIn registered hr hc)

/-- When no relation that is left can be computed, an end is reached. -/
theorem Settled.endsIn (h : Settled a e) (registered : a.Registered) (kept : KeepsLengths a e) : EndsIn a e := by
  obtain ⟨settles, waiting⟩ := h
  induction settles with
  | refl a =>
    exact ⟨.refl a, List.Subset.refl _, fun r hr => ⟨rfl, waiting r hr⟩, fun r hr hn => absurd hr hn⟩
  | @fill a e r bits hr hc hs ih =>
    have end' : EndsIn (a.fillIn r.id bits) e := by
      refine ih (registered.fillIn r.id bits) (fun q hq n value awaited known => ?_) waiting
      rw [cell?_fillIn_of_mem hq] at awaited
      exact kept q (mem_pending_fillIn.mp hq).1 n value awaited known
    obtain ⟨announced?, awaited⟩ := registered.awaited r hr
    have known : e.cell? r.id = some (.known bits) := hs.cell?_filled
    have below : Below a e := by
      refine ⟨fun other => ?_, end'.below.learned, end'.below.committed, end'.below.scope⟩
      by_cases own : other = r.id
      · rw [own, cell?_eq_some_iff.mp awaited, cell?_eq_some_iff.mp known]
        refine .value fun n hn => kept r hr n bits ?_ known
        rw [awaited, Option.mem_def.mp hn]
      · have entry := end'.below.entry other
        rwa [entry?_fillIn, if_neg own] at entry
    refine ⟨below, fun q hq => (mem_pending_fillIn.mp (end'.pending hq)).1, fun q hq => ?_, fun q hq hn => ?_⟩
    · rw [← cell?_fillIn_of_mem (end'.pending hq)]
      exact end'.waits q hq
    · by_cases own : q.id = r.id
      · obtain rfl := registered.distinct.eq_of_id hq hr own
        refine ⟨bits, known, fun cell hcell => ?_⟩
        have same : (e.setCell q.id cell).cell? q.id = a.cell? q.id := by
          rw [cell?_setCell, if_pos rfl, hcell]
        rw [Relation.evaluate_of_below (below.setCell hcell) same hc.not_waiting]
        exact hc.resolve_right fun ⟨n, length, _⟩ => registered.closed q hq (Relation.isOpenPadding_of_length length)
      · have hq' : q ∈ (a.fillIn r.id bits).pending := mem_pending_fillIn.mpr ⟨hq, own⟩
        rw [← cell?_fillIn_of_mem hq']
        exact end'.filled q hq' hn

/-- The same is recorded, learned and remembered, and the same relations wait, perhaps in another order. -/
structure SameUpToOrder (a b : Assignment) : Prop where
  entry : ∀ id, b.entry? id = a.entry? id
  learned : b.learned = a.learned
  committed : b.committed = a.committed
  scope : b.scope = a.scope
  pending : b.pending.Perm a.pending

/-- Two ends that lead to each other are the same. -/
theorem EndsIn.sameUpToOrder (h : EndsIn a b) (h' : EndsIn b a) (ha : a.Distinct) (hb : b.Distinct) :
    SameUpToOrder a b where
  entry := fun id => (h.below.entry id).antisymm (h'.below.entry id)
  learned := h.below.learned
  committed := h.below.committed
  scope := h.below.scope
  pending := (List.perm_ext_iff_of_nodup (.of_map _ hb) (.of_map _ ha)).mpr fun _ =>
    ⟨fun hr => h.pending hr, fun hr => h'.pending hr⟩

/-- All ways to settle, in whatever order the relations that wait are kept, have one end. -/
theorem Settled.sameUpToOrder {order : List Relation} (h : Settled a e) (h' : Settled (a.inOrder order) b)
    (registered : a.Registered) (perm : order.Perm a.pending) (kept : KeepsLengths a e) : SameUpToOrder e b := by
  have toEnd : EndsIn a e := h.endsIn registered kept
  have other : EndsIn (a.inOrder order) e := toEnd.reorder fun _ => perm.mem_iff
  obtain ⟨registered', above⟩ := h'.1.endsIn (registered.reorder perm) other
  -- the values of the other way are those of this one, so it keeps the announced lengths as well
  have kept' : KeepsLengths (a.inOrder order) b := by
    intro r hr n bits awaited known
    exact kept r (perm.mem_iff.mp hr) n bits awaited (above.below.cell?_known known)
  have toOther : EndsIn a b := (h'.endsIn (registered.reorder perm) kept').reorder fun _ => perm.mem_iff.symm
  obtain ⟨registeredEnd, back⟩ := h.1.endsIn registered toOther
  exact back.sameUpToOrder above registeredEnd.distinct registered'.distinct

/-- A relation that waits has no value. -/
def Fails (a : Assignment) : Prop :=
  ∃ r ∈ a.pending, ∃ error, r.evaluate a = .error error

/-- Where one order of the relations that wait has an end, no relation fails on the way to settle in another one. -/
theorem Settled.not_fails {order : List Relation} (h : Settled a e) (h' : Settles (a.inOrder order) b)
    (registered : a.Registered) (perm : order.Perm a.pending) (kept : KeepsLengths a e) : ¬ b.Fails := by
  rintro ⟨r, hr, error, he⟩
  have other : EndsIn (a.inOrder order) e := (h.endsIn registered kept).reorder fun _ => perm.mem_iff
  obtain ⟨registered', above⟩ := h'.endsIn (registered.reorder perm) other
  exact above.evaluate_ne_error registered' hr error he

/-! ## Runs -/

section Runs

variable {ρ α β : Type}

/-- Nothing is drawn, and the outcome and the assignment left behind satisfy a condition. -/
def Undrawn (m : Settling ρ α) (a : Assignment) (P : Except GenerationError α → Assignment → Prop) : Prop :=
  ∀ g, ((m.run.run a).run g).2 = g ∧ P ((m.run.run a).run g).1.1 ((m.run.run a).run g).1.2

namespace Undrawn

variable {P : Except GenerationError α → Assignment → Prop} {Q : Except GenerationError β → Assignment → Prop}

theorem pure {x : α} (h : P (.ok x) a) : Undrawn (ρ := ρ) (Pure.pure x) a P :=
  fun _ => ⟨rfl, h⟩

theorem throw {error : GenerationError} (h : P (.error error) a) :
    Undrawn (ρ := ρ) (MonadExcept.throw error) a P :=
  fun _ => ⟨rfl, h⟩

theorem get_bind {f : Assignment → Settling ρ β} (h : Undrawn (f a) a Q) :
    Undrawn (MonadState.get >>= f) a Q :=
  fun g => h g

theorem modify_bind {update : Assignment → Assignment} {f : PUnit → Settling ρ β} (h : Undrawn (f ⟨⟩) (update a) Q) :
    Undrawn (modify update >>= f) a Q :=
  fun g => h g

theorem bind {m : Settling ρ α} {f : α → Settling ρ β} (h : Undrawn m a P)
    (fails : ∀ error b, P (.error error) b → Q (.error error) b) (hf : ∀ x b, P (.ok x) b → Undrawn (f x) b Q) :
    Undrawn (m >>= f) a Q := by
  intro g
  obtain ⟨undrawn, hm⟩ := h g
  rw [Settling.run_bind]
  generalize (m.run.run a).run g = left at undrawn hm
  obtain ⟨⟨result, b⟩, next⟩ := left
  cases undrawn
  cases result with
  | error error => exact ⟨rfl, fails error b hm⟩
  | ok x => exact hf x b hm _

theorem mono {P' : Except GenerationError α → Assignment → Prop} {m : Settling ρ α} (h : Undrawn m a P)
    (hp : ∀ result b, P result b → P' result b) : Undrawn m a P' :=
  fun g => ⟨(h g).1, hp _ _ (h g).2⟩

end Undrawn

variable [RandomSource ρ]

/-- Values are filled in, up to a relation that fails. -/
def Advances (a : Assignment) (result : Except GenerationError α) (b : Assignment) : Prop :=
  Settles a b ∧ ∀ error, result = .error error → b.Fails

theorem Advances.ok (h : Settles a b) (x : α) : Advances a (.ok x) b := by
  refine ⟨h, ?_⟩
  intro error he
  cases he

theorem Advances.failed (h : Settles a b) (fails : b.Fails) (error : GenerationError) :
    Advances (α := α) a (.error error) b :=
  ⟨h, fun _ _ => fails⟩

theorem settleRound_undrawn (rs : List Relation) (registered : a.Registered) (hs : rs ⊆ a.pending)
    (hn : (rs.map (·.id)).Nodup) : Undrawn (ρ := ρ) (settleRound rs) a (Advances a) := by
  induction rs generalizing a with
  | nil => exact .pure (.ok (.refl a) false)
  | cons r rest ih =>
    obtain ⟨hr, hrest⟩ := List.cons_subset.mp hs
    obtain ⟨apart, hn⟩ := List.nodup_cons.mp hn
    rw [settleRound]
    apply Undrawn.get_bind
    split
    next error he =>
      exact .throw (.failed (.refl a) ⟨r, hr, error, he⟩ _)
    next => exact ih registered hrest hn
    next bits ready =>
      have kept : rest ⊆ (a.fillIn r.id bits).pending := by
        intro q hq
        exact mem_pending_fillIn.mpr ⟨hrest hq, fun own => apart (List.mem_map.mpr ⟨q, hq, own⟩)⟩
      have advances {γ : Type} {result : Except GenerationError γ} {c : Assignment}
          (h : Advances (a.fillIn r.id bits) result c) : Settles a c :=
        .fill hr (Or.inl ready) h.1
      apply Undrawn.modify_bind
      refine Undrawn.bind (P := Advances (a.fillIn r.id bits)) ?_
        (fun error d hd => .failed (advances hd) (hd.2 error rfl) error) fun _ d hd => .pure (.ok (advances hd) true)
      exact (ih (registered.fillIn r.id bits) kept hn).bind (fun error d hd => .failed hd.1 (hd.2 error rfl) error)
        fun _ d hd => .pure (.ok hd.1 ())
    next n length => exact absurd (Relation.isOpenPadding_of_length length) (registered.closed r hr)

theorem settleRounds_undrawn (n : Nat) (registered : a.Registered) :
    Undrawn (ρ := ρ) (settleRounds n) a (Advances a) := by
  induction n generalizing a with
  | zero => exact .pure (.ok (.refl a) ())
  | succ n ih =>
    rw [settleRounds]
    apply Undrawn.get_bind
    refine (settleRound_undrawn a.pending registered (List.Subset.refl _) registered.distinct).bind
      (fun error c hc => .failed hc.1 (hc.2 error rfl) error) fun filled c hc => ?_
    cases filled with
    | false => exact .pure (.ok hc.1 ())
    | true =>
      have waiting : c.Registered := registered.settles hc.1
      exact (ih waiting).mono fun result d hd => ⟨hc.1.trans hd.1, hd.2⟩

/-- Settling draws nothing. It ends with all relations settled, or with one that fails. -/
theorem settle_run (registered : a.Registered) (g : ρ) :
    (a.settle.run g).2 = g ∧
      (((a.settle.run g).1.1 = .ok () ∧ Settled a (a.settle.run g).1.2) ∨
        ((∃ error, (a.settle.run g).1.1 = .error error) ∧ Settles a (a.settle.run g).1.2 ∧
          (a.settle.run g).1.2.Fails)) := by
  obtain ⟨undrawn, advances, fails⟩ := settleRounds_undrawn (ρ := ρ) a.pending.length registered g
  have leaves := settleRounds_leaves (ρ := ρ) a.pending.length a registered.distinct g
  refine ⟨undrawn, ?_⟩
  unfold settle
  cases hresult : (((settleRounds a.pending.length).run.run a).run g).1.1 with
  | ok x =>
    obtain ⟨settles, waiting⟩ := leaves x hresult
    exact Or.inl ⟨rfl, settles, waiting (Nat.le_refl _)⟩
  | error error => exact Or.inr ⟨⟨error, rfl⟩, advances, fails error hresult⟩

/-- Rounds until one fills in nothing, however many these are. -/
inductive SettleLoop : Assignment → ρ → (Except GenerationError Unit × Assignment) × ρ → Prop where
  | done {a b : Assignment} {g next : ρ} (h : ((settleRound a.pending).run.run a).run g = ((.ok false, b), next)) :
      SettleLoop a g ((.ok (), b), next)
  | again {a b : Assignment} {g next : ρ} {last : (Except GenerationError Unit × Assignment) × ρ}
      (h : ((settleRound a.pending).run.run a).run g = ((.ok true, b), next)) (more : SettleLoop b next last) :
      SettleLoop a g last
  | fail {a b : Assignment} {g next : ρ} {error : GenerationError}
      (h : ((settleRound a.pending).run.run a).run g = ((.error error, b), next)) :
      SettleLoop a g ((.error error, b), next)

/-- The rounds come to an end: each one that fills in a value leaves fewer relations that wait. -/
theorem settleRounds_loop (n : Nat) (distinct : a.Distinct) (hn : a.pending.length ≤ n) (g : ρ) :
    SettleLoop a g (((settleRounds n).run.run a).run g) := by
  induction n generalizing a g with
  | zero =>
    have none : a.pending = [] := List.eq_nil_of_length_eq_zero (Nat.le_zero.mp hn)
    apply SettleLoop.done
    rw [none]
    rfl
  | succ n ih =>
    have round := settleRound_leaves (ρ := ρ) a.pending a (List.Subset.refl _) distinct g
    have steps : ((settleRounds (n + 1)).run.run a).run g =
        ((do if ← settleRound a.pending then settleRounds n : Settling ρ Unit).run.run a).run g := by
      rw [settleRounds, Settling.run_bind]
      rfl
    rw [steps, Settling.run_bind]
    cases hround : ((settleRound a.pending).run.run a).run g with
    | mk left next =>
      obtain ⟨result, b⟩ := left
      rw [hround] at round
      cases result with
      | error error => exact .fail hround
      | ok filled =>
        obtain ⟨settles, -, fewer⟩ := round filled rfl
        cases filled with
        | false => exact .done hround
        | true =>
          have shorter : b.pending.length ≤ n := by
            have := fewer rfl
            show b.pending.length ≤ n
            dsimp only at this
            omega
          exact .again hround (ih (distinct.sublist settles.pending_sublist) shorter next)

theorem settle_loop (distinct : a.Distinct) (g : ρ) : SettleLoop a g (a.settle.run g) :=
  settleRounds_loop a.pending.length distinct (Nat.le_refl _) g

/-- Where settling succeeds, the values have the lengths that were announced for them. -/
def SettlesInLength (ρ : Type) [RandomSource ρ] (a : Assignment) : Prop :=
  ∀ (g : ρ) (b : Assignment) (next : ρ), a.settle.run g = ((.ok (), b), next) → KeepsLengths a b

/-- Sizes, checksums and digests keep the lengths that their types announce. -/
theorem Registered.settlesInLength (registered : a.Registered) (fixed : ∀ r ∈ a.pending, r.IsFixed)
    (announced : ∀ r ∈ a.pending, a.cell? r.id = some (.awaited r.type.fixedLength?)) : a.SettlesInLength ρ := by
  intro g b next hb
  rcases (settle_run registered g).2 with ⟨-, settled⟩ | ⟨⟨error, he⟩, -⟩
  · rw [hb] at settled
    refine settled.1.keepsLengths registered.distinct fun r hr n hn s bits hc => ?_
    have length := (fixed r hr).length_eq hc
    rw [announced r hr, length] at hn
    cases hn
    rfl
  · rw [hb] at he
    cases he

/--
Settling does not depend on the order in which the relations that wait are kept. Each relation waits once, with a
placeholder, and nothing has to be drawn for it; where settling succeeds, the values have the lengths announced for
them. Then the rounds come to an end in either order without a draw. Either they fail in both orders, or they succeed in
both, with the same values in all cells and the same relations still waiting.
-/
theorem settle_order_independent {order : List Relation} (registered : a.Registered) (perm : order.Perm a.pending)
    (kept : a.SettlesInLength ρ) (kept' : (a.inOrder order).SettlesInLength ρ) (g g' : ρ) :
    let run := a.settle.run g
    let run' := (a.inOrder order).settle.run g'
    (SettleLoop a g run ∧ SettleLoop (a.inOrder order) g' run') ∧ (run.2 = g ∧ run'.2 = g') ∧
      ((∃ error error', run.1.1 = .error error ∧ run'.1.1 = .error error') ∨
        (run.1.1 = .ok () ∧ run'.1.1 = .ok () ∧ SameUpToOrder run.1.2 run'.1.2)) := by
  intro run run'
  have registered' := registered.reorder perm
  obtain ⟨undrawn, ending⟩ := settle_run registered g
  obtain ⟨undrawn', ending'⟩ := settle_run registered' g'
  refine ⟨⟨settle_loop registered.distinct g, settle_loop registered'.distinct g'⟩, ⟨undrawn, undrawn'⟩, ?_⟩
  rcases ending with ⟨ok, settled⟩ | ⟨⟨error, failed⟩, settles, fails⟩
  · have keeps : KeepsLengths a run.1.2 := kept g _ run.2 (Prod.ext (Prod.ext ok rfl) rfl)
    rcases ending' with ⟨ok', settled'⟩ | ⟨-, settles', fails'⟩
    · exact Or.inr ⟨ok, ok', settled.sameUpToOrder settled' registered perm keeps⟩
    · exact absurd fails' (settled.not_fails settles' registered perm keeps)
  · rcases ending' with ⟨ok', settled'⟩ | ⟨⟨error', failed'⟩, -⟩
    · have keeps : KeepsLengths (a.inOrder order) run'.1.2 := kept' g' _ run'.2 (Prod.ext (Prod.ext ok' rfl) rfl)
      exact absurd fails (settled'.not_fails settles registered' perm.symm keeps)
    · exact Or.inl ⟨error, error', failed, failed'⟩

/-- The number of bytes of a field of two bytes. -/
def twoBytesSize : Relation where
  id := .ofRoot 1
  name := "size"
  rule := .size ⟨.ofRatio false 1 8, 0⟩
  targets := [.ofRoot 0]
  type := .uint .one

/-- A checksum over a node that begins with this size. -/
def checksumOfSize : Relation where
  id := .ofRoot 2
  name := "sum"
  rule := .internetChecksum
  targets := [.ofRoot 3]
  type := .uint .two

/-- The checksum stands before the size that it reads, so it has to wait for the second round. -/
def checksumFirst : Assignment :=
  { empty with
    entries := [
      (.ofRoot 3, .content ⟨[.slot (.ofRoot 1), .bits (.zeros 16)]⟩),
      (.ofRoot 2, .cell (.awaited (some 16))),
      (.ofRoot 1, .cell (.awaited (some 8))),
      (.ofRoot 0, .content (.ofBits (.zeros 16)))]
    pending := [checksumOfSize, twoBytesSize] }

/-- In the other order one round fills in both values, and they are the same. -/
theorem settle_order_independent_checksumFirst :
    (checksumFirst.Registered ∧ [twoBytesSize, checksumOfSize].Perm checksumFirst.pending ∧
      checksumFirst.SettlesInLength Pcg64 ∧
      (checksumFirst.inOrder [twoBytesSize, checksumOfSize]).SettlesInLength Pcg64) ∧
    (checksumFirst.settle.run (Pcg64.ofSeed 0)).1.1 = .ok () ∧
    SameUpToOrder (checksumFirst.settle.run (Pcg64.ofSeed 0)).1.2
      ((checksumFirst.inOrder [twoBytesSize, checksumOfSize]).settle.run (Pcg64.ofSeed 1)).1.2 := by
  have registered : checksumFirst.Registered := by
    refine ⟨by unfold Distinct checksumFirst; decide, fun r hr => ?_, fun r hr => ?_⟩
    · rcases List.mem_pair.mp hr with rfl | rfl
      · exact ⟨some 16, rfl⟩
      · exact ⟨some 8, rfl⟩
    · rcases List.mem_pair.mp hr with rfl | rfl
      · rintro ⟨⟨_, _, _, hrule⟩, -⟩
        cases hrule
      · rintro ⟨⟨_, _, _, hrule⟩, -⟩
        cases hrule
  have perm : [twoBytesSize, checksumOfSize].Perm checksumFirst.pending := List.Perm.swap _ _ _
  have fixed : ∀ r ∈ checksumFirst.pending, r.IsFixed := by
    intro r hr
    rcases List.mem_pair.mp hr with rfl | rfl <;> exact ⟨_, rfl⟩
  have announced : ∀ r ∈ checksumFirst.pending, checksumFirst.cell? r.id = some (.awaited r.type.fixedLength?) := by
    intro r hr
    rcases List.mem_pair.mp hr with rfl | rfl <;> rfl
  have kept : checksumFirst.SettlesInLength Pcg64 := registered.settlesInLength fixed announced
  have kept' : (checksumFirst.inOrder [twoBytesSize, checksumOfSize]).SettlesInLength Pcg64 :=
    (registered.reorder perm).settlesInLength (fun r hr => fixed r (perm.mem_iff.mp hr))
      fun r hr => announced r (perm.mem_iff.mp hr)
  have succeeds : (checksumFirst.settle.run (Pcg64.ofSeed 0)).1.1 = .ok () := by decide +kernel
  refine ⟨⟨registered, perm, kept, kept'⟩, succeeds, ?_⟩
  rcases (settle_order_independent registered perm kept kept' (Pcg64.ofSeed 0) (Pcg64.ofSeed 1)).2.2 with
    ⟨error, -, failed, -⟩ | ⟨-, -, same⟩
  · rw [succeeds] at failed
    cases failed
  · exact same

end Runs

end Assignment

end WireGrammar
