import Mathlib.Data.Fintype.Card
import Mathlib.Data.Set.Finite.List
import WireGrammar.Proofs.Message.Complete
import WireGrammar.Proofs.Message.Composed
import WireGrammar.Proofs.Relation.Missing

/-!
# Relations that never settle

When generation ends with a relation that still waits, some relations need each other in a cycle (`Symbol.Needs`), and
the cycle runs through a size or a padding (`unresolvable_cycle`): cycles of relations that need bits only are found
before generation starts. Sizes and paddings do close cycles, for not every relation has a length that is known ahead:
the lengths of two textual sizes of each other are not, and neither is that of a padding inside of what it fills up.
-/

namespace WireGrammar

open Assignment Generation Variable Grammar

/--
A relation needs another one that is in a field it refers to. One that reads bits needs those of every other relation
there; a size or a padding needs the lengths that are not announced, and a padding that refers to itself not its own.
-/
def Symbol.Needs (s : Symbol) (r q : Relation) : Prop :=
  ∃ f ∈ s.fields, f.id ∈ r.targets ∧ .relation q ∈ f.domain.preorder ∧
    match r.rule with
    | .size _ => announcedLength? q = none
    | .padding .. => f.id ≠ r.id ∧ announcedLength? q = none
    | .copy | .internetChecksum | .crc32 | .keyedDigest .. => q.id ≠ r.id

/-! ## Lengths that are announced -/

namespace Relation

variable {r : Relation} {a : Assignment}

/-- The one length that the values of a relation have is announced. -/
theorem IsFixed.isSome_announcedLength? (h : r.IsFixed) : (announcedLength? r).isSome := by
  unfold IsFixed at h
  unfold announcedLength?
  cases hr : r.rule with
  | copy | padding => rw [hr] at h; cases h
  | size | internetChecksum | crc32 =>
    rw [hr] at h
    obtain ⟨type, ht⟩ := h
    rw [ht, DataType.fixedLength?_integer]
    rfl
  | keyedDigest algorithm key =>
    rw [hr] at h
    rw [h, DataType.fixedLength?_rawExactly]
    rfl

end Relation

/-! ## What a relation waits for -/

namespace Assignment

variable {fields : Fields} {s : Symbol} {memory : Memory} {bound : Bindings} {maxRepeat : Nat} {a : Assignment}
  {r : Relation} {f : Field}

/-- The end of the fields of a message, at which relations may still wait. -/
structure Halted (fields : Fields) (s : Symbol) (memory : Memory) (bound : Bindings) (maxRepeat : Nat)
    (a : Assignment) : Prop where
  made : MadeOf fields s
  inOrder : InOrder fields
  filled : Filled s memory bound maxRepeat s.fields a
  backed : a.Backed s

namespace Halted

variable (h : Halted fields s memory bound maxRepeat a)

include h

/-- A cell in a field that has no bits is that of a relation there which waits, and has the length announced for it. -/
theorem exists_pending (hf : f ∈ s.fields) {id : VarId} (hid : id ∈ f.domain.ids) {length? : Option Nat}
    (hc : a.cell? id = some (.awaited length?)) :
    ∃ q ∈ a.pending, .relation q ∈ f.domain.preorder ∧ q.id = id ∧ announcedLength? q = length? := by
  obtain ⟨q, hq, rfl⟩ := isPending_iff.mp (h.backed.awaited hc)
  obtain ⟨v, hv, he⟩ := List.mem_map.mp hid
  have same : v = .relation q :=
    h.made.eq_of_id h.inOrder (mem_allVariables.mpr ⟨f, hf, hv⟩) (h.filled.orderly.mem q hq) he
  have awaited := (h.filled.orderly.awaited q hq).symm.trans hc
  cases awaited
  exact ⟨q, hq, same ▸ hv, rfl, rfl⟩

/-- A slot in the content of a field has a cell, and lies in the field. -/
theorem exists_cell (hf : f ∈ s.fields) {content : Content} (hc : a.content? f.id = some content) {id : VarId}
    (hs : .slot id ∈ content.atoms) : id ∈ f.domain.ids ∧ ∃ cell, a.cell? id = some cell :=
  ⟨h.filled.slots hf hc hs, Option.isSome_iff_exists.mp (h.backed.slots hc id hs)⟩

/-- A field without a length holds a relation that waits without an announced one. -/
theorem exists_of_targetLength? (hf : f ∈ s.fields) (hn : a.targetLength? f.id = none) :
    ∃ q ∈ a.pending, .relation q ∈ f.domain.preorder ∧ announcedLength? q = none := by
  obtain ⟨_, _, hfollows⟩ := h.filled.recorded f hf
  obtain ⟨entry, he, -⟩ := Option.map_eq_some_iff.mp hfollows.recorded
  unfold Assignment.targetLength? length? at hn
  rw [he] at hn
  cases entry with
  | cell cell =>
    have hc := cell?_eq_some_iff.mpr he
    cases cell with
    | known bits => cases hn
    | awaited length? =>
      cases hn
      obtain ⟨q, hq, hm, -, ha⟩ := h.exists_pending hf f.domain.id_mem_ids hc
      exact ⟨q, hq, hm, ha⟩
  | content content =>
    by_contra none
    have all : ∀ id, .slot id ∈ content.atoms → (a.slotLength? id).isSome := by
      intro id hs
      obtain ⟨hid, cell, hc⟩ := h.exists_cell hf (content?_of_record he) hs
      rw [slotLength?, hc, Option.bind_some]
      cases cell with
      | known bits => rfl
      | awaited length? =>
        obtain ⟨q, hq, hm, -, ha⟩ := h.exists_pending hf hid hc
        cases length? with
        | none => exact absurd ⟨q, hq, hm, ha⟩ none
        | some n => rfl
    have measured := measure_eq_some_iff.mpr ⟨all, rfl⟩
    dsimp only at hn
    rw [hn] at measured
    cases measured

/-- A field without bits holds a relation that waits; it is another one than the reader, or has no announced length. -/
theorem exists_of_targetBits? (hf : f ∈ s.fields) (hne : f.id ≠ r.id) (hn : a.targetBits? f.id r.id = none) :
    ∃ q ∈ a.pending, .relation q ∈ f.domain.preorder ∧ (q.id = r.id → announcedLength? q = none) := by
  obtain ⟨_, _, hfollows⟩ := h.filled.recorded f hf
  obtain ⟨entry, he, -⟩ := Option.map_eq_some_iff.mp hfollows.recorded
  unfold Assignment.targetBits? at hn
  rw [he] at hn
  cases entry with
  | cell cell =>
    have hc := cell?_eq_some_iff.mpr he
    cases cell with
    | known bits => cases hn
    | awaited length? =>
      obtain ⟨q, hq, hm, hid, -⟩ := h.exists_pending hf f.domain.id_mem_ids hc
      exact ⟨q, hq, hm, fun hr => absurd (hid.symm.trans hr) hne⟩
  | content content =>
    by_contra none
    have all : ∀ id, .slot id ∈ content.atoms → (a.slotBits? (some r.id) id).isSome := by
      intro id hs
      obtain ⟨hid, cell, hc⟩ := h.exists_cell hf (content?_of_record he) hs
      simp only [slotBits?, chunkBits?, hc, Option.bind_eq_bind, Option.bind_some]
      cases cell with
      | known bits => split <;> rfl
      | awaited length? =>
        obtain ⟨q, hq, hm, hqid, ha⟩ := h.exists_pending hf hid hc
        by_cases hr : q.id = r.id
        · rw [if_pos (by rw [← hqid, hr])]
          cases length? with
          | none => exact absurd ⟨q, hq, hm, fun _ => ha⟩ none
          | some n => rfl
        · exact absurd ⟨q, hq, hm, fun he => absurd he hr⟩ none
    have flattened := flatten_eq_some_iff.mpr ⟨all, rfl⟩
    dsimp only at hn
    rw [hn] at flattened
    cases flattened

/-- A relation in a field that it reads the bits of has an announced length. -/
theorem announcedLength?_ne_none (hf : f ∈ s.fields) (ht : f.id ∈ r.targets) (hr : .relation r ∈ f.domain.preorder)
    (hl : r.rule.readsLengthsOnly = false) : announcedLength? r ≠ none := by
  have hc : r.rule ≠ .copy := fun hc => copy_apart h.made h.inOrder hf hr hc ht
  have fixed := isFixed_of_readsBits h.made h.inOrder (mem_allVariables.mpr ⟨f, hf, hr⟩) hl hc
  exact Option.ne_none_iff_isSome.mpr fixed.isSome_announcedLength?

/-- A relation that waits needs another one that waits, if all its targets are fields of the message. -/
theorem exists_needs (own : ∀ t ∈ r.targets, t ∈ s.fields.map Field.id) (hr : r ∈ a.pending) :
    ∃ q ∈ a.pending, s.Needs r q := by
  have relation : .relation r ∈ s.allVariables := h.filled.orderly.mem r hr
  have same {q : Relation} (hq : q ∈ a.pending) (he : q.id = r.id) : q = r :=
    Variable.relation.inj (h.made.eq_of_id h.inOrder (h.filled.orderly.mem q hq) relation he)
  cases Relation.wants_of_waiting (h.filled.stuck r hr) with
  | own hs hn =>
    obtain ⟨f, hf, hid⟩ := List.mem_map.mp (own r.id hs.1)
    have awaited := h.filled.orderly.awaited r hr
    rw [Relation.ownLength?, awaited, Option.bind_some] at hn
    obtain ⟨q, hq, hm, hqid, -⟩ := h.exists_pending hf (hid ▸ f.domain.id_mem_ids) awaited
    obtain rfl := same hq hqid
    have announced : announcedLength? q = none := (Option.or_eq_none_iff.mp hn).1
    have ht : f.id ∈ q.targets := hid ▸ hs.1
    refine ⟨q, hq, f, hf, ht, hm, ?_⟩
    cases hl : q.rule.readsLengthsOnly with
    | false => exact absurd announced (h.announcedLength?_ne_none hf ht hm hl)
    | true =>
      have reads := hs.2
      cases hrule : q.rule with
      | size => exact announced
      | padding => rw [hrule] at reads; exact reads.elim
      | copy | internetChecksum | crc32 | keyedDigest => rw [hrule] at hl; cases hl
  | @length t ht hne hl hn =>
    obtain ⟨f, hf, rfl⟩ := List.mem_map.mp (own t ht)
    obtain ⟨q, hq, hm, announced⟩ := h.exists_of_targetLength? hf hn
    refine ⟨q, hq, f, hf, ht, hm, ?_⟩
    cases hrule : r.rule with
    | size => exact announced
    | padding => exact ⟨hne, announced⟩
    | copy | internetChecksum | crc32 | keyedDigest => rw [hrule] at hl; cases hl
  | @bits t ht hne hl hn =>
    obtain ⟨f, hf, rfl⟩ := List.mem_map.mp (own t ht)
    obtain ⟨q, hq, hm, announced⟩ := h.exists_of_targetBits? hf hne hn
    have other : q.id ≠ r.id := by
      intro he
      obtain rfl := same hq he
      exact h.announcedLength?_ne_none hf ht hm hl (announced rfl)
    refine ⟨q, hq, f, hf, ht, hm, ?_⟩
    cases hrule : r.rule with
    | size | padding => rw [hrule] at hl; cases hl
    | copy | internetChecksum | crc32 | keyedDigest => exact other

/-- From each relation that waits others are needed up to a size or a padding that waits. -/
theorem exists_lengths (acyclic : s.isAcyclic = true)
    (own : ∀ r, .relation r ∈ s.allVariables → ∀ t ∈ r.targets, t ∈ s.fields.map Field.id) (hr : r ∈ a.pending) :
    ∃ q ∈ a.pending, q.rule.readsLengthsOnly = true ∧ Relation.ReflTransGen s.Needs r q := by
  cases hl : r.rule.readsLengthsOnly with
  | true => exact ⟨r, hr, hl, .refl⟩
  | false =>
    refine h.made.bitRelations_induct h.inOrder acyclic
      (P := fun id => ∀ r ∈ a.pending, r.id = id →
        ∃ q ∈ a.pending, q.rule.readsLengthsOnly = true ∧ Relation.ReflTransGen s.Needs r q)
      (fun p hp hpl ih r hr he => ?_) (h.filled.orderly.mem r hr) hl r hr rfl
    obtain rfl : r = p := Variable.relation.inj (h.made.eq_of_id h.inOrder (h.filled.orderly.mem r hr) hp he)
    obtain ⟨q, hq, needs⟩ := h.exists_needs (own r hp) hr
    have needs' := needs
    obtain ⟨f, hf, ht, hm, kind⟩ := needs'
    cases hql : q.rule.readsLengthsOnly with
    | true => exact ⟨q, hq, hql, .single needs⟩
    | false =>
      have other : q.id ≠ r.id := by
        cases hrule : r.rule with
        | size | padding => rw [hrule] at hpl; cases hpl
        | copy | internetChecksum | crc32 | keyedDigest => rw [hrule] at kind; exact kind
      obtain ⟨last, hlast, hlengths, path⟩ := ih f hf ht q hm hql other q hq rfl
      exact ⟨last, hlast, hlengths, .head needs path⟩

end Halted

end Assignment

/-! ## Cycles -/

/-- Where each element leads on to another one, some element leads back to itself. -/
theorem exists_transGen_self {α : Type} {R : α → α → Prop} {xs : List α}
    (next : ∀ x ∈ xs, ∃ y ∈ xs, Relation.TransGen R x y) {x : α} (hx : x ∈ xs) : ∃ y ∈ xs, Relation.ReflTransGen R x y ∧ Relation.TransGen R y y := by
  by_contra hn
  have acyclic (y : α) (hy : y ∈ xs) (hr : Relation.ReflTransGen R x y) : ¬ Relation.TransGen R y y :=
    fun ht => hn ⟨y, hy, hr, ht⟩
  let Reached : Type := { y // y ∈ xs ∧ Relation.ReflTransGen R x y }
  have finite : Finite Reached := (xs.finite_toSet.subset fun y hy => hy.1).to_subtype
  let back (y z : Reached) : Prop := Relation.TransGen R z.1 y.1
  have trans : IsTrans Reached back := ⟨fun _ _ _ hyz hzw => Relation.TransGen.trans hzw hyz⟩
  have irrefl : Std.Irrefl back := ⟨fun y => acyclic y.1 y.2.1 y.2.2⟩
  have wf : WellFounded back := Finite.wellFounded_of_trans_of_irrefl back
  -- an element that leads on to none of those reached
  obtain ⟨last, -, hlast⟩ := wf.has_min Set.univ ⟨⟨x, hx, .refl⟩, trivial⟩
  obtain ⟨y, hy, hr⟩ := next last.1 last.2.1
  exact hlast ⟨y, hy, last.2.2.trans hr.to_reflTransGen⟩ trivial hr

/-- Relations that wait at the end lead on to a size or a padding that needs itself. -/
theorem Assignment.Halted.exists_cycle {fields : Fields} {s : Symbol} {memory : Memory} {bound : Bindings}
    {maxRepeat : Nat} {a : Assignment} (h : Halted fields s memory bound maxRepeat a) (acyclic : s.isAcyclic = true)
    (own : ∀ r, .relation r ∈ s.allVariables → ∀ t ∈ r.targets, t ∈ s.fields.map Field.id) {r : Relation}
    (hr : r ∈ a.pending) :
    ∃ q, .relation q ∈ s.allVariables ∧ q.rule.readsLengthsOnly = true ∧ Relation.ReflTransGen s.Needs r q ∧
      Relation.TransGen s.Needs q q := by
  -- among the sizes and paddings that wait each one leads on to another
  let lengths := a.pending.filter fun q => q.rule.readsLengthsOnly
  have next : ∀ q ∈ lengths, ∃ p ∈ lengths, Relation.TransGen s.Needs q p := by
    intro q hq
    obtain ⟨hq, -⟩ := List.mem_filter.mp hq
    obtain ⟨x, hx, needs⟩ := h.exists_needs (own q (h.filled.orderly.mem q hq)) hq
    obtain ⟨p, hp, hl, path⟩ := h.exists_lengths acyclic own hx
    exact ⟨p, List.mem_filter.mpr ⟨hp, hl⟩, .head' needs path⟩
  obtain ⟨first, hf, hl, path⟩ := h.exists_lengths acyclic own hr
  obtain ⟨q, hq, reached, cycle⟩ := exists_transGen_self next (List.mem_filter.mpr ⟨hf, hl⟩)
  obtain ⟨hq, hql⟩ := List.mem_filter.mp hq
  exact ⟨q, h.filled.orderly.mem q hq, hql, path.trans reached, cycle⟩

/--
If the targets of all relations are fields of the same message, generation ends with a relation that still waits only
when relations that need each other lead from it to a size or a padding which, through others or at once, needs itself.
Relations that wait for each other's bits alone are found in advance.
-/
theorem unresolvable_cycle {ρ : Type} [RandomSource ρ] {text : String} {symbols : List Symbol}
    (ht : Grammar.symbols text = .ok symbols) {s : Symbol} (hs : s ∈ symbols)
    (own : ∀ r, .relation r ∈ s.allVariables → ∀ t ∈ r.targets, t ∈ s.fields.map Field.id)
    {settings : Symbol.Settings} {memory : Memory} {supply next : Supply ρ} {name : String}
    (h : (s.generateMessage settings memory).run.run supply = (.error (.unresolvable name), next)) :
    s.isAcyclic = true ∧ ∃ r q, .relation r ∈ s.allVariables ∧ r.name = name ∧
      .relation q ∈ s.allVariables ∧ q.rule.readsLengthsOnly = true ∧ Relation.ReflTransGen s.Needs r q ∧
      Relation.TransGen s.Needs q q := by
  obtain ⟨fields, ho, made⟩ := symbols_made ht
  have acyclic : s.isAcyclic = true := by
    by_contra hc
    rw [Symbol.generateMessage_run, Symbol.generateAssignment_run, if_neg hc] at h
    cases h
  obtain ⟨-, failed⟩ := (messages_without_placeholders (Grammar.kindsApart ht hs)).1 settings memory supply next
  obtain ⟨a, r, rest, hf, hp, hr, hname⟩ := (failed _ h).2 name rfl
  have filled := (generateFields_yields (made s hs) ho (.of settings.maxBytes settings.maxRepeat)
    (List.nil_append s.fields).symm (filled_start s memory supply.started.bindings _)) supply.started rfl a next hf
  have backed := ((Grammar.kindsApart ht hs).generateFields_backed _ memory hf).1
  have halted : Halted fields s memory supply.started.bindings _ a := ⟨made s hs, ho, filled.2, backed⟩
  obtain ⟨q, hq, hl, path, cycle⟩ := halted.exists_cycle acyclic own (hp ▸ List.mem_cons_self)
  exact ⟨acyclic, r, q, hr, hname, hq, hl, path, cycle⟩

/-- A size of itself whose number of digits is open. -/
def sizeOfItself : String :=
  "symbol \"S\" \x7b s: size(s, type=ascii(1..=2)); \x7d"

/-- The size in `sizeOfItself` is no cycle of relations that wait for bits, and never gets a value, for it needs itself. -/
theorem unresolvable_cycle_sizeOfItself : ∃ symbols s next, Grammar.symbols sizeOfItself = .ok symbols ∧ s ∈ symbols ∧
    s.isAcyclic = true ∧ (∀ r, .relation r ∈ s.allVariables → ∀ t ∈ r.targets, t ∈ s.fields.map Field.id) ∧
    (s.generateMessage ⟨64, 5, true⟩ .empty).run.run (Supply.ofSeed 1) = (.error (.unresolvable "s"), next) ∧
    ∃ r q, .relation r ∈ s.allVariables ∧ r.name = "s" ∧ .relation q ∈ s.allVariables ∧
      q.rule.readsLengthsOnly = true ∧ Relation.ReflTransGen s.Needs r q ∧ Relation.TransGen s.Needs q q := by
  have run : ((Grammar.symbols sizeOfItself).toOption.bind List.head?).map (fun s =>
      (match ((s.generateMessage ⟨64, 5, true⟩ .empty).run.run (Supply.ofSeed 1)).1 with
        | .error e => some e
        | .ok _ => none,
        (s.allVariables.filterMap Variable.relation?).all fun r =>
          r.targets.all fun t => (s.fields.map Field.id).contains t)) =
        some (some (.unresolvable "s"), true) := by
    decide +kernel
  obtain ⟨s, hs, hr⟩ := Option.map_eq_some_iff.mp run
  obtain ⟨symbols, ht, hs⟩ := Option.bind_eq_some_iff.mp hs
  obtain ⟨failed, targets⟩ := Prod.mk.inj hr
  have text : Grammar.symbols sizeOfItself = .ok symbols := Builder.ok_of_toOption ht
  have mem : s ∈ symbols := List.mem_of_mem_head? hs
  have own : ∀ r, .relation r ∈ s.allVariables → ∀ t ∈ r.targets, t ∈ s.fields.map Field.id := fun r hr t ht =>
    List.contains_iff_mem.mp
      (List.all_eq_true.mp (List.all_eq_true.mp targets r (List.mem_filterMap.mpr ⟨_, hr, rfl⟩)) t ht)
  split at failed
  next e he =>
    cases failed
    have generated : (s.generateMessage ⟨64, 5, true⟩ .empty).run.run (Supply.ofSeed 1) =
        (.error (.unresolvable "s"), _) := Prod.ext he rfl
    obtain ⟨acyclic, cycle⟩ := unresolvable_cycle text mem own generated
    exact ⟨symbols, s, _, text, mem, acyclic, own, generated, cycle⟩
  next => cases failed

end WireGrammar
