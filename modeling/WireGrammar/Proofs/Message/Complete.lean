import WireGrammar.Proofs.Generation.Discipline
import WireGrammar.Proofs.Generation.Failures
import WireGrammar.Proofs.Interpretation.Discipline
import WireGrammar.Proofs.Message.Faithful
import WireGrammar.Proofs.Message.Outcome

/-!
# Messages without placeholders

A content has slots for relations, which read as placeholders until their relations have values. Every slot is that of a
cell (`Assignment.Covered`), and a cell without bits belongs to a relation that waits (`Assignment.Backed`); settling,
freezing and repeated visits of a relation keep this. So when no relation waits any more all fields have bits, and a
message is never given up for a placeholder.

* `Symbol.KindsApart`: no relation goes by the identity of a variable of another kind.
-/

namespace WireGrammar

open Assignment Generation Variable

/-- No relation goes by the identity of a variable of another kind. -/
def Symbol.KindsApart (s : Symbol) : Prop :=
  ∀ v ∈ s.allVariables, ∀ w ∈ s.allVariables, v.id = w.id → v.relation?.isSome = w.relation?.isSome

/-! ## Slots with cells -/

namespace Assignment

variable {s : Symbol} {a b c : Assignment} {id : VarId}

/-- All slots are those of relations with cells, and only relations have cells. -/
structure Covered (s : Symbol) (a : Assignment) : Prop where
  cells : ∀ {id}, (a.cell? id).isSome → ∃ r, .relation r ∈ s.allVariables ∧ r.id = id
  slots : ∀ {id content}, a.content? id = some content → ∀ q, .slot q ∈ content.atoms → (a.cell? q).isSome

/-- What has a record or a cell keeps one. -/
structure Retains (a b : Assignment) : Prop where
  cells : ∀ {id}, (a.cell? id).isSome → (b.cell? id).isSome
  entries : ∀ {id}, (a.entry? id).isSome → (b.entry? id).isSome

theorem Retains.refl (a : Assignment) : Retains a a :=
  ⟨id, id⟩

theorem Retains.trans (h₁ : Retains a b) (h₂ : Retains b c) : Retains a c :=
  ⟨fun h => h₂.cells (h₁.cells h), fun h => h₂.entries (h₁.entries h)⟩

theorem Retains.of_entries (h : b.entries = a.entries) : Retains a b := by
  have entries (id : VarId) : b.entry? id = a.entry? id := congrArg (List.lookup id) h
  exact ⟨fun hc => by rwa [cell?, entries], fun he => by rwa [entries]⟩

theorem Retains.setCell (h : Retains a b) (id : VarId) (cell : Cell) : Retains a (b.setCell id cell) := by
  refine ⟨fun hc => ?_, fun he => ?_⟩
  · rw [cell?_setCell]
    split
    · rfl
    · exact h.cells hc
  · rw [entry?_setCell]
    split
    · rfl
    · exact h.entries he

/-- The record of a variable without a cell takes no cell away. -/
theorem Retains.record (h : Retains a b) (hn : b.cell? id = none) (content : Content) :
    Retains a (b.record id content) := by
  refine ⟨fun hc => ?_, fun he => ?_⟩
  · rw [cell?_record_of_none hn]
    exact h.cells hc
  · rw [entry?_record]
    split
    · rfl
    · exact h.entries he

namespace Covered

theorem congr (h : a.Covered s) (he : b.entries = a.entries) : b.Covered s := by
  have entries (id : VarId) : b.entry? id = a.entry? id := congrArg (List.lookup id) he
  have cells (id : VarId) : b.cell? id = a.cell? id := by rw [cell?, entries, cell?]
  refine ⟨fun hc => h.cells (by rwa [← cells]), fun hc q hq => ?_⟩
  rw [cells]
  exact h.slots (by rwa [content?, ← entries, ← content?]) q hq

/-- Only relations have cells. -/
theorem cell?_eq_none (h : a.Covered s) (kinds : s.KindsApart) {v : Variable} (hv : v ∈ s.allVariables)
    (hr : v.relation? = none) : a.cell? v.id = none := by
  cases hc : a.cell? v.id with
  | none => rfl
  | some cell =>
    obtain ⟨r, hrel, hid⟩ := h.cells (by rw [hc]; rfl)
    have same := kinds _ hrel _ hv hid
    rw [hr] at same
    cases same

theorem record (h : a.Covered s) (hn : a.cell? id = none) {content : Content}
    (hs : ∀ q, .slot q ∈ content.atoms → (a.cell? q).isSome) : (a.record id content).Covered s := by
  refine ⟨fun hc => h.cells (by rwa [cell?_record_of_none hn] at hc), fun {i c} hc q hq => ?_⟩
  rw [cell?_record_of_none hn]
  rw [content?, entry?_record] at hc
  split at hc
  · cases hc
    exact hs q hq
  · exact h.slots hc q hq

theorem setCell (h : a.Covered s) {r : Relation} (hr : .relation r ∈ s.allVariables) (cell : Cell) :
    (a.setCell r.id cell).Covered s := by
  refine ⟨fun {i} hc => ?_, fun {i c} hc q hq => ?_⟩
  · rw [cell?_setCell] at hc
    split at hc
    next he => exact ⟨r, hr, he.symm⟩
    next => exact h.cells hc
  · rw [cell?_setCell]
    split
    · rfl
    next hne =>
      rw [content?, entry?_setCell] at hc
      split at hc
      next he =>
        cases hc
        exact absurd ((Atom.slot.inj (List.mem_singleton.mp hq)).trans he) hne
      next => exact h.slots hc q hq

/-- To freeze a content makes no slots. -/
theorem slots_freeze (h : a.Covered s) {content : Content} (hc : a.content? id = some content) {q : VarId}
    (hq : .slot q ∈ (a.freeze content).atoms) : (a.cell? q).isSome := by
  rw [atoms_freeze] at hq
  exact h.slots hc q (slot_mem_of_settled hq)

/-- When all cells have bits, so has all that is recorded. -/
theorem isSome_bits? (h : a.Covered s) (known : ∀ {id cell}, a.cell? id = some cell → ∃ bits, cell = .known bits)
    (he : (a.entry? id).isSome) : (a.bits? id).isSome := by
  obtain ⟨entry, he⟩ := Option.isSome_iff_exists.mp he
  unfold bits?
  rw [he]
  cases entry with
  | cell cell =>
    obtain ⟨bits, rfl⟩ := known (cell?_eq_some_iff.mpr he)
    rfl
  | content content =>
    refine Option.isSome_iff_exists.mpr ⟨_, flatten_eq_some_iff.mpr ⟨fun q hq => ?_, rfl⟩⟩
    obtain ⟨cell, hc⟩ := Option.isSome_iff_exists.mp (h.slots (content?_of_record he) q hq)
    obtain ⟨bits, rfl⟩ := known hc
    simp only [slotBits?, chunkBits?, hc, Option.bind_eq_bind, Option.bind_some]
    rfl

end Covered

end Assignment

/-- The discipline in which all slots are those of relations with cells. -/
def Discipline.covered (s : Symbol) (Inv : Assignment → Prop) (hi : ∀ {a}, Inv a → a.Covered s) : Discipline where
  Inv
  Step := Retains
  Fit a content := ∀ q, .slot q ∈ content.atoms → (a.cell? q).isSome
  Done v a := (a.entry? v.id).isSome
  refl := .refl
  trans := .trans
  done hs h := hs.entries h
  kept hs h q hq := hs.cells (h q hq)
  empty _ _ hq := nomatch hq
  pushBits h bits q hq := by
    rw [Content.atoms_pushBits, List.mem_append] at hq
    exact hq.elim (h q) fun hq => absurd hq Atom.slot_notMem_ofBits
  append inv h hown q hq := by
    rw [Content.atoms_append, List.mem_append] at hq
    exact hq.elim (h q) ((hi inv).slots_freeze hown)

/-! ## Generation -/

namespace Assignment

variable {s : Symbol} {a b made : Assignment} {id : VarId} {v : Variable}

/-- All slots are those of relations with cells, and the relations whose cells have no bits wait. -/
structure Backed (s : Symbol) (a : Assignment) : Prop extends Covered s a where
  pending : ∀ r ∈ a.pending, .relation r ∈ s.allVariables
  awaited : ∀ {id length?}, a.cell? id = some (.awaited length?) → a.isPending id = true
  distinct : a.Distinct

namespace Backed

theorem congr (h : a.Backed s) (he : b.entries = a.entries) (hp : b.pending = a.pending) : b.Backed s := by
  refine ⟨h.toCovered.congr he, by rw [hp]; exact h.pending, fun hc => ?_, by unfold Distinct; rw [hp]; exact h.distinct⟩
  rw [isPending, hp]
  exact h.awaited (by rwa [cell?, entry?, ← he, ← entry?, ← cell?])

theorem record (h : a.Backed s) (hn : a.cell? id = none) {content : Content}
    (hs : ∀ q, .slot q ∈ content.atoms → (a.cell? q).isSome) : (a.record id content).Backed s :=
  ⟨h.toCovered.record hn hs, h.pending, fun hc => h.awaited (by rwa [cell?_record_of_none hn] at hc), h.distinct⟩

theorem setKnown (h : a.Backed s) {r : Relation} (hr : .relation r ∈ s.allVariables) (bits : BitString) :
    (a.setCell r.id (.known bits)).Backed s := by
  refine ⟨h.toCovered.setCell hr _, h.pending, fun {i n} hc => ?_, h.distinct⟩
  rw [cell?_setCell] at hc
  split at hc
  · cases hc
  · exact h.awaited hc

/-- A relation that gets a cell without bits waits from then on. -/
theorem await (h : a.Backed s) {r : Relation} (hr : .relation r ∈ s.allVariables) (cell : Cell) :
    ((a.setCell r.id cell).awaitRelation r).Backed s := by
  have waits {i : VarId} : ((a.setCell r.id cell).awaitRelation r).isPending i = (a.isPending i || r.id == i) :=
    isPending_awaitRelation _ r i
  refine ⟨(h.toCovered.setCell hr cell).congr (entries_awaitRelation _ _), fun q hq => ?_, fun {i n} hc => ?_,
    Distinct.awaitRelation (a := a.setCell r.id cell) h.distinct r⟩
  · rcases List.mem_append.mp (pending_awaitRelation r hq) with hq | hq
    · exact h.pending q hq
    · rwa [List.mem_singleton.mp hq]
  · rw [waits, Bool.or_eq_true, beq_iff_eq]
    rw [cell?_awaitRelation, cell?_setCell] at hc
    split at hc
    next he => exact Or.inr he.symm
    next => exact Or.inl (h.awaited hc)

/-- Only the relation that is filled in stops waiting, and it has bits. -/
theorem fillIn (h : a.Backed s) {r : Relation} (hr : r ∈ a.pending) (bits : BitString) : (a.fillIn r.id bits).Backed s := by
  have known := h.setKnown (h.pending r hr) bits
  refine ⟨known.toCovered.congr rfl, fun q hq => h.pending q (List.mem_filter.mp hq).1, fun {i n} hc => ?_,
    h.distinct.sublist List.filter_sublist⟩
  have ne : i ≠ r.id := by
    rintro rfl
    have own : (a.setCell r.id (.known bits)).cell? r.id = some (.awaited n) := hc
    rw [cell?_setCell, if_pos rfl] at own
    cases own
  obtain ⟨q, hq, hid⟩ := isPending_iff.mp (known.awaited hc)
  exact isPending_iff.mpr ⟨q, List.mem_filter.mpr ⟨hq, bne_iff_ne.mpr (hid ▸ ne)⟩, hid⟩

theorem settles (h : a.Backed s) (hs : Settles a b) : b.Backed s ∧ Retains a b := by
  induction hs with
  | refl => exact ⟨h, .refl _⟩
  | @fill a b r bits hr _ _ ih =>
    obtain ⟨hb, kept⟩ := ih (h.fillIn hr bits)
    have filled : Retains a (a.fillIn r.id bits) :=
      ((Retains.refl a).setCell r.id (.known bits)).trans (.of_entries rfl)
    exact ⟨hb, filled.trans kept⟩

/-- What is recorded stays so while relations settle. -/
theorem after (h : made.Backed s) (hr : Retains a made) (hd : (made.entry? v.id).isSome) (hs : Settled made b) :
    (Discipline.covered s (Backed s) Backed.toCovered).After v a b := by
  obtain ⟨hb, hr'⟩ := h.settles hs.1
  exact ⟨hb, hr.trans hr', hr'.entries hd⟩

/-- When no relation waits, all cells have bits. -/
theorem known (h : a.Backed s) (hp : a.pending = []) {cell : Cell} (hc : a.cell? id = some cell) :
    ∃ bits, cell = .known bits := by
  cases cell with
  | known bits => exact ⟨bits, rfl⟩
  | awaited length? =>
    have waits := h.awaited hc
    rw [isPending, hp] at waits
    cases waits

end Backed

end Assignment

section Generation

variable {ρ : Type} [RandomSource ρ] {s : Symbol}

/-- Generation leaves no slot without a cell, and no cell without bits whose relation does not wait. -/
theorem Symbol.KindsApart.generates (kinds : s.KindsApart) (bound : Bindings) (limits : GenerationLimits) :
    Generates ρ (.covered s (Backed s) Backed.toCovered) (fun mutators? => mutators?.map Mutators.hasLeaf = bound) limits
      s.allVariables where
  leaves h hm := (congrArg some (Mutators.hasLeaf_congr h)).trans hm
  data {id name type scope a} hv hi := by
    have leaf : Yields (ρ := ρ) bound (generateData limits id type scope a) _ :=
      generateData_yields hi.distinct id name type scope
    refine Returns.mono leaf fun x hx b hb => ?_
    obtain ⟨made, hm, hs⟩ := hx b hb
    cases hm with
    | node hn => cases hn
    | @data _ _ _ _ _ c value hvalue =>
      have hc : c.Backed s := Backed.congr hi hvalue.kept.1 hvalue.kept.2
      have none : c.cell? id = none := hc.cell?_eq_none kinds hv rfl
      refine (hc.record none fun q hq => ?_).after ((Retains.of_entries hvalue.kept.1).record none _) ?_ hs
      · rw [Content.atoms_ofBits] at hq
        exact absurd hq Atom.slot_notMem_ofBits
      · rw [Variable.id, entry?_record_self]
        rfl
  relation {r a} hv hi := by
    have set (cell : Cell) : (Assignment.entry? (a.setCell r.id cell) r.id).isSome := by
      rw [entry?_setCell, if_pos rfl]
      rfl
    have retains (cell : Cell) : Retains a (a.setCell r.id cell) := (Retains.refl a).setCell _ _
    have value : Yields (ρ := ρ) bound (generateRelation r a) _ := generateRelation_yields hi.distinct r
    refine Returns.mono value fun x hx b hb => ?_
    obtain ⟨made, hm, hs⟩ := hx b hb
    cases hm with
    | node hn => cases hn
    | mutated | ready => exact (Backed.setKnown hi hv _).after (retains _) (set _) hs
    | wait =>
      have kept := Retains.of_entries (entries_awaitRelation (a.setCell r.id (.awaited (announcedLength? r))) r)
      exact (Backed.await hi hv _).after ((retains _).trans kept) (kept.entries (set _)) hs
  node {v a content} hv hn hi hf := by
    have plain : v.relation? = none := relation?_of_isNode hn
    have none := hi.cell?_eq_none kinds hv plain
    have distinct : (a.record v.id content).Distinct := hi.distinct
    refine (settled_returns _ distinct).mono fun b hs => ?_
    refine (Backed.record hi none hf).after ((Retains.refl a).record none _) ?_ hs
    rw [entry?_record_self]
    rfl

end Generation

/-! ## Interpretation -/

/-- All slots are those of relations with cells, and all cells have bits. -/
structure Assignment.Legible (s : Symbol) (a : Assignment) : Prop extends Covered s a where
  known : ∀ {id cell}, a.cell? id = some cell → ∃ bits, cell = .known bits

section Interpretation

variable {s : Symbol} {a b : Assignment} {v : Variable}

namespace Assignment.Legible

theorem congr (h : a.Legible s) (he : b.entries = a.entries) : b.Legible s :=
  ⟨h.toCovered.congr he, fun hc => h.known (by rwa [cell?, entry?, ← he, ← entry?, ← cell?])⟩

theorem record (h : a.Legible s) {id : VarId} (hn : a.cell? id = none) {content : Content}
    (hs : ∀ q, .slot q ∈ content.atoms → (a.cell? q).isSome) : (a.record id content).Legible s :=
  ⟨h.toCovered.record hn hs, fun hc => h.known (by rwa [cell?_record_of_none hn] at hc)⟩

theorem setKnown (h : a.Legible s) {r : Relation} (hr : .relation r ∈ s.allVariables) (bits : BitString) :
    (a.setCell r.id (.known bits)).Legible s := by
  refine ⟨h.toCovered.setCell hr _, fun {i cell} hc => ?_⟩
  rw [cell?_setCell] at hc
  split at hc
  · cases hc
    exact ⟨bits, rfl⟩
  · exact h.known hc

/-- A comparison of the relations that wait changes no records. -/
theorem after {made : Assignment} (h : made.Legible s) (hr : Retains a made) (hd : (made.entry? v.id).isSome)
    (hb : made.verified? = some b) : (Discipline.covered s (Legible s) Legible.toCovered).After v a b := by
  obtain ⟨-, rfl⟩ := verified?_eq_some_iff.mp hb
  exact ⟨h.congr rfl, hr.trans (.of_entries rfl), hd⟩

end Assignment.Legible

/-- Interpretation gives bits to all relations that it reads. -/
theorem Symbol.KindsApart.interprets (kinds : s.KindsApart) (reading : Reading) :
    Interprets (.covered s (Legible s) Legible.toCovered) reading s.allVariables where
  data {id name type scope a b offset} hv hi hb := by
    have leaf {c : Assignment} (bits : BitString) (he : c.entries = a.entries)
        (hc : (c.record id (.ofBits bits)).verified? = some b) :
        (Discipline.covered s (Legible s) Legible.toCovered).After (.data id name type scope) a b := by
      have legible : c.Legible s := Legible.congr hi he
      have none : c.cell? id = none := legible.cell?_eq_none kinds hv rfl
      refine (legible.record none fun q hq => ?_).after ((Retains.of_entries he).record none _) ?_ hc
      · rw [Content.atoms_ofBits] at hq
        exact absurd hq Atom.slot_notMem_ofBits
      · rw [Variable.id, entry?_record_self]
        rfl
    rcases Reading.mem_interpretData.mp hb with ⟨value, -, -, hc⟩ | ⟨-, -, length, -, -, hc⟩
    · exact leaf value rfl hc
    · refine leaf _ ?_ hc
      unfold learnFresh
      split <;> rfl
  relation {r a b offset} hv hi hb := by
    have set (bits : BitString) : (Assignment.entry? (a.setCell r.id (.known bits)) r.id).isSome := by
      rw [entry?_setCell, if_pos rfl]
      rfl
    have retains (bits : BitString) : Retains a (a.setCell r.id (.known bits)) := (Retains.refl a).setCell _ _
    rcases Reading.mem_interpretRelation.mp hb with ⟨bits, -, -, hc⟩ | ⟨n, -, -, -, hc⟩ | ⟨-, n, -, -, hc⟩
    · exact (Legible.setKnown hi hv _).after (retains _) (set _) hc
    · exact (Legible.setKnown hi hv _).after (retains _) (set _) hc
    · have kept := Retains.of_entries
        (entries_awaitRelation (a.setCell r.id (.known (reading.bitsAt offset n))) r)
      exact ((Legible.setKnown hi hv _).congr (entries_awaitRelation _ r)).after ((retains _).trans kept)
        (kept.entries (set _)) hc
  node {v a b content} hv hn hi hf hb := by
    have none := hi.cell?_eq_none kinds hv (relation?_of_isNode hn)
    refine (Legible.record hi none hf).after ((Retains.refl a).record none _) ?_ hb
    rw [entry?_record_self]
    rfl

end Interpretation

/-! ## Whole messages -/

section Messages

variable {s : Symbol} {a : Assignment}

/-- Fields with bits make a message. -/
theorem Message.exists_ofAssignment (h : ∀ f ∈ s.fields, (a.bits? f.id).isSome) :
    ∃ m, Message.ofAssignment s a = .ok m := by
  have collected {fields : List Field} (h : ∀ f ∈ fields, (a.bits? f.id).isSome) (offset : Nat) :
      ∃ values, Message.collect a fields offset = .ok values := by
    induction fields generalizing offset with
    | nil => exact ⟨[], rfl⟩
    | cons f rest ih =>
      obtain ⟨hf, hrest⟩ := List.forall_mem_cons.mp h
      obtain ⟨bits, hb⟩ := Option.isSome_iff_exists.mp hf
      obtain ⟨values, hv⟩ := ih hrest (offset + bits.length)
      refine ⟨⟨f.name, bits, offset⟩ :: values, ?_⟩
      rw [Message.collect, hb]
      dsimp only
      rw [hv]
      rfl
  obtain ⟨values, hv⟩ := collected h 0
  refine ⟨⟨s.name, values⟩, ?_⟩
  unfold Message.ofAssignment
  rw [hv]
  rfl

/-- Nothing is recorded at the start. -/
theorem covered_start (s : Symbol) (memory : Memory) : (s.start memory).Covered s :=
  ⟨fun h => (nomatch h), fun h => (nomatch h)⟩

variable {ρ : Type} [RandomSource ρ]

/-- The fields of a message leave slots behind only for relations with cells, and cells without bits only if they wait. -/
theorem Symbol.KindsApart.generateFields_backed (kinds : s.KindsApart) (limits : GenerationLimits) (memory : Memory)
    {supply next : Supply ρ} (h : (Symbol.generateFields limits s.fields (s.start memory)).run.run supply = (.ok a, next)) :
    a.Backed s ∧ ∀ f ∈ s.fields, (a.entry? f.id).isSome := by
  have start : (s.start memory).Backed s :=
    ⟨covered_start s memory, fun _ hr => (nomatch hr), fun hc => (nomatch hc), List.nodup_nil⟩
  obtain ⟨-, after⟩ := (kinds.generates supply.bindings limits).generateFields_after (List.Subset.refl _) start
    supply rfl a next h
  exact ⟨after.inv, fun f hf => after.done f.domain (List.mem_map_of_mem hf)⟩

theorem Symbol.KindsApart.interpretations_legible (kinds : s.KindsApart) {maxRepeat : Nat} {data : BitString}
    {memory : Memory} (h : a ∈ (s.interpretations maxRepeat data memory).toList) :
    a.Legible s ∧ ∀ f ∈ s.fields, (a.entry? f.id).isSome := by
  obtain ⟨p, hp, -, hv, -⟩ := mem_interpretations h
  have start : (s.start memory).Legible s := ⟨covered_start s memory, fun hc => (nomatch hc)⟩
  have below : (s.fields.map (·.domain)).flatMap preorder ⊆ s.allVariables := by
    rw [List.flatMap_map]
    exact List.Subset.refl _
  have after := (kinds.interprets (.of data maxRepeat)).interpretAll_after below start hp
  obtain ⟨-, rfl⟩ := verified?_eq_some_iff.mp hv
  exact ⟨Legible.congr after.inv rfl, fun f hf => after.done f.domain (List.mem_map_of_mem hf)⟩

/-- Data are recognized as soon as they have an interpretation. -/
theorem Symbol.KindsApart.recognize_eq_none_iff (kinds : s.KindsApart) {maxRepeat : Nat} {persist : Bool}
    {data : BitString} {memory : Memory} : (s.recognize maxRepeat persist data memory).1 = none ↔
      (s.interpretations maxRepeat data memory).toList = [] := by
  unfold Symbol.recognize
  cases hh : (s.interpretations maxRepeat data memory).head? with
  | none =>
    rw [← Choices.head?_toList] at hh
    exact iff_of_true rfl (List.head?_eq_none_iff.mp hh)
  | some a =>
    rw [← Choices.head?_toList] at hh
    have mem := List.mem_of_head? hh
    obtain ⟨legible, recorded⟩ := kinds.interpretations_legible mem
    obtain ⟨m, hm⟩ := Message.exists_ofAssignment fun f hf => legible.isSome_bits? legible.known (recorded f hf)
    dsimp only
    rw [hm]
    exact iff_of_false nofun (List.ne_nil_of_mem mem)

/-- A field that leaves nothing waiting behind has bits for all slots in it. -/
theorem Assignment.Legible.resolved {f : Field} (h : a.Legible s) (he : (a.entry? f.id).isSome) :
    ∃ content, a.content? f.id = some content ∧ ∀ id ∈ content.slots, ∃ bits, a.cell? id = some (.known bits) := by
  obtain ⟨entry, he⟩ := Option.isSome_iff_exists.mp he
  refine ⟨_, by rw [content?, he, Option.map_some], fun id hid => ?_⟩
  have slot := h.slots (by rw [content?, he, Option.map_some]) id (Content.mem_slots.mp hid)
  obtain ⟨cell, hc⟩ := Option.isSome_iff_exists.mp slot
  obtain ⟨bits, rfl⟩ := h.known hc
  exact ⟨bits, hc⟩

theorem generateFields_fails {limits : GenerationLimits} {fields : List Field} {supply next : Supply ρ}
    {e : GenerationError} (h : (Symbol.generateFields limits fields a).run.run supply = (.error e, next)) :
    e.IsOfStep ∨ ∃ f ∈ fields, e = .noValue f.name := by
  induction fields generalizing a supply with
  | nil => cases h
  | cons f rest ih =>
    rw [Symbol.generateFields] at h
    rcases Gen.error_of_bind h with h | ⟨x, middle, -, h⟩
    · exact Or.inl (generate_failsInStep f.domain a supply e next h)
    · cases x with
      | none =>
        cases h
        exact Or.inr ⟨f, List.mem_cons_self, rfl⟩
      | some b =>
        rcases ih h with h | ⟨g, hg, he⟩
        · exact Or.inl h
        · exact Or.inr ⟨g, List.mem_cons_of_mem _ hg, he⟩

/--
No message is given up for a placeholder. In a generated message all slots are those of relations with bits, and where
generation fails it is for another reason; if relations wait at the end, the first of them is named. Data are recognized
as soon as they have an interpretation.
-/
theorem messages_without_placeholders (kinds : s.KindsApart) :
    (∀ (settings : Symbol.Settings) (memory : Memory) (supply next : Supply ρ),
      (∀ m memory', (s.generateMessage settings memory).run.run supply = (.ok (m, memory'), next) →
        ∃ a, (s.generateAssignment (.of settings.maxBytes settings.maxRepeat) memory).run.run supply = (.ok a, next) ∧
          Message.ofAssignment s a = .ok m ∧ ∀ f ∈ s.fields, ∃ content, a.content? f.id = some content ∧
            ∀ id ∈ content.slots, ∃ bits, a.cell? id = some (.known bits)) ∧
      ∀ e, (s.generateMessage settings memory).run.run supply = (.error e, next) →
        (∀ field, e ≠ .placeholder field) ∧ ∀ name, e = .unresolvable name → ∃ a r more,
          (Symbol.generateFields (.of settings.maxBytes settings.maxRepeat) s.fields (s.start memory)).run.run
            supply.started = (.ok a, next) ∧
          a.pending = r :: more ∧ .relation r ∈ s.allVariables ∧ r.name = name) ∧
    ∀ maxRepeat persist data memory, (s.recognize maxRepeat persist data memory).1 = none ↔
      (s.interpretations maxRepeat data memory).toList = [] := by
  have complete {settings : Symbol.Settings} {memory : Memory} {supply next : Supply ρ} {a : Assignment}
      (h : (s.generateAssignment (.of settings.maxBytes settings.maxRepeat) memory).run.run supply = (.ok a, next)) :
      a.Legible s ∧ ∀ f ∈ s.fields, (a.entry? f.id).isSome := by
    obtain ⟨hf, hp⟩ := Symbol.generateAssignment_eq_ok h
    obtain ⟨backed, recorded⟩ := kinds.generateFields_backed _ memory hf
    exact ⟨⟨backed.toCovered, backed.known hp⟩, recorded⟩
  refine ⟨fun settings memory supply next => ⟨fun m memory' h => ?_, fun e h => ?_⟩, fun maxRepeat persist data memory => ?_⟩
  · obtain ⟨a, ha, hm, -⟩ := Symbol.generateMessage_eq_ok h
    obtain ⟨legible, recorded⟩ := complete ha
    exact ⟨a, ha, hm, fun f hf => legible.resolved (recorded f hf)⟩
  · rcases Symbol.generateMessage_eq_error h with ⟨a, field, ha, hm, -⟩ | ⟨-, rfl⟩ | hf | ⟨a, r, rest, hf, hp, rfl⟩
    · obtain ⟨legible, recorded⟩ := complete ha
      obtain ⟨m, hok⟩ := Message.exists_ofAssignment fun f hf => legible.isSome_bits? legible.known (recorded f hf)
      rw [hok] at hm
      cases hm
    · exact ⟨nofun, nofun⟩
    · rcases generateFields_fails hf with hs | ⟨f, -, rfl⟩
      · refine ⟨fun field he => ?_, fun name he => ?_⟩ <;> rw [he] at hs <;> exact hs.elim
      · exact ⟨nofun, nofun⟩
    · refine ⟨nofun, fun name he => ?_⟩
      cases he
      have waits : r ∈ a.pending := by rw [hp]; exact List.mem_cons_self
      exact ⟨a, r, rest, hf, hp, (kinds.generateFields_backed _ memory hf).1.pending r waits, rfl⟩
  · exact kinds.recognize_eq_none_iff

end Messages

/-- In a grammar each variable has an identity of its own. -/
theorem Grammar.kindsApart {text : String} {symbols : List Symbol} (ht : Grammar.symbols text = .ok symbols) {s : Symbol}
    (hs : s ∈ symbols) : s.KindsApart := by
  obtain ⟨fields, ho, made⟩ := symbols_made ht
  intro v hv w hw hid
  rw [(made s hs).eq_of_id ho hv hw hid]

/-- A check of itself and of the byte behind it. -/
def checkedByte : String :=
  "symbol \"S\" \x7b c: internet_checksum([c, x]); x: raw(1); \x7d"

/-- The check in a message of `checkedByte` waits for the byte, and has bits when the message is complete. -/
theorem messages_without_placeholders_checkedByte : ∃ symbols s m, Grammar.symbols checkedByte = .ok symbols ∧
    s ∈ symbols ∧ m.bits = .ofBytes [184, 255, 71] ∧
    (∃ a, Message.ofAssignment s a = .ok m ∧ ∀ f ∈ s.fields, ∃ content, a.content? f.id = some content ∧
      ∀ id ∈ content.slots, ∃ bits, a.cell? id = some (.known bits)) ∧
    ((s.recognize 5 false m.bits .empty).1 = none ↔ (s.interpretations 5 m.bits .empty).toList = []) := by
  obtain ⟨symbols, s, m, memory, next, ht, hs, hm, hb, -⟩ := exists_generated checkedByte ⟨64, 5, false⟩ (.ofSeed 1)
    (fun _ => true) (.ofBytes [184, 255, 71]) (by decide +kernel)
  obtain ⟨generated, recognized⟩ := messages_without_placeholders (ρ := Pcg64) (Grammar.kindsApart ht hs)
  obtain ⟨a, -, ha, resolved⟩ := (generated ⟨64, 5, false⟩ .empty (.ofSeed 1) next).1 m memory hm
  exact ⟨symbols, s, m, ht, hs, hb, ⟨a, ha, resolved⟩, recognized 5 false m.bits .empty⟩

end WireGrammar
