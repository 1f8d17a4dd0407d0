import Mathlib.Data.List.Basic
import WireGrammar.Proofs.Interpretation.Enumeration
import WireGrammar.Proofs.Interpretation.Fits
import WireGrammar.Proofs.Interpretation.Trace
import WireGrammar.Proofs.Interpretation.Waiting

/-!
# Readings and their traces

Every interpretation of a field has a trace: the marks that it went through, in the order of a derivation of the field
(`interpret_traced`). The content recorded keeps a slot in each place of a relation that is late, and the relation's
record holds what was read last. As long as the lengths of such readings do not differ, the bits of the trace stand in
the data one behind the other.
-/

namespace WireGrammar

open Assignment Variable

/-! ## What a reading goes through -/

section Passing

variable {reading : Reading} {late : VarId → Bool} {ids ids' : List VarId} {a b c : Assignment} {offset : Nat}
  {t u : Trace}

theorem prefix_drop_append {α : Type} {xs ys all : List α} {n : Nat} (hx : xs <+: all.drop n)
    (hy : ys <+: all.drop (n + xs.length)) : xs ++ ys <+: all.drop n := by
  obtain ⟨rest, hr⟩ := hx
  rw [← List.drop_drop, ← hr, List.drop_left] at hy
  rw [← hr]
  exact (List.prefix_append_right_inj xs).mpr hy

/-- A part of a reading from an assignment to another: what it reads for relations is what their records hold then. -/
structure Passes (reading : Reading) (late : VarId → Bool) (ids : List VarId) (a b : Assignment) (offset : Nat)
    (t : Trace) : Prop where
  grows : Grows ids a b
  found : ∀ id bits, .value id bits ∈ t → id ∈ ids ∧ bits.toList <:+: reading.data.toList
  cells : ∀ id, b.cell? id = ((Trace.last? id t).map .known).or (a.cell? id)
  stands : t.Uniform late → t.spelled <+: reading.data.toList.drop offset

namespace Passes

theorem nil : Passes reading late ids a a offset [] :=
  ⟨.refl _ a, by simp, fun _ => rfl, fun _ => List.nil_prefix⟩

/-- Bits that stand in the data are no value of a relation. -/
theorem ofBits {bits : BitString} (hg : Grows ids a b) (hc : ∀ id, b.cell? id = a.cell? id)
    (hb : bits.toList <+: reading.data.toList.drop offset) :
    Passes reading late ids a b offset (Trace.ofBits bits) := by
  refine ⟨hg, fun id b hb => absurd hb Trace.value_notMem_ofBits, fun id => ?_, fun _ => ?_⟩
  · rw [hc, Trace.last?_ofBits, Option.map_none, Option.none_or]
  · rw [Trace.spelled_ofBits]
    exact hb

theorem append (h : Passes reading late ids a b offset t) {next : Nat} (h' : Passes reading late ids' b c next u)
    (hn : (t ++ u).Uniform late → next = offset + t.spelled.length) :
    Passes reading late (ids ++ ids') a c offset (t ++ u) := by
  refine ⟨(h.grows.mono (List.subset_append_left _ _)).trans (h'.grows.mono (List.subset_append_right _ _)),
    fun id bits hm => ?_, fun id => ?_, fun hu => ?_⟩
  · rcases List.mem_append.mp hm with hm | hm
    · exact (h.found id bits hm).imp_left (List.mem_append_left _)
    · exact (h'.found id bits hm).imp_left (List.mem_append_right _)
  · rw [h'.cells, h.cells, Trace.last?_append, ← Option.or_assoc]
    cases Trace.last? id u <;> rfl
  · rw [Trace.spelled_append]
    refine prefix_drop_append (h.stands (hu.mono (List.subset_append_left _ _))) ?_
    rw [← hn hu]
    exact h'.stands (hu.mono (List.subset_append_right _ _))

theorem mono (h : Passes reading late ids a b offset t) (hs : ids ⊆ ids') : Passes reading late ids' a b offset t :=
  ⟨h.grows.mono hs, fun id bits hm => (h.found id bits hm).imp_left (hs ·), h.cells, h.stands⟩

/-- What is recorded behind the reading of a node holds no value of a relation. -/
theorem behind (h : Passes reading late ids a b offset t) (hg : Grows ids b c) (hc : ∀ id, c.cell? id = b.cell? id) :
    Passes reading late ids a c offset t :=
  ⟨h.grows.trans hg, h.found, fun id => (hc id).trans (h.cells id), h.stands⟩

/-- The record of a relation holds what was read last. -/
theorem cell?_of_mem (h : Passes reading late ids a b offset t) {id : VarId} {bits : BitString}
    (hm : .value id bits ∈ t) : b.cell? id = (Trace.last? id t).map .known ∧ (b.cell? id).isSome := by
  obtain ⟨last, hl⟩ := Option.isSome_iff_exists.mp (Trace.isSome_last? hm)
  rw [h.cells, hl]
  exact ⟨rfl, rfl⟩

end Passes

/-- What is recorded for a variable that was read: a node keeps slots for late relations. -/
inductive Shown (late : VarId → Bool) (b : Assignment) : Variable → Trace → Prop where
  | node {v : Variable} {t : Trace} {content : Content} (hv : v.relation? = none)
    (he : b.entry? v.id = some (.content content)) (ha : content.atoms = t.kept late) : Shown late b v t
  | relation {r : Relation} {bits : BitString} (hc : b.cell? r.id = some (.known bits)) :
    Shown late b (.relation r) [.value r.id bits]

namespace Shown

variable {v : Variable}

theorem isSome_entry? (h : Shown late b v t) : (b.entry? v.id).isSome := by
  cases h with
  | node hv he ha => rw [he]; rfl
  | @relation r bits hc =>
    rw [show (Variable.relation r).id = r.id from rfl, cell?_eq_some_iff.mp hc]
    rfl

/-- A record lasts as long as nothing is added for the variable. -/
theorem grows (h : Shown late b v t) (hg : Grows ids b c) (hid : v.id ∉ ids) : Shown late c v t := by
  cases h with
  | node hv he ha => exact .node hv ((hg.entry?_eq hid).trans he) ha
  | relation hc => exact .relation ((hg.cell?_eq hid).trans hc)

/-- As long as the lengths of late readings do not differ, a variable accounts for as many bits as were read. -/
theorem consumed (h : Shown late b v t) (hp : Passes reading late ids a b offset t) (hu : t.Uniform late) :
    b.consumed v = t.spelled.length := by
  cases h with
  | @node _ _ content hv he ha =>
    have length : b.measure content = some t.spelled.length := by
      rw [measure_eq_some_iff, ha]
      constructor
      · intro id hid
        obtain ⟨-, bits, hm⟩ := Trace.slot_mem_kept hid
        obtain ⟨last, hl⟩ := Option.isSome_iff_exists.mp (Trace.isSome_last? hm)
        rw [slotLength?, (hp.cell?_of_mem hm).1, hl]
        rfl
      · refine (Trace.size_kept fun id hl bits hm => ?_).symm
        obtain ⟨last, hlast⟩ := Option.isSome_iff_exists.mp (Trace.isSome_last? hm)
        rw [slotLength?, (hp.cell?_of_mem hm).1, hlast]
        exact hu id hl last bits (Trace.mem_of_last? hlast) hm
    rw [Assignment.consumed, length?, he]
    dsimp only
    rw [length, Option.getD_some]
  | @relation r bits hc =>
    rw [Assignment.consumed, length?, show (Variable.relation r).id = r.id from rfl, cell?_eq_some_iff.mp hc]
    simp [Cell.length?, Trace.spelled, Mark.spelled]

/-- A variable goes on accounting for as many bits when others are read. -/
theorem consumed_eq (h : Shown late b v t) (hm : ∀ id bits, .value id bits ∈ t → id ∈ v.ids) (hg : Grows ids b c)
    (apart : ∀ i ∈ v.ids, i ∉ ids) : c.consumed v = b.consumed v := by
  have entry := hg.entry?_eq (apart v.id v.id_mem_ids)
  unfold Assignment.consumed length?
  rw [entry]
  cases h with
  | @node _ _ content hv he ha =>
    rw [he]
    dsimp only
    congr 1
    refine measure_congr fun id hid => ?_
    rw [ha] at hid
    obtain ⟨-, bits, hb⟩ := Trace.slot_mem_kept hid
    exact hg.cell?_eq (apart id (hm id bits hb))
  | @relation r bits hc => rw [show (Variable.relation r).id = r.id from rfl, cell?_eq_some_iff.mp hc]

/-- What was read last is what a variable shows. -/
theorem bits? (h : Shown late b v t) {last : VarId → BitString}
    (hl : ∀ id bits, .value id bits ∈ t → b.cell? id = some (.known (last id))) :
    b.bits? v.id = some (Atom.fill last (t.kept late)) := by
  cases h with
  | @node _ _ content hv he ha =>
    rw [Assignment.bits?, he]
    refine flatten_eq_some_iff.mpr ?_
    have slot {id : VarId} (hid : .slot id ∈ content.atoms) : b.slotBits? none id = some (last id) := by
      rw [ha] at hid
      obtain ⟨-, bits, hb⟩ := Trace.slot_mem_kept hid
      simp [slotBits?, chunkBits?, hl id bits hb, Cell.bits?]
    refine ⟨fun id hid => by rw [slot hid]; rfl, ?_⟩
    rw [← ha]
    exact Atom.fill_congr fun id hid => by rw [slot hid, Option.getD_some]
  | @relation r bits hc =>
    have shows := hl r.id bits List.mem_cons_self
    rw [hc] at shows
    have same : bits = last r.id := Cell.known.inj (Option.some.inj shows)
    rw [Assignment.bits?, show (Variable.relation r).id = r.id from rfl, cell?_eq_some_iff.mp hc]
    unfold Trace.kept
    rw [List.flatMap_singleton, Mark.kept]
    by_cases hlate : late r.id = true
    · rw [if_pos hlate, Atom.fill_slot, ← same]
      rfl
    · rw [if_neg hlate, Atom.fill_ofBits]
      rfl

end Shown

end Passing

/-! ## Traces of variables -/

section Traces

variable {reading : Reading} {all : List Variable} {f : Variable} {start : Assignment} {late : VarId → Bool}
  {a b c : Assignment} {offset : Nat} {v : Variable} {t : Trace}

theorem verified?_reads (h : a.verified? = some b) :
    (∀ id, b.entry? id = a.entry? id) ∧ ∀ id, b.cell? id = a.cell? id := by
  obtain ⟨-, rfl⟩ := verified?_eq_some_iff.mp h
  exact ⟨fun _ => rfl, fun _ => rfl⟩

theorem flatMap_eq_self {α : Type} {g : α → List α} {xs : List α} (h : ∀ x ∈ xs, g x = [x]) : xs.flatMap g = xs := by
  rw [List.flatMap_congr h]
  exact List.flatMap_singleton' xs

/-- With the values of settled relations in their places, slots are left for the late ones. -/
theorem Shown.frozen (h : Shown late b v t) (hf : Tidy all f start late) (hu : Underway all f start late b)
    (hm : ∀ id bits, .value id bits ∈ t → id ∈ idsOf f.children ∧ (b.cell? id).isSome) :
    ∃ content, b.content? v.id = some content ∧ content.atoms.flatMap b.settleAtom = t.kept late := by
  cases h with
  | @node _ _ content hv he ha =>
    refine ⟨content, content?_of_record he, ?_⟩
    rw [ha]
    refine flatMap_eq_self fun x hx => ?_
    cases x with
    | bit bit => rfl
    | slot id =>
      obtain ⟨hl, bits, hb⟩ := Trace.slot_mem_kept hx
      obtain ⟨hid, hc⟩ := hm id bits hb
      exact settleAtom_of_pending ((hu.isPending_eq hf hid hc).trans hl)
  | @relation r bits hc =>
    have hs : (b.cell? r.id).isSome := by rw [hc]; rfl
    refine ⟨.slot r.id, content?_of_cell? hs, ?_⟩
    have hp := hu.isPending_eq hf (hm r.id bits List.mem_cons_self).1 hs
    rw [Content.atoms_slot, List.flatMap_singleton]
    cases hl : late r.id with
    | true => simp [settleAtom_of_pending (hp.trans hl), Trace.kept, Mark.kept, hl]
    | false => simp [settleAtom_of_known (hp.trans hl) hc, Trace.kept, Mark.kept, hl]

/-- A leaf holds bits that its type accepts, unless it replays a value that is known already. -/
def ReadsLeaf : LeafRule := fun _ type scope bits =>
  type.accepts bits = true ∨ scope.replays = true

/-- How many instances are read. -/
def CountsRead (count : RepeatCount) (k : Nat) : Prop :=
  count.least ≤ k ∧ k < count.stop

/-- A variable that was read, with a derivation of it and a trace that goes through its atoms. -/
structure Traced (reading : Reading) (late : VarId → Bool) (v : Variable) (a b : Assignment) (offset : Nat)
    (d : Derivation) (t : Trace) : Prop where
  passes : Passes reading late v.ids a b offset t
  held : Fits (HoldsLeaf b) CountsRead v d
  atoms : t.atoms = d.atoms
  shown : Shown late b v t

theorem HoldsLeaf.reads {id : VarId} {type : DataType} {scope : Scope} {bits : BitString}
    (h : HoldsLeaf b id type scope bits) : ReadsLeaf id type scope bits := by
  cases hs : scope.replays with
  | true => exact Or.inr hs
  | false => exact Or.inl (h.fresh hs)

/-- The interpretations of a variable have traces. -/
def HasTraces (reading : Reading) (all : List Variable) (f : Variable) (start : Assignment) (late : VarId → Bool)
    (v : Variable) : Prop :=
  ∀ ⦃a b : Assignment⦄ ⦃offset : Nat⦄, Underway all f start late a → b ∈ (reading.interpret v a offset).toList →
    ∃ c d t, Underway all f start late c ∧ LastRead v c b ∧ Traced reading late v a b offset d t

theorem bitsAt_front (n : Nat) : (reading.bitsAt offset n).toList <+: reading.data.toList.drop offset := by
  rw [Reading.bitsAt_eq, BitString.toList_ofList]
  exact List.take_prefix _ _

theorem matchesAt_front {bits : BitString} (h : bits.matchesAt reading.data offset = true) :
    bits.toList <+: reading.data.toList.drop offset := by
  obtain ⟨-, hs⟩ := BitString.matchesAt_iff.mp h
  rw [← hs, BitString.toList_slice, List.drop_take]
  exact List.take_prefix _ _

theorem data_hasTraces (hf : Tidy all f start late) {id : VarId} {name : String} {type : DataType} {scope : Scope}
    (hv : .data id name type scope ∈ all) : HasTraces reading all f start late (.data id name type scope) := by
  intro a b offset ha hb
  have none : a.cell? id = none := ha.closed.cell?_eq_none hf.unique hv rfl
  have traced {x : Assignment} {value : BitString} (hx : Grows [id] a x ∧ x.entries = a.entries ∧ x.pending = a.pending)
      (hr : HoldsLeaf x id type scope value) (hp : value.toList <+: reading.data.toList.drop offset)
      (h : (x.record id (.ofBits value)).verified? = some b) :
      ∃ c d t, Underway all f start late c ∧ LastRead (.data id name type scope) c b ∧
        Traced reading late (.data id name type scope) a b offset d t := by
    obtain ⟨hg, he, hpending⟩ := hx
    have cells : ∀ i, x.cell? i = a.cell? i := fun i => by rw [cell?, entry?, he, cell?, entry?]
    obtain ⟨hentry, hcell⟩ := verified?_reads h
    have recorded : Grows [id] x b := ((Grows.refl _ x).record List.mem_cons_self _).verified? h
    refine ⟨a, .leaf value, Trace.ofBits value, ha, .record rfl ⟨hg, he, hpending⟩ (fun q hq => ?_) h, ?_,
      ⟨value, rfl, hr.grows recorded⟩, ?_, ?_⟩
    · rw [Content.atoms_ofBits] at hq
      exact absurd hq Atom.slot_notMem_ofBits
    · refine Passes.ofBits ?_ (fun i => ?_) hp
      · rw [ids_data]
        exact hg.trans recorded
      · rw [hcell, cell?_record_of_none (by rw [cells, none]), cells]
    · rw [Trace.atoms_ofBits, Derivation.atoms]
    · exact .node rfl ((hentry id).trans (entry?_record_self id _)) (by simp)
  rw [Reading.interpret] at hb
  rcases Reading.mem_interpretData.mp hb with ⟨value, hr, hm, h⟩ | ⟨hr, -, n, -, hacc, h⟩
  · exact traced ⟨.refl _ a, rfl, rfl⟩ (.of_replayed hr) (matchesAt_front hm) h
  · refine traced ⟨(Grows.refl _ a).learnFresh List.mem_cons_self _ _, ?_, pending_learnFresh _ _ _⟩
      (.of_fresh hr hacc) (bitsAt_front n) h
    unfold learnFresh
    split <;> rfl

theorem relation_hasTraces {r : Relation} : HasTraces reading all f start late (.relation r) := by
  intro a b offset ha hb
  have traced {x : Assignment} {bits : BitString} (hx : ∀ id, x.cell? id = (a.setCell r.id (.known bits)).cell? id)
      (hg : Grows [r.id] a x) (hp : bits.toList <+: reading.data.toList.drop offset) (h : x.verified? = some b)
      (hl : LastRead (.relation r) a b) :
      ∃ c d t, Underway all f start late c ∧ LastRead (.relation r) c b ∧
        Traced reading late (.relation r) a b offset d t := by
    obtain ⟨-, hcell⟩ := verified?_reads h
    have cells (id : VarId) : b.cell? id = if id = r.id then some (.known bits) else a.cell? id := by
      rw [hcell, hx, cell?_setCell]
    refine ⟨a, .relation r.id, [.value r.id bits], ha, hl, ⟨?_, fun id b hb => ?_, fun id => ?_, fun _ => ?_⟩, rfl, rfl,
      ?_⟩
    · rw [ids_relation]
      exact hg.verified? h
    · cases List.mem_singleton.mp hb
      rw [ids_relation]
      exact ⟨List.mem_singleton_self _, hp.isInfix.trans (List.drop_suffix _ _).isInfix⟩
    · rw [cells, Trace.last?, Trace.last?, Option.none_or]
      by_cases hid : id = r.id
      · rw [if_pos hid, if_pos hid.symm]
        rfl
      · rw [if_neg hid, if_neg (Ne.symm hid)]
        rfl
    · simpa [Trace.spelled, Mark.spelled] using hp
    · exact .relation (by rw [cells, if_pos rfl])
  have set (bits : BitString) : Grows [r.id] a (a.setCell r.id (.known bits)) :=
    (Grows.refl _ a).setCell List.mem_cons_self _
  rw [Reading.interpret] at hb
  rcases Reading.mem_interpretRelation.mp hb with ⟨bits, he, hm, h⟩ | ⟨n, he, -, -, h⟩ | ⟨he, n, -, -, h⟩
  · exact traced (fun _ => rfl) (set _) (matchesAt_front hm) h (.known (by simp [he]) h)
  · exact traced (fun _ => rfl) (set _) (bitsAt_front n) h (.known (by simp [he]) h)
  · exact traced (cell?_awaitRelation r) ((set _).awaitRelation r) (bitsAt_front n) h (.wait he h)

/-- A node that is recorded with what its children were read as. -/
theorem node_traced (hf : Tidy all f start late) (hv : v ∈ all) (hr : v.relation? = none)
    (hc : Underway all f start late c) {ids : List VarId} (hids : ids ⊆ v.ids)
    (hp : Passes reading late ids a c offset t) {content : Content} (ha : content.atoms = t.kept late)
    (hb : (c.record v.id content).verified? = some b) {d : Derivation} (hd : Fits (HoldsLeaf c) CountsRead v d)
    (ht : t.atoms = d.atoms) :
    ∃ c d t, Underway all f start late c ∧ LastRead v c b ∧ Traced reading late v a b offset d t := by
  have none := hc.closed.cell?_eq_none hf.unique hv hr
  obtain ⟨hentry, hcell⟩ := verified?_reads hb
  have recorded : Grows v.ids c b := ((Grows.refl _ c).record v.id_mem_ids content).verified? hb
  refine ⟨c, d, t, hc, .record hr ⟨.refl _ c, rfl, rfl⟩ (fun q hq => ?_) hb,
    ⟨?_, hd.mono (HoldsLeaf.grows recorded), ht, ?_⟩⟩
  · rw [ha] at hq
    obtain ⟨-, bits, hm⟩ := Trace.slot_mem_kept hq
    exact (hp.cell?_of_mem hm).2
  · refine (hp.mono hids).behind recorded fun id => ?_
    rw [hcell, cell?_record_of_none none]
  · exact .node hr ((hentry v.id).trans (entry?_record_self v.id content)) ha

/-- Children of a sequence that were read one after the other. -/
structure TracedAll (reading : Reading) (late : VarId → Bool) (children : List Variable) (a b : Assignment)
    (offset next : Nat) (parts : List Derivation) (t : Trace) : Prop where
  passes : Passes reading late (idsOf children) a b offset t
  held : FitsAll (HoldsLeaf b) CountsRead children parts
  atoms : t.atoms = (Derivation.atomsAll parts).flatten
  shown : ∃ ts, List.Forall₂ (Shown late b) children ts ∧ ts.flatten = t
  ends : t.Uniform late → next = offset + t.spelled.length
  length : next = offset + totalLength (children.map b.consumed)

/-- A first child and those after it, which do not contain it. -/
theorem Traced.cons {more : List Variable} {next : Nat} {d : Derivation} {parts : List Derivation} {u : Trace}
    (traced : Traced reading late v a b offset d t)
    (rest : TracedAll reading late more b c (offset + b.consumed v) next parts u)
    (apart : ∀ i ∈ v.ids, i ∉ idsOf more) : TracedAll reading late (v :: more) a c offset next (d :: parts) (t ++ u) := by
  obtain ⟨ts, hts, rfl⟩ := rest.shown
  have consumed (hun : (t ++ ts.flatten).Uniform late) : b.consumed v = t.spelled.length :=
    traced.shown.consumed traced.passes (hun.mono (List.subset_append_left _ _))
  refine ⟨traced.passes.append rest.passes fun hun => by rw [consumed hun],
    ⟨d, parts, rfl, traced.held.mono (HoldsLeaf.grows rest.passes.grows), rest.held⟩, ?_,
    ⟨t :: ts, .cons (traced.shown.grows rest.passes.grows (apart v.id v.id_mem_ids)) hts, rfl⟩,
    fun hun => ?_, ?_⟩
  · rw [Trace.atoms_append, traced.atoms, rest.atoms]
    rfl
  · rw [rest.ends (hun.mono (List.subset_append_right _ _)), consumed hun, Trace.spelled_append, List.length_append]
    omega
  · rw [rest.length, List.map_cons, traced.shown.consumed_eq (fun id bits hm => (traced.passes.found id bits hm).1)
      rest.passes.grows apart]
    exact Nat.add_assoc _ _ _

theorem interpretAll_traced (hf : Tidy all f start late) {children : List Variable}
    (hc : preorderAll children ⊆ preorderAll f.children) (hn : (idsOf children).Nodup)
    (one : ∀ c ∈ children, HasTraces reading all f start late c) (ha : Underway all f start late a)
    {p : Assignment × Nat} (hp : p ∈ (reading.interpretAll children a offset).toList) :
    Underway all f start late p.1 ∧ ∃ parts t, TracedAll reading late children a p.1 offset p.2 parts t := by
  induction children generalizing a offset with
  | nil =>
    rw [Reading.toList_interpretAll_nil, List.mem_singleton] at hp
    rw [hp]
    exact ⟨ha, [], [], .nil, rfl, rfl, ⟨[], .nil, rfl⟩, fun _ => rfl, rfl⟩
  | cons v more ih =>
    obtain ⟨hv, hmore⟩ := List.append_subset.mp hc
    obtain ⟨-, hnm, apart⟩ := List.nodup_append.mp hn
    obtain ⟨b, hb, hp⟩ := Reading.mem_interpretAll_cons.mp hp
    obtain ⟨c, d, t, hu, hl, traced⟩ := one v List.mem_cons_self ha hb
    have hbu : Underway all f start late b := hu.step hf (hv v.self_mem_preorder) hl
    obtain ⟨hend, parts, u, rest⟩ := ih hmore hnm (fun c hc => one c (List.mem_cons_of_mem _ hc)) hbu hp
    exact ⟨hend, d :: parts, t ++ u, traced.cons rest fun i hi hm => apart i hi i hm rfl⟩

/-- The contents of children put together, with the values of settled relations in them. -/
theorem contents_of_shown (hf : Tidy all f start late) (hu : Underway all f start late b) {children : List Variable}
    {ts : List Trace} (h : List.Forall₂ (Shown late b) children ts)
    (hm : ∀ id bits, .value id bits ∈ ts.flatten → id ∈ idsOf f.children ∧ (b.cell? id).isSome) :
    ∃ contents, children.mapM (fun c => b.content? c.id) = some contents ∧
      contents.flatMap (fun c => c.atoms.flatMap b.settleAtom) = Trace.kept late ts.flatten := by
  induction h with
  | nil => exact ⟨[], rfl, rfl⟩
  | @cons v t more ts hs _ ih =>
    obtain ⟨content, hcontent, hfrozen⟩ := hs.frozen hf hu fun id bits hb => hm id bits (List.mem_append_left _ hb)
    obtain ⟨contents, hcontents, hrest⟩ := ih fun id bits hb => hm id bits (List.mem_append_right _ hb)
    refine ⟨content :: contents, ?_, ?_⟩
    · rw [List.mapM_cons, hcontent, hcontents]
      rfl
    · rw [List.flatMap_cons, hfrozen, hrest, List.flatten_cons, Trace.kept_append]

/-- A node is recorded from the children that were read. -/
theorem compose?_traced (hf : Tidy all f start late) (hv : v ∈ all) (hr : v.relation? = none)
    {children : List Variable} (hids : idsOf children ⊆ v.ids) (hc : idsOf children ⊆ idsOf f.children)
    (hu : Underway all f start late c) (hp : Passes reading late (idsOf children) a c offset t) {ts : List Trace}
    (hs : List.Forall₂ (Shown late c) children ts) (hts : ts.flatten = t) (hb : c.compose? v.id children = some b)
    {d : Derivation} (hd : Fits (HoldsLeaf c) CountsRead v d) (ht : t.atoms = d.atoms) :
    ∃ c d t, Underway all f start late c ∧ LastRead v c b ∧ Traced reading late v a b offset d t := by
  subst hts
  obtain ⟨contents, hcontents, hkept⟩ := contents_of_shown hf hu hs fun id bits hm =>
    ⟨hc (hp.found id bits hm).1, (hp.cell?_of_mem hm).2⟩
  obtain ⟨contents', hcontents', hb⟩ := compose?_eq_some_iff.mp hb
  obtain rfl := Option.some.inj (hcontents.symm.trans hcontents')
  refine node_traced hf hv hr hu hids hp ?_ hb hd ht
  rw [atoms_foldl_freeze, Content.atoms_empty, List.nil_append, hkept]

/-- Instances of a child that were read one after the other, behind the content of what came before. -/
structure TracedTimes (reading : Reading) (late : VarId → Bool) (child : Variable) (delimiter : Option BitString)
    (k : Nat) (isFirst : Bool) (a : Assignment) (before : Content) (p : Assignment × Content) (offset : Nat)
    (parts : List Derivation) (t : Trace) : Prop where
  passes : Passes reading late child.ids a p.1 offset t
  length : parts.length = k
  held : ∀ part ∈ parts, Fits (HoldsLeaf p.1) CountsRead child part
  atoms : t.atoms = Derivation.joined delimiter isFirst (Derivation.atomsAll parts)
  content : p.2.atoms = before.atoms ++ t.kept late

/-- The delimiter before an instance stands in the data. -/
theorem passDelimiter?_passes {delimiter : Option BitString} {isFirst : Bool} {before content : Content} {next : Nat}
    (h : reading.passDelimiter? delimiter isFirst offset before = some (next, content)) :
    ∃ bits : BitString, Derivation.delimiterAtoms delimiter isFirst = Atom.ofBits bits ∧
      content.atoms = before.atoms ++ Atom.ofBits bits ∧ next = offset + bits.length ∧
        bits.toList <+: reading.data.toList.drop offset := by
  have same (h : some (offset, before) = some (next, content)) :
      content.atoms = before.atoms ++ Atom.ofBits .empty ∧ next = offset + (BitString.empty).length ∧
        (BitString.empty).toList <+: reading.data.toList.drop offset := by
    cases h
    exact ⟨(List.append_nil _).symm, rfl, List.nil_prefix⟩
  unfold Reading.passDelimiter? at h
  cases delimiter with
  | none => cases isFirst <;> exact ⟨.empty, rfl, same h⟩
  | some d =>
    cases isFirst with
    | true => exact ⟨.empty, rfl, same h⟩
    | false =>
      obtain ⟨hm, h⟩ := Option.ite_none_right_eq_some.mp h
      cases h
      exact ⟨d, rfl, Content.atoms_pushBits before d, rfl, matchesAt_front hm⟩

theorem instances_traced (hf : Tidy all f start late) {child : Variable}
    (hc : child.preorder ⊆ preorderAll f.children) (one : HasTraces reading all f start late child)
    {delimiter : Option BitString} {k : Nat} {isFirst : Bool} (ha : Underway all f start late a) {before : Content}
    {p : Assignment × Content}
    (hp : p ∈ (reading.instances (reading.interpret child) child delimiter k isFirst a offset before).toList) :
    Underway all f start late p.1 ∧
      ∃ parts t, TracedTimes reading late child delimiter k isFirst a before p offset parts t := by
  induction k generalizing a isFirst offset before with
  | zero =>
    rw [Reading.toList_instances_zero, List.mem_singleton] at hp
    rw [hp]
    exact ⟨ha, [], [], .nil, rfl, by simp, rfl, (List.append_nil _).symm⟩
  | succ k ih =>
    obtain ⟨start', content, hpass, b, hb, -, own, hown, hp⟩ := Reading.mem_instances_succ.mp hp
    obtain ⟨bits, hbits, hcontent, rfl, hstands⟩ := passDelimiter?_passes hpass
    obtain ⟨c, d, t, hu, hl, traced⟩ := one ha hb
    have hbu : Underway all f start late b := hu.step hf (hc child.self_mem_preorder) hl
    obtain ⟨hend, parts, u, rest⟩ := ih hbu hp
    have below (id : VarId) (hid : id ∈ child.ids) : id ∈ idsOf f.children := by
      rw [← map_id_preorderAll]
      exact List.map_subset _ hc hid
    obtain ⟨own', hown', hfrozen⟩ := traced.shown.frozen hf hbu fun id bits hm =>
      ⟨below id (traced.passes.found id bits hm).1, (traced.passes.cell?_of_mem hm).2⟩
    obtain rfl := Option.some.inj (hown.symm.trans hown')
    have delim : Passes reading late child.ids a a offset (Trace.ofBits bits) :=
      .ofBits (.refl _ a) (fun _ => rfl) hstands
    have instance' : Passes reading late (child.ids ++ child.ids) a p.1 (offset + bits.length) (t ++ u) := by
      refine traced.passes.append rest.passes fun hun => ?_
      rw [traced.shown.consumed traced.passes (hun.mono (List.subset_append_left _ _))]
    refine ⟨hend, d :: parts, Trace.ofBits bits ++ (t ++ u), ?_, ?_, ?_, ?_, ?_⟩
    · refine (delim.append instance' fun _ => ?_).mono (by simp)
      rw [Trace.spelled_ofBits, BitString.length_toList]
    · rw [List.length_cons, rest.length]
    · exact List.forall_mem_cons.mpr ⟨traced.held.mono (HoldsLeaf.grows rest.passes.grows), rest.held⟩
    · rw [Trace.atoms_append, Trace.atoms_append, Trace.atoms_ofBits, traced.atoms, rest.atoms, Derivation.atomsAll,
        Derivation.joined, hbits, List.append_assoc]
    · rw [rest.content, Content.atoms_append, hcontent, atoms_freeze, hfrozen, Trace.kept_append, Trace.kept_append,
        Trace.kept_ofBits]
      simp only [List.append_assoc]

/-- Every interpretation of a variable of the field has a trace. -/
theorem interpret_traced (hf : Tidy all f start late) (v : Variable)
    (hc : preorderAll v.children ⊆ preorderAll f.children) (hv : v ∈ all) (hn : v.ids.Nodup) :
    HasTraces reading all f start late v := by
  have child_mem {w : Variable} (hw : w ∈ preorderAll f.children) : w ∈ all := Underway.mem_all hf hw
  have ids_below {children : List Variable} (h : preorderAll children ⊆ preorderAll f.children) :
      idsOf children ⊆ idsOf f.children := by
    rw [← map_id_preorderAll, ← map_id_preorderAll]
    exact List.map_subset _ h
  have child {children : List Variable} (h : preorderAll children ⊆ preorderAll f.children)
      (hn : (idsOf children).Nodup) {c : Variable} (hc : c ∈ children) :
      preorderAll c.children ⊆ preorderAll f.children ∧ c ∈ all ∧ c.ids.Nodup := by
    have hs : c.preorder ⊆ preorderAll f.children := fun w hw => h (preorder_subset_of_mem hc hw)
    exact ⟨fun w hw => hs (children_subset_preorder c hw), child_mem (hs c.self_mem_preorder),
      (List.nodup_flatMap.mp hn).1 c hc⟩
  induction v using Variable.induct with
  | data id name type scope => exact data_hasTraces hf hv
  | relation r => exact relation_hasTraces
  | choice id name children ih =>
    rw [ids_choice, List.nodup_cons] at hn
    intro a b offset ha hb
    rw [Reading.interpret] at hb
    obtain ⟨w, hw, x, hx, hb⟩ := Reading.mem_interpretAny.mp hb
    obtain ⟨hwc, hwm, hwn⟩ := child hc hn.2 hw
    obtain ⟨c, d, t, hu, hl, traced⟩ := ih w hw hwc hwm hwn ha hx
    have hxu : Underway all f start late x := hu.step hf (hc (preorder_subset_of_mem hw w.self_mem_preorder)) hl
    obtain ⟨index, hi⟩ := List.getElem?_of_mem hw
    have one : idsOf [w] = w.ids := List.append_nil _
    have sub : idsOf [w] ⊆ idsOf children := one ▸ ids_subset_of_mem hw
    refine compose?_traced hf hv rfl (fun i hi => ?_) (fun i hi => ids_below hc (sub hi)) hxu
      (one ▸ traced.passes) (.cons traced.shown .nil) (List.append_nil t) hb (d := .choice index d)
      ⟨index, d, rfl, fitsNth_iff.mpr ⟨w, hi, traced.held⟩⟩ traced.atoms
    rw [ids_choice]
    exact List.mem_cons_of_mem _ (sub hi)
  | sequence id name children ih =>
    rw [ids_sequence, List.nodup_cons] at hn
    intro a b offset ha hb
    obtain ⟨p, hp, hb⟩ := Reading.mem_interpret_sequence.mp hb
    obtain ⟨hu, parts, t, traced⟩ := interpretAll_traced hf hc hn.2
      (fun c h => ih c h (child hc hn.2 h).1 (child hc hn.2 h).2.1 (child hc hn.2 h).2.2) ha hp
    obtain ⟨ts, hts, hflat⟩ := traced.shown
    refine compose?_traced hf hv rfl (fun i hi => ?_) (ids_below hc) hu traced.passes hts hflat hb
      (d := .sequence parts) ⟨parts, rfl, traced.held⟩ traced.atoms
    rw [ids_sequence]
    exact List.mem_cons_of_mem _ hi
  | repetition id name w count delimiter ih =>
    have hwc : w.preorder ⊆ preorderAll f.children := by
      rwa [children, preorderAll, preorderAll, List.append_nil] at hc
    rw [ids_repetition, List.nodup_cons] at hn
    intro a b offset ha hb
    obtain ⟨k, hk, p, hp, hb⟩ := Reading.mem_interpret_repetition.mp hb
    have one := ih (fun x hx => hwc (children_subset_preorder w hx)) (child_mem (hwc w.self_mem_preorder)) hn.2
    obtain ⟨hu, parts, t, traced⟩ := instances_traced hf hwc one ha hp
    refine node_traced hf hv rfl hu (fun i hi => ?_) traced.passes ?_ hb (d := .repetition delimiter parts)
      ⟨parts, rfl, ?_, traced.held⟩ traced.atoms
    · rw [ids_repetition]
      exact List.mem_cons_of_mem _ hi
    · rw [traced.content, Content.atoms_empty, List.nil_append]
    · rw [traced.length]
      have := (Reading.mem_counts.mp hk).1
      exact ⟨this.1, by omega⟩

end Traces

end WireGrammar
