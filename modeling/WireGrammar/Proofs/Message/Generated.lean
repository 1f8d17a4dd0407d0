import WireGrammar.Proofs.Interpretation.Resolved
import WireGrammar.Proofs.Message.Composed
import WireGrammar.Proofs.Message.Satisfied

/-!
# What a generated message says

A generated message has a trace for each field, of the leaves, instances and values of relations that were put into it
(`Generated`). Against these traces every relation without a mutator is right: a copy and a digest in any case
(`generated_copies_and_digests`), a size and a padding as far as the lengths are kept that were announced for relations
in its targets before these had values (`generated_lengths`).
-/

namespace WireGrammar

open Assignment Variable Grammar Generation

/-! ## What relations say -/

namespace Relation

/-- The bits that a digest covers: those of the targets, with zeros in the places of the relation itself. -/
def covered (r : Relation) (shown : VarId → Trace) : BitString :=
  .concat (r.targets.map fun t => ((shown t).blank r.id).bits)

/-- The length of variables that show these traces. -/
def lengthOf (shown : VarId → Trace) (ids : List VarId) : Nat :=
  totalLength (ids.map fun t => (shown t).bits.length)

/-- What a relation says of its value, when its targets show these traces. -/
def Holds (r : Relation) (shown : VarId → Trace) (bits : BitString) : Prop :=
  match r.rule with
  | .size scale => r.type.write (.int (sizeOf scale (lengthOf shown r.targets))) = .ok bits
  | .copy => r.targets.map (fun t => (shown t).bits) = [bits]
  | .internetChecksum => r.type.write (.int (Checksum.internet (r.covered shown).toBytes)) = .ok bits
  | .crc32 => r.type.write (.int (Checksum.crc32 (r.covered shown).toBytes)) = .ok bits
  | .keyedDigest algorithm key => bits = .ofBytes (algorithm.keyed key (r.covered shown).toBytes)
  | .padding modulo once scale =>
    let n := paddingLength modulo once scale (lengthOf shown (r.targets.filter (· ≠ r.id)))
    r.type.constant?.elim (bits.length = n) (bits = fillWith · n)

/-- A trace of a target says what a relation reads of it. -/
structure Sees (r : Relation) (a : Assignment) (t : VarId) (trace : Trace) : Prop where
  ownLength : t = r.id → r.ownLength? a = some trace.bits.length
  ownBits : t = r.id → (trace.blank r.id).bits = .zeros trace.bits.length
  length : t ≠ r.id → a.targetLength? t = some trace.bits.length
  bits : t ≠ r.id → a.targetBits? t r.id = some (trace.blank r.id).bits
  /-- A copy does not show itself. -/
  copied : r.rule = .copy → trace.blank r.id = trace

section Holds

variable {r : Relation} {a : Assignment} {shown : VarId → Trace} {bits : BitString}

theorem mapM_some {α β : Type} (f : α → β) (xs : List α) : (xs.mapM fun x => some (f x)) = some (xs.map f) := by
  induction xs with
  | nil => rfl
  | cons x xs ih =>
    rw [List.mapM_cons, ih]
    rfl

/-- A target that counts nothing is as good as none. -/
theorem totalLength_filter (ids : List VarId) (id : VarId) (length : VarId → Nat) :
    totalLength (ids.map fun t => if t = id then 0 else length t) =
      totalLength ((ids.filter (· ≠ id)).map length) := by
  induction ids with
  | nil => rfl
  | cons t rest ih =>
    have step (n : Nat) (ns : List Nat) : totalLength (n :: ns) = n + totalLength ns := rfl
    by_cases h : t = id
    · rw [List.map_cons, step, if_pos h, ih, Nat.zero_add, List.filter_cons_of_neg (by simpa using h)]
    · rw [List.map_cons, step, if_neg h, ih, List.filter_cons_of_pos (by simpa using h), List.map_cons, step]

variable (sees : ∀ t ∈ r.targets, r.Sees a t (shown t))

include sees

theorem targetsLength?_eq : r.targetsLength? a (r.ownLength? a) = some (lengthOf shown r.targets) := by
  have each (t : VarId) (ht : t ∈ r.targets) :
      (if t = r.id then r.ownLength? a else a.targetLength? t) = some (shown t).bits.length := by
    split
    next h => exact (sees t ht).ownLength h
    next h => exact (sees t ht).length h
  rw [targetsLength?, mapM_congr_mem each, mapM_some]
  rfl

theorem targetsLength?_zero :
    r.targetsLength? a (some 0) = some (lengthOf shown (r.targets.filter (· ≠ r.id))) := by
  have each (t : VarId) (ht : t ∈ r.targets) : (if t = r.id then some 0 else a.targetLength? t) =
      some (if t = r.id then 0 else (shown t).bits.length) := by
    split
    next h => rfl
    next h => exact (sees t ht).length h
  rw [targetsLength?, mapM_congr_mem each, mapM_some, Option.map_eq_map, Option.map_some, totalLength_filter]
  rfl

theorem targetsBits?_eq : r.targetsBits? a = some (r.covered shown) := by
  have each (t : VarId) (ht : t ∈ r.targets) :
      (if t = r.id then BitString.zeros <$> r.ownLength? a else a.targetBits? t r.id) =
        some ((shown t).blank r.id).bits := by
    split
    next h => rw [(sees t ht).ownLength h, (sees t ht).ownBits h]; rfl
    next h => exact (sees t ht).bits h
  rw [targetsBits?, mapM_congr_mem each, mapM_some]
  rfl

/-- What a relation computes it says of its value. -/
theorem Computes.holds (h : r.Computes a bits) : r.Holds shown bits := by
  have number {n : Int} (hw : r.writeInt n = .ok (.ready bits) ∨
      ∃ length, r.writeInt n = .ok (.length length) ∧ bits.length = length) : r.type.write (.int n) = .ok bits := by
    rcases hw with hw | ⟨length, hw, -⟩
    · unfold writeInt at hw
      split at hw
      next value he =>
        cases hw
        exact he
      next => cases hw
    · exact absurd hw writeInt_ne_length
  unfold Computes evaluate at h
  unfold Holds
  cases hr : r.rule with
  | size scale =>
    rw [hr] at h
    dsimp only at h
    rw [targetsLength?_eq sees] at h
    exact number h
  | copy =>
    rw [hr] at h
    dsimp only at h
    split at h
    next t ht =>
      have own := sees t (by rw [ht]; exact List.mem_singleton_self t)
      by_cases he : t = r.id
      · rw [if_pos he] at h
        rcases h with h | ⟨n, h, -⟩ <;> cases h
      · rw [if_neg he, own.bits he, own.copied hr] at h
        rcases h with h | ⟨n, h, -⟩
        · cases h
          dsimp only
          rw [ht]
          rfl
        · cases h
    next => rcases h with h | ⟨n, h, -⟩ <;> cases h
  | internetChecksum =>
    rw [hr] at h
    dsimp only at h
    rw [targetsBits?_eq sees] at h
    exact number h
  | crc32 =>
    rw [hr] at h
    dsimp only at h
    rw [targetsBits?_eq sees] at h
    exact number h
  | keyedDigest algorithm key =>
    rw [hr] at h
    dsimp only at h
    rw [targetsBits?_eq sees] at h
    rcases h with h | ⟨n, h, -⟩ <;> cases h
    rfl
  | padding modulo once scale =>
    rw [hr] at h
    dsimp only at h ⊢
    rw [targetsLength?_zero sees] at h
    dsimp only at h
    cases hc : r.type.constant? with
    | none =>
      rw [hc] at h
      rcases h with h | ⟨n, h, hn⟩
      · cases h
      · cases h
        exact hn
    | some unit =>
      rw [hc] at h
      rcases h with h | ⟨n, h, -⟩
      · cases h
        rfl
      · cases h

end Holds

end Relation

/-! ## What fields show -/

namespace Assignment

variable {a : Assignment} {id : VarId} {bits : BitString} {content : Content}

/-- What has bits has a value for each slot that it shows. -/
theorem known_of_bits? (h : a.bits? id = some bits) (hc : a.content? id = some content) {q : VarId}
    (hq : .slot q ∈ content.atoms) : a.cell? q = some (.known (a.valueOf q)) := by
  have known {cell : Cell} {value : BitString} (hcell : a.cell? q = some cell) (hb : cell.bits? = some value) :
      a.cell? q = some (.known (a.valueOf q)) := by
    cases cell with
    | known own => rw [valueOf_of_known hcell, hcell]
    | awaited length? => cases hb
  unfold bits? at h
  unfold content? at hc
  obtain ⟨entry, he, hc⟩ := Option.map_eq_some_iff.mp hc
  rw [he] at h
  cases entry with
  | content own =>
    cases hc
    obtain ⟨hs, -⟩ := flatten_eq_some_iff.mp h
    obtain ⟨value, hv⟩ := Option.isSome_iff_exists.mp (hs q hq)
    obtain ⟨cell, hcell, hcb⟩ := Option.bind_eq_some_iff.mp hv
    exact known hcell hcb
  | cell cell =>
    cases hc
    rw [Content.atoms_slot, List.mem_singleton] at hq
    cases hq
    exact known (cell?_eq_some_iff.mpr he) h

/-- The bits of a variable are its content with the values of the slots. -/
theorem bits?_eq_fill (h : a.bits? id = some bits) (hc : a.content? id = some content) :
    bits = Atom.fill a.valueOf content.atoms := by
  have slots {q : VarId} (hq : .slot q ∈ content.atoms) := known_of_bits? h hc hq
  unfold bits? at h
  unfold content? at hc
  obtain ⟨entry, he, hc⟩ := Option.map_eq_some_iff.mp hc
  rw [he] at h
  cases entry with
  | content own =>
    cases hc
    obtain ⟨-, rfl⟩ := flatten_eq_some_iff.mp h
    refine Atom.fill_congr fun q hq => ?_
    have bits : a.slotBits? none q = some (a.valueOf q) := by
      rw [slotBits?, chunkBits?, slots hq]
      rfl
    rw [bits, Option.getD_some]
  | cell cell =>
    cases hc
    dsimp only at h
    rw [Content.atoms_slot, Atom.fill_slot, valueOf, cell?_eq_some_iff.mpr he, Option.bind_some, h, Option.getD_some]

/-- The bits of another variable as a relation reads them, with zeros in its own places. -/
theorem targetBits?_eq_fill (h : a.bits? id = some bits) (hc : a.content? id = some content) {exclude : VarId}
    (hne : id ≠ exclude) : a.targetBits? id exclude =
      some (Atom.fill (fun q => if q = exclude then .zeros (a.valueOf q).length else a.valueOf q) content.atoms) := by
  have slots {q : VarId} (hq : .slot q ∈ content.atoms) := known_of_bits? h hc hq
  have whole := bits?_eq_fill h hc
  unfold bits? at h
  unfold content? at hc
  obtain ⟨entry, he, hc⟩ := Option.map_eq_some_iff.mp hc
  rw [he] at h
  rw [targetBits?, he]
  cases entry with
  | content own =>
    cases hc
    have bits {q : VarId} (hq : .slot q ∈ own.atoms) : a.slotBits? (some exclude) q =
        some (if q = exclude then .zeros (a.valueOf q).length else a.valueOf q) := by
      rw [slotBits?, chunkBits?, slots hq]
      by_cases hx : q = exclude
      · rw [if_pos hx, hx]
        exact if_pos rfl
      · rw [if_neg hx]
        exact if_neg fun h => hx (Option.some.inj h)
    refine flatten_eq_some_iff.mpr ⟨fun q hq => by rw [bits hq]; rfl, Atom.fill_congr fun q hq => ?_⟩
    rw [bits hq, Option.getD_some]
  | cell cell =>
    cases hc
    rw [Content.atoms_slot, Atom.fill_slot] at whole ⊢
    rw [if_neg hne, ← whole]
    exact h

end Assignment

/-- The trace of what a field shows, as the content of a derivation with the values that slots stand for. -/
structure Shows (all : List Variable) (bound : Bindings) (maxRepeat : Nat) (a : Assignment) (f : Field)
    (content : Content) (d : Derivation) (t : Trace) : Prop where
  follows : Follows all bound maxRepeat a f content d
  resolved : Trace.Resolved (ValueIn all bound a f) a.valueOf d.atoms content.atoms t
  bits : a.bits? f.id = some t.bits

/-- The trace of a target: what the field shows, or the value committed for it. -/
def Symbol.traceOf? (s : Symbol) (memory : Memory) (traces : List Trace) (id : VarId) : Option Trace :=
  (((s.fields.map Field.id).zip traces).lookup id).or ((memory.known? id).map Trace.ofBits)

/-- The traces of all targets that have one. -/
def Symbol.traceOf (s : Symbol) (memory : Memory) (traces : List Trace) (id : VarId) : Trace :=
  (s.traceOf? memory traces id).getD []

/-- Bits are what a relation says of its targets in a message, each of which has a trace. -/
def Relation.HoldsIn (r : Relation) (s : Symbol) (memory : Memory) (traces : List Trace) (bits : BitString) : Prop :=
  (∀ t ∈ r.targets, (s.traceOf? memory traces t).isSome) ∧ r.Holds (s.traceOf memory traces) bits

/-- The lengths announced for relations that have values in the targets are those of the values. -/
def Relation.KeptIn (all : List Variable) (r : Relation) (shown : VarId → Trace) : Prop :=
  ∀ t ∈ r.targets, ∀ q, .relation q ∈ all → ¬ q.IsFixed → ∀ bits, .value q.id bits ∈ shown t →
    ∀ n, announcedLength? q = some n → bits.length = n

section Fields

variable {fields : Fields} {s : Symbol} {memory : Memory} {bound : Bindings} {maxRepeat : Nat} {a : Assignment}
  {f : Field} {r : Relation} {bits : BitString} {content : Content} {d : Derivation} {t : Trace}

/-- A list of pairs leads from the key of a member to a partner of it. -/
theorem lookup_zip {α β γ : Type} [BEq γ] [LawfulBEq γ] {key : α → γ} {R : α → β → Prop} {xs : List α} {ys : List β}
    (h : List.Forall₂ R xs ys) {x : α} (hx : x ∈ xs) (unique : ∀ y ∈ xs, key y = key x → y = x) :
    ∃ y, ((xs.map key).zip ys).lookup (key x) = some y ∧ R x y := by
  induction h with
  | nil => cases hx
  | @cons z y xs ys hr _ ih =>
    rw [List.map_cons, List.zip_cons_cons, List.lookup_cons]
    by_cases he : key x = key z
    · obtain rfl := unique z List.mem_cons_self he.symm
      rw [BEq.rfl]
      exact ⟨y, rfl, hr⟩
    · rw [beq_false_of_ne he]
      exact ih ((List.mem_cons.mp hx).resolve_left fun hxz => he (congrArg key hxz))
        fun y hy => unique y (List.mem_cons_of_mem _ hy)

/-- Nothing is found for a key that no member has. -/
theorem lookup_zip_eq_none {α β γ : Type} [BEq γ] [LawfulBEq γ] {key : α → γ} {xs : List α} {k : γ}
    (h : k ∉ xs.map key) (ys : List β) : ((xs.map key).zip ys).lookup k = none := by
  rw [List.lookup_eq_none_iff]
  intro p hp
  rw [bne_iff_ne]
  rintro rfl
  exact h (List.of_mem_zip hp).1

/-- The trace of a field is the one that was made for it. -/
theorem Symbol.traceOf_field (memory : Memory) {R : Field → Trace → Prop} {traces : List Trace}
    (hn : (s.fields.map Field.id).Nodup) (shown : List.Forall₂ R s.fields traces) (hf : f ∈ s.fields) :
    s.traceOf? memory traces f.id = some (s.traceOf memory traces f.id) ∧ s.traceOf memory traces f.id ∈ traces ∧
      R f (s.traceOf memory traces f.id) := by
  obtain ⟨t, hl, hR⟩ := lookup_zip shown hf fun g hg he => List.inj_on_of_nodup_map hn hg hf he
  obtain ⟨before, after, he, -⟩ := List.lookup_eq_some_iff.mp hl
  have mem : (f.id, t) ∈ (s.fields.map Field.id).zip traces := he ▸ List.mem_append_right _ List.mem_cons_self
  have found : s.traceOf? memory traces f.id = some t := by rw [traceOf?, hl, Option.some_or]
  rw [traceOf, found, Option.getD_some]
  exact ⟨rfl, (List.of_mem_zip mem).2, hR⟩

/-- Of what is no variable of the symbol, the memory is all that is shown. -/
theorem Symbol.traceOf?_of_foreign {traces : List Trace} {id : VarId} (h : id ∉ s.variableIds) :
    s.traceOf? memory traces id = (memory.known? id).map .ofBits := by
  have apart : id ∉ s.fields.map Field.id := by
    intro hi
    obtain ⟨f, hf, rfl⟩ := List.mem_map.mp hi
    exact h (mem_variableIds.mpr ⟨f, hf, f.domain.id_mem_ids⟩)
  rw [traceOf?, lookup_zip_eq_none apart, Option.none_or]

/-- What a complete field shows has a trace. -/
theorem Filled.shows (ha : Filled s memory bound maxRepeat s.fields a) (hf : f ∈ s.fields)
    (hb : a.bits? f.id = some bits) :
    ∃ content d t, Shows s.allVariables bound maxRepeat a f content d t ∧ t.bits = bits := by
  obtain ⟨content, d, hfollows⟩ := ha.recorded f hf
  obtain ⟨t, ht⟩ := hfollows.resolves.traced a.valueOf
  have same : t.bits = bits := ht.bits.trans (bits?_eq_fill hb hfollows.recorded).symm
  exact ⟨content, d, t, ⟨hfollows, ht, same ▸ hb⟩, same⟩

/-- The traces of all fields of a complete message, with their derivations. -/
theorem Filled.exists_traces (ha : Filled s memory bound maxRepeat s.fields a) {fs : List Field} (hf : fs ⊆ s.fields)
    {values : List FieldValue} (hv : List.Forall₂ (fun f v => a.bits? f.id = some v.bits) fs values) :
    ∃ parts traces, FitsAll (MadeLeaf bound a) (CountsTo bound maxRepeat) (fs.map (·.domain)) parts ∧
      traces.map Trace.atoms = Derivation.atomsAll parts ∧ values.map (·.bits) = traces.map Trace.bits ∧
      List.Forall₂ (fun f t => ∃ content d, Shows s.allVariables bound maxRepeat a f content d t) fs traces := by
  induction hv with
  | nil => exact ⟨[], [], rfl, rfl, rfl, .nil⟩
  | @cons f v fs values hb _ ih =>
    obtain ⟨hfs, hrest⟩ := List.cons_subset.mp hf
    obtain ⟨content, d, t, hs, same⟩ := ha.shows hfs hb
    obtain ⟨parts, traces, fits, atoms, bits, shown⟩ := ih hrest
    refine ⟨d :: parts, t :: traces, ⟨d, parts, rfl, hs.follows.fits, fits⟩, ?_, ?_, .cons ⟨content, d, hs⟩ shown⟩
    · rw [List.map_cons, atoms, hs.resolved.atoms, Derivation.atomsAll]
    · rw [List.map_cons, List.map_cons, bits, same]

variable (h : MadeOf fields s) (ho : InOrder fields)

include h ho

/-- The place of a relation in a field is one of a relation of the field. -/
theorem Shows.mem_preorder (hs : Shows s.allVariables bound maxRepeat a f content d t) (hf : f ∈ s.fields)
    (hr : .relation r ∈ s.allVariables) (hm : .slot r.id ∈ d.atoms) : .relation r ∈ f.domain.preorder := by
  obtain ⟨v, hv, he⟩ := List.mem_map.mp (hs.follows.fits.slot_mem hm)
  rwa [← h.eq_of_id ho (mem_allVariables.mpr ⟨f, hf, hv⟩) hr he]

/-- The values in the places of a relation without a mutator are right. -/
theorem Shows.sound (ha : Filled s memory bound maxRepeat s.fields a)
    (hs : Shows s.allVariables bound maxRepeat a f content d t) (hf : f ∈ s.fields)
    (hr : .relation r ∈ s.allVariables) (hm : bound.has r.id = false) (hv : .value r.id bits ∈ t) :
    r.Sound s.allVariables a bits := by
  have place : .slot r.id ∈ d.atoms := hs.resolved.atoms ▸ Trace.slot_mem_atoms hv
  rcases hs.resolved.value r.id bits hv with hvalue | ⟨hslot, rfl⟩
  · exact (hvalue r (hs.mem_preorder h ho hf hr place) rfl hm).1
  · exact ha.orderly.values r hr hm _ (known_of_bits? hs.bits hs.follows.recorded hslot)

/-- A field that a relation refers to holds no value of the relation yet when others have, so all its places are slots. -/
theorem Shows.blank (hs : Shows s.allVariables bound maxRepeat a f content d t) (hf : f ∈ s.fields)
    (hr : .relation r ∈ s.allVariables) (hm : bound.has r.id = false) (ht : f.id ∈ r.targets) :
    (t.blank r.id).bits =
      Atom.fill (fun q => if q = r.id then .zeros (a.valueOf q).length else a.valueOf q) content.atoms := by
  refine hs.resolved.blank r.id fun hslot b hv => ?_
  exact (hv r (hs.mem_preorder h ho hf hr hslot) rfl hm).2 ht

/-- The trace of a field says what a relation reads of the field. -/
theorem Shows.sees (hs : Shows s.allVariables bound maxRepeat a f content d t) (hf : f ∈ s.fields)
    (hr : .relation r ∈ s.allVariables) (hm : bound.has r.id = false) (ht : f.id ∈ r.targets) : r.Sees a f.id t := by
  have blank := hs.blank h ho hf hr hm ht
  -- a relation that is the field itself stands there as its own slot
  have own (he : f.id = r.id) : content = .slot r.id ∧ a.cell? r.id = some (.known t.bits) := by
    have domain : f.domain = .relation r :=
      h.eq_of_id ho (mem_allVariables.mpr ⟨f, hf, f.domain.self_mem_preorder⟩) hr he
    have slot := hs.follows.own r domain
    have known := known_of_bits? hs.bits hs.follows.recorded (q := r.id) (by rw [slot, Content.atoms_slot]; simp)
    have bits := hs.resolved.bits
    rw [slot, Content.atoms_slot, Atom.fill_slot] at bits
    exact ⟨slot, bits ▸ known⟩
  refine ⟨fun he => ?_, fun he => ?_, fun _ => ?_, fun hne => ?_, fun hc => ?_⟩
  · rw [Relation.ownLength?, (own he).2]
    rfl
  · obtain ⟨slot, known⟩ := own he
    rw [blank, slot, Content.atoms_slot, Atom.fill_slot, if_pos rfl, valueOf_of_known known]
  · have length := length?_of_bits? hs.bits
    have recorded := hs.follows.recorded
    unfold targetLength?
    unfold content? at recorded
    obtain ⟨entry, he, -⟩ := Option.map_eq_some_iff.mp recorded
    rw [he]
    exact length
  · rw [blank]
    exact targetBits?_eq_fill hs.bits hs.follows.recorded hne
  · refine Trace.blank_of_notMem fun b hv => ?_
    have place : .slot r.id ∈ d.atoms := hs.resolved.atoms ▸ Trace.slot_mem_atoms hv
    exact copy_apart h ho hf (hs.mem_preorder h ho hf hr place) hc ht

variable {traces : List Trace}

/-- Each target of a relation that is computed has a trace, which says what the relation reads of it. -/
theorem Filled.sees (ha : Filled s memory bound maxRepeat s.fields a)
    (shown : List.Forall₂ (fun f t => ∃ content d, Shows s.allVariables bound maxRepeat a f content d t) s.fields traces)
    (hr : .relation r ∈ s.allVariables) (hm : bound.has r.id = false) (hc : r.Computes a bits) {t : VarId}
    (ht : t ∈ r.targets) : ∃ trace, s.traceOf? memory traces t = some trace ∧ r.Sees a t trace := by
  by_cases hin : t ∈ s.variableIds
  · obtain ⟨f, hf, rfl⟩ := h.field_of_root ho (h.target_root ho hr ht) hin
    obtain ⟨hl, -, content, d, hs⟩ := Symbol.traceOf_field memory h.nodup shown hf
    exact ⟨_, hl, hs.sees h ho hf hr hm ht⟩
  · have out : t ∉ idsOf (s.fields.map (·.domain)) := by
      intro hi
      obtain ⟨v, hv, hiv⟩ := mem_idsOf.mp hi
      obtain ⟨f, hf, rfl⟩ := List.mem_map.mp hv
      exact hin (mem_variableIds.mpr ⟨f, hf, hiv⟩)
    have hne : t ≠ r.id := by
      rintro rfl
      exact hin (List.mem_map_of_mem (f := Variable.id) hr)
    have unrecorded : a.entry? t = none := ha.grows.entry?_eq out
    have scope : a.scope.contains t = false := by
      rw [ha.grows.scope]
      exact Bool.eq_false_iff.mpr fun hs => hin (List.contains_iff_mem.mp hs)
    have known : a.known? t = memory.known? t := ha.grows.known?_eq out
    -- it was read, so there is a value for it
    have reads := hc.reads ht hne
    have committed : (memory.known? t).isSome := by
      unfold targetLength? targetBits? at reads
      rw [unrecorded, scope, known] at reads
      split at reads
      · simpa using reads
      · simpa using reads
    obtain ⟨value, hv⟩ := Option.isSome_iff_exists.mp committed
    refine ⟨.ofBits value, by rw [Symbol.traceOf?_of_foreign hin, hv]; rfl, fun he => absurd he hne, fun he => absurd he hne,
      fun _ => ?_, fun _ => ?_, fun _ => ?_⟩
    · rw [targetLength?, unrecorded, scope, known, hv, Trace.bits_ofBits]
      rfl
    · rw [targetBits?, unrecorded, scope, known, hv, Trace.blank_of_notMem fun b => Trace.value_notMem_ofBits,
        Trace.bits_ofBits]
      rfl
    · exact Trace.blank_of_notMem fun b => Trace.value_notMem_ofBits

/-- Lengths that the values in the traces keep are kept. -/
theorem Filled.kept (ha : Filled s memory bound maxRepeat s.fields a)
    (shown : List.Forall₂ (fun f t => ∃ content d, Shows s.allVariables bound maxRepeat a f content d t) s.fields traces)
    (hr : .relation r ∈ s.allVariables) (hk : r.KeptIn s.allVariables (s.traceOf memory traces)) :
    r.Kept s.allVariables a := by
  intro t ht content hc q hq hslot hf bits hb n hn
  obtain ⟨f, hfs, rfl⟩ := ha.field_of_content? h ho (List.Subset.refl _) (h.target_root ho hr ht) hc
  obtain ⟨-, -, own, d, hs⟩ := Symbol.traceOf_field memory h.nodup shown hfs
  cases hs.follows.recorded.symm.trans hc
  refine hk f.id ht q hq hf bits ?_ n hn
  rw [← valueOf_of_known hb]
  exact hs.resolved.slot q.id hslot

/-- The values of a relation without a mutator are what it says, as far as announced lengths are kept. -/
theorem Filled.holds (ha : Filled s memory bound maxRepeat s.fields a)
    (shown : List.Forall₂ (fun f t => ∃ content d, Shows s.allVariables bound maxRepeat a f content d t) s.fields traces)
    (hr : .relation r ∈ s.allVariables) (hm : bound.has r.id = false)
    (hk : r.rule.readsLengthsOnly = true → r.KeptIn s.allVariables (s.traceOf memory traces))
    (hv : .value r.id bits ∈ traces.flatten ∨ a.cell? r.id = some (.known bits)) :
    r.HoldsIn s memory traces bits := by
  have sound : r.Sound s.allVariables a bits := by
    rcases hv with hv | hv
    · obtain ⟨t, ht, hv⟩ := List.mem_flatten.mp hv
      obtain ⟨f, hf, content, d, hs⟩ := exists_of_mem_forall₂ shown ht
      exact hs.sound h ho ha hf hr hm hv
    · exact ha.orderly.values r hr hm bits hv
  have computes := sound.computes fun hl => ha.kept h ho shown hr (hk hl)
  refine ⟨fun t ht => ?_, computes.holds fun t ht => ?_⟩
  · obtain ⟨trace, htrace, -⟩ := ha.sees h ho shown hr hm computes ht
    rw [htrace]
    rfl
  · obtain ⟨trace, htrace, hsees⟩ := ha.sees h ho shown hr hm computes ht
    rw [Symbol.traceOf, htrace]
    exact hsees

end Fields

/-! ## Whole messages -/

section Messages

variable {ρ : Type} [RandomSource ρ]

/--
A message was generated: its fields were made leaf by leaf and instance by instance, as in the derivations, and the
traces say what stands in each of these places.
-/
structure Generated (s : Symbol) (settings : Symbol.Settings) (memory : Memory) (supply : Supply ρ) (m : Message)
    (a : Assignment) (parts : List Derivation) (traces : List Trace) : Prop where
  made : ∃ next, (s.generateAssignment (.of settings.maxBytes settings.maxRepeat) memory).run.run supply = (.ok a, next)
  fits : FitsAll (MadeLeaf supply.bindings a) (CountsTo supply.bindings (min settings.maxRepeat RepeatCount.limit))
    (s.fields.map (·.domain)) parts
  atoms : traces.map Trace.atoms = Derivation.atomsAll parts
  bits : m.fields.map (·.bits) = traces.map Trace.bits

/-- In a generated message every relation without a mutator is right, as far as announced lengths are kept. -/
theorem generated_holds {fields : Fields} {s : Symbol} (h : MadeOf fields s) (ho : InOrder fields)
    {settings : Symbol.Settings} {memory memory' : Memory} {supply next : Supply ρ} {m : Message}
    (hm : (s.generateMessage settings memory).run.run supply = (.ok (m, memory'), next)) :
    ∃ a parts traces, Generated s settings memory supply m a parts traces ∧
      ∀ r, .relation r ∈ s.allVariables → supply.bindings.has r.id = false →
        (r.rule.readsLengthsOnly = true → r.KeptIn s.allVariables (s.traceOf memory traces)) →
        ∀ bits, .value r.id bits ∈ traces.flatten ∨ a.cell? r.id = some (.known bits) →
          r.HoldsIn s memory traces bits := by
  obtain ⟨a, middle, ha, hm⟩ := Gen.ok_of_bind hm
  obtain ⟨-, -, filled⟩ := generateAssignment_yields h ho (.of settings.maxBytes settings.maxRepeat) memory supply rfl
    a middle ha
  cases hmessage : Message.ofAssignment s a with
  | error field =>
    rw [hmessage] at hm
    cases hm
  | ok message =>
    rw [hmessage] at hm
    cases hm
    obtain ⟨values, hvalues, hmessage⟩ := Builder.ok_of_bind hmessage
    cases hmessage
    obtain ⟨parts, traces, fits, atoms, bits, shown⟩ :=
      filled.exists_traces (List.Subset.refl _) (collect_eq hvalues)
    exact ⟨a, parts, traces, ⟨⟨_, ha⟩, fits, atoms, bits⟩, fun r hr hb hk bits hv =>
      filled.holds h ho shown hr hb hk hv⟩

/--
In a generated message every copy, checksum and digest without a mutator holds what it says of the bits of its targets
in the message, or of the value committed for a target that is no field of it.
-/
theorem generated_copies_and_digests {text : String} {symbols : List Symbol} (ht : Grammar.symbols text = .ok symbols)
    {s : Symbol} (hs : s ∈ symbols) {settings : Symbol.Settings} {memory memory' : Memory} {supply next : Supply ρ}
    {m : Message} (hm : (s.generateMessage settings memory).run.run supply = (.ok (m, memory'), next)) :
    ∃ a parts traces, Generated s settings memory supply m a parts traces ∧
      ∀ r, .relation r ∈ s.allVariables → r.rule.readsLengthsOnly = false → supply.bindings.has r.id = false →
        ∀ bits, .value r.id bits ∈ traces.flatten ∨ a.cell? r.id = some (.known bits) →
          r.HoldsIn s memory traces bits := by
  obtain ⟨fields, ho, made⟩ := symbols_made ht
  obtain ⟨a, parts, traces, generated, holds⟩ := generated_holds (made s hs) ho hm
  exact ⟨a, parts, traces, generated, fun r hr hl hb bits hv =>
    holds r hr hb (fun h => absurd (hl.symm.trans h) nofun) bits hv⟩

/-- A check of itself, and of a copy that stands before what it copies. -/
def checkedCopy : String :=
  "symbol \"S\" \x7b c: internet_checksum([c, y, x]); y: value(x); x: raw(1); \x7d"

/-- A message of `checkedCopy` has the same byte twice, behind a check of both. -/
theorem generated_copies_and_digests_checkedCopy : ∃ symbols s m, Grammar.symbols checkedCopy = .ok symbols ∧
    s ∈ symbols ∧ m.bits = .ofBytes [184, 184, 71, 71] ∧ ∃ a parts traces,
      Generated s ⟨64, 5, false⟩ .empty (Supply.ofSeed 1) m a parts traces ∧
      ∀ r, .relation r ∈ s.allVariables → r.rule.readsLengthsOnly = false →
        (Supply.ofSeed 1).bindings.has r.id = false →
        ∀ bits, .value r.id bits ∈ traces.flatten ∨ a.cell? r.id = some (.known bits) →
          r.HoldsIn s .empty traces bits := by
  obtain ⟨symbols, s, m, memory, next, ht, hs, hm, hb, -⟩ := exists_generated checkedCopy ⟨64, 5, false⟩ (.ofSeed 1)
    (fun _ => true) (.ofBytes [184, 184, 71, 71]) (by decide +kernel)
  exact ⟨symbols, s, m, ht, hs, hb, generated_copies_and_digests ht hs hm⟩

/-- Where there are no copies and all sizes are integers, all values have the lengths that were announced. -/
theorem Relation.keptIn_of_typed {fields : Fields} {s : Symbol} (h : MadeOf fields s) (ho : InOrder fields)
    (typed : ∀ q, .relation q ∈ s.allVariables → q.rule ≠ .copy ∧ (q.rule.isSize → q.type.isInteger)) (r : Relation)
    (shown : VarId → Trace) : r.KeptIn s.allVariables shown := by
  intro t _ q hq hf bits _ n hn
  obtain ⟨hcopy, hsize⟩ := typed q hq
  cases hl : q.rule.readsLengthsOnly with
  | false => exact absurd (isFixed_of_readsBits h ho hq hl hcopy) hf
  | true =>
    unfold announcedLength? at hn
    unfold IsFixed at hf
    cases he : q.rule with
    | size scale =>
      rw [he] at hf hsize
      exact absurd (DataType.exists_of_isInteger (hsize rfl)) hf
    | padding modulo once scale =>
      rw [he] at hn
      cases hn
    | _ =>
      rw [he] at hl
      cases hl

/--
In a message generated without mutators every size and every padding is what it says of the lengths of its targets in
the message, if the values in these have the lengths that were announced for their relations. Only copies and sizes that
are no integers can have values of another length.
-/
theorem generated_lengths {text : String} {symbols : List Symbol} (ht : Grammar.symbols text = .ok symbols)
    {s : Symbol} (hs : s ∈ symbols) {settings : Symbol.Settings} {memory memory' : Memory} {supply next : Supply ρ}
    (hn : supply.mutators? = none) {m : Message}
    (hm : (s.generateMessage settings memory).run.run supply = (.ok (m, memory'), next)) :
    ∃ a parts traces, Generated s settings memory supply m a parts traces ∧
      ∀ r, .relation r ∈ s.allVariables → r.rule.readsLengthsOnly = true →
        r.KeptIn s.allVariables (s.traceOf memory traces) →
        ∀ bits, .value r.id bits ∈ traces.flatten ∨ a.cell? r.id = some (.known bits) →
          r.HoldsIn s memory traces bits := by
  obtain ⟨fields, ho, made⟩ := symbols_made ht
  obtain ⟨a, parts, traces, generated, holds⟩ := generated_holds (made s hs) ho hm
  have unbound (id : VarId) : supply.bindings.has id = false := by
    rw [Supply.bindings, hn]
    rfl
  exact ⟨a, parts, traces, generated, fun r hr _ hk bits hv => holds r hr (unbound r.id) (fun _ => hk) bits hv⟩

/-- A size and a padding that stand before what they measure, with a check among it. -/
def sizedAndPadded : String :=
  "symbol \"S\" \x7b n: size([c, x]); p: padding([n, x], modulo=32); c: internet_checksum(x); x: raw(1); \x7d"

/-- A message of `sizedAndPadded`, in which the size and the padding are right. -/
theorem generated_lengths_sizedAndPadded : ∃ symbols s m, Grammar.symbols sizedAndPadded = .ok symbols ∧
    s ∈ symbols ∧ m.bits = .ofBytes [3, 0, 0, 184, 255, 71] ∧ ∃ a parts traces,
      Generated s ⟨64, 5, false⟩ .empty (Supply.ofSeed 1) m a parts traces ∧
      ∀ r, .relation r ∈ s.allVariables → r.rule.readsLengthsOnly = true →
        ∀ bits, .value r.id bits ∈ traces.flatten ∨ a.cell? r.id = some (.known bits) →
          r.HoldsIn s .empty traces bits := by
  obtain ⟨symbols, s, m, memory, next, ht, hs, hm, hb, checked⟩ := exists_generated sizedAndPadded ⟨64, 5, false⟩
    (.ofSeed 1) (fun s => s.allVariables.all fun v => v.relation?.all fun q =>
      q.rule ≠ .copy && (!q.rule.isSize || q.type.isInteger)) (.ofBytes [3, 0, 0, 184, 255, 71]) (by decide +kernel)
  obtain ⟨fields, ho, made⟩ := symbols_made ht
  have typed (q : Relation) (hq : .relation q ∈ s.allVariables) :
      q.rule ≠ .copy ∧ (q.rule.isSize → q.type.isInteger) := by
    have checked : (decide (q.rule ≠ .copy) && (!q.rule.isSize || q.type.isInteger)) = true :=
      List.all_eq_true.mp checked _ hq
    obtain ⟨hc, ht⟩ := Bool.and_eq_true_iff.mp checked
    refine ⟨of_decide_eq_true hc, fun hsize => ?_⟩
    rwa [hsize] at ht
  obtain ⟨a, parts, traces, generated, holds⟩ := generated_lengths ht hs rfl hm
  exact ⟨symbols, s, m, ht, hs, hb, a, parts, traces, generated, fun r hr hl bits hv =>
    holds r hr hl (Relation.keptIn_of_typed (made s hs) ho typed r _) bits hv⟩

end Messages

end WireGrammar
