import WireGrammar.Proofs.Interpretation.Followed
import WireGrammar.Proofs.Message.Complete
import WireGrammar.Proofs.Message.Deferred
import WireGrammar.Proofs.Message.Generated

/-!
# Descriptions of messages are read

A message is described by a trace for each field, with derivations of the fields behind them and one value for each
relation (`Symbol.Spells`). If each of these values is the one that its relation says, the bits of the message are
recognized (`Symbol.Spells.recognized`): the search follows the derivations field by field, and all relations that
waited on the way agree with what was read for them when the last field is recorded.
-/

namespace WireGrammar

open Assignment Variable Grammar

/-! ## Relations of one value -/

/-- Whether the type is that of all integers of a format. -/
def DataType.isFull : DataType → Bool
  | integer type => type = .full type.format
  | raw _ | ascii _ | bits _ | ipv4 _ | timestamp _ => false

/-- Whether the targets leave one value, and the type takes every value that can be written in it. -/
def Relation.isExact (r : Relation) : Bool :=
  match r.rule with
  | .size _ => r.type.isFull
  | .padding .. => false
  | .copy | .internetChecksum | .crc32 | .keyedDigest .. => true

theorem DataType.length_of_fixed {t : DataType} {m n : Nat} (h : t.fixedLength? = some n) (hm : Within t.bounds m) :
    m = n := by
  unfold fixedLength? at h
  obtain ⟨least, greatest⟩ := hm
  split at h
  next low high hb =>
    obtain ⟨rfl, he⟩ := Option.ite_none_right_eq_some.mp h
    cases he
    rw [hb] at least greatest
    exact Nat.le_antisymm (greatest _ rfl) least
  next => cases h

namespace Relation

variable {r : Relation} {a : Assignment} {shown : VarId → Trace} {bits bits' : BitString}

/-- The type of a relation whose values all have one length says which. -/
theorem IsFixed.fixedLength?_eq (h : r.IsFixed) (ha : r.type.accepts bits = true) :
    r.type.fixedLength? = some bits.length := by
  have length {n : Nat} (hn : r.type.fixedLength? = some n) : r.type.fixedLength? = some bits.length := by
    rw [hn, DataType.length_of_fixed hn (DataType.within_of_accepts ha)]
  unfold IsFixed at h
  split at h
  case h_4 => exact length (by rw [h, DataType.fixedLength?_rawExactly])
  case h_5 | h_6 => cases h
  all_goals
    obtain ⟨type, ht⟩ := h
    exact length (by rw [ht, DataType.fixedLength?_integer])

theorem isInteger_of_isExact (hx : r.isExact = true) (h : r.rule.isSize) : r.type.isInteger := by
  unfold isExact at hx
  unfold Rule.isSize at h
  split at hx
  next =>
    unfold DataType.isFull at hx
    split at hx
    next type hr => rw [hr]; rfl
    all_goals cases hx
  next => cases hx
  all_goals
    rename_i hr
    rw [hr] at h
    cases h

/-- What may stand in the place of such a relation while it waits is all that its type accepts. -/
theorem candidates_of_isExact (hx : r.isExact = true) :
    (∀ remaining, r.candidateLengths remaining = r.type.candidateLengths remaining) ∧
      ∀ bits, r.isPlausible bits = r.type.accepts bits := by
  unfold isExact at hx
  unfold candidateLengths isPlausible
  cases hr : r.rule with
  | padding modulo once scale =>
    rw [hr] at hx
    cases hx
  | _ => exact ⟨fun _ => rfl, fun _ => rfl⟩

/-- No two values are right for the same targets. -/
theorem Holds.unique (hx : r.isExact = true) (h : r.Holds shown bits) (h' : r.Holds shown bits') : bits = bits' := by
  unfold Holds at h h'
  unfold isExact at hx
  cases hr : r.rule with
  | size scale =>
    rw [hr] at h h'
    exact Except.ok.inj (h.symm.trans h')
  | copy =>
    rw [hr] at h h'
    exact (List.cons.inj (h.symm.trans h')).1
  | internetChecksum =>
    rw [hr] at h h'
    exact Except.ok.inj (h.symm.trans h')
  | crc32 =>
    rw [hr] at h h'
    exact Except.ok.inj (h.symm.trans h')
  | keyedDigest algorithm key =>
    rw [hr] at h h'
    exact Eq.trans h h'.symm
  | padding modulo once scale =>
    rw [hr] at hx
    cases hx

/-- A relation that reads its targets as they are shown computes the value that is right. -/
theorem Holds.evaluate_eq (hx : r.isExact = true) (h : r.Holds shown bits)
    (sees : ∀ t ∈ r.targets, r.Sees a t (shown t)) (apart : r.rule = .copy → r.id ∉ r.targets) :
    r.evaluate a = .ok (.ready bits) := by
  have written {n : Int} (hw : r.type.write (.int n) = .ok bits) : r.writeInt n = .ok (.ready bits) := by
    rw [writeInt, hw]
  unfold Holds at h
  unfold isExact at hx
  unfold evaluate
  cases hr : r.rule with
  | size scale =>
    rw [hr] at h
    dsimp only
    rw [targetsLength?_eq sees]
    exact written h
  | copy =>
    rw [hr] at h
    dsimp only at h ⊢
    obtain ⟨t, ht, hb⟩ := List.map_eq_singleton_iff.mp h
    have own := sees t (by rw [ht]; exact List.mem_singleton_self t)
    have ne : t ≠ r.id := fun he => apart hr (by rw [ht, he]; exact List.mem_singleton_self _)
    rw [ht]
    dsimp only
    rw [if_neg ne, own.bits ne, own.copied hr, hb]
    rfl
  | internetChecksum =>
    rw [hr] at h
    dsimp only
    rw [targetsBits?_eq sees]
    exact written h
  | crc32 =>
    rw [hr] at h
    dsimp only
    rw [targetsBits?_eq sees]
    exact written h
  | keyedDigest algorithm key =>
    rw [hr] at h
    dsimp only at h ⊢
    rw [targetsBits?_eq sees, h]
  | padding modulo once scale =>
    rw [hr] at hx
    cases hx

end Relation

/-! ## Descriptions -/

/-- What a leaf holds that can be read, where the persistent leaves have the values `kept`. -/
def Variable.KeepsLeaf (kept : VarId → Option BitString) : LeafRule :=
  fun id type scope bits => type.accepts bits = true ∧ (scope.replays = true → type.constant? = some bits ∨
    scope = .persistent ∧ type.constant? = none ∧ kept id = some bits)

/-- All relations of the symbol have one value for given targets, and no instance of a repetition is empty. -/
structure Symbol.Exact (s : Symbol) : Prop where
  relations : ∀ r, .relation r ∈ s.allVariables → r.isExact = true
  repetitions : ∀ {id name child count delimiter}, .repetition id name child count delimiter ∈ s.allVariables →
    child.bounds.1 ≠ 0

/-- A relation has a place in what the fields show. -/
def Symbol.Places (s : Symbol) (shown : VarId → Trace) (id : VarId) : Prop :=
  ∃ f ∈ s.fields, .slot id ∈ (shown f.id).atoms

/-- The traces describe a message of the symbol, in which all places of a relation hold the value that is right. -/
structure Symbol.Spells (s : Symbol) (maxRepeat : Nat) (kept : VarId → Option BitString) (shown : VarId → Trace)
    (value : VarId → BitString) : Prop where
  fits : ∀ f ∈ s.fields, ∃ d, Fits (KeepsLeaf kept) (CountsTo none maxRepeat) f.domain d ∧
    d.atoms = (shown f.id).atoms
  values : ∀ f ∈ s.fields, ∀ id bits, .value id bits ∈ shown f.id → bits = value id
  right : ∀ r, .relation r ∈ s.allVariables → s.Places shown r.id →
    r.Holds shown (value r.id) ∧ r.type.accepts (value r.id) = true

/-- A memory has the values of the targets that are no fields, and none but those kept for the persistent leaves. -/
structure Memory.Recalls (memory : Memory) (s : Symbol) (kept : VarId → Option BitString) (shown : VarId → Trace) :
    Prop where
  foreign : ∀ r, .relation r ∈ s.allVariables → s.Places shown r.id → ∀ t ∈ r.targets, t ∉ s.variableIds →
    ∃ bits, memory.known? t = some bits ∧ shown t = .ofBits bits
  persistent : ∀ {id name type}, .data id name type .persistent ∈ s.allVariables → type.constant? = none →
    memory.known? id = none ∨ memory.known? id = kept id

/-- What has been recorded is what the description says. -/
structure Told (s : Symbol) (kept : VarId → Option BitString) (shown : VarId → Trace) (value : VarId → BitString)
    (a : Assignment) : Prop where
  cells : ∀ id cell, a.cell? id = some cell → cell = .known (value id) ∧ s.Places shown id
  persistent : ∀ {id name type}, .data id name type .persistent ∈ s.allVariables → type.constant? = none →
    a.known? id = none ∨ a.known? id = kept id

/-- The values that stand in a field for their relations: those that do not refer to the field, or are all of it. -/
def SettledIn (f : Field) (value : VarId → BitString) (id : VarId) (bits : BitString) : Prop :=
  value id = bits ∧ ∀ r, .relation r ∈ f.domain.preorder → r.id = id → f.id ∈ r.targets → f.id = r.id

/-- The field is recorded as it is described. -/
def TellsField (shown : VarId → Trace) (value : VarId → BitString) (a : Assignment) (f : Field) : Prop :=
  ∃ content, a.content? f.id = some content ∧
    Trace.Resolved (SettledIn f value) value (shown f.id).atoms content.atoms (shown f.id)

section Told

variable {s : Symbol} {kept : VarId → Option BitString} {shown : VarId → Trace} {value : VarId → BitString}
  {a b : Assignment}

/-- Slots in what is recorded have values. -/
theorem Assignment.Closed.isSome_cell? {all : List Variable} (h : a.Closed all) {id q : VarId} {content : Content}
    (hc : a.content? id = some content) (hq : .slot q ∈ content.atoms) : (a.cell? q).isSome := by
  obtain ⟨entry, he, hc⟩ := Option.map_eq_some_iff.mp hc
  cases entry with
  | content own =>
    cases hc
    exact h.slots he q hq
  | cell cell =>
    cases hc
    rw [Content.atoms_slot, List.mem_singleton] at hq
    cases hq
    rw [cell?_eq_some_iff.mpr he]
    rfl

/-- What is recorded has bits. -/
theorem Assignment.Closed.isSome_bits? {all : List Variable} (h : a.Closed all) {id : VarId}
    (he : (a.entry? id).isSome) : (a.bits? id).isSome := by
  obtain ⟨entry, he⟩ := Option.isSome_iff_exists.mp he
  unfold bits?
  rw [he]
  cases entry with
  | content own => exact h.isSome_flatten he none
  | cell cell =>
    obtain ⟨⟨bits, rfl⟩, -⟩ := h.cell (cell?_eq_some_iff.mpr he)
    rfl

namespace Told

theorem record (h : Told s kept shown value a) (id : VarId) (content : Content) :
    Told s kept shown value (a.record id content) :=
  ⟨fun q cell hc => h.cells q cell (cell?_of_record hc), h.persistent⟩

theorem setCell (h : Told s kept shown value a) {id : VarId} (hp : s.Places shown id) :
    Told s kept shown value (a.setCell id (.known (value id))) := by
  refine ⟨fun q cell hc => ?_, h.persistent⟩
  rw [cell?_setCell] at hc
  split at hc
  next he =>
    cases hc
    subst he
    exact ⟨rfl, hp⟩
  next => exact h.cells q cell hc

theorem awaitRelation (h : Told s kept shown value a) (r : Relation) :
    Told s kept shown value (a.awaitRelation r) := by
  unfold Assignment.awaitRelation
  split
  · exact h
  · exact ⟨h.cells, h.persistent⟩

/-- A leaf learns the value that is kept for it, if it is persistent. -/
theorem learnFresh (h : Told s kept shown value a) {id : VarId} {scope : Scope} {bits : BitString}
    (hk : ∀ {name type}, .data id name type .persistent ∈ s.allVariables → type.constant? = none →
      kept id = some bits) : Told s kept shown value (a.learnFresh scope id bits) := by
  unfold Assignment.learnFresh
  split
  · exact h
  · refine ⟨h.cells, fun {other name type} hv hn => ?_⟩
    rw [known?_learn]
    split
    next he =>
      subst he
      exact Or.inr (hk hv hn).symm
    next => exact h.persistent hv hn

theorem cell?_eq (h : Told s kept shown value a) {id : VarId} (hc : (a.cell? id).isSome) :
    a.cell? id = some (.known (value id)) := by
  obtain ⟨cell, hc⟩ := Option.isSome_iff_exists.mp hc
  rw [hc, (h.cells id cell hc).1]

end Told

end Told

/-! ## What relations read -/

section Reads

variable {fields : Fields} {s : Symbol} {memory : Memory} {maxRepeat : Nat} {kept : VarId → Option BitString}
  {shown : VarId → Trace} {value : VarId → BitString} {a b : Assignment} {before after : List Field} {f : Field}
  {r : Relation}

/-- A field that is a relation shows the value of it. -/
theorem Symbol.Spells.shown_relation (spells : s.Spells maxRepeat kept shown value) (hf : f ∈ s.fields)
    (hd : f.domain = .relation r) : shown f.id = [.value r.id (value r.id)] := by
  obtain ⟨d, fits, atoms⟩ := spells.fits f hf
  rw [hd] at fits
  obtain rfl : d = .relation r.id := fits
  refine Trace.eq_of_atoms atoms.symm (spells.values f hf) fun id bits hm => ?_
  cases List.mem_singleton.mp hm
  rfl

/-- No relation copies itself. -/
theorem Grammar.MadeOf.copies_other (h : MadeOf fields s) (ho : InOrder fields) (hr : .relation r ∈ s.allVariables)
    (hc : r.rule = .copy) : r.id ∉ r.targets := by
  intro ht
  obtain ⟨f, hf, hid⟩ := h.field_of_root ho (h.target_root ho hr ht) (List.mem_map_of_mem (f := Variable.id) hr)
  have domain : f.domain = .relation r :=
    h.eq_of_id ho (mem_allVariables.mpr ⟨f, hf, f.domain.self_mem_preorder⟩) hr hid
  have below : .relation r ∈ f.domain.preorder := domain ▸ self_mem_preorder _
  exact copy_apart h ho hf below hc (hid.symm ▸ ht)

variable (h : MadeOf fields s) (ho : InOrder fields) (exact : s.Exact) (spells : s.Spells maxRepeat kept shown value)
  (recalls : memory.Recalls s kept shown)

include h ho spells

theorem Symbol.Spells.mem_preorder (hf : f ∈ s.fields) (hr : .relation r ∈ s.allVariables)
    (hm : .slot r.id ∈ (shown f.id).atoms) : .relation r ∈ f.domain.preorder := by
  obtain ⟨d, fits, atoms⟩ := spells.fits f hf
  rw [← atoms] at hm
  obtain ⟨v, hv, he⟩ := List.mem_map.mp (fits.slot_mem hm)
  rwa [← h.eq_of_id ho (mem_allVariables.mpr ⟨f, hf, hv⟩) hr he]

/-- A relation that refers to itself sees its own length. -/
theorem Symbol.Spells.sees_own (exact : s.Exact) (told : Told s kept shown value a) (hr : .relation r ∈ s.allVariables)
    (hp : s.Places shown r.id) (ht : r.id ∈ r.targets) : r.Sees a r.id (shown r.id) := by
  obtain ⟨f, hf, hid⟩ := h.field_of_root ho (h.target_root ho hr ht) (List.mem_map_of_mem (f := Variable.id) hr)
  have domain : f.domain = .relation r :=
    h.eq_of_id ho (mem_allVariables.mpr ⟨f, hf, f.domain.self_mem_preorder⟩) hr hid
  have own : shown r.id = [.value r.id (value r.id)] := hid ▸ spells.shown_relation hf domain
  have notCopy : r.rule ≠ .copy := fun hc => h.copies_other ho hr hc ht
  have bits : (shown r.id).bits = value r.id := by
    rw [own, Trace.bits_value_cons]
    exact BitString.append_empty _
  refine ⟨fun _ => ?_, fun _ => ?_, fun hne => absurd rfl hne, fun hne => absurd rfl hne, fun hc => absurd hc notCopy⟩
  · rw [Relation.ownLength?, bits]
    cases hc : a.cell? r.id with
    | some cell =>
      rw [(told.cells _ _ hc).1]
      rfl
    | none =>
      have exactOwn := exact.relations r hr
      have reads : r.ReadsItself := by
        refine ⟨ht, ?_⟩
        unfold Relation.isExact at exactOwn
        cases hrule : r.rule with
        | copy => exact absurd hrule notCopy
        | padding modulo once scale =>
          rw [hrule] at exactOwn
          cases exactOwn
        | _ => trivial
      have fixed := h.isFixed ho (fun q hq => Relation.isInteger_of_isExact (exact.relations q hq)) hr reads
      exact fixed.fixedLength?_eq (spells.right r hr hp).2
  · rw [own, Trace.blank, List.map_singleton, Mark.blank, if_pos rfl, Trace.bits_value_cons, Trace.bits_value_cons,
      BitString.length_append]
    exact BitString.append_empty _

/-- A relation sees a field before as it is described. -/
theorem Symbol.Spells.sees_field (ha : a.Closed s.allVariables) (told : Told s kept shown value a) (hf : f ∈ s.fields)
    (tells : TellsField shown value a f) (hr : .relation r ∈ s.allVariables) (ht : f.id ∈ r.targets)
    (hne : f.id ≠ r.id) : r.Sees a f.id (shown f.id) := by
  obtain ⟨content, hc, resolved⟩ := tells
  have known {q : VarId} (hq : .slot q ∈ content.atoms) : a.valueOf q = value q :=
    valueOf_of_known (told.cell?_eq (ha.isSome_cell? hc hq))
  have entry : (a.entry? f.id).isSome := by
    obtain ⟨entry, he, -⟩ := Option.map_eq_some_iff.mp hc
    rw [he]
    rfl
  obtain ⟨bits, hb⟩ := Option.isSome_iff_exists.mp (ha.isSome_bits? entry)
  have same : bits = (shown f.id).bits := by
    rw [bits?_eq_fill hb hc, resolved.bits]
    exact Atom.fill_congr fun q hq => known hq
  subst same
  refine ⟨fun he => absurd he hne, fun he => absurd he hne, fun _ => ?_, fun _ => ?_, fun hcopy => ?_⟩
  · obtain ⟨own, he⟩ := Option.isSome_iff_exists.mp entry
    rw [targetLength?, he]
    exact length?_of_bits? hb
  · have blank := resolved.blank r.id fun hm bits settled =>
      hne (settled.2 r (spells.mem_preorder h ho hf hr hm) rfl ht)
    rw [blank, targetBits?_eq_fill hb hc hne]
    exact congrArg some (Atom.fill_congr fun q hq => by rw [known hq])
  · refine Trace.blank_of_notMem fun bits hm => ?_
    exact copy_apart h ho hf (spells.mem_preorder h ho hf hr (Trace.slot_mem_atoms hm)) hcopy ht

omit h ho spells in
/-- A relation sees the value that is known for a target that is no field. -/
theorem Memory.Recalls.sees (recalls : memory.Recalls s kept shown)
    (hg : Grows (idsOf (before.map (·.domain))) (s.start memory) a) (hb : before ⊆ s.fields)
    (hr : .relation r ∈ s.allVariables) (hp : s.Places shown r.id) {t : VarId} (ht : t ∈ r.targets)
    (hout : t ∉ s.variableIds) : r.Sees a t (shown t) := by
  obtain ⟨bits, known, trace⟩ := recalls.foreign r hr hp t ht hout
  have out : t ∉ idsOf (before.map (·.domain)) := by
    intro hi
    obtain ⟨v, hv, hiv⟩ := mem_idsOf.mp hi
    obtain ⟨g, hg, rfl⟩ := List.mem_map.mp hv
    exact hout (mem_variableIds.mpr ⟨g, hb hg, hiv⟩)
  have hne : t ≠ r.id := by
    rintro rfl
    exact hout (List.mem_map_of_mem (f := Variable.id) hr)
  have unrecorded : a.entry? t = none := hg.entry?_eq out
  have scope : a.scope.contains t = false := by
    rw [hg.scope]
    exact Bool.eq_false_iff.mpr fun hs => hout (List.contains_iff_mem.mp hs)
  have learned : a.known? t = some bits := (hg.known?_eq out).trans known
  have blank : (shown t).blank r.id = shown t := by
    rw [trace]
    exact Trace.blank_of_notMem fun _ => Trace.value_notMem_ofBits
  refine ⟨fun he => absurd he hne, fun he => absurd he hne, fun _ => ?_, fun _ => ?_, fun _ => blank⟩
  · rw [targetLength?, unrecorded, scope, learned, trace, Trace.bits_ofBits]
    rfl
  · rw [targetBits?, unrecorded, scope, learned, blank, trace, Trace.bits_ofBits]
    rfl

include exact recalls

/-- A relation all of whose targets are recorded computes the value that is right. -/
theorem Symbol.Spells.evaluate_eq (ha : Reached s memory before a) (hb : before ⊆ s.fields)
    (told : Told s kept shown value a) (tells : ∀ g ∈ before, TellsField shown value a g)
    (hr : .relation r ∈ s.allVariables) (hp : s.Places shown r.id)
    (there : ∀ t ∈ r.targets, t ≠ r.id → t ∈ s.variableIds → ∃ g ∈ before, g.id = t) :
    r.evaluate a = .ok (.ready (value r.id)) := by
  refine (spells.right r hr hp).1.evaluate_eq (exact.relations r hr) (fun t ht => ?_)
    fun hc => h.copies_other ho hr hc
  by_cases own : t = r.id
  · subst own
    exact spells.sees_own h ho exact told hr hp ht
  by_cases hin : t ∈ s.variableIds
  · obtain ⟨g, hg, rfl⟩ := there t ht own hin
    exact spells.sees_field h ho ha.closed told (hb hg) (tells g hg) hr ht own
  · exact recalls.sees ha.grows hb hr hp ht hin

omit spells exact recalls in
/-- A field that is not missing is one of those before. -/
theorem Reached.field_of_misses (ha : Reached s memory before a) (hb : before ⊆ s.fields) {t : VarId}
    (ht : t.branch = []) (hin : t ∈ s.variableIds) (hm : a.misses t = false) : ∃ g ∈ before, g.id = t := by
  obtain ⟨f, hf, rfl⟩ := h.field_of_root ho ht hin
  have inScope : a.scope.contains f.id = true := by
    rw [ha.grows.scope]
    exact List.contains_iff_mem.mpr hin
  rw [misses, inScope, Bool.true_or, Bool.and_true] at hm
  have mem : f.id ∈ idsOf (before.map (·.domain)) := by
    by_contra hn
    rw [ha.grows.entry?_eq hn] at hm
    cases hm
  obtain ⟨v, hv, hi⟩ := mem_idsOf.mp mem
  obtain ⟨g, hg, rfl⟩ := List.mem_map.mp hv
  exact ⟨g, hg, h.field_unique ho (hb hg) hf hi f.domain.id_mem_ids⟩

end Reads

/-! ## Fields are followed -/

/-- While a field is read, what is recorded is what the description says, and relations that refer to the field wait. -/
structure Following (s : Symbol) (kept : VarId → Option BitString) (shown : VarId → Trace) (value : VarId → BitString)
    (f : Field) (a : Assignment) : Prop extends Told s kept shown value a where
  waits : ∀ r, .relation r ∈ f.domain.preorder → f.id ∈ r.targets → f.id ≠ r.id → (a.cell? r.id).isSome →
    a.isPending r.id = true

section Follow

variable {fields : Fields} {s : Symbol} {memory : Memory} {maxRepeat : Nat} {kept : VarId → Option BitString}
  {shown : VarId → Trace} {value : VarId → BitString} {a b : Assignment} {before after : List Field} {f : Field}
  {r : Relation}

theorem Following.record (hb : Following s kept shown value f b) (id : VarId) (content : Content) :
    Following s kept shown value f (b.record id content) := by
  refine ⟨hb.toTold.record id content, fun r hr ht hne hc => hb.waits r hr ht hne ?_⟩
  obtain ⟨cell, hc⟩ := Option.isSome_iff_exists.mp hc
  rw [cell?_of_record hc]
  rfl

/-- Any relation may be recorded if it waits. -/
theorem Following.awaitRelation (hb : Following s kept shown value f b) (hp : s.Places shown r.id) :
    Following s kept shown value f ((b.setCell r.id (.known (value r.id))).awaitRelation r) := by
  refine ⟨(hb.toTold.setCell hp).awaitRelation r, fun q hq ht hne hc => ?_⟩
  rw [isPending_awaitRelation, Bool.or_eq_true, beq_iff_eq]
  by_cases he : q.id = r.id
  · exact Or.inr he.symm
  · rw [cell?_awaitRelation, cell?_setCell, if_neg he] at hc
    exact Or.inl (hb.waits q hq ht hne hc)

/-- A leaf may learn the value that is kept for it. -/
theorem Following.learnFresh (hb : Following s kept shown value f b) {id : VarId} {scope : Scope} {bits : BitString}
    (hk : ∀ {name type}, .data id name type .persistent ∈ s.allVariables → type.constant? = none →
      kept id = some bits) : Following s kept shown value f (b.learnFresh scope id bits) := by
  refine ⟨hb.toTold.learnFresh hk, ?_⟩
  unfold Assignment.learnFresh
  split <;> exact hb.waits

variable (h : MadeOf fields s) (ho : InOrder fields) (hs : s.fields = before ++ f :: after)

include h ho hs

/-- Nothing in the next field has a value. -/
theorem Reached.cell?_eq_none (ha : Reached s memory before a) {id : VarId} (hi : id ∈ f.domain.ids) :
    a.cell? id = none := by
  rw [ha.grows.cell?_eq fun hm => ?_]
  · rfl
  · obtain ⟨v, hv, him⟩ := mem_idsOf.mp hm
    obtain ⟨g, hg, rfl⟩ := List.mem_map.mp hv
    exact (ids_apart h ho hs hi).1 g hg him

/-- Below a field relations compute what they computed before. -/
theorem Reached.evaluate_below (ha : Reached s memory before a) (hg : Grows (idsOf f.domain.children) a b)
    (hr : .relation r ∈ s.allVariables) : r.evaluate b = r.evaluate a := by
  have placed := (h.made ho (mem_fields_between hs)).placed
  refine hg.evaluate_eq (fun t ht _ => ha.apart_below h ho hs (h.target_root ho hr ht)) fun reads hi => ?_
  have inField : r.id ∈ f.domain.ids := by
    rw [ids_eq]
    exact List.mem_cons_of_mem _ hi
  refine placed.branch_ne_nil inField (fun he => notMem_below h ho hs (he ▸ hi)) (h.target_root ho hr reads.1)

omit hs in
/-- A relation that does not refer to the field may be recorded. -/
theorem Following.setCell (hf : f ∈ s.fields) (hb : Following s kept shown value f b)
    (hr : .relation r ∈ f.domain.preorder) (hp : s.Places shown r.id) (own : f.id ∈ r.targets → f.id = r.id) :
    Following s kept shown value f (b.setCell r.id (.known (value r.id))) := by
  refine ⟨hb.toTold.setCell hp, fun q hq ht hne hc => ?_⟩
  by_cases he : q.id = r.id
  · cases h.eq_of_id ho (mem_allVariables.mpr ⟨f, hf, hq⟩) (mem_allVariables.mpr ⟨f, hf, hr⟩) he
    exact absurd (own ht) hne
  · rw [cell?_setCell, if_neg he] at hc
    exact hb.waits q hq ht hne hc

variable (exact : s.Exact) (spells : s.Spells maxRepeat kept shown value) (recalls : memory.Recalls s kept shown)

include exact spells recalls

/-- A relation can be read as its value; it waits if it refers to the field that it belongs to. -/
theorem Symbol.Spells.exists_relationRecord {reading : Reading} {offset : Nat} (ha : Reached s memory before a)
    (told : Told s kept shown value a) (tells : ∀ g ∈ before, TellsField shown value a g)
    (hg : Grows (idsOf f.domain.children) a b) (hb : Following s kept shown value f b)
    (hr : .relation r ∈ f.domain.preorder) (hp : s.Places shown r.id)
    (stands : (value r.id).matchesAt reading.data offset = true) :
    ∃ c ∈ reading.relationRecords r b offset, Following s kept shown value f c ∧ Grows [r.id] b c ∧
      (c.cell? r.id).isSome := by
  have mem : .relation r ∈ s.allVariables := mem_field hs hr
  have hf := mem_fields_between hs
  have earlier : before ⊆ s.fields := by
    rw [hs]
    exact List.subset_append_left _ _
  have same := ha.evaluate_below h ho hs hg mem
  have accepts := (spells.right r mem hp).2
  have set : Grows [r.id] b (b.setCell r.id (.known (value r.id))) := (Grows.refl _ b).setCell (List.mem_singleton_self _) _
  have isSome : ((b.setCell r.id (.known (value r.id))).cell? r.id).isSome := by
    rw [cell?_setCell, if_pos rfl]
    rfl
  cases hl : r.lacks a with
  | true =>
    have reads (hm : r.ReadsItself) : (r.ownLength? a).isSome := by
      have fixed := h.isFixed ho (fun q hq => Relation.isInteger_of_isExact (exact.relations q hq)) mem hm
      have none : a.cell? r.id = none := ha.cell?_eq_none h ho hs (List.mem_map_of_mem (f := Variable.id) hr)
      rw [Relation.ownLength?, none, fixed.fixedLength?_eq accepts]
      rfl
    have single := (tidy_between h ho hs ha.toBetween).single mem
    have waiting := (Relation.evaluate_waiting_iff ha.closed single reads).mpr hl
    obtain ⟨lengths, contents⟩ := Relation.candidates_of_isExact (exact.relations r mem)
    refine ⟨_, Reading.mem_relationRecords_of_waiting (same.trans waiting) ?_ ((contents _).trans accepts) stands,
      hb.awaitRelation hp, set.awaitRelation r, by rwa [cell?_awaitRelation]⟩
    rw [lengths]
    exact DataType.mem_candidateLengths.mpr
      ⟨(Reading.bitsAt_of_matchesAt stands).1, DataType.acceptsLength_of_accepts accepts⟩
  | false =>
    have there (t : VarId) (ht : t ∈ r.targets) (hne : t ≠ r.id) (hin : t ∈ s.variableIds) : ∃ g ∈ before, g.id = t := by
      have lacks := List.any_eq_false.mp hl t ht
      rw [bne_iff_ne.mpr hne, Bool.true_and, Bool.not_eq_true] at lacks
      exact ha.field_of_misses h ho earlier (h.target_root ho mem ht) hin lacks
    have ready := spells.evaluate_eq h ho exact recalls ha earlier told tells mem hp there
    refine ⟨_, Reading.mem_relationRecords_of_ready (same.trans ready) stands, hb.setCell h ho hf hr hp fun ht => ?_, set,
      isSome⟩
    by_contra hne
    obtain ⟨g, hg, he⟩ := there f.id ht hne (mem_variableIds.mpr ⟨f, hf, f.domain.id_mem_ids⟩)
    have apart := (ids_apart h ho hs f.domain.id_mem_ids).1 g hg
    exact apart ((show f.domain.id = g.domain.id from he.symm) ▸ g.domain.id_mem_ids)

omit exact recalls spells in
/-- A leaf can be read as what it holds. -/
theorem Following.exists_leafRecord {reading : Reading} {offset : Nat} (hb : Following s kept shown value f b)
    {id : VarId} {name : String} {type : DataType} {scope : Scope} {bits : BitString}
    (hv : .data id name type scope ∈ f.domain.preorder) (hk : KeepsLeaf kept id type scope bits)
    (stands : bits.matchesAt reading.data offset = true) :
    ∃ c, Grows [id] b c ∧ c.entries = b.entries ∧ Following s kept shown value f (c.record id (.ofBits bits)) ∧
      c.record id (.ofBits bits) ∈ reading.leafRecords id type scope b offset := by
  have mem : .data id name type scope ∈ s.allVariables := mem_field hs hv
  cases hr : b.replayed? id type scope with
  | some own =>
    obtain ⟨replays, source⟩ := Option.ite_none_right_eq_some.mp hr
    have same : own = bits := by
      rcases hk.2 replays with hc | ⟨rfl, hc, own⟩
      · rw [hc] at source
        exact (Option.some.inj source).symm
      · rw [hc, Option.none_or] at source
        rcases hb.persistent mem hc with known | known
        · rw [known] at source
          cases source
        · rw [known, own] at source
          exact (Option.some.inj source).symm
    subst same
    exact ⟨b, .refl _ b, rfl, hb.record id _, Reading.mem_leafRecords_of_replayed hr stands⟩
  | none =>
    have entries : (b.learnFresh scope id bits).entries = b.entries := by
      unfold Assignment.learnFresh
      split <;> rfl
    have notFixed (replays : scope.replays = true) : scope = .persistent ∧ type.constant? = none ∧ kept id = some bits := by
      rw [replayed?, if_pos replays] at hr
      rcases hk.2 replays with hc | persistent
      · rw [hc] at hr
        cases hr
      · exact persistent
    refine ⟨b.learnFresh scope id bits, (Grows.refl _ b).learnFresh (List.mem_singleton_self _) _ _, entries, ?_,
      Reading.mem_leafRecords_of_accepts hr (fun hc => ?_) hk.1 stands⟩
    · refine (hb.learnFresh fun hv _ => ?_).record id _
      cases h.eq_of_id ho hv mem rfl
      exact (notFixed rfl).2.2
    · subst hc
      cases (notFixed rfl).1

/-- The search can follow the description of the next field. -/
theorem Symbol.Spells.leads (ha : Reached s memory before a) (told : Told s kept shown value a)
    (tells : ∀ g ∈ before, TellsField shown value a g) (reading : Reading) :
    reading.Leads some f.domain.preorder (KeepsLeaf kept) value (s.Places shown) (SettledIn f value)
      (Following s kept shown value f) (Grows (idsOf f.domain.children) a) where
  passes _ := rfl
  record hb _ _ content := hb.record _ content
  data hb hv hk stands := hb.exists_leafRecord h ho hs hv hk stands
  relation hb hg hr hp stands := spells.exists_relationRecord h ho hs exact recalls ha told tells hg hb hr hp stands
  cells hb r _ cell hc := (hb.cells r.id cell hc).1
  settled {b} hb q bits hn hc := by
    refine ⟨Cell.known.inj (hb.cells q _ hc).1.symm, fun r hr he ht => ?_⟩
    subst he
    by_contra hne
    have waits := hb.waits r hr ht hne (by rw [hc]; rfl)
    rw [hn] at waits
    cases waits
  right _ _ settled := settled.1
  leaf_within hk := DataType.within_of_accepts hk.1
  relation_within r hr hp := DataType.within_of_accepts (spells.right r (mem_field hs hr) hp).2
  stays hv hg hopen := hopen.trans (hg.mono (idsOf_children_subset hv))
  separate hv := (wellPlaced h ho).separate (mem_field hs hv)
  unique hv hw he := h.eq_of_id ho (mem_field hs hv) (mem_field hs hw) he

/-- The next field is found where its description stands in the data. -/
theorem Symbol.Spells.exists_next {reading : Reading} {offset : Nat} (hm : reading.maxRepeat = maxRepeat)
    (ha : Reached s memory before a) (told : Told s kept shown value a)
    (tells : ∀ g ∈ before, TellsField shown value a g)
    (stands : (shown f.id).bits.matchesAt reading.data offset = true) :
    ∃ b ∈ reading.recordsWith some f.domain a offset, Told s kept shown value b ∧
      (∀ g ∈ before ++ [f], TellsField shown value b g) ∧ b.consumed f.domain = (shown f.id).bits.length := by
  have hf := mem_fields_between hs
  obtain ⟨d, fits, atoms⟩ := spells.fits f hf
  have bits : d.bits value = (shown f.id).bits := by
    rw [Derivation.bits, atoms, Atom.fill_atoms (spells.values f hf)]
  have leads := spells.leads h ho hs exact recalls ha told tells reading
  have sought : d.Sought value (s.Places shown) := by
    refine ⟨fun e he => ?_, fun q hq => ⟨f, hf, atoms ▸ hq⟩⟩
    obtain ⟨id, name, child, count, delimiter, hr, inner⟩ := fits.exists_repeated he
    have below {r : Relation} (hm : .relation r ∈ child.preorder) : .relation r ∈ f.domain.preorder :=
      preorder_subset hr (List.mem_cons_of_mem _ hm)
    have within : Within child.bounds (e.bits value).length :=
      inner.within (fun hk => DataType.within_of_accepts hk.1)
        (fun hc => ⟨(hc rfl).1, (hc rfl).2.trans_le (Nat.min_le_left _ _)⟩) fun r hm hslot =>
          leads.relation_within r (below hm) ⟨f, hf, atoms ▸ he.atoms_subset hslot⟩
    have least := exact.repetitions (mem_field hs hr)
    have := within.1
    omega
  have start : Following s kept shown value f a := by
    refine ⟨told, fun r hr _ _ hc => ?_⟩
    have none : a.cell? r.id = none := ha.cell?_eq_none h ho hs (List.mem_map_of_mem (f := Variable.id) hr)
    rw [none] at hc
    cases hc
  obtain ⟨b, hb, found⟩ := leads.finds f.domain (List.Subset.refl _) (hm.symm ▸ fits) sought start (.refl _ a)
    (bits.symm ▸ stands)
  refine ⟨b, hb, found.on.toTold, fun g hg => ?_, ?_⟩
  · rcases List.mem_append.mp hg with hg | hg
    · obtain ⟨content, hc, resolved⟩ := tells g hg
      have apart : g.id ∉ f.domain.ids := fun hi => (ids_apart h ho hs hi).1 g hg g.domain.id_mem_ids
      exact ⟨content, (found.grows.content?_eq apart).trans hc, resolved⟩
    · obtain rfl := List.mem_singleton.mp hg
      obtain ⟨content, hc, resolves, -⟩ := found.renders
      obtain ⟨t, resolved⟩ := resolves.traced value
      have same : t = shown g.id := by
        refine Trace.eq_of_atoms (resolved.atoms.trans atoms) (fun id bits hm => ?_) (spells.values g hf)
        rcases resolved.value id bits hm with settled | ⟨-, he⟩
        · exact settled.1.symm
        · exact he
      exact ⟨content, hc, by rw [← atoms, ← same]; exact resolved⟩
  · rw [leads.consumed_eq found, bits]

end Follow

/-! ## Whole messages -/

section Messages

variable {fields : Fields} {s : Symbol} {memory : Memory} {maxRepeat : Nat} {kept : VarId → Option BitString}
  {shown : VarId → Trace} {value : VarId → BitString} {a : Assignment}

variable (h : MadeOf fields s) (ho : InOrder fields) (exact : s.Exact)

include h ho exact

/-- The fields that are left are found where their descriptions stand in the data. -/
theorem Symbol.Spells.searchAll (spells : s.Spells maxRepeat kept shown value) (recalls : memory.Recalls s kept shown)
    {reading : Reading} (hm : reading.maxRepeat = maxRepeat) {before after : List Field} (hs : s.fields = before ++ after)
    (ha : Reached s memory before a) (told : Told s kept shown value a)
    (tells : ∀ g ∈ before, TellsField shown value a g) {offset : Nat}
    (stands : (BitString.concat (after.map fun f => (shown f.id).bits)).matchesAt reading.data offset = true) :
    ∃ p ∈ reading.searchAll some (after.map (·.domain)) a offset, Reached s memory s.fields p.1 ∧
      Told s kept shown value p.1 ∧ (∀ g ∈ s.fields, TellsField shown value p.1 g) ∧
      p.2 = offset + (BitString.concat (after.map fun f => (shown f.id).bits)).length := by
  induction after generalizing before a offset with
  | nil =>
    rw [List.append_nil] at hs
    exact ⟨(a, offset), by rw [List.map_nil, Reading.searchAll]; exact List.mem_singleton_self _, hs ▸ ha, told,
      hs ▸ tells, rfl⟩
  | cons f after ih =>
    rw [List.map_cons, BitString.concat_cons, BitString.matchesAt_append] at stands
    obtain ⟨b, hb, told, tells, consumed⟩ := spells.exists_next h ho hs exact recalls hm ha told tells stands.1
    have rest := stands.2
    rw [← consumed] at rest
    obtain ⟨p, hp, reached, told, tells, ends⟩ :=
      ih (by rw [hs, List.append_assoc]; rfl) (ha.next h ho hs hb).2 told tells rest
    refine ⟨p, ?_, reached, told, tells, ?_⟩
    · rw [List.map_cons, Reading.searchAll, List.filterMap_some]
      exact List.mem_flatMap.mpr ⟨b, hb, hp⟩
    · rw [ends, consumed, List.map_cons, BitString.concat_cons, BitString.length_append, Nat.add_assoc]

/-- When all fields are recorded as they are described, no relation that waits disagrees. -/
theorem Symbol.Spells.verified? (spells : s.Spells maxRepeat kept shown value) (recalls : memory.Recalls s kept shown)
    (ha : Reached s memory s.fields a) (told : Told s kept shown value a)
    (tells : ∀ g ∈ s.fields, TellsField shown value a g) : a.verified? = some a.cleared := by
  have agrees (r : Relation) (hr : r ∈ a.pending) : r.agrees? a = some true := by
    obtain ⟨mem, hc⟩ := ha.waits r hr
    have cell := told.cell?_eq hc
    have ready := spells.evaluate_eq h ho exact recalls ha (List.Subset.refl _) told tells mem (told.cells _ _ cell).2
      fun t ht _ hin => h.field_of_root ho (h.target_root ho mem ht) hin
    rw [Relation.agrees?, ready, cell]
    exact congrArg some (beq_self_eq_true _)
  refine (verified?_eq_some_iff_of_unique (ha.unique h ho)).mpr ⟨fun r hr => ?_, ?_⟩
  · rw [agrees r hr]
    intro h
    cases h
  · rw [List.filter_eq_nil_iff.mpr fun r hr => by rw [agrees r hr]; decide]
    rfl

/-- The bits of a message that is described are recognized. -/
theorem Symbol.Spells.recognized (spells : s.Spells (min maxRepeat RepeatCount.limit) kept shown value)
    (recalls : memory.Recalls s kept shown) (persist : Bool) :
    (s.recognize maxRepeat persist (.concat (s.fields.map fun f => (shown f.id).bits)) memory).1.isSome := by
  have start : Told s kept shown value (s.start memory) :=
    ⟨fun id cell hc => (nomatch hc), fun hv hn => recalls.persistent hv hn⟩
  have limit : (Reading.of (.concat (s.fields.map fun f => (shown f.id).bits)) maxRepeat).maxRepeat =
      min maxRepeat RepeatCount.limit := rfl
  obtain ⟨p, hp, reached, told, tells, ends⟩ := spells.searchAll h ho exact recalls limit (List.nil_append s.fields).symm
    (reached_start s memory) start (fun g hg => (nomatch hg)) (BitString.matchesAt_self _)
  have complete : Symbol.complete? (.concat (s.fields.map fun f => (shown f.id).bits)) p = some p.1.cleared := by
    obtain ⟨b, offset⟩ := p
    dsimp only at ends
    rw [Nat.zero_add] at ends
    rw [Symbol.complete?, if_pos ends, spells.verified? h ho exact recalls reached told tells]
    rfl
  have kinds : s.KindsApart := fun v hv w hw he => by rw [h.eq_of_id ho hv hw he]
  rw [← Option.ne_none_iff_isSome]
  intro none
  have empty := kinds.recognize_eq_none_iff.mp none
  rw [toList_interpretations h ho] at empty
  exact List.ne_nil_of_mem (List.mem_filterMap.mpr ⟨p, hp, complete⟩) empty

end Messages

end WireGrammar
