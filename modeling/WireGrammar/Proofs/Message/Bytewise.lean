import WireGrammar.Proofs.Message.Spelled
import WireGrammar.Proofs.Variable.Checked

/-!
# Messages of whole bytes

What a generator leaves behind describes a message in which sizes are right only as far as the values of other relations
have the lengths that were announced for them (`Symbol.Composes`). Where all leaves and delimiters are whole bytes, they
have: a copy has the length of what it copies, which is within the bounds that its type was made of, by induction along
the relations that wait for bits (`Symbol.Composes.bytewise`). All relations are then right, so that the message can be
read (`Symbol.Composes.spells`).
-/

namespace WireGrammar

open Assignment Variable Grammar Generation

/--
Whether what is generated for the variable can be read: its bits are whole bytes, a relation leaves one value, and no
instance of a repetition is empty.
-/
def Variable.isReadable : Variable → Bool
  | .data _ _ type _ => type.kind ≠ .bits
  | .relation r => r.isExact
  | .repetition _ _ child _ delimiter => decide (child.bounds.1 ≠ 0) && decide (delimiterLength delimiter % 8 = 0)
  | .choice .. | .sequence .. => true

theorem Symbol.exact_of_readable {s : Symbol} (readable : ∀ v ∈ s.allVariables, v.isReadable = true) : s.Exact :=
  ⟨fun _ hr => readable _ hr, fun hv => of_decide_eq_true (Bool.and_eq_true_iff.mp (readable _ hv)).1⟩

/-- A number of bits that makes whole bytes, as many as the bounds allow. -/
def Bytewise (bounds : Nat × Option Nat) (length : Nat) : Prop :=
  Within bounds length ∧ 8 ∣ length

/-! ## Types of whole bytes -/

section Types

variable {r : Relation} {bits : BitString}

theorem Bytewise.of_accepts {type : DataType} (hk : type.kind ≠ .bits) (h : type.accepts bits = true) :
    Bytewise type.bounds bits.length := by
  obtain ⟨least, greatest, unit⟩ := DataType.acceptsLength_iff.mp (DataType.acceptsLength_of_accepts h)
  have bytes : type.unit = 8 := by
    cases type with
    | bits allowed => exact absurd rfl hk
    | _ => rfl
  exact ⟨⟨least, greatest⟩, Nat.dvd_of_mod_eq_zero (bytes ▸ unit)⟩

/-- Where all values of a relation have one length, this is a number of bytes. -/
theorem Relation.IsFixed.bytewise (h : r.IsFixed) (hl : r.type.fixedLength? = some bits.length) :
    Bytewise r.type.bounds bits.length := by
  refine ⟨by rw [DataType.bounds_of_fixedLength? hl]; exact ⟨Nat.le_refl _, fun n hn => (Option.some.inj hn).le⟩, ?_⟩
  have whole {n : Nat} (hn : r.type.fixedLength? = some n) (h8 : 8 ∣ n) : 8 ∣ bits.length :=
    Option.some.inj (hn.symm.trans hl) ▸ h8
  unfold Relation.IsFixed at h
  split at h
  case h_4 => exact whole (by rw [h, DataType.fixedLength?_rawExactly]) (Nat.dvd_mul_left 8 _)
  case h_5 | h_6 => cases h
  all_goals
    obtain ⟨type, ht⟩ := h
    exact whole (ht ▸ DataType.fixedLength?_integer type) (Nat.dvd_mul_right 8 _)

theorem DataType.eq_of_isFull {type : DataType} (h : type.isFull = true) : ∃ format, type = .integer (.full format) := by
  unfold isFull at h
  split at h
  next own => exact ⟨own.format, congrArg DataType.integer (of_decide_eq_true h)⟩
  all_goals cases h

/-- The type of a copy accepts all whole bytes within the bounds of what it copies. -/
theorem Variable.accepts_of_copyType {name : String} {bounds : Nat × Option Nat} {type : DataType}
    (h : copyType name bounds = .ok type) (bits : BitString) (hw : Bytewise bounds bits.length) :
    type.accepts bits = true := by
  obtain ⟨same, -, unit, accepts⟩ := copyType_eq_ok h
  have whole : type.unit ∣ 8 := by
    rw [unit, copyUnit]
    split <;> decide
  rw [accepts]
  exact DataType.acceptsLength_iff.mpr
    ⟨same ▸ hw.1.1, same ▸ hw.1.2, Nat.mod_eq_zero_of_dvd (Nat.dvd_trans whole hw.2)⟩

end Types

/-! ## What a generator leaves behind -/

/--
The traces are those of a message made with a memory: its relations are right as far as announced lengths are kept, and
the memory has values for all targets that are no fields.
-/
structure Symbol.Composes (s : Symbol) (memory : Memory) (maxRepeat : Nat) (kept : VarId → Option BitString)
    (shown : VarId → Trace) : Prop where
  fits : ∀ f ∈ s.fields, ∃ d, Fits (KeepsLeaf kept) (CountsTo none maxRepeat) f.domain d ∧
    d.atoms = (shown f.id).atoms
  fixed : ∀ r, .relation r ∈ s.allVariables → r.IsFixed → ∀ f ∈ s.fields, ∀ bits, .value r.id bits ∈ shown f.id →
    r.type.fixedLength? = some bits.length
  right : ∀ r, .relation r ∈ s.allVariables → (r.rule.readsLengthsOnly = true → r.KeptIn s.allVariables shown) →
    ∀ f ∈ s.fields, ∀ bits, .value r.id bits ∈ shown f.id →
      r.Holds shown bits ∧ ∀ t ∈ r.targets, t ∉ s.variableIds → (memory.known? t).isSome
  foreign : ∀ t, t ∉ s.variableIds → shown t = ((memory.known? t).map Trace.ofBits).getD []

/-- The values in memory are whole bytes within the bounds of their fields. -/
def Memory.FitsFields (memory : Memory) (fields : Fields) : Prop :=
  ∀ id bits v, memory.known? id = some bits → (id, v) ∈ fields → Bytewise v.bounds bits.length

/-- The last value of a relation in the fields. -/
def Symbol.valueIn (s : Symbol) (shown : VarId → Trace) (id : VarId) : BitString :=
  (Trace.last? id (s.fields.flatMap fun f => shown f.id)).getD .empty

namespace Symbol.Composes

section Composes

variable {fields : Fields} {s : Symbol} {memory : Memory} {maxRepeat : Nat} {kept : VarId → Option BitString}
  {shown : VarId → Trace} {f : Field} {r : Relation} {bits : BitString}

variable (h : MadeOf fields s) (ho : InOrder fields) (readable : ∀ v ∈ s.allVariables, v.isReadable = true)
  (composes : s.Composes memory maxRepeat kept shown)

include composes

/-- A value in the trace of a field is that of a relation in the field. -/
theorem exists_relation (hf : f ∈ s.fields) {id : VarId} (hv : .value id bits ∈ shown f.id) :
    ∃ r, .relation r ∈ f.domain.preorder ∧ r.id = id := by
  obtain ⟨d, fits, atoms⟩ := composes.fits f hf
  exact fits.exists_relation (atoms ▸ Trace.slot_mem_atoms hv)

include h ho readable

omit composes in
/-- A relation whose values have several lengths is a copy. -/
theorem isFixed_or_copy (hr : .relation r ∈ s.allVariables) : r.IsFixed ∨ r.rule = .copy := by
  cases hl : r.rule.readsLengthsOnly with
  | false => exact Decidable.or_iff_not_imp_right.mpr fun hc => isFixed_of_readsBits h ho hr hl hc
  | true =>
    have exact : r.isExact = true := readable _ hr
    cases hrule : r.rule with
    | size scale =>
      have integer := r.isInteger_of_isExact exact (by rw [hrule]; rfl)
      refine Or.inl ?_
      unfold Relation.IsFixed
      rw [hrule]
      exact DataType.exists_of_isInteger integer
    | padding modulo once scale =>
      unfold Relation.isExact at exact
      rw [hrule] at exact
      cases exact
    | _ =>
      rw [hrule] at hl
      cases hl

/-- All values of a relation in a field have one length. -/
theorem uniform (hf : f ∈ s.fields) : (shown f.id).Uniform fun _ => true := by
  intro id _ b b' hb hb'
  obtain ⟨r, hr, rfl⟩ := composes.exists_relation hf hb
  have mem : .relation r ∈ s.allVariables := mem_allVariables.mpr ⟨f, hf, hr⟩
  rcases isFixed_or_copy h ho readable mem with fixed | copy
  · have lengths := (composes.fixed r mem fixed f hf b hb).symm.trans (composes.fixed r mem fixed f hf b' hb')
    exact Option.some.inj lengths
  · have bitwise : r.rule.readsLengthsOnly = true → r.KeptIn s.allVariables shown := by
      rw [copy]
      nofun
    rw [(composes.right r mem bitwise f hf b hb).1.unique (readable _ mem) (composes.right r mem bitwise f hf b' hb').1]

/-- A field is whole bytes within its bounds if all values in it are. -/
theorem bytewise_field (hf : f ∈ s.fields) (each : ∀ r, .relation r ∈ f.domain.preorder →
    ∀ bits, .value r.id bits ∈ shown f.id → Bytewise r.type.bounds bits.length) :
    Bytewise f.domain.bounds (shown f.id).bits.length := by
  obtain ⟨d, fits, atoms⟩ := composes.fits f hf
  let value (id : VarId) : BitString := ((shown f.id).last? id).getD .empty
  have lengths : (d.bits value).length = (shown f.id).bits.length := by
    rw [Derivation.bits, atoms]
    exact Atom.length_fill_atoms fun id b hv => (composes.uniform h ho readable hf).length_last? rfl hv
  have own (r : Relation) (hr : .relation r ∈ f.domain.preorder) (hm : .slot r.id ∈ d.atoms) :
      Bytewise r.type.bounds (value r.id).length := by
    obtain ⟨b, hb⟩ := Trace.exists_value (atoms ▸ hm)
    obtain ⟨last, hlast⟩ := Option.isSome_iff_exists.mp (Trace.isSome_last? hb)
    have value_eq : value r.id = last := congrArg (·.getD .empty) hlast
    rw [value_eq]
    exact each r hr last (Trace.mem_of_last? hlast)
  rw [← lengths]
  have inside {v : Variable} (hv : v ∈ f.domain.preorder) : v.isReadable = true :=
    readable v (mem_allVariables.mpr ⟨f, hf, hv⟩)
  refine ⟨fits.within (fun hl => DataType.within_of_accepts hl.1) (fun hc => ?_) fun r hr hm => (own r hr hm).1,
    fits.dvd (fun hv hl => ?_) (fun hv => ?_) fun r hr hm => (own r hr hm).2⟩
  · exact ⟨(hc rfl).1, Nat.lt_of_lt_of_le (hc rfl).2 (Nat.min_le_left _ _)⟩
  · exact (Bytewise.of_accepts (of_decide_eq_true (inside hv)) hl.1).2
  · exact Nat.dvd_of_mod_eq_zero (of_decide_eq_true (Bool.and_eq_true_iff.mp (inside hv)).2)

/-- A copy is whole bytes within its bounds if all values in the field that it copies are. -/
theorem bytewise_copy (fitting : memory.FitsFields fields) (hr : .relation r ∈ s.allVariables) (hc : r.rule = .copy)
    (inherits : ∀ f ∈ s.fields, f.id ∈ r.targets → ∀ q, .relation q ∈ f.domain.preorder →
      ∀ bits, .value q.id bits ∈ shown f.id → Bytewise q.type.bounds bits.length)
    (hf : f ∈ s.fields) (hv : .value r.id bits ∈ shown f.id) : Bytewise r.type.bounds bits.length := by
  have bitwise : r.rule.readsLengthsOnly = true → r.KeptIn s.allVariables shown := by
    rw [hc]
    nofun
  obtain ⟨holds, known⟩ := composes.right r hr bitwise f hf bits hv
  have rule := (h.checks ho hr).1
  unfold RuleHolds at rule
  unfold Relation.Holds at holds
  rw [hc] at rule holds
  obtain ⟨target, ht, targets, type⟩ := rule
  have same : (shown target.id).bits = bits := by
    rw [targets] at holds
    exact (List.cons.inj holds).1
  have mem : target.id ∈ r.targets := targets ▸ List.mem_singleton_self _
  rw [(copyType_eq_ok type).1, ← same]
  by_cases hin : target.id ∈ s.variableIds
  · obtain ⟨g, hg, hid⟩ := h.field_of_root ho (h.target_root ho hr mem) hin
    have domain : g.domain = target := ho.eq_of_id (h.mem g hg) ht g.domain.self_mem_preorder target.self_mem_preorder hid
    rw [← domain, show g.domain.id = g.id from rfl]
    exact composes.bytewise_field h ho readable hg (inherits g hg (hid ▸ mem))
  · obtain ⟨value, hvalue⟩ := Option.isSome_iff_exists.mp (known target.id mem hin)
    rw [composes.foreign target.id hin, hvalue, Option.map_some, Option.getD_some, Trace.bits_ofBits]
    exact fitting target.id value target hvalue ht

variable (fitting : memory.FitsFields fields) (acyclic : s.isAcyclic = true)

include fitting acyclic

/-- All values of relations are whole bytes within the bounds of their types. -/
theorem bytewise (hr : .relation r ∈ s.allVariables)
    (hf : f ∈ s.fields) (hv : .value r.id bits ∈ shown f.id) : Bytewise r.type.bounds bits.length := by
  have fixed {q : Relation} (hq : .relation q ∈ s.allVariables) (hx : q.IsFixed) {g : Field} (hg : g ∈ s.fields)
      {b : BitString} (hb : .value q.id b ∈ shown g.id) : Bytewise q.type.bounds b.length :=
    hx.bytewise (composes.fixed q hq hx g hg b hb)
  rcases isFixed_or_copy h ho readable hr with hx | hc
  · exact fixed hr hx hf hv
  · refine h.bitRelations_induct ho acyclic (P := fun id => ∀ q, .relation q ∈ s.allVariables → q.id = id →
      ∀ g ∈ s.fields, ∀ b, .value id b ∈ shown g.id → Bytewise q.type.bounds b.length) ?_ hr (by rw [hc]; rfl) r hr rfl
      f hf bits hv
    intro q hq hl inherits q' hq' hid g hg b hb
    cases h.eq_of_id ho hq' hq hid
    rcases isFixed_or_copy h ho readable hq with hx | hcopy
    · exact fixed hq hx hg hb
    refine composes.bytewise_copy h ho readable fitting hq hcopy (fun g' hg' ht p hp c hpc => ?_) hg hb
    have mem : .relation p ∈ s.allVariables := mem_allVariables.mpr ⟨g', hg', hp⟩
    rcases isFixed_or_copy h ho readable mem with hx | hpcopy
    · exact fixed mem hx hg' hpc
    · refine inherits g' hg' ht p hp (by rw [hpcopy]; rfl) (fun he => ?_) p mem rfl g' hg' c hpc
      cases h.eq_of_id ho mem hq he
      exact copy_apart h ho hg' hp hcopy ht

/-- The lengths that were announced are kept. -/
theorem keptIn (hr : .relation r ∈ s.allVariables) :
    r.KeptIn s.allVariables shown := by
  intro t ht q hq hx bits hv n hn
  by_cases hin : t ∈ s.variableIds
  · obtain ⟨f, hf, rfl⟩ := h.field_of_root ho (h.target_root ho hr ht) hin
    have copy : q.rule = .copy := (isFixed_or_copy h ho readable hq).resolve_left hx
    unfold announcedLength? at hn
    rw [copy] at hn
    exact DataType.length_of_fixed hn (composes.bytewise h ho readable fitting acyclic hq hf hv).1
  · rw [composes.foreign t hin] at hv
    cases hk : memory.known? t with
    | none =>
      rw [hk] at hv
      cases hv
    | some value =>
      rw [hk] at hv
      exact absurd hv Trace.value_notMem_ofBits

/-- The value of a relation is right. -/
theorem holds (hr : .relation r ∈ s.allVariables) (hf : f ∈ s.fields) (hv : .value r.id bits ∈ shown f.id) :
    r.Holds shown bits ∧ ∀ t ∈ r.targets, t ∉ s.variableIds → (memory.known? t).isSome :=
  composes.right r hr (fun _ => composes.keptIn h ho readable fitting acyclic hr) f hf bits hv

/-- The value of a relation is of its type. -/
theorem accepts (hr : .relation r ∈ s.allVariables) (hf : f ∈ s.fields) (hv : .value r.id bits ∈ shown f.id) :
    r.type.accepts bits = true := by
  have sized := composes.bytewise h ho readable fitting acyclic hr hf hv
  have holds := (composes.holds h ho readable fitting acyclic hr hf hv).1
  have rule := (h.checks ho hr).1
  have written {format : IntegerFormat} {n : Int} (ht : r.type = .integer (.full format))
      (hw : r.type.write (.int n) = .ok bits) : r.type.accepts bits = true := by
    rw [ht] at hw ⊢
    exact DataType.accepts_of_write hw
  unfold Relation.Holds at holds
  unfold RuleHolds at rule
  cases he : r.rule with
  | size scale =>
    rw [he] at holds
    have exact : r.isExact = true := readable _ hr
    rw [Relation.isExact, he] at exact
    obtain ⟨format, ht⟩ := DataType.eq_of_isFull exact
    exact written ht holds
  | copy =>
    rw [he] at rule
    obtain ⟨target, -, -, type⟩ := rule
    exact accepts_of_copyType type bits ((copyType_eq_ok type).1 ▸ sized)
  | internetChecksum =>
    rw [he] at holds rule
    exact written rule holds
  | crc32 =>
    rw [he] at holds rule
    exact written rule holds
  | keyedDigest algorithm key =>
    rw [he] at rule
    rw [rule] at sized ⊢
    have length := DataType.acceptsLength_iff.mpr ⟨sized.1.1, sized.1.2, Nat.mod_eq_zero_of_dvd sized.2⟩
    exact Bool.and_eq_true_iff.mpr ⟨length, rfl⟩
  | padding modulo once scale =>
    have exact : r.isExact = true := readable _ hr
    rw [Relation.isExact, he] at exact
    cases exact

/-- A memory that has no other values for the persistent leaves has what the relations need of it. -/
theorem recalls (persistent : ∀ {id name type}, .data id name type .persistent ∈ s.allVariables →
    type.constant? = none → memory.known? id = none ∨ memory.known? id = kept id) : memory.Recalls s kept shown := by
  refine ⟨fun r hr ⟨f, hf, hm⟩ t ht hin => ?_, persistent⟩
  obtain ⟨bits, hv⟩ := Trace.exists_value hm
  obtain ⟨value, known⟩ := Option.isSome_iff_exists.mp
    ((composes.holds h ho readable fitting acyclic hr hf hv).2 t ht hin)
  exact ⟨value, known, by rw [composes.foreign t hin, known]; rfl⟩

/-- What a generator leaves behind describes its message, with the last value of each relation. -/
theorem spells : s.Spells maxRepeat kept shown (s.valueIn shown) := by
  have values (f : Field) (hf : f ∈ s.fields) (id : VarId) (bits : BitString) (hv : .value id bits ∈ shown f.id) :
      bits = s.valueIn shown id := by
    obtain ⟨r, hr, rfl⟩ := composes.exists_relation hf hv
    have mem : .relation r ∈ s.allVariables := mem_allVariables.mpr ⟨f, hf, hr⟩
    have flat : .value r.id bits ∈ s.fields.flatMap fun f => shown f.id := List.mem_flatMap.mpr ⟨f, hf, hv⟩
    obtain ⟨last, hlast⟩ := Option.isSome_iff_exists.mp (Trace.isSome_last? flat)
    obtain ⟨g, hg, hw⟩ := List.mem_flatMap.mp (Trace.mem_of_last? hlast)
    have same := (composes.holds h ho readable fitting acyclic mem hf hv).1.unique (readable _ mem)
      (composes.holds h ho readable fitting acyclic mem hg hw).1
    rw [same, Symbol.valueIn, hlast, Option.getD_some]
  refine ⟨composes.fits, values, fun r hr ⟨f, hf, hm⟩ => ?_⟩
  obtain ⟨bits, hv⟩ := Trace.exists_value hm
  rw [← values f hf r.id bits hv]
  exact ⟨(composes.holds h ho readable fitting acyclic hr hf hv).1,
    composes.accepts h ho readable fitting acyclic hr hf hv⟩

end Composes

end Symbol.Composes

end WireGrammar
