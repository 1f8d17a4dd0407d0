import WireGrammar.Proofs.Message.Bytewise
import WireGrammar.Proofs.Session.Memory

/-!
# Generated messages are recognized

A session without mutators recognizes what it generates. The fields of a generated message, as they are shown, and the
values that its persistent leaves have are a description of it (`Symbol.composes_of_filled`, `Symbol.Composes.spells`),
and a memory has the values that the description needs, before the message as well as after it (`Memory.Recalls`).
-/

namespace WireGrammar

open Assignment Variable Grammar Generation

section Leaves

variable {fields : Fields} {symbols : List Symbol} {s : Symbol} {memory : Memory} {a : Assignment} {id : VarId}
  {name : String} {type : DataType} {scope : Scope} {bits : BitString} {silent : VarId → Bool}

theorem Assignment.learned_of_lookup (h : a.learned.lookup id = some bits) : (id, bits) ∈ a.learned := by
  obtain ⟨before, after, he, -⟩ := List.lookup_eq_some_iff.mp h
  exact he ▸ List.mem_append_right _ List.mem_cons_self

variable (ho : InOrder fields) (made : ∀ s ∈ symbols, MadeOf fields s) (hs : s ∈ symbols)
  (tidy : memory.Tidy symbols) (learns : Learns s.allVariables silent (s.start memory) a)

/-- Only data leaves are learned. -/
theorem Assignment.Learns.mem_variableIds (learns : Learns s.allVariables silent (s.start memory) a)
    (hm : (id, bits) ∈ a.learned) : id ∈ s.variableIds := by
  cases (learns.of_start _ hm).2 with
  | ephemeral hv _ => exact List.mem_map_of_mem (f := Variable.id) hv
  | persistent hv _ _ _ => exact List.mem_map_of_mem (f := Variable.id) hv

include ho made hs

/-- A leaf that replays its value and has learned it is persistent, and was not known before. -/
theorem Assignment.Learns.replays (learns : Learns s.allVariables silent (s.start memory) a)
    (hv : .data id name type scope ∈ s.allVariables) (hr : scope.replays = true) (hm : (id, bits) ∈ a.learned) :
    scope = .persistent ∧ type.accepts bits = true ∧ memory.known? id = none := by
  cases (learns.of_start _ hm).2 with
  | ephemeral hw _ =>
    cases (made s hs).eq_of_id ho hv hw rfl
    cases hr
  | persistent hw ha _ hc =>
    cases (made s hs).eq_of_id ho hv hw rfl
    exact ⟨rfl, ha, hc⟩

/-- Of a leaf that replays its value, what was known before a message is known after it. -/
theorem Assignment.Learns.known?_eq (learns : Learns s.allVariables silent (s.start memory) a)
    (hv : .data id name type scope ∈ s.allVariables) (hr : scope.replays = true) (hk : memory.known? id = some bits) :
    a.known? id = some bits := by
  have fresh : a.learned.lookup id = none := by
    cases hlookup : a.learned.lookup id with
    | none => rfl
    | some b =>
      obtain ⟨-, -, none⟩ := learns.replays ho made hs hv hr (learned_of_lookup hlookup)
      cases hk.symm.trans none
  rw [Assignment.known?, fresh, Option.none_or, learns.committed]
  exact hk

include tidy

omit hs in
/-- The value that a memory has for a leaf is of its type. -/
theorem Memory.Tidy.leaf (hs : s ∈ symbols) (hv : .data id name type scope ∈ s.allVariables)
    (hk : memory.known? id = some bits) : (scope = .ephemeral ∨ scope = .persistent) ∧ type.accepts bits = true := by
  obtain ⟨s', hs', _, _, _, hw, hscope, ha⟩ := tidy.remembered hk
  cases (made s hs).eq_of_id_of_made ho (made s' hs') hv hw rfl
  exact ⟨hscope, ha⟩

omit hs in
/-- The values in a memory are whole bytes within the bounds of their fields. -/
theorem Memory.Tidy.fitsFields (readable : ∀ s ∈ symbols, ∀ v ∈ s.allVariables, v.isReadable = true) :
    memory.FitsFields fields := by
  intro id bits v hk hf
  obtain ⟨s', hs', name, type, scope, hw, -, ha⟩ := tidy.remembered hk
  obtain ⟨g, hg, hwg⟩ := mem_allVariables.mp hw
  have same := ho.eq_of_id hf ((made s' hs').mem g hg) v.self_mem_preorder hwg ((ho.made _ hf).placed.id_eq)
  cases same
  exact Bytewise.of_accepts (of_decide_eq_true (readable s' hs' _ hw)) ha

/-- What a generator puts into a leaf is what is known of the leaf in the end. -/
theorem Variable.keepsLeaf_of_made (learns : Learns s.allVariables silent (s.start memory) a)
    (steady : a.Steady s.allVariables) (hv : .data id name type scope ∈ s.allVariables)
    (hl : MadeLeaf none a id type scope bits) : KeepsLeaf a.known? id type scope bits := by
  have holds := hl rfl
  cases hr : scope.replays with
  | false => exact ⟨holds.fresh hr, fun h => by cases hr.symm.trans h⟩
  | true =>
    rcases holds.replayed hr with constant | ⟨free, learned | committed⟩
    · exact ⟨DataType.accepts_constant constant, fun _ => Or.inl constant⟩
    · obtain ⟨rfl, ha, -⟩ := learns.replays ho made hs hv hr learned
      refine ⟨ha, fun _ => Or.inr ⟨rfl, free, ?_⟩⟩
      rw [Assignment.known?, steady.once hv learned, Option.some_or]
    · have known : memory.known? id = some bits := (congrArg (·.get? id) learns.committed).symm.trans committed
      obtain ⟨hscope, ha⟩ := tidy.leaf ho made hs hv known
      obtain rfl : scope = .persistent := hscope.resolve_left fun he => by rw [he] at hr; cases hr
      exact ⟨ha, fun _ => Or.inr ⟨rfl, free, learns.known?_eq ho made hs hv hr known⟩⟩

end Leaves

/-! ## Whole messages -/

section Messages

variable {fields : Fields} {symbols : List Symbol} {s : Symbol} {memory : Memory} {a : Assignment} {maxRepeat : Nat}
  {traces : List Trace} {kept : VarId → Option BitString} {shown : VarId → Trace} {silent : VarId → Bool}

variable (h : MadeOf fields s) (ho : InOrder fields)

include h ho

/-- The traces of the fields are what a generator without mutators leaves behind. -/
theorem Symbol.composes_of_filled (ha : Filled s memory none maxRepeat s.fields a)
    (shown : List.Forall₂ (fun f t => ∃ content d, Shows s.allVariables none maxRepeat a f content d t) s.fields traces)
    (keeps : ∀ {id name type scope bits}, .data id name type scope ∈ s.allVariables →
      MadeLeaf none a id type scope bits → KeepsLeaf kept id type scope bits) :
    s.Composes memory maxRepeat kept (s.traceOf memory traces) := by
  have field {f : Field} (hf : f ∈ s.fields) := (traceOf_field memory h.nodup shown hf).2
  refine ⟨fun f hf => ?_, fun r hr hx f hf bits hv => ?_, fun r hr hk f hf bits hv => ?_, fun t hin => ?_⟩
  · obtain ⟨-, content, d, hs⟩ := field hf
    exact ⟨d, hs.follows.fits.weaken (fun hv => keeps (mem_allVariables.mpr ⟨f, hf, hv⟩)) id, hs.resolved.atoms.symm⟩
  · obtain ⟨-, content, d, hs⟩ := field hf
    exact (hs.sound h ho ha hf hr rfl hv).length hx
  · obtain ⟨known, holds⟩ := ha.holds h ho shown hr rfl hk (Or.inl (List.mem_flatten.mpr ⟨_, (field hf).1, hv⟩))
    refine ⟨holds, fun t ht hin => ?_⟩
    have found := known t ht
    rwa [traceOf?_of_foreign hin, Option.isSome_map] at found
  · rw [traceOf, traceOf?_of_foreign hin]

omit ho in
/-- The message is what the traces of its fields spell. -/
theorem Symbol.bits_of_collected (memory : Memory)
    (shown : List.Forall₂ (fun f t => ∃ content d, Shows s.allVariables none maxRepeat a f content d t) s.fields traces)
    {values : List FieldValue} (hv : List.Forall₂ (fun f v => a.bits? f.id = some v.bits) s.fields values) :
    values.map (·.bits) = s.fields.map fun f => (s.traceOf memory traces f.id).bits := by
  have field (f : Field) (hf : f ∈ s.fields) : a.bits? f.id = some (s.traceOf memory traces f.id).bits := by
    obtain ⟨-, -, content, d, hs⟩ := traceOf_field memory h.nodup shown hf
    exact hs.bits
  clear shown
  generalize s.fields = fields at hv field
  induction hv with
  | nil => rfl
  | @cons f v fields values hb _ ih =>
    obtain ⟨own, rest⟩ := List.forall_mem_cons.mp field
    rw [List.map_cons, List.map_cons, ih rest, Option.some.inj (hb.symm.trans own)]

omit h ho in
/-- A message teaches a memory only the values of its own leaves. -/
theorem Memory.Recalls.complete (recalls : memory.Recalls s a.known? shown) (staged : memory.staged = .empty)
    (learns : Learns s.allVariables silent (s.start memory) a) (persist : Bool) :
    (memory.complete a persist).Recalls s a.known? shown := by
  cases persist with
  | false =>
    have same (id : VarId) : (memory.complete a false).known? id = memory.known? id := known?_complete staged a false id
    refine ⟨fun r hr hp t ht hin => ?_, fun hv hn => ?_⟩
    · rw [same]
      exact recalls.foreign r hr hp t ht hin
    · rw [same]
      exact recalls.persistent hv hn
  | true =>
    have all (id : VarId) : (memory.complete a true).known? id = a.known? id := by
      rw [known?_complete staged a true id, if_pos rfl, Assignment.known?, learns.committed]
      rfl
    refine ⟨fun r hr hp t ht hin => ?_, fun _ _ => Or.inr (all _)⟩
    have fresh : a.learned.lookup t = none := by
      cases hlookup : a.learned.lookup t with
      | none => rfl
      | some b => exact absurd (learns.mem_variableIds (learned_of_lookup hlookup)) hin
    rw [known?_complete staged a true t, if_pos rfl, fresh, Option.none_or]
    exact recalls.foreign r hr hp t ht hin

omit h in
/-- What is generated with a memory is recognized with it, and with what becomes of it. -/
theorem Memory.Tidy.recognizes {ρ : Type} [RandomSource ρ] (tidy : memory.Tidy symbols)
    (made : ∀ s ∈ symbols, MadeOf fields s) (readable : ∀ s ∈ symbols, ∀ v ∈ s.allVariables, v.isReadable = true)
    (hs : s ∈ symbols) {settings : Symbol.Settings} {memory' : Memory} {supply next : Supply ρ}
    (hn : supply.mutators? = none) {m : Message}
    (hm : (s.generateMessage settings memory).run.run supply = (.ok (m, memory'), next)) (persist : Bool) :
    (s.recognize settings.maxRepeat persist m.bits memory).1.isSome ∧
      (s.recognize settings.maxRepeat persist m.bits memory').1.isSome := by
  have h := made s hs
  obtain ⟨a, ha, hmessage, rfl⟩ := Symbol.generateMessage_eq_ok hm
  have bindings : supply.bindings = none := by rw [Supply.bindings, hn]; rfl
  obtain ⟨-, -, filled⟩ := generateAssignment_yields h ho (.of settings.maxBytes settings.maxRepeat) memory supply rfl
    a next ha
  obtain ⟨values, hvalues, hmessage⟩ := Builder.ok_of_bind hmessage
  cases hmessage
  have collected := collect_eq hvalues
  obtain ⟨parts, traces, -, -, -, shown⟩ := filled.exists_traces (List.Subset.refl _) collected
  rw [bindings] at filled shown
  have learns := generateAssignment_learns ha
  have steady := generateAssignment_steady (h.eq_of_id ho) hn ha
  have composes : s.Composes memory _ a.known? (s.traceOf memory traces) :=
    Symbol.composes_of_filled h ho filled shown fun hv hl => keepsLeaf_of_made ho made hs tidy learns steady hv hl
  have acyclic := Symbol.isAcyclic_of_generated ha
  have fitting := tidy.fitsFields ho made readable
  have spells := composes.spells h ho (readable s hs) fitting acyclic
  have recalls : memory.Recalls s a.known? (s.traceOf memory traces) := by
    refine composes.recalls h ho (readable s hs) fitting acyclic fun {id name type} hv _ => ?_
    cases hk : memory.known? id with
    | none => exact Or.inl rfl
    | some bits => exact Or.inr (learns.known?_eq ho made hs hv rfl hk).symm
  rw [Message.bits, Symbol.bits_of_collected h memory shown collected]
  have exact := Symbol.exact_of_readable (readable s hs)
  exact ⟨spells.recognized h ho exact recalls persist,
    spells.recognized h ho exact (recalls.complete tidy.staged learns settings.persist) persist⟩

end Messages

/-- A token that is chosen once, in front of items that copy it, behind a size and a check that stand before them. -/
def tokenItems : String :=
  "symbol \"S\" \x7b n: size([c, token, items]); c: internet_checksum([n, c, items]); token: raw(2) @persistent;
    items: repeat(agg(raw(0..2), value(token)), 1..4, delimiter=0x2c2c); \x7d"

/-- The session after one message. -/
def Session.afterOne (s : Symbol) : Session Pcg64 :=
  ((ofConfig (.ofSeed 1)).generate s).2

end WireGrammar
