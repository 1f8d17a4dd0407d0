import WireGrammar.Message
import WireGrammar.Proofs.Grammar.Layout
import WireGrammar.Proofs.Interpretation.Traced

/-!
# What a recognized message says about the data

The message of a symbol that was read from data has as many bits as the data. A relation of a field that refers to a
field not yet read is late: it is read before it can be compared, and its places in the message all show what was read
last. So the bits of the message are those of the data exactly when the readings of each late relation agree
(`recognized_bits`).
-/

namespace WireGrammar

/-- Whether a relation refers, apart from itself, to what is neither among the fields read before nor known. -/
def Relation.isAhead (r : Relation) (s : Symbol) (memory : Memory) (before : List VarId) : Bool :=
  r.targets.any fun t => t != r.id && (!before.contains t && (s.variableIds.contains t || (memory.known? t).isNone))

/-- Whether one of the fields, read behind others, has a relation of this identity that refers ahead. -/
def Symbol.isLateFrom (s : Symbol) (memory : Memory) : List VarId → List Field → VarId → Bool
  | _, [], _ => false
  | before, f :: after, id =>
    (f.domain.preorder.any fun v => v.relation?.any fun r => r.id == id && r.isAhead s memory before) ||
      isLateFrom s memory (before ++ [f.id]) after id

/-- Whether a relation is late: it refers ahead from the field that it belongs to. -/
def Symbol.isLate (s : Symbol) (memory : Memory) (id : VarId) : Bool :=
  s.isLateFrom memory [] s.fields id

section Faithful

open Assignment Variable Grammar

variable {fields : Fields} {s : Symbol} {memory : Memory} {a b c : Assignment}

theorem any_relation?_eq_false {vars : List Variable} {id : VarId} (h : id ∉ vars.map Variable.id)
    (p : Relation → Bool) : (vars.any fun v => v.relation?.any fun r => r.id == id && p r) = false := by
  rw [List.any_eq_false]
  intro v hv hr
  obtain ⟨r, hvr, hp⟩ := (Option.any_eq_true _ _).mp hr
  obtain rfl := relation?_eq_some hvr
  rw [Bool.and_eq_true, beq_iff_eq] at hp
  exact h (List.mem_map.mpr ⟨_, hv, hp.1⟩)

theorem isLateFrom_eq_false {before : List VarId} {after : List Field} {id : VarId}
    (h : ∀ g ∈ after, id ∉ g.domain.ids) : s.isLateFrom memory before after id = false := by
  induction after generalizing before with
  | nil => rfl
  | cons g after ih =>
    rw [Symbol.isLateFrom, any_relation?_eq_false (h g List.mem_cons_self), Bool.false_or]
    exact ih fun g hg => h g (List.mem_cons_of_mem _ hg)

/-- Lateness is decided in the field that a relation belongs to. -/
theorem isLateFrom_append {start : List VarId} {before after : List Field} {f : Field} {id : VarId}
    (hb : ∀ g ∈ before, id ∉ g.domain.ids) (ha : ∀ g ∈ after, id ∉ g.domain.ids) :
    s.isLateFrom memory start (before ++ f :: after) id =
      f.domain.preorder.any fun v => v.relation?.any fun r =>
        r.id == id && r.isAhead s memory (start ++ before.map Field.id) := by
  induction before generalizing start with
  | nil =>
    rw [List.nil_append, Symbol.isLateFrom, isLateFrom_eq_false ha, Bool.or_false, List.map_nil, List.append_nil]
  | cons g before ih =>
    rw [List.cons_append, Symbol.isLateFrom, any_relation?_eq_false (hb g List.mem_cons_self), Bool.false_or,
      ih fun g hg => hb g (List.mem_cons_of_mem _ hg), List.map_cons, List.append_assoc]
    rfl

/-- What is true between two fields. -/
structure Between (s : Symbol) (memory : Memory) (before : List Field) (a : Assignment) : Prop where
  grows : Grows (idsOf (before.map (·.domain))) (s.start memory) a
  closed : a.Closed s.allVariables
  recorded : ∀ f ∈ before, (a.entry? f.id).isSome
  pending : ∀ q ∈ a.pending, q.id ∈ idsOf (before.map (·.domain))

theorem between_start : Between s memory [] (s.start memory) :=
  ⟨.refl _ _, ⟨fun h => (nomatch h), fun h => (nomatch h)⟩, by simp, fun _ h => (nomatch h)⟩

theorem mem_fields_between {before after : List Field} {f : Field} (hs : s.fields = before ++ f :: after) :
    f ∈ s.fields := by
  rw [hs]
  exact List.mem_append_right _ List.mem_cons_self

section Fields

variable (h : MadeOf fields s) (ho : InOrder fields) {before after : List Field} {f : Field}
  (hs : s.fields = before ++ f :: after)

include h ho hs

/-- The fields before and behind a field share no identity with it. -/
theorem ids_apart {i : VarId} (hi : i ∈ f.domain.ids) :
    (∀ g ∈ before, i ∉ g.domain.ids) ∧ ∀ g ∈ after, i ∉ g.domain.ids := by
  have hn := h.nodup
  rw [hs, List.map_append, List.map_cons] at hn
  obtain ⟨-, hfa, apart⟩ := List.nodup_append.mp hn
  have hf := mem_fields_between hs
  constructor
  · intro g hg hig
    have hgs : g ∈ s.fields := by rw [hs]; exact List.mem_append_left _ hg
    exact apart g.id (List.mem_map_of_mem hg) f.id List.mem_cons_self (h.field_unique ho hgs hf hig hi)
  · intro g hg hig
    have hgs : g ∈ s.fields := by rw [hs]; exact List.mem_append_right _ (List.mem_cons_of_mem _ hg)
    refine (List.nodup_cons.mp hfa).1 ?_
    rw [h.field_unique ho hf hgs hi hig]
    exact List.mem_map_of_mem hg

theorem isLate_eq {r : Relation} (hr : .relation r ∈ f.domain.preorder) :
    s.isLate memory r.id = r.isAhead s memory (before.map Field.id) := by
  have hi : r.id ∈ f.domain.ids := List.mem_map_of_mem (f := Variable.id) hr
  obtain ⟨hb, ha⟩ := ids_apart h ho hs hi
  have hf := mem_fields_between hs
  rw [Symbol.isLate, hs, isLateFrom_append hb ha, List.nil_append, Bool.eq_iff_iff, List.any_eq_true]
  constructor
  · rintro ⟨v, hv, hq⟩
    obtain ⟨q, hvq, hp⟩ := (Option.any_eq_true _ _).mp hq
    obtain rfl := relation?_eq_some hvq
    rw [Bool.and_eq_true, beq_iff_eq] at hp
    have same := h.eq_of_id ho (mem_allVariables.mpr ⟨f, hf, hv⟩) (mem_allVariables.mpr ⟨f, hf, hr⟩) hp.1
    cases same
    exact hp.2
  · intro hp
    refine ⟨_, hr, (Option.any_eq_true _ _).mpr ⟨r, rfl, ?_⟩⟩
    rw [Bool.and_eq_true, beq_iff_eq]
    exact ⟨rfl, hp⟩

/-- What a field misses is neither among those recorded nor known from memory. -/
theorem misses_eq (ha : Between s memory before a) {t : VarId} (ht : t.branch = []) :
    a.misses t = (!(before.map Field.id).contains t && (s.variableIds.contains t || (memory.known? t).isNone)) := by
  have hbefore {g : Field} (hg : g ∈ before) : g ∈ s.fields := by
    rw [hs]
    exact List.mem_append_left _ hg
  have recorded : (a.entry? t).isNone = !(before.map Field.id).contains t := by
    rw [Bool.eq_iff_iff, Bool.not_eq_true', ← Bool.not_eq_true, List.contains_iff_mem, Option.isNone_iff_eq_none]
    constructor
    · intro hn hm
      obtain ⟨g, hg, rfl⟩ := List.mem_map.mp hm
      have := ha.recorded g hg
      rw [hn] at this
      cases this
    · intro hm
      rw [ha.grows.entry?_eq fun hi => hm ?_]
      · rfl
      · obtain ⟨v, hv, hi⟩ := mem_idsOf.mp hi
        obtain ⟨g, hg, rfl⟩ := List.mem_map.mp hv
        refine List.mem_map.mpr ⟨g, hg, ?_⟩
        by_contra hne
        exact (h.made ho (hbefore hg)).placed.branch_ne_nil hi (fun he => hne he.symm) ht
  have scope : a.scope = s.variableIds := ha.grows.scope
  unfold misses
  rw [recorded, scope]
  cases hc : s.variableIds.contains t with
  | true => rfl
  | false =>
    rw [ha.grows.known?_eq fun hi => ?_]
    · rfl
    · obtain ⟨v, hv, hi⟩ := mem_idsOf.mp hi
      obtain ⟨g, hg, rfl⟩ := List.mem_map.mp hv
      have : t ∈ s.variableIds := mem_variableIds.mpr ⟨g, hbefore hg, hi⟩
      rw [← List.contains_iff_mem, hc] at this
      cases this

theorem tidy_between (ha : Between s memory before a) : Tidy s.allVariables f.domain a (s.isLate memory) := by
  have hf := mem_fields_between hs
  have placed := (h.made ho hf).placed
  have below {v : Variable} (hv : v ∈ preorderAll f.domain.children) : v ∈ s.allVariables :=
    mem_allVariables.mpr ⟨f, hf, children_subset_preorder _ hv⟩
  have inner {i : VarId} (hi : i ∈ idsOf f.domain.children) : i ∈ f.domain.ids ∧ i ≠ f.id := by
    have hn := placed.nodup
    rw [ids_eq, List.nodup_cons] at hn
    exact ⟨by rw [ids_eq]; exact List.mem_cons_of_mem _ hi, fun he => hn.1 ((show i = f.domain.id from he) ▸ hi)⟩
  refine ⟨placed.nodup, fun v hv => mem_allVariables.mpr ⟨f, hf, hv⟩, fun hv hw he => h.eq_of_id ho hv hw he,
    fun {r} hr t ht hi => ?_, fun {r} hr hc => ?_, fun q hq hi => ?_, fun {r} hr => ?_⟩
  · obtain ⟨hif, hne⟩ := inner hi
    exact placed.branch_ne_nil hif hne (h.target_root ho (below hr) ht)
  · have rule := (h.checks ho hr).1
    unfold RuleHolds at rule
    rw [hc] at rule
    obtain ⟨target, -, ht, -⟩ := rule
    exact ⟨_, ht⟩
  · obtain ⟨v, hv, hib⟩ := mem_idsOf.mp (ha.pending q hq)
    obtain ⟨g, hg, rfl⟩ := List.mem_map.mp hv
    exact (ids_apart h ho hs (inner hi).1).1 g hg hib
  · rw [isLate_eq h ho hs (children_subset_preorder _ hr), Relation.isAhead, Relation.lacks, Bool.eq_iff_iff,
      List.any_eq_true, List.any_eq_true]
    refine exists_congr fun t => and_congr_right fun ht => ?_
    rw [misses_eq h ho hs ha (h.target_root ho (below hr) ht)]

/-- Before a field is read nothing below it has been. -/
theorem underway_between (ha : Between s memory before a) :
    Underway s.allVariables f.domain a (s.isLate memory) a := by
  refine ⟨.refl _ a, ha.closed, fun {r} hr hc => ?_, fun q hq => Or.inl hq⟩
  have hi : r.id ∈ f.domain.ids := List.mem_map_of_mem (f := Variable.id) (children_subset_preorder _ hr)
  have none : a.cell? r.id = (s.start memory).cell? r.id := ha.grows.cell?_eq fun hm => by
    obtain ⟨v, hv, him⟩ := mem_idsOf.mp hm
    obtain ⟨g, hg, rfl⟩ := List.mem_map.mp hv
    exact (ids_apart h ho hs hi).1 g hg him
  rw [none] at hc
  cases hc

/-- A field that was read is recorded with all that it contains. -/
theorem between_next {reading : Reading} {offset : Nat} {d : Derivation} {t : Trace} (ha : Between s memory before a)
    (hc : Underway s.allVariables f.domain a (s.isLate memory) c) (hl : LastRead f.domain c b)
    (ht : Traced reading (s.isLate memory) f.domain a b offset d t) : Between s memory (before ++ [f]) b := by
  have hf := mem_fields_between hs
  have hm : f.domain ∈ s.allVariables := mem_allVariables.mpr ⟨f, hf, self_mem_preorder _⟩
  have ids : idsOf ((before ++ [f]).map (·.domain)) = idsOf (before.map (·.domain)) ++ f.domain.ids := by
    rw [List.map_append, idsOf_append, List.map_singleton, idsOf_cons, idsOf_nil, List.append_nil]
  have below {q : Relation} (hq : q ∈ c.pending) : q.id ∈ idsOf (before.map (·.domain)) ++ f.domain.ids := by
    rcases hc.pending q hq with hq | ⟨-, hq⟩
    · exact List.mem_append_left _ (ha.pending q hq)
    · exact List.mem_append_right _ (List.mem_map_of_mem (f := Variable.id) (children_subset_preorder _ hq))
  refine ⟨?_, hl.closed (fun hv hw he => h.eq_of_id ho hv hw he) hm hc.closed, fun g hg => ?_, fun q hq => ?_⟩
  · rw [ids]
    exact (ha.grows.mono (List.subset_append_left _ _)).trans (ht.passes.grows.mono (List.subset_append_right _ _))
  · rcases List.mem_append.mp hg with hg | hg
    · have apart : g.id ∉ f.domain.ids := fun hi => (ids_apart h ho hs hi).1 g hg g.domain.id_mem_ids
      rw [ht.passes.grows.entry?_eq apart]
      exact ha.recorded g hg
    · rw [List.mem_singleton.mp hg]
      exact Shown.isSome_entry? ht.shown
  · rw [ids]
    rcases hl.pending q hq with hq | hq
    · exact below hq
    · refine List.mem_append_right _ ?_
      rw [← hq]
      exact f.domain.id_mem_ids

end Fields

/-- The fields of a message that were read one after the other. -/
theorem interpretFields_traced (h : MadeOf fields s) (ho : InOrder fields) {reading : Reading} {offset : Nat}
    {before after : List Field} (hs : s.fields = before ++ after) (ha : Between s memory before a)
    {p : Assignment × Nat} (hp : p ∈ (reading.interpretAll (after.map (·.domain)) a offset).toList) :
    Between s memory s.fields p.1 ∧
      ∃ parts t, TracedAll reading (s.isLate memory) (after.map (·.domain)) a p.1 offset p.2 parts t := by
  induction after generalizing a offset before with
  | nil =>
    rw [List.map_nil, Reading.toList_interpretAll_nil, List.mem_singleton] at hp
    rw [hp, hs, List.append_nil]
    exact ⟨ha, [], [], .nil, rfl, rfl, ⟨[], .nil, rfl⟩, fun _ => rfl, rfl⟩
  | cons f after ih =>
    obtain ⟨b, hb, hp⟩ := Reading.mem_interpretAll_cons.mp hp
    have tidy := tidy_between h ho hs ha
    have placed := (h.made ho (mem_fields_between hs)).placed
    obtain ⟨c, d, t, hc, hl, traced⟩ := interpret_traced tidy f.domain (List.Subset.refl _)
      (tidy.mem (self_mem_preorder _)) placed.nodup (underway_between h ho hs ha) hb
    have hs' : s.fields = (before ++ [f]) ++ after := by rw [hs, List.append_assoc]; rfl
    obtain ⟨hend, parts, u, rest⟩ := ih hs' (between_next h ho hs ha hc hl traced) hp
    refine ⟨hend, d :: parts, t ++ u, traced.cons rest fun i hi hm => ?_⟩
    obtain ⟨v, hv, him⟩ := mem_idsOf.mp hm
    obtain ⟨g, hg, rfl⟩ := List.mem_map.mp hv
    exact (ids_apart h ho hs hi).2 g hg him

/-! ## Whole messages -/

/-- The fields of a message are what is recorded for them. -/
theorem collect_eq {values : List FieldValue} {fields : List Field} {offset : Nat}
    (h : Message.collect a fields offset = .ok values) :
    List.Forall₂ (fun f v => a.bits? f.id = some v.bits) fields values := by
  induction fields generalizing offset values with
  | nil =>
    cases h
    exact .nil
  | cons f rest ih =>
    unfold Message.collect at h
    cases hb : a.bits? f.id with
    | none =>
      rw [hb] at h
      cases h
    | some bits =>
      rw [hb] at h
      obtain ⟨others, ho, h⟩ := Builder.ok_of_bind h
      cases h
      exact .cons hb (ih ho)

/-- The bits of a message are what its fields show one after the other. -/
theorem bits_of_shown {late : VarId → Bool} {last : VarId → BitString} {fields : List Field} {ts : List Trace}
    (h : List.Forall₂ (Shown late a) (fields.map (·.domain)) ts)
    (hl : ∀ id bits, .value id bits ∈ ts.flatten → a.cell? id = some (.known (last id))) {values : List FieldValue}
    (hv : List.Forall₂ (fun f v => a.bits? f.id = some v.bits) fields values) :
    BitString.concat (values.map (·.bits)) = Atom.fill last (Trace.kept late ts.flatten) := by
  induction hv generalizing ts with
  | nil =>
    cases h
    rfl
  | @cons f v fields values hb _ ih =>
    cases h with
    | @cons _ t _ ts ht hts =>
      have own := ht.bits? fun id bits hm => hl id bits (List.mem_append_left _ hm)
      have shows : v.bits = Atom.fill last (Trace.kept late t) := Option.some.inj (hb.symm.trans own)
      rw [List.map_cons, BitString.concat_cons, ih hts fun id bits hm => hl id bits (List.mem_append_right _ hm),
        List.flatten_cons, Trace.kept_append, Atom.fill_append, shows]

theorem length_of_fields {fields : List Field} {values : List FieldValue}
    (hv : List.Forall₂ (fun f v => a.bits? f.id = some v.bits) fields values) :
    (BitString.concat (values.map (·.bits))).length = totalLength ((fields.map (·.domain)).map a.consumed) := by
  induction hv with
  | nil => rfl
  | @cons f v fields values hb _ ih =>
    rw [List.map_cons, BitString.concat_cons, BitString.length_append, ih]
    have own : a.consumed f.domain = v.bits.length := by
      rw [consumed, length?_of_bits? (show a.bits? f.domain.id = some v.bits from hb), Option.getD_some]
    rw [← own]
    rfl

/-- What an interpretation of a whole message was made of. -/
theorem mem_interpretations {maxRepeat : Nat} {data : BitString}
    (h : a ∈ (s.interpretations maxRepeat data memory).toList) : ∃ p ∈
      ((Reading.of data maxRepeat).interpretAll (s.fields.map (·.domain)) (s.start memory) 0).toList,
      p.2 = data.length ∧ p.1.verified? = some a ∧ a.pending = [] := by
  unfold Symbol.interpretations at h
  rw [Choices.toList_filterMap, List.mem_filterMap] at h
  obtain ⟨p, hp, hc⟩ := h
  refine ⟨p, hp, ?_⟩
  unfold Symbol.complete? at hc
  obtain ⟨hn, hc⟩ := Option.ite_none_right_eq_some.mp hc
  obtain ⟨hv, he⟩ := Option.filter_eq_some_iff.mp hc
  exact ⟨hn, hv, List.isEmpty_iff.mp he⟩

/-- The message of a recognition is that of an interpretation. -/
theorem recognize_eq_some {maxRepeat : Nat} {persist : Bool} {data : BitString} {m : Message} {memory' : Memory}
    (h : s.recognize maxRepeat persist data memory = (some m, memory')) :
    ∃ a ∈ (s.interpretations maxRepeat data memory).toList, Message.ofAssignment s a = .ok m ∧
      memory' = memory.complete a persist := by
  unfold Symbol.recognize at h
  split at h
  next => cases h
  next a ha =>
    split at h
    next => cases h
    next message hm =>
      cases h
      rw [← Choices.head?_toList] at ha
      exact ⟨a, List.mem_of_head? ha, hm, rfl⟩

/-- A late relation that is not repeated is read once, so its readings agree. -/
theorem agrees_of_once (h : MadeOf fields s) (ho : InOrder fields) {parts : List Derivation} {t : Trace}
    (hf : FitsAll ReadsLeaf CountsRead (s.fields.map (·.domain)) parts)
    (ht : t.atoms = (Derivation.atomsAll parts).flatten)
    (once : ∀ f ∈ s.fields, ∀ i, s.isLate memory i → ¬ f.domain.IsRepeated i) : t.Agrees (s.isLate memory) := by
  intro i hi b b' hb hb'
  refine Trace.eq_of_count_le_one ?_ hb hb'
  have one : (idsOf (s.fields.map (·.domain))).count i ≤ 1 := by
    have ids : s.variableIds = idsOf (s.fields.map (·.domain)) := by
      rw [variableIds_eq, idsOf, List.flatMap_map]
    rw [← ids]
    exact List.nodup_iff_count_le_one.mp (h.nodup_variableIds ho) i
  rw [ht]
  refine (fitsAll_count_le (fun v hv d hd => ?_) hf).trans one
  obtain ⟨f, hfs, rfl⟩ := List.mem_map.mp hv
  exact hd.count_slot_le (once f hfs i hi)

/-- A message was recognized: data were read through a derivation of each field, and the trace says what was read. -/
structure Recognized (s : Symbol) (maxRepeat : Nat) (data : BitString) (memory : Memory) (m : Message) (a : Assignment)
    (parts : List Derivation) (t : Trace) : Prop where
  read : a ∈ (s.interpretations maxRepeat data memory).toList
  shown : Message.ofAssignment s a = .ok m
  fits : FitsAll (HoldsLeaf a) CountsRead (s.fields.map (·.domain)) parts
  atoms : t.atoms = (Derivation.atomsAll parts).flatten
  found : ∀ id bits, .value id bits ∈ t → bits.toList <:+: data.toList
  bits : m.bits = t.shown (s.isLate memory)
  spelled : t.Uniform (s.isLate memory) → t.spelled = data.toList
  length : m.bits.length = data.length

theorem exists_recognized (h : MadeOf fields s) (ho : InOrder fields) {maxRepeat : Nat} {persist : Bool}
    {data : BitString} {m : Message} {memory' : Memory}
    (hm : s.recognize maxRepeat persist data memory = (some m, memory')) :
    ∃ a parts t, Recognized s maxRepeat data memory m a parts t := by
  obtain ⟨a, ha, hmessage, -⟩ := recognize_eq_some hm
  obtain ⟨⟨x, offset⟩, hx, hend, hv, -⟩ := mem_interpretations ha
  obtain ⟨-, parts, t, traced⟩ := interpretFields_traced h ho (List.nil_append _).symm between_start hx
  obtain ⟨ts, hts, rfl⟩ := traced.shown
  obtain ⟨values, hvalues, hok⟩ := Builder.ok_of_bind hmessage
  obtain ⟨-, he⟩ := verified?_eq_some_iff.mp hv
  have learned : a.learned = x.learned := by rw [he]
  have committed : a.committed = x.committed := by rw [he]
  have held : FitsAll (HoldsLeaf a) CountsRead (s.fields.map (·.domain)) parts :=
    fitsAll_mono (fun _ _ _ hd => hd.mono (·.congr learned committed)) traced.held
  subst he
  have collected := collect_eq hvalues
  change List.Forall₂ (fun f v => x.bits? f.id = some v.bits) s.fields values at collected
  refine ⟨_, parts, ts.flatten, ha, hmessage, held, traced.atoms, fun id bits hm => (traced.passes.found id bits hm).2,
    ?_, fun hu => ?_, ?_⟩
  · cases hok
    refine bits_of_shown hts (fun id bits hm => ?_) collected
    obtain ⟨last, hl⟩ := Option.isSome_iff_exists.mp (Trace.isSome_last? hm)
    rw [(traced.passes.cell?_of_mem hm).1, hl]
    rfl
  · have passed := traced.passes.stands hu
    rw [List.drop_zero] at passed
    have ends : offset = 0 + (Trace.spelled ts.flatten).length := traced.ends hu
    rw [Nat.zero_add] at ends
    exact passed.eq_of_length ((ends.symm.trans hend).trans (BitString.length_toList data).symm)
  · cases hok
    have length : offset = 0 + totalLength ((s.fields.map (·.domain)).map x.consumed) := traced.length
    rw [Nat.zero_add, ← length_of_fields collected] at length
    exact length.symm.trans hend

/--
A recognized message has as many bits as the data. The reading went through a derivation of each field, and read what
stands in the data for each relation; the message shows the last readings of the late relations. As long as their
lengths do not differ, what was read is the data, and the message has the bits of the data exactly when all readings of
each late relation agree; so it does where no late relation stands below a repetition.
-/
theorem recognized_bits {text : String} {symbols : List Symbol} (ht : Grammar.symbols text = .ok symbols)
    (hs : s ∈ symbols) {maxRepeat : Nat} {persist : Bool} {data : BitString} {m : Message} {memory' : Memory}
    (hm : s.recognize maxRepeat persist data memory = (some m, memory')) :
    m.bits.length = data.length ∧ ∃ (parts : List Derivation) (t : Trace),
      FitsAll ReadsLeaf CountsRead (s.fields.map (·.domain)) parts ∧
      t.atoms = (Derivation.atomsAll parts).flatten ∧
      (∀ id bits, .value id bits ∈ t → bits.toList <:+: data.toList) ∧
      m.bits = t.shown (s.isLate memory) ∧
      (t.Uniform (s.isLate memory) →
        t.spelled = data.toList ∧ (m.bits = data ↔ t.Agrees (s.isLate memory))) ∧
      ((∀ f ∈ s.fields, ∀ i, s.isLate memory i → ¬ f.domain.IsRepeated i) → m.bits = data) := by
  obtain ⟨fields, ho, made⟩ := symbols_made ht
  obtain ⟨a, parts, t, recognized⟩ := exists_recognized (made s hs) ho hm
  have fits : FitsAll ReadsLeaf CountsRead (s.fields.map (·.domain)) parts :=
    fitsAll_mono (fun _ _ _ hd => hd.mono HoldsLeaf.reads) recognized.fits
  have exact_iff (hu : t.Uniform (s.isLate memory)) :
      t.spelled = data.toList ∧ (m.bits = data ↔ t.Agrees (s.isLate memory)) := by
    have spelled := recognized.spelled hu
    refine ⟨spelled, ?_⟩
    rw [← Trace.shown_eq_spelled_iff hu, spelled, ← recognized.bits]
    exact ⟨congrArg BitString.toList, fun he => BitString.toList_injective he⟩
  refine ⟨recognized.length, parts, t, fits, recognized.atoms, recognized.found, recognized.bits, exact_iff, fun once => ?_⟩
  have agrees := agrees_of_once (made s hs) ho fits recognized.atoms once
  exact (exact_iff agrees.uniform).2.mpr agrees

/-- A symbol in which the size of the last field stands twice before that field. -/
def twoSizes : String :=
  "symbol \"S\" \x7b r: repeat(agg(raw(1), size(x)), 2); x: raw(0..5); \x7d"

/-- Read as `twoSizes`, data with two different sizes become a message in which both sizes are the second one. -/
theorem recognized_bits_twoSizes : ∃ symbols s m memory', Grammar.symbols twoSizes = .ok symbols ∧ s ∈ symbols ∧
    s.recognize 5 false (.ofBytes [0x41, 3, 0x42, 2, 0xff, 0xff]) .empty = (some m, memory') ∧
    m.bits.length = 48 ∧ m.bits = .ofBytes [0x41, 2, 0x42, 2, 0xff, 0xff] := by
  have run : ((Grammar.symbols twoSizes).toOption.bind List.head?).bind
      (fun s => (s.recognize 5 false (.ofBytes [0x41, 3, 0x42, 2, 0xff, 0xff]) .empty).1.map Message.bits) =
        some (.ofBytes [0x41, 2, 0x42, 2, 0xff, 0xff]) := by
    decide +kernel
  obtain ⟨s, hs, hr⟩ := Option.bind_eq_some_iff.mp run
  obtain ⟨symbols, ht, hs⟩ := Option.bind_eq_some_iff.mp hs
  obtain ⟨m, hm, hb⟩ := Option.map_eq_some_iff.mp hr
  have text : Grammar.symbols twoSizes = .ok symbols := Builder.ok_of_toOption ht
  have mem : s ∈ symbols := List.mem_of_mem_head? hs
  exact ⟨symbols, s, m, _, text, mem, Prod.ext hm rfl, (recognized_bits text mem (Prod.ext hm rfl)).1, hb⟩

end Faithful

end WireGrammar
