import WireGrammar.Proofs.Assignment.Ranges
import WireGrammar.Proofs.Interpretation.Discipline
import WireGrammar.Proofs.Interpretation.Followed
import WireGrammar.Proofs.Interpretation.Traced

/-!
# Interpretations carried over

A variable without relations in it is interpreted by its leaves alone. What it is interpreted as on some data it can be
interpreted as wherever these data stand in other data, and from any assignment whose leaves replay the same values, as
long as no relation that waits there can be compared before the variable is recorded (`Reading.records_carried`). The
length of its content is known, lies within the bounds, and is a multiple of whatever all its parts are multiples of
(`CountsIn`).
-/

namespace WireGrammar

open Assignment Variable

/-! ## Data inside of other data -/

theorem BitString.slice_of_matchesAt {x data : BitString} {base start stop : Nat} (h : x.matchesAt data base = true)
    (hs : stop ≤ x.length) : data.slice (base + start) (base + stop) = x.slice start stop := by
  obtain ⟨-, hx⟩ := matchesAt_iff.mp h
  apply toList_injective
  have own := congrArg toList hx
  rw [toList_slice] at own
  rw [toList_slice, toList_slice, ← own, List.take_drop, List.drop_drop, List.take_take,
    Nat.min_eq_left (Nat.add_le_add_left hs base)]

namespace Reading

variable {reading reading' : Reading} {base offset n : Nat}

/-- The data of one reading stand in those of another one. -/
structure Stands (reading reading' : Reading) (base : Nat) : Prop where
  maxRepeat : reading'.maxRepeat = reading.maxRepeat
  data : reading.data.matchesAt reading'.data base = true

namespace Stands

/-- Data stand in themselves. -/
theorem refl (reading : Reading) : Stands reading reading 0 :=
  ⟨rfl, reading.data.matchesAt_self⟩

variable (h : Stands reading reading' base)

include h

theorem remaining_le (offset : Nat) : reading.remaining offset ≤ reading'.remaining (base + offset) := by
  have := (BitString.matchesAt_iff.mp h.data).1
  unfold remaining
  omega

theorem bitsAt_eq (hn : n ≤ reading.remaining offset) :
    reading'.bitsAt (base + offset) n = reading.bitsAt offset n := by
  unfold remaining at hn
  unfold bitsAt
  by_cases h0 : n = 0
  · rw [h0, Nat.add_zero, Nat.add_zero, BitString.slice_self, BitString.slice_self]
  · rw [Nat.add_assoc, BitString.slice_of_matchesAt h.data (by omega)]

theorem matchesAt {x : BitString} (hx : x.matchesAt reading.data offset = true) :
    x.matchesAt reading'.data (base + offset) = true := by
  have within := (BitString.matchesAt_iff.mp h.data).1
  obtain ⟨hl, hs⟩ := BitString.matchesAt_iff.mp hx
  refine BitString.matchesAt_iff.mpr ⟨by omega, ?_⟩
  rw [Nat.add_assoc, BitString.slice_of_matchesAt h.data hl, hs]

/-- A delimiter that stands in the data stands in the other data. -/
theorem passDelimiter? {delimiter : Option BitString} {isFirst : Bool} {before before' content : Content} {start : Nat}
    (same : before'.atoms = before.atoms)
    (hp : reading.passDelimiter? delimiter isFirst offset before = some (start, content)) :
    ∃ content', reading'.passDelimiter? delimiter isFirst (base + offset) before' = some (base + start, content') ∧
      content'.atoms = content.atoms := by
  unfold Reading.passDelimiter? at hp ⊢
  split at hp
  next d =>
    obtain ⟨hm, hp⟩ := Option.ite_none_right_eq_some.mp hp
    cases hp
    refine ⟨before'.pushBits d, ?_, ?_⟩
    · rw [if_pos (h.matchesAt hm), Nat.add_assoc]
    · rw [Content.atoms_pushBits, Content.atoms_pushBits, same]
  next =>
    cases hp
    exact ⟨before', rfl, same⟩

end Stands

end Reading

/-! ## Trees without relations -/

/-- The lengths within bounds that are multiples of a unit. -/
def InUnits (unit : Nat) (bounds : Nat × Option Nat) (n : Nat) : Prop :=
  Within bounds n ∧ unit ∣ n

/--
Variables without a relation among them, of which all leaves and delimiters are multiples of a unit. What goes by one
identity has one bound.
-/
structure CountsIn (unit : Nat) (vars : List Variable) : Prop where
  relationFree : ∀ r, .relation r ∉ vars
  leaf : ∀ {id name type scope}, .data id name type scope ∈ vars → unit ∣ type.unit
  delimiter : ∀ {id name child count delimiter}, .repetition id name child count delimiter ∈ vars →
    unit ∣ delimiterLength delimiter
  same : SameBounds vars

variable {unit : Nat} {v : Variable} {vars known : List Variable} {a a' b : Assignment} {content content' : Content}
  {bits : BitString}

/-- Everything counts in bits. -/
theorem countsIn_one (free : ∀ r, .relation r ∉ vars) (same : SameBounds vars) : CountsIn 1 vars :=
  ⟨free, fun _ => Nat.one_dvd _, fun _ => Nat.one_dvd _, same⟩

theorem InUnits.of_acceptsLength {type : DataType} {n : Nat} (hu : unit ∣ type.unit) (h : type.acceptsLength n = true) :
    InUnits unit type.bounds n := by
  obtain ⟨least, greatest, multiple⟩ := DataType.acceptsLength_iff.mp h
  exact ⟨⟨least, greatest⟩, Nat.dvd_trans hu (Nat.dvd_of_mod_eq_zero multiple)⟩

namespace Assignment

/-- The content recorded for a variable is these bits, without a slot for a relation. -/
def Written (a : Assignment) (id : VarId) (bits : BitString) : Prop :=
  ∃ content, a.entry? id = some (.content content) ∧ content.atoms = Atom.ofBits bits

namespace Written

variable {id : VarId}

theorem spells (h : a.Written id bits) : a.Spells id bits := by
  obtain ⟨content, he, hc⟩ := h
  exact .content he hc

theorem record (hc : content.atoms = Atom.ofBits bits) : (a.record id content).Written id bits :=
  ⟨content, entry?_record_self _ _, hc⟩

theorem consumed (h : a.Written v.id bits) : a.consumed v = bits.length := by
  rw [Assignment.consumed, h.spells.length?, Option.getD_some]

end Written

/--
Two assignments replay the same values for the leaves among some variables, and know the same bits of those that have
been read. All of these are as long as the bounds allow.
-/
structure Alike (unit : Nat) (vars known : List Variable) (a a' : Assignment) : Prop where
  replays : ∀ {id name type scope}, .data id name type scope ∈ vars →
    a'.replayed? id type scope = a.replayed? id type scope ∧
      ∀ value ∈ a.replayed? id type scope, InUnits unit type.bounds value.length
  holds : ∀ v ∈ known, ∃ bits, a.Written v.id bits ∧ a'.Written v.id bits ∧ InUnits unit v.bounds bits.length

namespace Alike

/-- Assignments that remember the same values, which the leaves accept. -/
theorem of_remembers (hw : CountsIn unit vars)
    (remembers : ∀ {id name type scope}, .data id name type scope ∈ vars → ∀ value ∈ a.known? id,
      type.accepts value = true) (same : a'.known? = a.known?) : Alike unit vars [] a a' where
  replays {id name type scope} hl := by
    refine ⟨by rw [replayed?, same, replayed?], fun value hv => ?_⟩
    obtain ⟨-, hv⟩ := Option.ite_none_right_eq_some.mp hv
    refine InUnits.of_acceptsLength (hw.leaf hl) ?_
    rcases Option.or_eq_some_iff.mp hv with hc | ⟨-, hk⟩
    · exact (DataType.acceptsLength_of_constant hc).mpr rfl
    · exact DataType.acceptsLength_of_accepts (remembers hl value hk)
  holds := fun _ hv => nomatch hv

/-- Assignments of which no leaf replays a value. -/
theorem of_fresh (fresh : ∀ {id name type scope}, .data id name type scope ∈ vars → scope.replays = false)
    (a a' : Assignment) : Alike unit vars [] a a' where
  replays {id name type scope} hl := by
    have none (x : Assignment) : x.replayed? id type scope = none := by
      rw [replayed?, fresh hl, if_neg Bool.false_ne_true]
    rw [none, none]
    exact ⟨rfl, fun _ hv => nomatch hv⟩
  holds := fun _ hv => nomatch hv

theorem mono {known' : List Variable} (h : Alike unit vars known a a') (hs : known' ⊆ known) :
    Alike unit vars known' a a' :=
  ⟨h.replays, fun v hv => h.holds v (hs hv)⟩

/-- A comparison changes no more than what waits. -/
theorem verified? (h : Alike unit vars known a a') (hb : a.verified? = some b) : Alike unit vars known b a' := by
  obtain ⟨-, rfl⟩ := verified?_eq_some_iff.mp hb
  exact ⟨h.replays, h.holds⟩

/-- A variable is recorded with the same bits. -/
theorem record (hw : CountsIn unit vars) (h : Alike unit vars known a a') (hk : known ⊆ vars) (hv : v ∈ vars)
    (hc : content.atoms = Atom.ofBits bits) (hc' : content'.atoms = Atom.ofBits bits)
    (hl : InUnits unit v.bounds bits.length) :
    Alike unit vars (v :: known) (a.record v.id content) (a'.record v.id content') := by
  refine ⟨h.replays, List.forall_mem_cons.mpr ⟨⟨bits, .record hc, .record hc', hl⟩, fun x hx => ?_⟩⟩
  by_cases hid : x.id = v.id
  · rw [hid, hw.same x (hk hx) v hv hid]
    exact ⟨bits, .record hc, .record hc', hl⟩
  · obtain ⟨own, ⟨c, he, hatoms⟩, ⟨c', he', hatoms'⟩, hl⟩ := h.holds x hx
    exact ⟨own, ⟨c, by rwa [entry?_record, if_neg hid], hatoms⟩, ⟨c', by rwa [entry?_record, if_neg hid], hatoms'⟩, hl⟩

/-- A leaf with the same identity replays what has been learned. -/
theorem learnFresh (hw : CountsIn unit vars) (h : Alike unit vars known a a') {id : VarId} {name : String}
    {type : DataType} {scope : Scope} (hv : .data id name type scope ∈ vars) (hl : InUnits unit type.bounds bits.length) :
    Alike unit vars known (a.learnFresh scope id bits) (a'.learnFresh scope id bits) := by
  unfold Assignment.learnFresh
  split
  · exact h
  · refine ⟨fun {other otherName otherType otherScope} ho => ?_, h.holds⟩
    have learned (x : Assignment) : (x.learn id bits).replayed? other otherType otherScope =
        if other = id then (if otherScope.replays then otherType.constant?.or (some bits) else none)
        else x.replayed? other otherType otherScope := by
      unfold replayed? known? Assignment.learn
      by_cases same : other = id
      · rw [if_pos same, same, List.lookup_cons, BEq.rfl, Option.some_or]
      · rw [if_neg same, List.lookup_cons, beq_eq_false_iff_ne.mpr same]
    rw [learned, learned]
    split
    next same =>
      refine ⟨rfl, fun value hvalue => ?_⟩
      obtain ⟨-, hvalue⟩ := Option.ite_none_right_eq_some.mp hvalue
      rcases Option.or_eq_some_iff.mp hvalue with hc | ⟨-, hk⟩
      · exact .of_acceptsLength (hw.leaf ho) ((DataType.acceptsLength_of_constant hc).mpr rfl)
      · cases hk
        have bounds : otherType.bounds = type.bounds := hw.same _ ho _ hv same
        rwa [bounds]
    next => exact h.replays ho

/-- The bits of variables one after the other. -/
theorem contents (h : Alike unit vars known a a') {children : List Variable} (hc : children ⊆ known) :
    ∃ contents contents' bits, (children.mapM fun c => a.content? c.id) = some contents ∧
      (children.mapM fun c => a'.content? c.id) = some contents' ∧
      (contents.flatMap fun (c : Content) => c.atoms.flatMap a.settleAtom) = Atom.ofBits bits ∧
      (contents'.flatMap fun (c : Content) => c.atoms.flatMap a'.settleAtom) = Atom.ofBits bits ∧
      InUnits unit (sequenceBounds (boundsAll children)) bits.length := by
  induction children with
  | nil => exact ⟨[], [], .empty, rfl, rfl, rfl, rfl, ⟨Nat.le_refl _, fun _ _ => Nat.zero_le _⟩, Nat.dvd_zero _⟩
  | cons c more ih =>
    obtain ⟨hc, hmore⟩ := List.cons_subset.mp hc
    obtain ⟨contents, contents', bits, hm, hm', hb, hb', hl⟩ := ih hmore
    obtain ⟨own, hs, hs', hown⟩ := h.holds c hc
    obtain ⟨x, hx, hatoms⟩ := hs.spells.content?
    obtain ⟨x', hx', hatoms'⟩ := hs'.spells.content?
    refine ⟨x :: contents, x' :: contents', own ++ bits, ?_, ?_, ?_, ?_, ?_⟩
    · rw [List.mapM_cons, hx, hm]
      rfl
    · rw [List.mapM_cons, hx', hm']
      rfl
    · rw [List.flatMap_cons, hatoms, hb, Atom.ofBits_append]
    · rw [List.flatMap_cons, hatoms', hb', Atom.ofBits_append]
    · rw [BitString.length_append]
      exact ⟨within_sequenceBounds hown.1 hl.1, Nat.dvd_add hown.2 hl.2⟩

/-- A node is composed of the same bits. -/
theorem composed (hw : CountsIn unit vars) (h : Alike unit vars known a a') (hk : known ⊆ vars) (hv : v ∈ vars)
    {children : List Variable} (hc : children ⊆ known)
    (within : ∀ n, Within (sequenceBounds (boundsAll children)) n → Within v.bounds n)
    (hb : a.composed? v.id children = some b) :
    ∃ b', a'.composed? v.id children = some b' ∧ Alike unit vars (v :: known) b b' := by
  obtain ⟨contents, contents', bits, hm, hm', atoms, atoms', hl⟩ := h.contents hc
  unfold composed? at hb ⊢
  rw [hm] at hb
  cases hb
  rw [hm']
  refine ⟨_, rfl, h.record hw hk hv ?_ ?_ ⟨within _ hl.1, hl.2⟩⟩
  · rw [atoms_foldl_freeze, Content.atoms_empty, List.nil_append, atoms]
  · rw [atoms_foldl_freeze, Content.atoms_empty, List.nil_append, atoms']

end Alike

end Assignment

/-! ## The records of an interpretation -/

namespace Reading

variable {reading reading' : Reading} {base offset : Nat} {id : VarId} {name : String} {children : List Variable}

theorem mem_interpret :
    b ∈ (reading.interpret v a offset).toList ↔
      ∃ x ∈ reading.recordsWith Assignment.verified? v a offset, x.verified? = some b := by
  rw [toList_interpret, searchWith, List.mem_filterMap]

theorem mem_leafRecords {type : DataType} {scope : Scope} :
    b ∈ reading.leafRecords id type scope a offset ↔
      (∃ value, a.replayed? id type scope = some value ∧ value.matchesAt reading.data offset = true ∧
        b = a.record id (.ofBits value)) ∨
      (a.replayed? id type scope = none ∧ scope ≠ .constant ∧
        ∃ n ∈ type.candidateLengths (reading.remaining offset), type.accepts (reading.bitsAt offset n) = true ∧
          b = (a.learnFresh scope id (reading.bitsAt offset n)).record id (.ofBits (reading.bitsAt offset n))) := by
  unfold leafRecords
  cases hr : a.replayed? id type scope with
  | some value =>
    dsimp only
    split
    next hm => simp [hm]
    next hm => simp [hm]
  | none =>
    dsimp only
    split
    next hs => simp [hs]
    next hs =>
      simp only [List.mem_filterMap, Option.ite_none_right_eq_some, Option.some.injEq, reduceCtorEq, false_and,
        exists_false, false_or, true_and]
      exact ⟨fun ⟨n, hn, ha, hb⟩ => ⟨hs, n, hn, ha, hb.symm⟩, fun ⟨_, n, hn, ha, hb⟩ => ⟨n, hn, ha, hb.symm⟩⟩

theorem mem_recordsWith_choice :
    b ∈ reading.recordsWith Assignment.verified? (.choice id name children) a offset ↔
      ∃ c ∈ children, ∃ x ∈ (reading.interpret c a offset).toList, x.composed? id [c] = some b := by
  rw [recordsWith, mem_recordsOfAny]
  simp only [toList_interpret]

theorem mem_recordsWith_sequence :
    b ∈ reading.recordsWith Assignment.verified? (.sequence id name children) a offset ↔
      ∃ p ∈ (reading.interpretAll children a offset).toList, p.1.composed? id children = some b := by
  rw [recordsWith, List.mem_filterMap]
  simp only [toList_interpretAll]

theorem mem_recordsWith_repetition {child : Variable} {count : RepeatCount} {delimiter : Option BitString} :
    b ∈ reading.recordsWith Assignment.verified? (.repetition id name child count delimiter) a offset ↔
      ∃ k ∈ reading.counts child count delimiter offset,
        ∃ p ∈ (reading.instances (reading.interpret child) child delimiter k true a offset .empty).toList,
          p.1.record id p.2 = b := by
  have one (a : Assignment) (offset : Nat) :
      (Choices.ofList ((reading.recordsWith Assignment.verified? child a offset).filterMap Assignment.verified?)).toList =
        (reading.interpret child a offset).toList := by
    rw [Choices.toList_ofList, toList_interpret, searchWith]
  rw [recordsWith, List.mem_flatMap]
  simp only [List.mem_map, toList_instances_congr one]

end Reading

/-! ## Relations that go on to wait -/

/-- Nothing is added but records of the given variables, and what waits goes on to wait. -/
def Discipline.idle (start : Assignment) (ids : List VarId) : Discipline where
  Inv a := Grows ids start a ∧ a.pending = start.pending
  Step _ _ := True
  Fit _ _ := True
  Done _ _ := True
  refl _ := trivial
  trans _ _ := trivial
  done _ h := h
  kept _ h := h
  empty _ := trivial
  pushBits h _ := h
  append _ h _ := h

theorem idle_interprets {start : Assignment} (hi : start.Idle (vars.map Variable.id)) (free : ∀ r, .relation r ∉ vars)
    (reading : Reading) : Interprets (.idle start (vars.map Variable.id)) reading vars := by
  have recorded {v : Variable} {x b : Assignment} {content : Content} (hv : v ∈ vars)
      (hx : Grows (vars.map Variable.id) start x) (hp : x.pending = start.pending)
      (hb : (x.record v.id content).verified? = some b) :
      (Discipline.idle start (vars.map Variable.id)).After v x b := by
    have grows := hx.record (List.mem_map_of_mem hv) content
    rw [hi.verified? grows hp] at hb
    cases hb
    exact ⟨⟨grows, hp⟩, trivial, trivial⟩
  refine ⟨fun {id name type scope a b offset} hv ha hb => ?_, fun hr => absurd hr (free _),
    fun hv _ ha _ hb => recorded hv ha.1 ha.2 hb⟩
  rcases Reading.mem_interpretData.mp hb with ⟨value, -, -, hb⟩ | ⟨-, -, n, -, -, hb⟩
  · exact recorded hv ha.1 ha.2 hb
  · have after := recorded hv (ha.1.learnFresh (List.mem_map_of_mem hv) scope _) ((pending_learnFresh ..).trans ha.2) hb
    exact ⟨after.inv, trivial, trivial⟩

section Idle

variable {reading : Reading} {offset : Nat} {children : List Variable}

theorem Assignment.Idle.interpret (hi : a.Idle v.ids) (free : ∀ r, .relation r ∉ v.preorder)
    (hb : b ∈ (reading.interpret v a offset).toList) : b.pending = a.pending :=
  ((idle_interprets hi free reading).interpret_after v (List.Subset.refl _) ⟨.refl _ a, rfl⟩ hb).inv.2

theorem Assignment.Idle.interpretAll (hi : a.Idle (idsOf children)) (free : ∀ r, .relation r ∉ preorderAll children)
    {p : Assignment × Nat} (hp : p ∈ (reading.interpretAll children a offset).toList) :
    Grows (idsOf children) a p.1 ∧ p.1.pending = a.pending := by
  rw [← map_id_preorderAll] at hi ⊢
  exact ((idle_interprets hi free reading).interpretAll_after (by rw [← preorderAll_eq]; exact List.Subset.refl _)
    ⟨.refl _ a, rfl⟩ hp).inv

/-- A record of a variable adds nothing but records of what it contains, as long as nothing can be compared below it. -/
theorem Reading.records_idle (hi : a.Idle (idsOf v.children)) (free : ∀ r, .relation r ∉ v.preorder)
    (hb : b ∈ reading.recordsWith Assignment.verified? v a offset) : Grows v.ids a b ∧ b.pending = a.pending := by
  have own : v.id ∈ v.ids := v.id_mem_ids
  have below : idsOf v.children ⊆ v.ids := by
    rw [ids_eq]
    exact List.subset_cons_self _ _
  have inside : ∀ r, .relation r ∉ preorderAll v.children := fun r hr => free r (children_subset_preorder v hr)
  have composed {x : Assignment} {parts : List Variable} (hx : Grows v.ids a x ∧ x.pending = a.pending)
      (hb : x.composed? v.id parts = some b) : Grows v.ids a b ∧ b.pending = a.pending := by
    obtain ⟨contents, -, hb⟩ := Option.bind_eq_some_iff.mp hb
    cases hb
    exact ⟨hx.1.record own _, hx.2⟩
  cases v with
  | data id name type scope =>
    rw [recordsWith] at hb
    rcases mem_leafRecords.mp hb with ⟨value, -, -, rfl⟩ | ⟨-, -, n, -, -, rfl⟩
    · exact ⟨(Grows.refl _ a).record own _, rfl⟩
    · exact ⟨((Grows.refl _ a).learnFresh own scope _).record own _, pending_learnFresh ..⟩
  | relation r => exact absurd (self_mem_preorder _) (free r)
  | choice id name children =>
    obtain ⟨c, hc, x, hx, hb⟩ := mem_recordsWith_choice.mp hb
    have first : c.ids ⊆ idsOf children := ids_subset_of_mem hc
    exact composed ⟨(interpret_grows c hx).mono (List.Subset.trans first below), (hi.mono first).interpret
      (fun r hr => inside r (preorder_subset_of_mem hc hr)) hx⟩ hb
  | sequence id name children =>
    obtain ⟨p, hp, hb⟩ := mem_recordsWith_sequence.mp hb
    obtain ⟨grows, pending⟩ := hi.interpretAll inside hp
    exact composed ⟨grows.mono below, pending⟩ hb
  | repetition id name child count delimiter =>
    obtain ⟨k, -, p, hp, rfl⟩ := mem_recordsWith_repetition.mp hb
    have idle : a.Idle (child.preorder.map Variable.id) := hi.mono (ids_subset_of_mem (List.mem_singleton_self child))
    have free' : ∀ r, .relation r ∉ child.preorder := fun r hr =>
      inside r (preorder_subset_of_mem (List.mem_singleton_self child) hr)
    obtain ⟨inv, -, -⟩ := Interprets.instances_after ((idle_interprets idle free' reading).interpret_after child
      (List.Subset.refl _)) ⟨.refl _ a, rfl⟩ trivial hp
    have first : child.ids ⊆ (Variable.repetition id name child count delimiter).ids := by
      rw [ids_repetition]
      exact List.subset_cons_self _ _
    exact ⟨(inv.1.mono first).record own _, inv.2⟩

end Idle

/-! ## The same on other data -/

namespace Reading

variable {reading reading' : Reading} {base offset : Nat} {id : VarId} {name : String} {children : List Variable}

/--
What is recorded of a variable on some data is recorded of it wherever these stand in other data, if no relation can be
compared before.
-/
def Carries (reading reading' : Reading) (base unit : Nat) (vars : List Variable) (v : Variable) : Prop :=
  ∀ {known a a' offset b}, known ⊆ vars → Alike unit vars known a a' → a'.Idle (idsOf v.children) →
    b ∈ reading.recordsWith Assignment.verified? v a offset →
      ∃ b' ∈ reading'.recordsWith Assignment.verified? v a' (base + offset), Alike unit vars (v :: known) b b'

/-- So it is interpreted there, if no relation can be compared with it either. -/
theorem Carries.interpret (h : Carries reading reading' base unit vars v) (free : ∀ r, .relation r ∉ v.preorder)
    (hk : known ⊆ vars) (alike : Alike unit vars known a a') (idle : a'.Idle v.ids)
    (hb : b ∈ (reading.interpret v a offset).toList) :
    ∃ b' ∈ (reading'.interpret v a' (base + offset)).toList, Alike unit vars (v :: known) b b' := by
  obtain ⟨x, hx, hb⟩ := mem_interpret.mp hb
  have below : idsOf v.children ⊆ v.ids := by
    rw [ids_eq]
    exact List.subset_cons_self _ _
  obtain ⟨b', hb', records⟩ := h hk alike (idle.mono below) hx
  obtain ⟨grows, pending⟩ := records_idle (idle.mono below) free hb'
  exact ⟨b', mem_interpret.mpr ⟨b', hb', idle.verified? grows pending⟩, records.verified? hb⟩

theorem data_carried (h : Stands reading reading' base) (hw : CountsIn unit vars) {type : DataType} {scope : Scope}
    (hv : .data id name type scope ∈ vars) : Carries reading reading' base unit vars (.data id name type scope) := by
  intro known a a' offset b hk alike _ hb
  rw [recordsWith] at hb ⊢
  obtain ⟨same, allowed⟩ := alike.replays hv
  rcases mem_leafRecords.mp hb with ⟨value, hr, hm, rfl⟩ | ⟨hr, hs, n, hn, ha, rfl⟩
  · exact ⟨_, mem_leafRecords_of_replayed (same.trans hr) (h.matchesAt hm),
      alike.record hw hk hv (Content.atoms_ofBits _) (Content.atoms_ofBits _) (allowed value hr)⟩
  · obtain ⟨fits, hl⟩ := DataType.mem_candidateLengths.mp hn
    have equal := h.bitsAt_eq fits
    have long := InUnits.of_acceptsLength (hw.leaf hv) (DataType.acceptsLength_of_accepts ha)
    refine ⟨_, mem_leafRecords.mpr (.inr ⟨same.trans hr, hs, n, ?_, equal ▸ ha, rfl⟩), ?_⟩
    · exact DataType.mem_candidateLengths.mpr ⟨fits.trans (h.remaining_le offset), hl⟩
    · rw [equal]
      exact (alike.learnFresh hw hv long).record hw hk hv (Content.atoms_ofBits _) (Content.atoms_ofBits _) long

theorem interpretAll_carried (hw : CountsIn unit vars) (hv : preorderAll children ⊆ vars)
    (one : ∀ c ∈ children, Carries reading reading' base unit vars c) (hk : known ⊆ vars)
    (alike : Alike unit vars known a a') (idle : a'.Idle (idsOf children)) {p : Assignment × Nat}
    (hp : p ∈ (reading.interpretAll children a offset).toList) :
    ∃ p' ∈ (reading'.interpretAll children a' (base + offset)).toList, p'.2 = base + p.2 ∧
      Alike unit vars (children ++ known) p.1 p'.1 := by
  induction children generalizing known a a' offset with
  | nil =>
    rw [toList_interpretAll_nil, List.mem_singleton] at hp
    subst hp
    exact ⟨(a', base + offset), by rw [toList_interpretAll_nil]; exact List.mem_singleton_self _, rfl, alike⟩
  | cons c more ih =>
    obtain ⟨hc, hmore⟩ := List.append_subset.mp hv
    obtain ⟨b, hb, hp⟩ := mem_interpretAll_cons.mp hp
    have free : ∀ r, .relation r ∉ c.preorder := fun r hr => hw.relationFree r (hc hr)
    have first : a'.Idle c.ids := idle.mono (List.subset_append_left _ _)
    obtain ⟨b', hb', next⟩ := Carries.interpret (one c List.mem_cons_self) free hk alike first hb
    obtain ⟨bits, hs, hs', -⟩ := next.holds c List.mem_cons_self
    have others : b'.Idle (idsOf more) :=
      (idle.grows ((interpret_grows c hb').mono (List.subset_append_left _ _)) (first.interpret free hb')).mono
        (List.subset_append_right _ _)
    obtain ⟨p', hp', hend, all⟩ := ih hmore (fun c hc => one c (List.mem_cons_of_mem _ hc))
      (List.cons_subset.mpr ⟨hc c.self_mem_preorder, hk⟩) next others hp
    refine ⟨p', mem_interpretAll_cons.mpr ⟨b', hb', ?_⟩, hend, all.mono fun x hx => ?_⟩
    · rwa [hs'.consumed, ← hs.consumed, Nat.add_assoc]
    · simp only [List.cons_append, List.mem_cons, List.mem_append] at hx ⊢
      tauto

theorem instances_carried (h : Stands reading reading' base) (hw : CountsIn unit vars) {child : Variable}
    (hc : child.preorder ⊆ vars) (one : Carries reading reading' base unit vars child) {delimiter : Option BitString}
    (hd : unit ∣ delimiterLength delimiter) {k : Nat} {isFirst : Bool} {before before' : Content}
    (same : before'.atoms = before.atoms) (hk : known ⊆ vars) (alike : Alike unit vars known a a')
    (idle : a'.Idle child.ids) {p : Assignment × Content}
    (hp : p ∈ (reading.instances (reading.interpret child) child delimiter k isFirst a offset before).toList) :
    ∃ p' ∈ (reading'.instances (reading'.interpret child) child delimiter k isFirst a' (base + offset) before').toList,
      Alike unit vars known p.1 p'.1 ∧ p'.2.atoms = p.2.atoms ∧ ∃ bits, p.2.atoms = before.atoms ++ Atom.ofBits bits ∧
        InUnits unit (instanceBounds child.bounds k (delimiterLength delimiter) isFirst) bits.length := by
  induction k generalizing known a a' offset before before' isFirst with
  | zero =>
    rw [toList_instances_zero, List.mem_singleton] at hp
    subst hp
    refine ⟨(a', before'), by rw [toList_instances_zero]; exact List.mem_singleton_self _, alike, same, .empty, ?_, ?_,
      Nat.dvd_zero _⟩
    · rw [Atom.ofBits_empty, List.append_nil]
    · simp [Within, instanceBounds, leastOf]
  | succ k ih =>
    obtain ⟨start, content, hpass, b, hb, hn, own, hown, hp⟩ := mem_instances_succ.mp hp
    obtain ⟨content', hpass', hcontent⟩ := h.passDelimiter? same hpass
    obtain ⟨delimited, hd₀, hcontent₀, -⟩ := passDelimiter?_passes hpass
    have free : ∀ r, .relation r ∉ child.preorder := fun r hr => hw.relationFree r (hc hr)
    obtain ⟨b', hb', next⟩ := one.interpret free hk alike idle hb
    obtain ⟨bits, hs, hs', measured⟩ := next.holds child List.mem_cons_self
    obtain ⟨own', hown', hatoms'⟩ := hs'.spells.content?
    obtain ⟨shown, hshown, hatoms⟩ := hs.spells.content?
    cases hown.symm.trans hshown
    have equal : (content'.append (b'.freeze own')).atoms = (content.append (b.freeze own)).atoms := by
      rw [Content.atoms_append, Content.atoms_append, atoms_freeze, atoms_freeze, hcontent, hatoms, hatoms']
    obtain ⟨p', hp', all, hsame, rest, hrest, hl⟩ := ih equal (List.cons_subset.mpr ⟨hc child.self_mem_preorder, hk⟩)
      next (idle.grows (interpret_grows child hb') (idle.interpret free hb')) hp
    refine ⟨p', ?_, all.mono (List.subset_cons_self _ _), hsame, delimited ++ bits ++ rest, ?_, ?_⟩
    · refine mem_instances_succ.mpr ⟨_, content', hpass', b', hb', ?_, own', hown', ?_⟩
      · rwa [hs'.consumed, ← hs.consumed]
      · rwa [hs'.consumed, ← hs.consumed, Nat.add_assoc]
    · rw [hrest, Content.atoms_append, hcontent₀, atoms_freeze, hatoms, Atom.ofBits_append, Atom.ofBits_append]
      simp only [List.append_assoc]
    · have length := Derivation.length_delimiterAtoms (fun _ => .empty) delimiter isFirst
      rw [hd₀, Atom.fill_ofBits] at length
      rw [BitString.length_append, BitString.length_append, length]
      exact ⟨within_instanceBounds_succ measured.1 hl.1,
        Nat.dvd_add (Nat.dvd_add (Nat.dvd_mul_right_of_dvd hd _) measured.2) hl.2⟩

/--
What is recorded of a variable without relations in it on some data is recorded of it wherever these stand in other
data, with the same bits, from any assignment whose leaves replay the same values.
-/
theorem records_carried (h : Stands reading reading' base) (hw : CountsIn unit vars) (v : Variable)
    (hv : v.preorder ⊆ vars) : Carries reading reading' base unit vars v := by
  induction v using Variable.induct with
  | data id name type scope => exact data_carried h hw (hv (self_mem_preorder _))
  | relation r => exact absurd (hv (self_mem_preorder _)) (hw.relationFree r)
  | choice id name children ih =>
    intro known a a' offset b hk alike idle hb
    obtain ⟨c, hc, x, hx, hb⟩ := mem_recordsWith_choice.mp hb
    have below : c.preorder ⊆ vars := fun y hy => hv (List.mem_cons_of_mem _ (preorder_subset_of_mem hc hy))
    obtain ⟨x', hx', next⟩ := Carries.interpret (ih c hc below) (fun r hr => hw.relationFree r (below hr)) hk alike
      (idle.mono (ids_subset_of_mem hc)) hx
    obtain ⟨b', hb', all⟩ := next.composed (v := .choice id name children) hw
      (List.cons_subset.mpr ⟨below c.self_mem_preorder, hk⟩) (hv (self_mem_preorder _))
      (List.cons_subset.mpr ⟨List.mem_cons_self, List.nil_subset _⟩)
      (fun n hn => within_choice hc (within_of_singleton hn)) hb
    exact ⟨b', mem_recordsWith_choice.mpr ⟨c, hc, x', hx', hb'⟩,
      all.mono (List.cons_subset_cons _ (List.subset_cons_self _ _))⟩
  | sequence id name children ih =>
    intro known a a' offset b hk alike idle hb
    obtain ⟨p, hp, hb⟩ := mem_recordsWith_sequence.mp hb
    have below : preorderAll children ⊆ vars := (List.cons_subset.mp hv).2
    have one (c : Variable) (hc : c ∈ children) : c.preorder ⊆ vars :=
      List.Subset.trans (preorder_subset_of_mem hc) below
    have mem : children ⊆ vars := fun c hc => one c hc c.self_mem_preorder
    obtain ⟨p', hp', -, next⟩ := interpretAll_carried hw below (fun c hc => ih c hc (one c hc)) hk alike idle hp
    obtain ⟨b', hb', all⟩ := next.composed (v := .sequence id name children) hw (List.append_subset.mpr ⟨mem, hk⟩)
      (hv (self_mem_preorder _)) (List.subset_append_left _ _) (fun n hn => hn) hb
    exact ⟨b', mem_recordsWith_sequence.mpr ⟨p', hp', hb'⟩,
      all.mono (List.cons_subset_cons _ (List.subset_append_right _ _))⟩
  | repetition id name child count delimiter ih =>
    intro known a a' offset b hk alike idle hb
    obtain ⟨k, hcount, p, hp, rfl⟩ := mem_recordsWith_repetition.mp hb
    have below : child.preorder ⊆ vars := fun y hy => hv (List.mem_cons_of_mem _ hy)
    have inside : child.ids ⊆ idsOf (Variable.repetition id name child count delimiter).children :=
      ids_subset_of_mem (List.mem_singleton_self child)
    obtain ⟨p', hp', all, same, bits, hbits, measured⟩ := instances_carried h hw below (ih below)
      (hw.delimiter (hv (self_mem_preorder _))) rfl hk alike (idle.mono inside) hp
    rw [Content.atoms_empty, List.nil_append] at hbits
    obtain ⟨⟨least, stop⟩, hfit⟩ := mem_counts.mp hcount
    refine ⟨_, mem_recordsWith_repetition.mpr ⟨k, mem_counts.mpr ⟨?_, hfit.trans (h.remaining_le offset)⟩, p', hp', rfl⟩,
      all.record hw hk (hv (self_mem_preorder _)) hbits (same.trans hbits) ⟨?_, measured.2⟩⟩
    · rw [h.maxRepeat]
      exact ⟨least, stop⟩
    · exact within_repetition least (by omega) measured.1

/-- An interpretation of a variable without relations in it has bits, in a number that its bounds and leaves allow. -/
theorem written_of_interpret (hw : CountsIn unit v.preorder) (remembers : v.Remembers a.known?)
    (hb : b ∈ (reading.interpret v a offset).toList) :
    ∃ bits, b.Written v.id bits ∧ InUnits unit v.bounds bits.length := by
  have start : Alike unit v.preorder [] a { a with pending := [] } :=
    .of_remembers hw (fun hl value hk => remembers hl value hk) rfl
  obtain ⟨_, -, alike⟩ := Carries.interpret (records_carried (.refl reading) hw v (List.Subset.refl _))
    hw.relationFree (List.nil_subset _) start (idle_of_pending_nil rfl _) hb
  obtain ⟨bits, written, -, measured⟩ := alike.holds v List.mem_cons_self
  exact ⟨bits, written, measured⟩

end Reading

end WireGrammar
