import WireGrammar.Proofs.Assignment.Known
import WireGrammar.Proofs.DataType.Draw
import WireGrammar.Proofs.Generation.Settling
import WireGrammar.Proofs.Interpretation.Derivation

/-!
# Instances with a size

A repetition of a sequence that holds a leaf and, before or behind it, the size of that leaf. In every instance the
size should be that of the leaf in the same instance (`SizedRepetition.owns`). Where the size stands first, it is
computed before the leaf has its next value, so it is that of the leaf in the instance before; only in the first
instance does it wait (`SizedRepetition.follows`). The two differ unless all sizes are the same (`follows_iff`).
-/

namespace WireGrammar

/-- A repetition of a sequence in which a leaf and its size stand, among other variables. -/
structure SizedRepetition where
  id : VarId
  name : String
  count : RepeatCount
  delimiter : Option BitString
  sequenceId : VarId
  sequenceName : String
  leafId : VarId
  leafName : String
  leafType : DataType
  leafScope : Scope
  sizeId : VarId
  sizeName : String
  scale : Scale
  format : IntegerFormat
  /-- Whether the leaf stands before its size. -/
  leafFirst : Bool
  before : List Variable
  between : List Variable
  behind : List Variable

/-- The bits of the leaf that stands at an index in a sequence. -/
def Derivation.leafAt? (index : Nat) (d : Derivation) : Option BitString :=
  match d.parts[index]? with
  | some (.leaf bits) => some bits
  | _ => none

namespace SizedRepetition

variable (t : SizedRepetition)

def leaf : Variable :=
  .data t.leafId t.leafName t.leafType t.leafScope

/-- The size of the leaf, in an integer of any value that its format has. -/
def size : Relation :=
  ⟨t.sizeId, t.sizeName, .size t.scale, [t.leafId], .integer (.full t.format)⟩

/-- A leaf of the same type in the place of the size. -/
def sizeLeaf : Variable :=
  .data t.sizeId t.sizeName (.integer (.full t.format)) .volatile

/-- The children of the sequence, with the given variable in the place of the size. -/
def childrenWith (size : Variable) : List Variable :=
  if t.leafFirst then t.before ++ t.leaf :: (t.between ++ size :: t.behind)
  else t.before ++ size :: (t.between ++ t.leaf :: t.behind)

def sequenceWith (size : Variable) : Variable :=
  .sequence t.sequenceId t.sequenceName (t.childrenWith size)

def repetitionWith (size : Variable) : Variable :=
  .repetition t.id t.name (t.sequenceWith size) t.count t.delimiter

/-- The repetition. -/
def repetition : Variable :=
  t.repetitionWith (.relation t.size)

/-- The repetition with a leaf that may hold any number in the place of the size. -/
def plain : Variable :=
  t.repetitionWith t.sizeLeaf

/-- The bits of the size that a leaf of so many bits has. -/
def encoded? (length : Nat) : Option BitString :=
  (DataType.integer (.full t.format)).write (.int (Relation.sizeOf t.scale length)) |>.toOption

def leafIndex : Nat :=
  if t.leafFirst then t.before.length else t.before.length + 1 + t.between.length

def sizeIndex : Nat :=
  if t.leafFirst then t.before.length + 1 + t.between.length else t.before.length

/-- The length of the leaf in an instance. -/
def length? (d : Derivation) : Option Nat :=
  (d.leafAt? t.leafIndex).map BitString.length

/-- The bits of the size in an instance. -/
def bits? (d : Derivation) : Option BitString :=
  d.leafAt? t.sizeIndex

/-- Whether the size in an instance is that of a leaf of this length. -/
def sizes (length? : Option Nat) (d : Derivation) : Bool :=
  (t.bits? d).any fun bits => length?.bind t.encoded? == some bits

/-- Whether the size in an instance is that of its own leaf. -/
def owns (d : Derivation) : Bool :=
  t.sizes (t.length? d) d

/-- Whether the size in an instance is what is computed for it when the leaf last had some length. -/
def agrees (last? : Option Nat) (d : Derivation) : Bool :=
  t.sizes (if t.leafFirst then t.length? d else last?.or (t.length? d)) d

/-- Whether the sizes in all instances are what is computed for them. -/
def follows : Option Nat → List Derivation → Bool
  | _, [] => true
  | last?, d :: rest => t.agrees last? d && follows (t.length? d) rest

/-- What the constructors of the model see to: identities are used once, and counts are within the limit. -/
structure IsBuilt : Prop where
  nodup : t.repetition.ids.Nodup
  counted : ∀ {id name child count delimiter}, .repetition id name child count delimiter ∈ t.repetition.preorder →
    count.least < count.stop ∧ count.stop ≤ RepeatCount.limit

variable {t}

/-! ## The tree -/

section Tree

open Variable

/-- The variables beside the leaf and its size. -/
def others (t : SizedRepetition) : List Variable :=
  t.before ++ t.between ++ t.behind

theorem childrenWith_of_leafFirst (hf : t.leafFirst = true) (size : Variable) :
    t.childrenWith size = (t.before ++ t.leaf :: t.between) ++ ([size] ++ t.behind) := by
  rw [childrenWith, if_pos hf]
  simp

theorem childrenWith_of_sizeFirst (hf : t.leafFirst = false) (size : Variable) :
    t.childrenWith size = t.before ++ ([size] ++ (t.between ++ ([t.leaf] ++ t.behind))) := by
  rw [childrenWith, if_neg (Bool.not_eq_true _ ▸ hf)]
  simp

theorem ids_childrenWith {size : Variable} (h : size.ids = [t.sizeId]) :
    (idsOf (t.childrenWith size)).Perm (t.leafId :: t.sizeId :: idsOf t.others) := by
  have leaf : t.leaf.ids = [t.leafId] := ids_data _ _ _ _
  unfold childrenWith others
  split
  · simp only [idsOf_append, idsOf_cons, leaf, h, List.singleton_append]
    refine List.perm_middle.trans (.cons _ ?_)
    rw [← List.append_assoc]
    exact List.perm_middle
  · simp only [idsOf_append, idsOf_cons, leaf, h, List.singleton_append]
    refine List.perm_middle.trans ((List.Perm.cons _ ?_).trans (.swap _ _ _))
    rw [← List.append_assoc]
    exact List.perm_middle

theorem ids_repetitionWith {size : Variable} (h : size.ids = [t.sizeId]) :
    (t.repetitionWith size).ids.Perm (t.id :: t.sequenceId :: t.leafId :: t.sizeId :: idsOf t.others) := by
  rw [repetitionWith, ids_repetition, sequenceWith, ids_sequence]
  exact ((ids_childrenWith h).cons _).cons _

theorem ids_size : (Variable.relation t.size).ids = [t.sizeId] :=
  ids_relation _

theorem ids_sizeLeaf : t.sizeLeaf.ids = [t.sizeId] :=
  ids_data _ _ _ _

theorem mem_preorder {size v : Variable} :
    v ∈ (t.repetitionWith size).preorder ↔ v = t.repetitionWith size ∨ v = t.sequenceWith size ∨ v = t.leaf ∨
      v ∈ size.preorder ∨ v ∈ preorderAll t.others := by
  have children : v ∈ preorderAll (t.childrenWith size) ↔
      v = t.leaf ∨ v ∈ size.preorder ∨ v ∈ preorderAll t.others := by
    have leaf : v ∈ t.leaf.preorder ↔ v = t.leaf := List.mem_singleton
    unfold childrenWith others
    split <;> simp only [preorderAll_eq, List.flatMap_append, List.flatMap_cons, List.mem_append, leaf] <;> tauto
  rw [repetitionWith, preorder, List.mem_cons, sequenceWith, preorder, List.mem_cons, children]

namespace IsBuilt

variable (hb : t.IsBuilt)

include hb

theorem nodup_ids : (t.id :: t.sequenceId :: t.leafId :: t.sizeId :: idsOf t.others).Nodup :=
  (ids_repetitionWith ids_size).nodup_iff.mp hb.nodup

theorem leaf_ne_size : t.leafId ≠ t.sizeId := by
  have h := hb.nodup_ids
  simp only [List.nodup_cons, List.mem_cons, not_or] at h
  exact h.2.2.1.1

theorem leaf_notMem : t.leafId ∉ idsOf t.others := by
  have h := hb.nodup_ids
  simp only [List.nodup_cons, List.mem_cons, not_or] at h
  exact h.2.2.1.2

theorem size_notMem : t.sizeId ∉ idsOf t.others := by
  have h := hb.nodup_ids
  simp only [List.nodup_cons, List.mem_cons, not_or] at h
  exact h.2.2.2.1

theorem leaf_notMem_before : t.leafId ∉ idsOf t.before := fun hm => hb.leaf_notMem (by
  rw [others, idsOf_append, idsOf_append]
  exact List.mem_append_left _ (List.mem_append_left _ hm))

/-- Neither the leaf nor its size stands within what is between them. -/
theorem notMem_between {i : VarId} (hi : i ∈ [t.leafId, t.sizeId]) : i ∉ idsOf t.between := by
  intro hm
  have other : i ∈ idsOf t.others := by
    rw [others, idsOf_append, idsOf_append]
    exact List.mem_append_left _ (List.mem_append_right _ hm)
  rcases List.mem_cons.mp hi with rfl | hi
  · exact hb.leaf_notMem other
  · exact hb.size_notMem (List.mem_singleton.mp hi ▸ other)

/-- With no relation beside the size, the tree with a leaf in its place is plain. -/
theorem isPlain (free : ∀ r, .relation r ∉ preorderAll t.others) : t.plain.IsPlain := by
  have hn : t.plain.ids.Nodup := (ids_repetitionWith ids_sizeLeaf).nodup_iff.mpr hb.nodup_ids
  refine ⟨fun r hr => ?_, separate_of_nodup hn, fun {id name type scope name' type' scope'} hx hy => ?_,
    fun {id name child count delimiter} h => ?_⟩
  · rcases mem_preorder.mp hr with h | h | h | h | h
    · cases h
    · cases h
    · cases h
    · cases List.mem_singleton.mp h
    · exact free r h
  · cases eq_of_id_of_nodup hn hx hy rfl
    rfl
  · rcases mem_preorder.mp h with h | h | h | h | h
    · cases h
      exact (hb.counted (self_mem_preorder _)).2
    · cases h
    · cases h
    · cases List.mem_singleton.mp h
    · exact (hb.counted (mem_preorder.mpr (.inr (.inr (.inr (.inr h)))))).2

theorem sequence_ne : t.leafId ≠ t.sequenceId ∧ t.sizeId ≠ t.sequenceId := by
  have h := hb.nodup_ids
  simp only [List.nodup_cons, List.mem_cons, not_or] at h
  exact ⟨Ne.symm h.2.1.1, Ne.symm h.2.1.2.1⟩

end IsBuilt

end Tree

/-! ## What is computed -/

section Evaluate

variable {a : Assignment} (hb : t.IsBuilt)

theorem encoded?_eq_some_iff {n : Nat} {bits : BitString} :
    t.encoded? n = some bits ↔
      (DataType.integer (.full t.format)).write (.int (Relation.sizeOf t.scale n)) = .ok bits := by
  unfold encoded?
  cases (DataType.integer (.full t.format)).write (.int (Relation.sizeOf t.scale n)) with
  | error e => simp [Except.toOption]
  | ok b => simp [Except.toOption]

/-- A size is written in the format of its integer. -/
theorem accepts_of_encoded? {n : Nat} {bits : BitString} (h : t.encoded? n = some bits) :
    (DataType.integer (.full t.format)).accepts bits = true :=
  DataType.accepts_of_write (encoded?_eq_some_iff.mp h)

include hb

theorem targetsLength?_size (own? : Option Nat) : t.size.targetsLength? a own? = a.targetLength? t.leafId := by
  unfold Relation.targetsLength?
  rw [show t.size.targets = [t.leafId] from rfl, List.mapM_cons,
    if_neg (show t.leafId ≠ t.size.id from hb.leaf_ne_size)]
  cases a.targetLength? t.leafId with
  | none => rfl
  | some n => rfl

theorem evaluate_of_some {n : Nat} (h : a.targetLength? t.leafId = some n) :
    t.size.evaluate a = t.size.writeInt (Relation.sizeOf t.scale n) := by
  unfold Relation.evaluate
  rw [show t.size.rule = .size t.scale from rfl]
  dsimp only
  rw [targetsLength?_size hb, h]

theorem evaluate_of_none (h : a.targetLength? t.leafId = none) : t.size.evaluate a = .ok .waiting := by
  unfold Relation.evaluate
  rw [show t.size.rule = .size t.scale from rfl]
  dsimp only
  rw [targetsLength?_size hb, h]

theorem evaluate_eq_ready_iff {bits : BitString} :
    t.size.evaluate a = .ok (.ready bits) ↔ ∃ n, a.targetLength? t.leafId = some n ∧ t.encoded? n = some bits := by
  cases h : a.targetLength? t.leafId with
  | none => simp [evaluate_of_none hb h]
  | some n =>
    simp only [evaluate_of_some hb h, Option.some.injEq, exists_eq_left', encoded?_eq_some_iff, Relation.writeInt]
    rw [show t.size.type = .integer (.full t.format) from rfl]
    split <;> simp_all

theorem evaluate_eq_waiting_iff : t.size.evaluate a = .ok .waiting ↔ a.targetLength? t.leafId = none := by
  cases h : a.targetLength? t.leafId with
  | none => simp [evaluate_of_none hb h]
  | some n =>
    rw [evaluate_of_some hb h, Relation.writeInt]
    split <;> simp

theorem computes_iff {bits : BitString} :
    t.size.Computes a bits ↔ ∃ n, a.targetLength? t.leafId = some n ∧ t.encoded? n = some bits := by
  rw [← evaluate_eq_ready_iff hb]
  constructor
  · rintro (h | ⟨n, h, -⟩)
    · exact h
    · cases ht : a.targetLength? t.leafId with
      | none =>
        rw [evaluate_of_none hb ht] at h
        cases h
      | some total =>
        rw [evaluate_of_some hb ht, Relation.writeInt] at h
        split at h <;> cases h
  · exact Or.inl

/-- A size that was read waits on as long as nothing is known of the leaf. -/
theorem agrees?_of_none (h : a.targetLength? t.leafId = none) : t.size.agrees? a = none := by
  unfold Relation.agrees?
  rw [evaluate_of_none hb h]

/-- A size that was read is compared as soon as something is known of the leaf. -/
theorem agrees?_of_some {n : Nat} (h : a.targetLength? t.leafId = some n) {bits : BitString}
    (hc : a.cell? t.sizeId = some (.known bits)) :
    t.size.agrees? a = some (decide (t.encoded? n = some bits)) := by
  have cell : (a.cell? t.size.id).bind Cell.bits? = some bits := by
    rw [show t.size.id = t.sizeId from rfl, hc]
    rfl
  unfold Relation.agrees?
  dsimp only
  rw [evaluate_of_some hb h, Relation.writeInt, cell, show t.size.type = .integer (.full t.format) from rfl]
  cases hw : (DataType.integer (.full t.format)).write (.int (Relation.sizeOf t.scale n)) with
  | error e => simp [encoded?_eq_some_iff, hw]
  | ok expected =>
    simp only [encoded?_eq_some_iff, hw, Except.ok.injEq]
    by_cases he : expected = bits
    · simp [he]
    · simp [he, Ne.symm he]

end Evaluate

/-! ## Sizes of instances -/

theorem sizes_eq_true_iff {length? : Option Nat} {d : Derivation} :
    t.sizes length? d = true ↔ ∃ n bits, length? = some n ∧ t.encoded? n = some bits ∧ t.bits? d = some bits := by
  unfold sizes
  rw [Option.any_eq_true]
  simp only [beq_iff_eq, Option.bind_eq_some_iff]
  constructor
  · rintro ⟨bits, hb, n, hn, he⟩
    exact ⟨n, bits, hn, he, hb⟩
  · rintro ⟨n, bits, hn, he, hb⟩
    exact ⟨bits, hb, n, hn, he⟩

/-- Where the leaf stands first, the sizes computed are those of the own leaf. -/
theorem follows_of_leafFirst (h : t.leafFirst = true) (last? : Option Nat) (parts : List Derivation) :
    t.follows last? parts = parts.all t.owns := by
  induction parts generalizing last? with
  | nil => rfl
  | cons d rest ih => rw [follows, ih, agrees, if_pos h, List.all_cons, owns]

/-- Of sizes that are those of the own leaf, those are computed that do not differ from the ones before. -/
theorem follows_iff_of_sizeFirst (h : t.leafFirst = false) (last? : Option Nat) {parts : List Derivation}
    (own : ∀ d ∈ parts, t.owns d = true) :
    t.follows last? parts = true ↔
      (∀ n ∈ last?, ∀ d ∈ parts, t.encoded? n = t.bits? d) ∧ ∀ d ∈ parts, ∀ e ∈ parts, t.bits? d = t.bits? e := by
  have agrees_iff {last? : Option Nat} {d : Derivation} (hd : t.owns d = true) :
      t.agrees last? d = true ↔ ∀ n ∈ last?, t.encoded? n = t.bits? d := by
    rw [agrees, if_neg (by rw [h]; exact Bool.false_ne_true)]
    obtain ⟨_, bits, -, -, hb⟩ := sizes_eq_true_iff.mp hd
    cases last? with
    | none =>
      rw [Option.none_or]
      exact ⟨fun _ n hn => absurd hn (Option.not_mem_none n), fun _ => hd⟩
    | some n => simp [sizes_eq_true_iff, hb]
  induction parts generalizing last? with
  | nil => simp [follows]
  | cons d rest ih =>
    obtain ⟨hd, hrest⟩ := List.forall_mem_cons.mp own
    obtain ⟨n, bits, hn, he, hb⟩ := sizes_eq_true_iff.mp hd
    have others := ih (some n) hrest
    simp only [follows, Bool.and_eq_true, agrees_iff hd, others, hn, List.forall_mem_cons, Option.mem_some_iff,
      forall_eq', he, hb, true_and]
    constructor
    · rintro ⟨hlast, hnext, hsame⟩
      refine ⟨fun m hm => ⟨hlast m hm, fun e hr => (hlast m hm).trans (hnext e hr)⟩, hnext, fun e hr => ?_⟩
      exact ⟨(hnext e hr).symm, hsame e hr⟩
    · rintro ⟨hlast, hnext, hsame⟩
      exact ⟨fun m hm => (hlast m hm).1, hnext, fun e hr => (hsame e hr).2⟩

end SizedRepetition

end WireGrammar
