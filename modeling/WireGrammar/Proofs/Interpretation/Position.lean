import WireGrammar.Proofs.Bits.Sequence
import WireGrammar.Proofs.Interpretation.Steps

/-!
# Interpretation does not depend on the position

Offsets run through a whole interpretation: each field starts where the contents before it end, and cutting and
comparing take whole bytes or single bits as the offset falls. Bits in front of the data move all offsets by their
number and change nothing else (`Reading.interpret_moved`, `interpretAll_moved`): the same assignments are found in
the same order (`interpret_of_append`). So interpretation at an offset looks at nothing but the bits from there on
(`interpret_eq_interpret_rest`).
-/

namespace WireGrammar

/-! ## Bits in front -/

namespace BitString

variable (w d : BitString)

theorem slice_append_length_add (start stop : Nat) :
    (w ++ d).slice (w.length + start) (w.length + stop) = d.slice start stop := by
  apply toList_injective
  rw [toList_slice, toList_slice, toList_append, ← length_toList w, List.take_length_add_append,
    List.drop_length_add_append]

/-- Bits occur behind other bits where they occur without them, whether whole bytes are compared or single bits. -/
theorem matchesAt_append_length_add (b : BitString) (offset : Nat) :
    b.matchesAt (w ++ d) (w.length + offset) = b.matchesAt d offset := by
  rw [Bool.eq_iff_iff, matchesAt_iff, matchesAt_iff, Nat.add_assoc, slice_append_length_add, length_append]
  apply and_congr_left
  intro _
  omega

/-- Data are what stands before an offset and what stands from there on. -/
theorem slice_append_rest {offset : Nat} (h : offset ≤ d.length) : d.slice 0 offset ++ d.slice offset d.length = d := by
  rw [slice_append_slice d (Nat.zero_le offset) h, slice_length]

end BitString

namespace Reading

variable (w : BitString) (reading : Reading) (a : Assignment) (offset : Nat)

/-- The reading of the same data behind other bits. -/
def moved : Reading :=
  { reading with data := w ++ reading.data }

@[simp] theorem remaining_moved : (reading.moved w).remaining (w.length + offset) = reading.remaining offset := by
  show (w ++ reading.data).length - (w.length + offset) = reading.data.length - offset
  rw [BitString.length_append]
  omega

@[simp] theorem bitsAt_moved (length : Nat) :
    (reading.moved w).bitsAt (w.length + offset) length = reading.bitsAt offset length := by
  show (w ++ reading.data).slice (w.length + offset) (w.length + offset + length) = _
  rw [Nat.add_assoc, BitString.slice_append_length_add]
  rfl

@[simp] theorem matchesAt_moved (b : BitString) :
    b.matchesAt (reading.moved w).data (w.length + offset) = b.matchesAt reading.data offset :=
  BitString.matchesAt_append_length_add w reading.data b offset

@[simp] theorem counts_moved (child : Variable) (count : RepeatCount) (delimiter : Option BitString) :
    (reading.moved w).counts child count delimiter (w.length + offset) =
      reading.counts child count delimiter offset := by
  simp only [counts, remaining_moved]
  rfl

/-! ## Leaves -/

theorem interpretData_moved (id : VarId) (type : DataType) (scope : Scope) :
    (reading.moved w).interpretData id type scope a (w.length + offset) =
      reading.interpretData id type scope a offset := by
  simp only [interpretData_eq, matchesAt_moved, remaining_moved, bitsAt_moved]

theorem interpretRelation_moved (r : Relation) :
    (reading.moved w).interpretRelation r a (w.length + offset) = reading.interpretRelation r a offset := by
  simp only [interpretRelation, matchesAt_moved, remaining_moved, bitsAt_moved]

/-! ## Nodes -/

section Nodes

/-- A variable has the same interpretations in the same order at the shifted offsets. -/
def Moves (v : Variable) : Prop :=
  ∀ a offset, ((reading.moved w).interpret v a (w.length + offset)).toList = (reading.interpret v a offset).toList

variable {w reading}

theorem interpretAny_moved (id : VarId) {children : List Variable} (one : ∀ c ∈ children, Moves w reading c) :
    ((reading.moved w).interpretAny id children a (w.length + offset)).toList =
      (reading.interpretAny id children a offset).toList := by
  induction children with
  | nil => rfl
  | cons child rest ih =>
    rw [toList_interpretAny_cons, toList_interpretAny_cons, one child List.mem_cons_self a offset,
      ih fun c hc => one c (List.mem_cons_of_mem child hc)]

/-- The offset behind the last child moves like the one before the first. -/
theorem interpretAll_moved_of {children : List Variable} (one : ∀ c ∈ children, Moves w reading c) :
    ((reading.moved w).interpretAll children a (w.length + offset)).toList =
      (reading.interpretAll children a offset).toList.map fun p => (p.1, w.length + p.2) := by
  induction children generalizing a offset with
  | nil => rw [toList_interpretAll_nil, toList_interpretAll_nil, List.map_singleton]
  | cons child rest ih =>
    rw [toList_interpretAll_cons, toList_interpretAll_cons, one child List.mem_cons_self a offset, List.map_flatMap]
    apply List.flatMap_congr
    intro b _
    rw [Nat.add_assoc]
    exact ih b (offset + b.consumed child) fun c hc => one c (List.mem_cons_of_mem child hc)

theorem passDelimiter?_moved (delimiter : Option BitString) (isFirst : Bool) (content : Content) :
    (reading.moved w).passDelimiter? delimiter isFirst (w.length + offset) content =
      (reading.passDelimiter? delimiter isFirst offset content).map fun q => (w.length + q.1, q.2) := by
  unfold passDelimiter?
  split
  next d =>
    rw [matchesAt_moved]
    split
    · rw [Option.map_some, Nat.add_assoc]
    · rfl
  next => rfl

/-- Each instance starts where the contents before it end, so all of them move alike. -/
theorem instances_moved_of {child : Variable} (one : Moves w reading child) (delimiter : Option BitString) (k : Nat)
    (isFirst : Bool) (content : Content) :
    ((reading.moved w).instances ((reading.moved w).interpret child) child delimiter k isFirst a (w.length + offset)
      content).toList =
      (reading.instances (reading.interpret child) child delimiter k isFirst a offset content).toList := by
  induction k generalizing a offset isFirst content with
  | zero => rw [toList_instances_zero, toList_instances_zero]
  | succ k ih =>
    rw [toList_instances_succ, toList_instances_succ, passDelimiter?_moved]
    cases reading.passDelimiter? delimiter isFirst offset content with
    | none => rfl
    | some q =>
      obtain ⟨start, before⟩ := q
      show List.flatMap _ ((reading.moved w).interpret child a (w.length + start)).toList = List.flatMap _ _
      rw [one a start]
      apply List.flatMap_congr
      intro b _
      unfold afterInstance
      split
      next => rfl
      next => rfl
      next c _ _ =>
        rw [Nat.add_assoc]
        exact ih b (start + b.consumed child) false (before.append (b.freeze c))

end Nodes

/-! ## Trees -/

/-- Bits in front of the data move the offset of an interpretation and change nothing else. -/
theorem interpret_moved (v : Variable) : Moves w reading v := by
  induction v using Variable.induct with
  | data id name type scope =>
    intro a offset
    rw [interpret, interpret, interpretData_moved]
  | relation r =>
    intro a offset
    rw [interpret, interpret, interpretRelation_moved]
  | choice id name children ih =>
    intro a offset
    rw [interpret, interpret]
    exact interpretAny_moved a offset id ih
  | sequence id name children ih =>
    intro a offset
    rw [interpret, interpret, Choices.toList_filterMap, Choices.toList_filterMap, interpretAll_moved_of a offset ih,
      List.filterMap_map]
    rfl
  | repetition id name child count delimiter ih =>
    intro a offset
    rw [interpret, interpret, Choices.toList_flatMap, Choices.toList_flatMap, counts_moved]
    apply List.flatMap_congr
    intro k _
    rw [Choices.toList_filterMap, Choices.toList_filterMap, instances_moved_of a offset ih]

/-- The fields of a message are interpreted alike, and end at the shifted offset. -/
theorem interpretAll_moved (fields : List Variable) :
    ((reading.moved w).interpretAll fields a (w.length + offset)).toList =
      (reading.interpretAll fields a offset).toList.map fun p => (p.1, w.length + p.2) :=
  interpretAll_moved_of a offset fun v _ => interpret_moved w reading v

/-- Interpretation at an offset looks at nothing but the bits from there on. -/
theorem interpret_eq_interpret_rest (v : Variable) {offset : Nat} (h : offset ≤ reading.data.length) :
    (reading.interpret v a offset).toList =
      (interpret { reading with data := reading.data.slice offset reading.data.length } v a 0).toList := by
  have front : (reading.data.slice 0 offset).length = offset := by
    rw [BitString.length_slice_of_le _ (Nat.zero_le offset) h, Nat.sub_zero]
  have shifted := interpret_moved (reading.data.slice 0 offset)
    { reading with data := reading.data.slice offset reading.data.length } v a 0
  rw [moved, BitString.slice_append_rest reading.data h, front, Nat.add_zero] at shifted
  exact shifted

/--
A variable is interpreted behind any bits as it is without them: the assignments found are the same ones, with all that
they record, learn and let wait, in the same order.
-/
theorem interpret_of_append (w d : BitString) (maxRepeat : Nat) (v : Variable) (a : Assignment) (offset : Nat) :
    ((of (w ++ d) maxRepeat).interpret v a (w.length + offset)).toList =
      ((of d maxRepeat).interpret v a offset).toList :=
  interpret_moved w (of d maxRepeat) v a offset

end Reading

end WireGrammar
