import WireGrammar.Proofs.Assignment.Content
import WireGrammar.Proofs.Assignment.Growth

/-!
# What contents mean

A content means its pieces one behind the other, however it was put together: to append is to put bits together and to
add lengths (`flatten_append`, `measure_append`). The newest record of a variable counts (`entry?_after`), so a slot is
read anew after each change. To freeze a content fixes the pieces that have settled: read whenever later, they have the
value that they had (`flatten_freeze`, `measure_freeze`), which is why nothing changes at once
(`flatten_freeze_self`, `measure_freeze_self`), and why a content without slots never changes
(`exists_flatten_of_slots_eq_nil`). All of this together is `contents_stable`.
-/

namespace WireGrammar

/-- A cell from the bits and the length that are given; the length of known bits is their own. -/
def Cell.ofParts (bits? : Option BitString) (length? : Option Nat) : Cell :=
  match bits? with
  | some bits => .known bits
  | none => .awaited length?

@[simp] theorem Cell.bits?_ofParts (bits? : Option BitString) (length? : Option Nat) :
    (ofParts bits? length?).bits? = bits? := by
  cases bits? <;> rfl

@[simp] theorem Cell.length?_ofParts (bits? : Option BitString) (length? : Option Nat) :
    (ofParts bits? length?).length? = (bits?.map BitString.length).or length? := by
  cases bits? <;> cases length? <;> rfl

theorem totalLength_append (xs ys : List Nat) : totalLength (xs ++ ys) = totalLength xs + totalLength ys := by
  induction xs with
  | nil => exact (Nat.zero_add _).symm
  | cons x xs ih =>
    change x + totalLength (xs ++ ys) = x + totalLength xs + totalLength ys
    rw [ih, Nat.add_assoc]

namespace Assignment

/-! ## Changes -/

/-- A step in which an assignment grows. -/
inductive Change where
  | record (id : VarId) (content : Content)
  | setCell (id : VarId) (bits? : Option BitString) (length? : Option Nat)
  | learn (id : VarId) (value : BitString)
  | awaitRelation (r : Relation)
  | endWait (id : VarId)

def Change.apply (a : Assignment) : Change → Assignment
  | record id content => a.record id content
  | setCell id bits? length? => a.setCell id (.ofParts bits? length?)
  | learn id value => a.learn id value
  | awaitRelation r => a.awaitRelation r
  | endWait id => a.endWait id

/-- What a change records for a variable. -/
def Change.recorded? (id : VarId) : Change → Option Entry
  | record other content => if id = other then some (.content content) else none
  | setCell other bits? length? => if id = other then some (.cell (.ofParts bits? length?)) else none
  | learn .. | awaitRelation _ | endWait _ => none

/-- The assignment behind changes in order. -/
def after (a : Assignment) (changes : List Change) : Assignment :=
  changes.foldl Change.apply a

variable {a b : Assignment} {c d : Content}

theorem entry?_apply (a : Assignment) (change : Change) (id : VarId) :
    entry? (change.apply a) id = (change.recorded? id).or (a.entry? id) := by
  cases change with
  | record other content =>
    change entry? (a.record other content) id = _
    rw [entry?_record, Change.recorded?]
    split <;> rfl
  | setCell other bits? length? =>
    change entry? (a.setCell other _) id = _
    rw [entry?_setCell, Change.recorded?]
    split <;> rfl
  | learn | endWait => rfl
  | awaitRelation r =>
    change entry? (a.awaitRelation r) id = _
    unfold entry?
    rw [entries_awaitRelation]
    rfl

/-- The newest record of a variable counts. -/
theorem entry?_after (a : Assignment) (changes : List Change) (id : VarId) :
    entry? (a.after changes) id = (changes.reverse.findSome? (Change.recorded? id)).or (a.entry? id) := by
  induction changes generalizing a with
  | nil => rfl
  | cons change changes ih =>
    rw [after, List.foldl_cons, ← after, ih, entry?_apply, List.reverse_cons, List.findSome?_append,
      List.findSome?_singleton, Option.or_assoc]

/-! ## Contents put together -/

/-- How a content is cut into pieces does not matter for its bits. -/
theorem flatten_of_atoms (h : c.atoms = d.atoms) (exclude : Option VarId) : a.flatten c exclude = a.flatten d exclude :=
  Option.ext fun _ => by rw [flatten_eq_some_iff, flatten_eq_some_iff, h]

theorem measure_of_atoms (h : c.atoms = d.atoms) : a.measure c = a.measure d :=
  Option.ext fun _ => by rw [measure_eq_some_iff, measure_eq_some_iff, h]

/-- Behind one another the pieces of two contents make the same content as one appended to the other. -/
theorem atoms_append_eq (c d : Content) : (c.append d).atoms = Content.atoms ⟨c.chunks ++ d.chunks⟩ :=
  (Content.atoms_append c d).trans List.flatMap_append.symm

/-- Pieces that are read and then combined can be combined in two parts, if all of them can be read. -/
theorem combine_mapM_append {α : Type} {combine : List α → α} {op : α → α → α}
    (h : ∀ xs ys, combine (xs ++ ys) = op (combine xs) (combine ys)) (read : Chunk → Option α)
    (front back : List Chunk) :
    combine <$> (front ++ back).mapM read =
      do return op (← combine <$> front.mapM read) (← combine <$> back.mapM read) := by
  rw [List.mapM_append]
  cases front.mapM read with
  | none => rfl
  | some xs =>
    cases back.mapM read with
    | none => rfl
    | some ys => exact congrArg some (h xs ys)

theorem flatten_append (a : Assignment) (c d : Content) (exclude : Option VarId) :
    a.flatten (c.append d) exclude = do return (← a.flatten c exclude) ++ (← a.flatten d exclude) :=
  (flatten_of_atoms (atoms_append_eq c d) exclude).trans (combine_mapM_append BitString.concat_append _ _ _)

theorem measure_append (a : Assignment) (c d : Content) :
    a.measure (c.append d) = do return (← a.measure c) + (← a.measure d) :=
  (measure_of_atoms (atoms_append_eq c d)).trans (combine_mapM_append totalLength_append _ _ _)

/-! ## Frozen contents -/

/-- The bits of a piece that has settled: it holds them itself, or its relation waits no longer and has them. -/
def settled? (a : Assignment) : Chunk → Option BitString
  | .bits bits => some bits
  | .slot id => if a.isPending id then none else (a.cell? id).bind Cell.bits?

/-- A piece with the bits in place if it has settled. -/
def settleChunk (a : Assignment) (chunk : Chunk) : Chunk :=
  (a.settled? chunk).elim chunk .bits

theorem atoms_settleChunk (a : Assignment) (chunk : Chunk) :
    (a.settleChunk chunk).atoms = chunk.atoms.flatMap a.settleAtom := by
  cases chunk with
  | bits bits => exact (settleAtom_ofBits bits).symm
  | slot id =>
    simp only [settleChunk, settled?, Chunk.atoms, List.flatMap_singleton, settleAtom]
    cases a.isPending id with
    | true => rfl
    | false =>
      cases (a.cell? id).bind Cell.bits? with
      | none => rfl
      | some bits => rfl

theorem atoms_freeze_eq (a : Assignment) (c : Content) :
    (a.freeze c).atoms = Content.atoms ⟨c.chunks.map a.settleChunk⟩ := by
  rw [atoms_freeze, Content.atoms, Content.atoms, List.flatMap_assoc, List.flatMap_map]
  exact List.flatMap_congr fun chunk _ => (atoms_settleChunk a chunk).symm

/-- What has not settled stays a slot, and nothing else does. -/
theorem slots_freeze_eq (a : Assignment) (c : Content) :
    (a.freeze c).slots = c.slots.filter fun id => (a.settled? (.slot id)).isNone := by
  rw [Content.slots_eq, atoms_freeze_eq, ← Content.slots_eq, Content.slots, Content.slots, List.filterMap_map,
    List.filter_filterMap]
  congr 1
  funext chunk
  cases chunk with
  | bits bits => rfl
  | slot id =>
    simp only [Function.comp_apply, settleChunk]
    cases h : a.settled? (.slot id) <;> simp [Option.filter, h]

/-- In any assignment, a piece that had settled reads as it did, and another one as it reads there. -/
theorem chunkBits?_settleChunk (a b : Assignment) (exclude : Option VarId) (chunk : Chunk) :
    b.chunkBits? exclude (a.settleChunk chunk) = (a.settled? chunk).or (b.chunkBits? exclude chunk) := by
  unfold settleChunk
  cases a.settled? chunk <;> rfl

theorem chunkLength?_settleChunk (a b : Assignment) (chunk : Chunk) :
    b.chunkLength? (a.settleChunk chunk) =
      ((a.settled? chunk).map BitString.length).or (b.chunkLength? chunk) := by
  unfold settleChunk
  cases a.settled? chunk <;> rfl

/-- Read in any assignment, a frozen content has the bits that had settled, and the others as they are there. -/
theorem flatten_freeze (a b : Assignment) (c : Content) (exclude : Option VarId) :
    b.flatten (a.freeze c) exclude =
      BitString.concat <$> c.chunks.mapM fun chunk => (a.settled? chunk).or (b.chunkBits? exclude chunk) := by
  rw [flatten_of_atoms (atoms_freeze_eq a c), flatten, List.mapM_map]
  simp only [Function.comp_def, chunkBits?_settleChunk]

theorem measure_freeze (a b : Assignment) (c : Content) :
    b.measure (a.freeze c) = totalLength <$> c.chunks.mapM fun chunk =>
      ((a.settled? chunk).map BitString.length).or (b.chunkLength? chunk) := by
  rw [measure_of_atoms (atoms_freeze_eq a c), measure, List.mapM_map]
  simp only [Function.comp_def, chunkLength?_settleChunk]

/-- What has settled is what is read. -/
theorem chunkBits?_of_settled {chunk : Chunk} {bits : BitString} (h : a.settled? chunk = some bits) :
    a.chunkBits? none chunk = some bits := by
  cases chunk with
  | bits own => exact h
  | slot id =>
    rw [settled?] at h
    split at h
    next => cases h
    next => exact h

theorem chunkLength?_of_settled {chunk : Chunk} {bits : BitString} (h : a.settled? chunk = some bits) :
    a.chunkLength? chunk = some bits.length := by
  cases chunk with
  | bits own =>
    cases h
    rfl
  | slot id =>
    obtain ⟨cell, hcell, hbits⟩ := Option.bind_eq_some_iff.mp (chunkBits?_of_settled h)
    rw [chunkLength?, hcell]
    cases cell with
    | known known =>
      cases hbits
      rfl
    | awaited length? => cases hbits

theorem settled?_or_chunkBits? (a : Assignment) (chunk : Chunk) :
    (a.settled? chunk).or (a.chunkBits? none chunk) = a.chunkBits? none chunk := by
  cases h : a.settled? chunk with
  | none => rfl
  | some bits => exact (chunkBits?_of_settled h).symm

theorem settled?_or_chunkLength? (a : Assignment) (chunk : Chunk) :
    ((a.settled? chunk).map BitString.length).or (a.chunkLength? chunk) = a.chunkLength? chunk := by
  cases h : a.settled? chunk with
  | none => rfl
  | some bits => exact (chunkLength?_of_settled h).symm

theorem flatten_freeze_self (a : Assignment) (c : Content) : a.flatten (a.freeze c) none = a.flatten c none := by
  rw [flatten_freeze, flatten]
  simp only [settled?_or_chunkBits?]

theorem measure_freeze_self (a : Assignment) (c : Content) : a.measure (a.freeze c) = a.measure c := by
  rw [measure_freeze, measure]
  simp only [settled?_or_chunkLength?]

/-- A content without slots has its bits in every assignment. -/
theorem exists_flatten_of_slots_eq_nil (h : c.slots = []) :
    ∃ bits, ∀ (b : Assignment) exclude, b.flatten c exclude = some bits ∧ b.measure c = some bits.length := by
  have free (id : VarId) : Atom.slot id ∉ c.atoms := by
    rw [← Content.mem_slots, h]
    exact List.not_mem_nil
  obtain ⟨bits, hbits⟩ := Atom.exists_eq_ofBits free
  exact ⟨bits, fun b exclude => ⟨flatten_of_ofBits hbits exclude, measure_of_ofBits hbits⟩⟩

/--
What a content means lasts. In every assignment, contents put together have the bits and the length of their parts put
together, as far as all of them are known. What has bits has the length of these; a cell that is set has the length of
its bits, whatever length is given with them. To freeze a content changes neither its bits nor its length, and leaves as
slots those that have not settled. After any further changes, where the newest record of each variable counts, the
pieces that had settled are read as they were and only the others anew, so a frozen content without slots keeps its bits
and its length.
-/
theorem contents_stable (a : Assignment) (c d : Content) :
    -- contents put together
    (∀ exclude, a.flatten (c.append d) exclude = do return (← a.flatten c exclude) ++ (← a.flatten d exclude)) ∧
    a.measure (c.append d) = (do return (← a.measure c) + (← a.measure d)) ∧
    -- lengths of known bits
    (∀ id bits, a.bits? id = some bits → a.length? id = some bits.length) ∧
    (∀ id bits? length?, (a.after [.setCell id bits? length?]).bits? id = bits? ∧
      (a.after [.setCell id bits? length?]).length? id = (bits?.map BitString.length).or length?) ∧
    -- frozen contents
    a.flatten (a.freeze c) none = a.flatten c none ∧
    a.measure (a.freeze c) = a.measure c ∧
    (a.freeze c).slots = c.slots.filter (fun id => (a.settled? (.slot id)).isNone) ∧
    -- later changes
    (∀ later id, entry? (a.after later) id =
      (later.reverse.findSome? (Change.recorded? id)).or (a.entry? id)) ∧
    (∀ chunk bits, a.settled? chunk = some bits → a.chunkBits? none chunk = some bits) ∧
    (∀ later exclude, (a.after later).flatten (a.freeze c) exclude = BitString.concat <$>
      c.chunks.mapM fun chunk => (a.settled? chunk).or ((a.after later).chunkBits? exclude chunk)) ∧
    ((a.freeze c).slots = [] → ∃ bits, a.flatten c none = some bits ∧ ∀ later exclude,
      (a.after later).flatten (a.freeze c) exclude = some bits ∧
        (a.after later).measure (a.freeze c) = some bits.length) := by
  refine ⟨flatten_append a c d, measure_append a c d, fun id bits => length?_of_bits?, ?_, flatten_freeze_self a c,
    measure_freeze_self a c, slots_freeze_eq a c, entry?_after a, fun chunk bits => chunkBits?_of_settled,
    fun later => flatten_freeze a (a.after later) c, ?_⟩
  · intro id bits? length?
    have newest : entry? (a.after [.setCell id bits? length?]) id = some (.cell (.ofParts bits? length?)) := by
      simp [entry?_after, Change.recorded?]
    rw [Assignment.bits?, Assignment.length?, newest]
    exact ⟨Cell.bits?_ofParts _ _, Cell.length?_ofParts _ _⟩
  · intro h
    obtain ⟨bits, hbits⟩ := exists_flatten_of_slots_eq_nil h
    exact ⟨bits, flatten_freeze_self a c ▸ (hbits a none).1, fun later => hbits (a.after later)⟩

/-- A text that ends in a size, frozen when the size has settled, does not follow a later size. -/
theorem contents_stable_rebound :
    let size : VarId := .ofRoot 0
    let text : VarId := .ofRoot 1
    let content := (Content.ofBits (.ofBytes [0x78])).append (.slot size)
    let a := empty.after
      [.setCell size none (some 8), .record text content, .setCell size (some (.ofBytes [0x79])) none]
    let later := a.after [.setCell size (some (.ofBytes [0x7a])) none]
    (a.bits? text = some (.ofBytes [0x78, 0x79]) ∧ a.length? text = some 16) ∧
      (a.settled? (.slot size) = some (.ofBytes [0x79]) ∧
        a.chunkBits? none (.slot size) = some (.ofBytes [0x79])) ∧
      (a.freeze content).slots = [] ∧ later.flatten (a.freeze content) none = some (.ofBytes [0x78, 0x79]) ∧
      later.flatten content none = some (.ofBytes [0x78, 0x7a]) := by
  intro size text content a later
  obtain ⟨-, -, lengths, -, -, -, -, -, settled, -, lasting⟩ := contents_stable a content content
  have known : a.bits? text = some (.ofBytes [0x78, 0x79]) := by decide
  have value : a.settled? (.slot size) = some (.ofBytes [0x79]) := by decide
  have full : (a.freeze content).slots = [] := by decide
  obtain ⟨bits, now, always⟩ := lasting full
  have same : bits = .ofBytes [0x78, 0x79] := Option.some.inj (now.symm.trans (by decide))
  exact ⟨⟨known, lengths text _ known⟩, ⟨value, settled _ _ value⟩, full, same ▸ (always _ none).1, by decide⟩

end Assignment

end WireGrammar
