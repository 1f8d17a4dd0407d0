import WireGrammar.Assignment
import WireGrammar.Proofs.Bits.Sequence

/-!
# Contents bit by bit

How a content is cut into pieces does not matter: neighbouring bits are one piece, and empty bits none. What matters is
the sequence of its bits and slots, `Content.atoms`. In this view to append is to append (`atoms_append`), to freeze is
to put bits in place of slots (`atoms_freeze`), and a content reads as its atoms with the values of the slots filled in
(`flatten_eq_some_iff`, `measure_eq_some_iff`).
-/

namespace WireGrammar

/-- A bit, or the place of a relation's value. -/
inductive Atom where
  | bit (bit : Bool)
  | slot (relation : VarId)
  deriving DecidableEq

namespace Atom

/-- The atoms of known bits. -/
def ofBits (bits : BitString) : List Atom :=
  bits.toList.map bit

/-- The bits of an atom under values for the relations. -/
def bits (value : VarId → BitString) : Atom → List Bool
  | bit b => [b]
  | slot id => (value id).toList

/-- The bits of a sequence of atoms under values for the relations. -/
def fill (value : VarId → BitString) (atoms : List Atom) : BitString :=
  .ofList (atoms.flatMap (bits value))

/-- The length of a sequence of atoms under lengths for the relations. -/
def size (length : VarId → Nat) : List Atom → Nat
  | [] => 0
  | bit _ :: rest => 1 + size length rest
  | slot id :: rest => length id + size length rest

/-- The relation whose value an atom is the place of. -/
def relation? : Atom → Option VarId
  | bit _ => none
  | slot id => some id

variable (value : VarId → BitString)

@[simp] theorem ofBits_empty : ofBits .empty = [] := rfl

@[simp] theorem ofBits_append (a b : BitString) : ofBits (a ++ b) = ofBits a ++ ofBits b := by
  simp [ofBits]

theorem slot_notMem_ofBits {id : VarId} {b : BitString} : slot id ∉ ofBits b := by
  simp [ofBits]

theorem ofBits_injective {a b : BitString} (h : ofBits a = ofBits b) : a = b :=
  BitString.toList_injective (List.map_injective_iff.mpr (fun _ _ e => by cases e; rfl) h)

/-- Atoms without a slot are bits. -/
theorem exists_eq_ofBits {xs : List Atom} (h : ∀ id, slot id ∉ xs) : ∃ b, xs = ofBits b := by
  induction xs with
  | nil => exact ⟨.empty, rfl⟩
  | cons x xs ih =>
    obtain ⟨b, rfl⟩ := ih fun id hm => h id (List.mem_cons_of_mem _ hm)
    cases x with
    | bit x => exact ⟨.ofList (x :: b.toList), by simp [ofBits]⟩
    | slot id => exact absurd List.mem_cons_self (h id)

@[simp] theorem fill_nil : fill value [] = .empty := rfl

@[simp] theorem fill_append (xs ys : List Atom) : fill value (xs ++ ys) = fill value xs ++ fill value ys :=
  BitString.toList_injective (by simp [fill])

@[simp] theorem fill_ofBits (b : BitString) : fill value (ofBits b) = b := by
  apply BitString.toList_injective
  simp only [fill, ofBits, BitString.toList_ofList, List.flatMap_map, bits]
  exact List.flatMap_singleton' _

@[simp] theorem fill_slot (id : VarId) : fill value [slot id] = value id := by
  simp [fill, bits]

theorem fill_cons (x : Atom) (xs : List Atom) : fill value (x :: xs) = fill value [x] ++ fill value xs :=
  fill_append value [x] xs

theorem fill_slot_cons (id : VarId) (xs : List Atom) : fill value (slot id :: xs) = value id ++ fill value xs := by
  rw [fill_cons, fill_slot]

/-- Values matter only for the slots that occur. -/
theorem fill_congr {value value' : VarId → BitString} {atoms : List Atom}
    (h : ∀ id, slot id ∈ atoms → value id = value' id) : fill value atoms = fill value' atoms := by
  induction atoms with
  | nil => rfl
  | cons x xs ih =>
    rw [fill_cons, fill_cons value', ih fun id hid => h id (List.mem_cons_of_mem _ hid)]
    cases x with
    | bit b => rfl
    | slot id => rw [fill_slot, fill_slot, h id List.mem_cons_self]

@[simp] theorem size_append (length : VarId → Nat) (xs ys : List Atom) :
    size length (xs ++ ys) = size length xs + size length ys := by
  induction xs with
  | nil => simp [size]
  | cons x xs ih => cases x <;> simp [size, ih] <;> omega

/-- The length of what is filled in. -/
theorem length_fill (atoms : List Atom) : (fill value atoms).length = size (fun id => (value id).length) atoms := by
  induction atoms with
  | nil => rfl
  | cons x xs ih =>
    rw [fill_cons, BitString.length_append, ih]
    cases x with
    | bit b => simp [size, fill, bits]
    | slot id => simp [size]

theorem size_congr {length length' : VarId → Nat} {atoms : List Atom}
    (h : ∀ id, slot id ∈ atoms → length id = length' id) : size length atoms = size length' atoms := by
  induction atoms with
  | nil => rfl
  | cons x xs ih =>
    have ih := ih fun id hid => h id (List.mem_cons_of_mem _ hid)
    cases x with
    | bit b => simp only [size, ih]
    | slot id => simp only [size, ih, h id List.mem_cons_self]

@[simp] theorem size_ofBits (length : VarId → Nat) (b : BitString) : size length (ofBits b) = b.length := by
  rw [ofBits, ← BitString.length_toList b]
  induction b.toList with
  | nil => rfl
  | cons x xs ih => simp [size, ih]; omega

/-- Some slots are replaced by values that satisfy a condition, and all other atoms are kept. -/
inductive Resolves (value : VarId → BitString → Prop) : List Atom → List Atom → Prop where
  | nil : Resolves value [] []
  | keep (x : Atom) {xs ys : List Atom} (h : Resolves value xs ys) : Resolves value (x :: xs) (x :: ys)
  | fill {id : VarId} {b : BitString} {xs ys : List Atom} (hv : value id b) (h : Resolves value xs ys) :
    Resolves value (slot id :: xs) (ofBits b ++ ys)

namespace Resolves

variable {value value' : VarId → BitString → Prop} {xs ys xs' ys' : List Atom}

theorem refl (xs : List Atom) : Resolves value xs xs := by
  induction xs with
  | nil => exact .nil
  | cons x xs ih => exact .keep x ih

theorem append (h : Resolves value xs ys) (h' : Resolves value xs' ys') : Resolves value (xs ++ xs') (ys ++ ys') := by
  induction h with
  | nil => exact h'
  | keep x _ ih => exact .keep x ih
  | fill hv _ ih =>
    rw [List.append_assoc]
    exact .fill hv ih

theorem mono (h : Resolves value xs ys) (hv : ∀ id b, value id b → value' id b) : Resolves value' xs ys := by
  induction h with
  | nil => exact .nil
  | keep x _ ih => exact .keep x ih
  | fill hb _ ih => exact .fill (hv _ _ hb) ih

/-- Slots replaced by the values that they have read the same. -/
theorem fill_eq {σ : VarId → BitString} (h : Resolves value xs ys) (hv : ∀ id b, value id b → σ id = b) :
    Atom.fill σ xs = Atom.fill σ ys := by
  induction h with
  | nil => rfl
  | keep x _ ih => rw [fill_cons σ x, ih, ← fill_cons σ x]
  | fill hb _ ih => rw [fill_slot_cons, fill_append, fill_ofBits, ih, hv _ _ hb]

/-- Where there is no slot, nothing is replaced. -/
theorem eq_ofBits {b : BitString} (h : Resolves value (ofBits b) ys) : ys = ofBits b := by
  generalize hx : ofBits b = xs at h
  have free : ∀ id, slot id ∉ xs := fun id => hx ▸ slot_notMem_ofBits
  clear hx
  induction h with
  | nil => rfl
  | keep x _ ih => rw [ih fun id hm => free id (List.mem_cons_of_mem _ hm)]
  | fill _ _ _ => exact absurd List.mem_cons_self (free _)

/-- A slot that no value may replace is kept, and no other slot appears. -/
theorem slot_mem (h : Resolves value xs ys) {id : VarId} (hid : slot id ∈ ys) : slot id ∈ xs := by
  induction h with
  | nil => exact hid
  | keep x _ ih =>
    rcases List.mem_cons.mp hid with rfl | hid
    · exact List.mem_cons_self
    · exact List.mem_cons_of_mem _ (ih hid)
  | fill hb _ ih =>
    rcases List.mem_append.mp hid with hid | hid
    · exact absurd hid slot_notMem_ofBits
    · exact List.mem_cons_of_mem _ (ih hid)

end Resolves

end Atom

/-- The atoms of a piece. -/
def Chunk.atoms : Chunk → List Atom
  | .bits b => Atom.ofBits b
  | .slot id => [.slot id]

namespace Content

/-- The bits and slots of a content in order. -/
def atoms (c : Content) : List Atom :=
  c.chunks.flatMap Chunk.atoms

@[simp] theorem atoms_empty : (empty : Content).atoms = [] := rfl

@[simp] theorem atoms_ofBits (b : BitString) : (ofBits b).atoms = Atom.ofBits b := by
  simp [atoms, ofBits, Chunk.atoms]

@[simp] theorem atoms_slot (id : VarId) : (slot id).atoms = [.slot id] := rfl

@[simp] theorem atoms_pushBits (c : Content) (b : BitString) : (c.pushBits b).atoms = c.atoms ++ Atom.ofBits b := by
  unfold pushBits
  split
  next h => simp [BitString.isEmpty_iff.mp h]
  next =>
    split
    next last hl =>
      have hc : c.chunks = c.chunks.dropLast ++ [.bits last] := by
        obtain ⟨h, hlast⟩ := List.getLast?_eq_some_iff.mp hl
        rw [hlast, List.dropLast_concat]
      rw [atoms, atoms, List.flatMap_append]
      conv_rhs => rw [hc, List.flatMap_append]
      simp [Chunk.atoms]
    next => simp [atoms, Chunk.atoms]

@[simp] theorem atoms_pushSlot (c : Content) (id : VarId) : (c.pushSlot id).atoms = c.atoms ++ [.slot id] := by
  simp [atoms, pushSlot, Chunk.atoms]

@[simp] theorem atoms_push (c : Content) (piece : Chunk) : (c.push piece).atoms = c.atoms ++ piece.atoms := by
  cases piece <;> simp [push, Chunk.atoms]

@[simp] theorem atoms_append (c d : Content) : (c.append d).atoms = c.atoms ++ d.atoms := by
  have pieces : ∀ (chunks : List Chunk) (c : Content),
      (chunks.foldl push c).atoms = c.atoms ++ chunks.flatMap Chunk.atoms := by
    intro chunks
    induction chunks with
    | nil => simp
    | cons piece chunks ih => intro c; simp [ih]
  exact pieces d.chunks c

/-- The slots of a content are those among its atoms. -/
theorem slots_eq (c : Content) : c.slots = c.atoms.filterMap Atom.relation? := by
  have bits (b : BitString) : (Atom.ofBits b).filterMap Atom.relation? = [] := by
    simp [Atom.ofBits, Atom.relation?]
  obtain ⟨chunks⟩ := c
  unfold slots atoms
  induction chunks with
  | nil => rfl
  | cons piece chunks ih =>
    rw [List.flatMap_cons, List.filterMap_append, ← ih]
    cases piece with
    | bits b => rw [Chunk.atoms, bits]; rfl
    | slot id => rfl

theorem mem_slots {c : Content} {id : VarId} : id ∈ c.slots ↔ .slot id ∈ c.atoms := by
  rw [slots_eq, List.mem_filterMap]
  constructor
  · rintro ⟨x, hx, hid⟩
    cases x with
    | bit b => cases hid
    | slot id' =>
      cases hid
      exact hx
  · exact fun h => ⟨.slot id, h, rfl⟩

end Content

namespace Assignment

variable {a : Assignment}

/-- The value of a slot; that of the relation `exclude` reads as zeros. -/
def slotBits? (a : Assignment) (exclude : Option VarId) (id : VarId) : Option BitString :=
  a.chunkBits? exclude (.slot id)

/-- The length of a slot. -/
def slotLength? (a : Assignment) (id : VarId) : Option Nat :=
  (a.cell? id).bind Cell.length?

/-- The bits that a slot stands for. -/
def valueOf (a : Assignment) (id : VarId) : BitString :=
  ((a.cell? id).bind Cell.bits?).getD .empty

theorem valueOf_of_known {id : VarId} {bits : BitString} (h : a.cell? id = some (.known bits)) :
    a.valueOf id = bits := by
  rw [valueOf, h]
  rfl

/-- A content has bits when each of its slots has, and these are its atoms with the slots filled in. -/
theorem flatten_eq_some_iff {c : Content} {exclude : Option VarId} {b : BitString} :
    a.flatten c exclude = some b ↔
      (∀ id, Atom.slot id ∈ c.atoms → (a.slotBits? exclude id).isSome) ∧
        b = Atom.fill (fun id => (a.slotBits? exclude id).getD .empty) c.atoms := by
  obtain ⟨chunks⟩ := c
  simp only [flatten, Content.atoms]
  induction chunks generalizing b with
  | nil =>
    constructor
    · rintro ⟨⟩
      exact ⟨fun id h => absurd h List.not_mem_nil, rfl⟩
    · rintro ⟨-, rfl⟩
      rfl
  | cons piece chunks ih =>
    simp only [List.mapM_cons, Option.map_eq_map, Option.map_eq_some_iff, Option.bind_eq_bind, Option.bind_eq_some_iff,
      Option.pure_def, Option.some.injEq] at ih ⊢
    cases piece with
    | bits first =>
      simp only [chunkBits?, Chunk.atoms, List.flatMap_cons, List.mem_append, Atom.slot_notMem_ofBits, false_or,
        Atom.fill_append, Atom.fill_ofBits, Option.some.injEq]
      constructor
      · rintro ⟨_, ⟨_, rfl, parts, hp, rfl⟩, rfl⟩
        obtain ⟨hs, hb⟩ := ih.mp ⟨parts, hp, rfl⟩
        exact ⟨hs, by rw [BitString.concat_cons, ← hb]⟩
      · rintro ⟨hs, rfl⟩
        obtain ⟨parts, hp, hb⟩ := ih.mpr ⟨hs, rfl⟩
        exact ⟨_, ⟨_, rfl, parts, hp, rfl⟩, by rw [BitString.concat_cons, hb]⟩
    | slot id =>
      simp only [Chunk.atoms, List.flatMap_cons, List.singleton_append, List.mem_cons, Atom.fill_slot_cons]
      constructor
      · rintro ⟨_, ⟨first, hf, parts, hp, rfl⟩, rfl⟩
        obtain ⟨hs, hb⟩ := ih.mp ⟨parts, hp, rfl⟩
        have hf : a.slotBits? exclude id = some first := hf
        refine ⟨?_, by rw [BitString.concat_cons, ← hb, hf, Option.getD_some]⟩
        rintro other (h | h)
        · cases h; rw [hf]; rfl
        · exact hs other h
      · rintro ⟨hs, rfl⟩
        obtain ⟨parts, hp, hb⟩ := ih.mpr ⟨fun other h => hs other (Or.inr h), rfl⟩
        obtain ⟨first, hf⟩ := Option.isSome_iff_exists.mp (hs id (Or.inl rfl))
        exact ⟨_, ⟨first, hf, parts, hp, rfl⟩, by rw [BitString.concat_cons, hb, hf, Option.getD_some]⟩

/-- A content has a length when each of its slots has, and it is that of its atoms. -/
theorem measure_eq_some_iff {c : Content} {n : Nat} :
    a.measure c = some n ↔
      (∀ id, Atom.slot id ∈ c.atoms → (a.slotLength? id).isSome) ∧
        n = Atom.size (fun id => (a.slotLength? id).getD 0) c.atoms := by
  obtain ⟨chunks⟩ := c
  simp only [measure, Content.atoms]
  induction chunks generalizing n with
  | nil =>
    constructor
    · rintro ⟨⟩
      exact ⟨fun id h => absurd h List.not_mem_nil, rfl⟩
    · rintro ⟨-, rfl⟩
      rfl
  | cons piece chunks ih =>
    simp only [List.mapM_cons, Option.map_eq_map, Option.map_eq_some_iff, Option.bind_eq_bind, Option.bind_eq_some_iff,
      Option.pure_def, Option.some.injEq] at ih ⊢
    cases piece with
    | bits first =>
      simp only [chunkLength?, Chunk.atoms, List.flatMap_cons, List.mem_append, Atom.slot_notMem_ofBits, false_or,
        Atom.size_append, Atom.size_ofBits, Option.some.injEq]
      constructor
      · rintro ⟨_, ⟨_, rfl, parts, hp, rfl⟩, rfl⟩
        obtain ⟨hs, hb⟩ := ih.mp ⟨parts, hp, rfl⟩
        exact ⟨hs, by rw [← hb]; rfl⟩
      · rintro ⟨hs, rfl⟩
        obtain ⟨parts, hp, hb⟩ := ih.mpr ⟨hs, rfl⟩
        exact ⟨_, ⟨_, rfl, parts, hp, rfl⟩, by rw [← hb]; rfl⟩
    | slot id =>
      simp only [Chunk.atoms, List.flatMap_cons, List.singleton_append, List.mem_cons, Atom.size]
      constructor
      · rintro ⟨_, ⟨first, hf, parts, hp, rfl⟩, rfl⟩
        obtain ⟨hs, hb⟩ := ih.mp ⟨parts, hp, rfl⟩
        have hf : a.slotLength? id = some first := hf
        refine ⟨?_, by rw [← hb, hf]; rfl⟩
        rintro other (h | h)
        · cases h; rw [hf]; rfl
        · exact hs other h
      · rintro ⟨hs, rfl⟩
        obtain ⟨parts, hp, hb⟩ := ih.mpr ⟨fun other h => hs other (Or.inr h), rfl⟩
        obtain ⟨first, hf⟩ := Option.isSome_iff_exists.mp (hs id (Or.inl rfl))
        exact ⟨_, ⟨first, hf, parts, hp, rfl⟩, by rw [← hb, hf]; rfl⟩

/-- What has bits has the length of these. -/
theorem length?_of_bits? {id : VarId} {b : BitString} (h : a.bits? id = some b) : a.length? id = some b.length := by
  unfold bits? at h
  unfold length?
  cases he : a.entry? id with
  | none =>
    rw [he] at h
    cases h
  | some entry =>
    rw [he] at h
    cases entry with
    | cell cell =>
      cases cell with
      | known bits =>
        cases h
        rfl
      | awaited length? => cases h
    | content c =>
      obtain ⟨hs, rfl⟩ := flatten_eq_some_iff.mp h
      have slot {q : VarId} (hq : Atom.slot q ∈ c.atoms) : ∃ bits, a.cell? q = some (.known bits) ∧
          a.slotBits? none q = some bits := by
        obtain ⟨bits, hb⟩ := Option.isSome_iff_exists.mp (hs q hq)
        obtain ⟨cell, hc, hcb⟩ := Option.bind_eq_some_iff.mp hb
        cases cell with
        | known known =>
          cases hcb
          exact ⟨_, hc, hb⟩
        | awaited length? => cases hcb
      refine measure_eq_some_iff.mpr ⟨fun q hq => ?_, ?_⟩
      · obtain ⟨bits, hc, -⟩ := slot hq
        rw [slotLength?, hc]
        rfl
      · rw [Atom.length_fill]
        refine Atom.size_congr fun q hq => ?_
        obtain ⟨bits, hc, hb⟩ := slot hq
        rw [hb, slotLength?, hc]
        rfl

/-- The length of a content depends only on its slots. -/
theorem measure_congr {b : Assignment} {c : Content} (h : ∀ id, Atom.slot id ∈ c.atoms → b.cell? id = a.cell? id) :
    b.measure c = a.measure c := by
  have length {id : VarId} (hid : Atom.slot id ∈ c.atoms) : b.slotLength? id = a.slotLength? id := by
    rw [slotLength?, h id hid, slotLength?]
  refine Option.ext fun n => ?_
  rw [measure_eq_some_iff, measure_eq_some_iff]
  refine and_congr (forall₂_congr fun id hid => by rw [length hid]) ?_
  rw [Atom.size_congr fun id hid => by rw [length hid]]

/-- An atom with the value of its relation in place of a slot, if the relation has settled. -/
def settleAtom (a : Assignment) : Atom → List Atom
  | .bit b => [.bit b]
  | .slot id =>
    match a.isPending id, (a.cell? id).bind Cell.bits? with
    | false, some bits => Atom.ofBits bits
    | _, _ => [.slot id]

theorem settleAtom_ofBits (b : BitString) : (Atom.ofBits b).flatMap a.settleAtom = Atom.ofBits b := by
  simp only [Atom.ofBits, List.flatMap_map, settleAtom]
  exact List.map_eq_flatMap.symm

@[simp] theorem atoms_freeze (c : Content) : (a.freeze c).atoms = c.atoms.flatMap a.settleAtom := by
  have pieces : ∀ (chunks : List Chunk) (d : Content),
      (chunks.foldl a.freezeChunk d).atoms = d.atoms ++ (chunks.flatMap Chunk.atoms).flatMap a.settleAtom := by
    intro chunks
    induction chunks with
    | nil => simp
    | cons piece chunks ih =>
      intro d
      rw [List.foldl_cons, ih, List.flatMap_cons, List.flatMap_append, ← List.append_assoc]
      congr 1
      cases piece with
      | bits b => simp [freezeChunk, Chunk.atoms, settleAtom_ofBits]
      | slot id =>
        simp only [freezeChunk, Chunk.atoms, List.flatMap_cons, List.flatMap_nil, List.append_nil, settleAtom]
        cases a.isPending id with
        | true => exact Content.atoms_pushSlot d id
        | false =>
          cases (a.cell? id).bind Cell.bits? with
          | none => exact Content.atoms_pushSlot d id
          | some bits => exact Content.atoms_pushBits d bits
  exact pieces c.chunks .empty

theorem settleAtom_of_known {id : VarId} {b : BitString} (hp : a.isPending id = false)
    (hc : a.cell? id = some (.known b)) : a.settleAtom (.slot id) = Atom.ofBits b := by
  simp only [settleAtom, hp, hc, Option.bind_some, Cell.bits?]

theorem settleAtom_of_pending {id : VarId} (hp : a.isPending id = true) : a.settleAtom (.slot id) = [.slot id] := by
  simp only [settleAtom, hp]

theorem settleAtom_resolves (x : Atom) :
    Atom.Resolves (fun id b => a.isPending id = false ∧ a.cell? id = some (.known b)) [x] (a.settleAtom x) := by
  cases x with
  | bit b => exact .refl [.bit b]
  | slot id =>
    cases hp : a.isPending id with
    | true =>
      rw [settleAtom_of_pending hp]
      exact .refl _
    | false =>
      cases hc : (a.cell? id).bind Cell.bits? with
      | none =>
        have kept : a.settleAtom (.slot id) = [.slot id] := by simp only [settleAtom, hp, hc]
        rw [kept]
        exact .refl _
      | some b =>
        have known : a.cell? id = some (.known b) := by
          obtain ⟨cell, hcell, hb⟩ := Option.bind_eq_some_iff.mp hc
          cases cell with
          | known bits =>
            cases hb
            exact hcell
          | awaited length? => cases hb
        rw [settleAtom_of_known hp known, ← List.append_nil (Atom.ofBits b)]
        exact .fill ⟨hp, known⟩ .nil

/-- To freeze a content replaces slots of settled relations by their values. -/
theorem freeze_resolves {value : VarId → BitString → Prop} {xs ys : List Atom} (h : Atom.Resolves value xs ys)
    (hv : ∀ id b, a.isPending id = false → a.cell? id = some (.known b) → value id b) :
    Atom.Resolves value xs (ys.flatMap a.settleAtom) := by
  induction h with
  | nil => exact .nil
  | keep x _ ih => exact ((settleAtom_resolves x).mono fun id b hb => hv id b hb.1 hb.2).append ih
  | fill hb _ ih =>
    rw [List.flatMap_append, settleAtom_ofBits]
    exact .fill hb ih

/-- To put values in place of slots makes no new slots. -/
theorem slot_mem_of_settled {atoms : List Atom} {q : VarId} (h : .slot q ∈ atoms.flatMap a.settleAtom) :
    .slot q ∈ atoms := by
  have settled : Atom.Resolves (fun _ _ => True) atoms (atoms.flatMap a.settleAtom) :=
    freeze_resolves (.refl atoms) fun _ _ _ _ => trivial
  exact settled.slot_mem h

/-- Contents put together, each with the values of settled relations in it. -/
theorem atoms_foldl_freeze (contents : List Content) (d : Content) :
    (contents.foldl (fun content c => content.append (a.freeze c)) d).atoms =
      d.atoms ++ contents.flatMap fun c => c.atoms.flatMap a.settleAtom := by
  induction contents generalizing d with
  | nil => simp
  | cons c contents ih => simp [ih]

/-! ## Contents without slots -/

section Settled

variable {id : VarId} {c : Content} {b : BitString}

theorem flatten_of_ofBits (hc : c.atoms = Atom.ofBits b) (exclude : Option VarId) : a.flatten c exclude = some b := by
  rw [flatten_eq_some_iff, hc, Atom.fill_ofBits]
  exact ⟨fun _ hs => absurd hs Atom.slot_notMem_ofBits, rfl⟩

theorem measure_of_ofBits (hc : c.atoms = Atom.ofBits b) : a.measure c = some b.length := by
  rw [measure_eq_some_iff, hc, Atom.size_ofBits]
  exact ⟨fun _ hs => absurd hs Atom.slot_notMem_ofBits, rfl⟩

theorem bits?_of_ofBits (h : a.entry? id = some (.content c)) (hc : c.atoms = Atom.ofBits b) : a.bits? id = some b := by
  simp only [bits?, h]
  exact flatten_of_ofBits hc none

theorem length?_of_ofBits (h : a.entry? id = some (.content c)) (hc : c.atoms = Atom.ofBits b) :
    a.length? id = some b.length := by
  simp only [length?, h]
  exact measure_of_ofBits hc

end Settled

end Assignment

end WireGrammar
