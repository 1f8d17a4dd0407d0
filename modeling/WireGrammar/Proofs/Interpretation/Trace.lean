import WireGrammar.Proofs.Assignment.Content

/-!
# Traces

What a reading goes through, mark by mark: single bits, and the bits that were read in the place of a relation. While a
relation waits, its places stay slots, and all of them show the bits that were read last (`Trace.shown`). So a trace
shows what was read exactly when the readings of each such relation agree (`shown_eq_spelled_iff`), at least as long as
their lengths do.
-/

namespace WireGrammar

/-- A bit read, or the bits read in the place of a relation. -/
inductive Mark where
  | bit (bit : Bool)
  | value (relation : VarId) (bits : BitString)

/-- What a reading goes through. -/
abbrev Trace : Type :=
  List Mark

namespace Mark

/-- The bits that were read. -/
def spelled : Mark → List Bool
  | bit b => [b]
  | value _ bits => bits.toList

/-- The place that was read for. -/
def atom : Mark → Atom
  | bit b => .bit b
  | value id _ => .slot id

/-- What stands in a content for the mark: a slot, if the relation is late. -/
def kept (late : VarId → Bool) : Mark → List Atom
  | bit b => [.bit b]
  | value id bits => if late id then [.slot id] else Atom.ofBits bits

end Mark

namespace Trace

variable {late : VarId → Bool} {t u : Trace} {id : VarId} {b : BitString}

/-- All bits that were read. -/
def spelled (t : Trace) : List Bool :=
  t.flatMap Mark.spelled

/-- The places that were read for, in order. -/
def atoms (t : Trace) : List Atom :=
  t.map Mark.atom

/-- The atoms of a content for the trace, with slots for the relations that are late. -/
def kept (late : VarId → Bool) (t : Trace) : List Atom :=
  t.flatMap (Mark.kept late)

/-- The bits that were read last for a relation. -/
def last? (id : VarId) : Trace → Option BitString
  | [] => none
  | .bit _ :: rest => last? id rest
  | .value other bits :: rest => (last? id rest).or (if other = id then some bits else none)

/-- The trace of bits that hold no value of a relation. -/
def ofBits (bits : BitString) : Trace :=
  bits.toList.map .bit

/-- The bits of the trace, where each late relation shows what was read last for it. -/
def shown (late : VarId → Bool) (t : Trace) : BitString :=
  Atom.fill (fun id => (last? id t).getD .empty) (kept late t)

/-- All readings of a late relation have one length. -/
def Uniform (late : VarId → Bool) (t : Trace) : Prop :=
  ∀ id, late id = true → ∀ b b', .value id b ∈ t → .value id b' ∈ t → b.length = b'.length

/-- All readings of a late relation are the same bits. -/
def Agrees (late : VarId → Bool) (t : Trace) : Prop :=
  ∀ id, late id = true → ∀ b b', .value id b ∈ t → .value id b' ∈ t → b = b'

theorem Agrees.uniform (h : Agrees late t) : Uniform late t :=
  fun id hl b b' hb hb' => congrArg BitString.length (h id hl b b' hb hb')

theorem Uniform.mono (h : Uniform late t) (hs : u ⊆ t) : Uniform late u :=
  fun id hl b b' hb hb' => h id hl b b' (hs hb) (hs hb')

@[simp] theorem spelled_append (t u : Trace) : spelled (t ++ u) = spelled t ++ spelled u :=
  List.flatMap_append

@[simp] theorem atoms_append (t u : Trace) : atoms (t ++ u) = atoms t ++ atoms u :=
  List.map_append

@[simp] theorem kept_append (t u : Trace) : kept late (t ++ u) = kept late t ++ kept late u :=
  List.flatMap_append

@[simp] theorem spelled_ofBits (bits : BitString) : spelled (ofBits bits) = bits.toList := by
  rw [spelled, ofBits, List.flatMap_map]
  exact List.flatMap_singleton' _

@[simp] theorem atoms_ofBits (bits : BitString) : atoms (ofBits bits) = Atom.ofBits bits := by
  rw [atoms, ofBits, List.map_map]
  rfl

@[simp] theorem kept_ofBits (bits : BitString) : kept late (ofBits bits) = Atom.ofBits bits := by
  rw [kept, ofBits, List.flatMap_map, Atom.ofBits, List.map_eq_flatMap]
  rfl

theorem value_notMem_ofBits {bits : BitString} : .value id b ∉ ofBits bits := by
  simp [ofBits]

/-! ## The last reading -/

@[simp] theorem last?_append : last? id (t ++ u) = (last? id u).or (last? id t) := by
  induction t with
  | nil => exact (Option.or_none).symm
  | cons m t ih =>
    cases m with
    | bit b => exact ih
    | value other bits => rw [List.cons_append, last?, last?, ih, Option.or_assoc]

theorem mem_of_last? (h : last? id t = some b) : .value id b ∈ t := by
  induction t with
  | nil => cases h
  | cons m t ih =>
    cases m with
    | bit bit => exact List.mem_cons_of_mem _ (ih h)
    | value other bits =>
      rcases Option.or_eq_some_iff.mp h with h | ⟨-, h⟩
      · exact List.mem_cons_of_mem _ (ih h)
      · obtain ⟨rfl, he⟩ := Option.ite_none_right_eq_some.mp h
        cases he
        exact List.mem_cons_self

theorem isSome_last? (h : .value id b ∈ t) : (last? id t).isSome := by
  induction t with
  | nil => cases h
  | cons m t ih =>
    cases m with
    | bit bit => exact ih ((List.mem_cons.mp h).resolve_left nofun)
    | value other bits =>
      rw [last?, Option.isSome_or, Bool.or_eq_true]
      rcases List.mem_cons.mp h with h | h
      · cases h
        exact Or.inr (by rw [if_pos rfl]; rfl)
      · exact Or.inl (ih h)

@[simp] theorem last?_ofBits (bits : BitString) : last? id (ofBits bits) = none := by
  cases h : last? id (ofBits bits) with
  | none => rfl
  | some b => exact absurd (mem_of_last? h) value_notMem_ofBits

theorem slot_mem_atoms (h : .value id b ∈ t) : .slot id ∈ atoms t :=
  List.mem_map.mpr ⟨_, h, rfl⟩

theorem exists_value (h : .slot id ∈ atoms t) : ∃ b, .value id b ∈ t := by
  obtain ⟨m, hm, he⟩ := List.mem_map.mp h
  cases m with
  | bit b => cases he
  | value other b =>
    cases he
    exact ⟨b, hm⟩

/-- Where there is at most one place for a relation, there is at most one reading of it. -/
theorem eq_of_count_le_one {b' : BitString} (h : (atoms t).count (.slot id) ≤ 1) (hb : .value id b ∈ t)
    (hb' : .value id b' ∈ t) : b = b' := by
  induction t with
  | nil => cases hb
  | cons m t ih =>
    rw [show atoms (m :: t) = m.atom :: atoms t from rfl] at h
    have rest : (atoms t).count (.slot id) ≤ 1 := Nat.le_trans List.count_le_count_cons h
    -- a reading at the front leaves no place for one behind it
    have front {bits other : BitString} (hm : .value id bits = m) (ho : .value id other ∈ t) : False := by
      subst hm
      rw [Mark.atom, List.count_cons_self] at h
      have := List.count_pos_iff.mpr (slot_mem_atoms ho)
      omega
    rcases List.mem_cons.mp hb with he | hb
    · rcases List.mem_cons.mp hb' with he' | hb'
      · exact (Mark.value.inj (he.trans he'.symm)).2
      · exact (front he hb').elim
    · rcases List.mem_cons.mp hb' with he' | hb'
      · exact (front he' hb).elim
      · exact ih rest hb hb'

/-! ## What is shown -/

section Values

variable {value : VarId → BitString} {length : VarId → Nat}

theorem slot_mem_kept (h : .slot id ∈ kept late t) : late id = true ∧ ∃ b, .value id b ∈ t := by
  obtain ⟨m, hm, hs⟩ := List.mem_flatMap.mp h
  cases m with
  | bit b => simp [Mark.kept] at hs
  | value other bits =>
    rw [Mark.kept] at hs
    split at hs
    next hl =>
      obtain rfl := Atom.slot.inj (List.mem_singleton.mp hs)
      exact ⟨hl, bits, hm⟩
    next => exact absurd hs Atom.slot_notMem_ofBits

/-- The length of what is kept, when the lengths given for slots are those of their readings. -/
theorem size_kept (h : ∀ id, late id = true → ∀ b, .value id b ∈ t → length id = b.length) :
    Atom.size length (kept late t) = (spelled t).length := by
  induction t with
  | nil => rfl
  | cons m t ih =>
    have rest := ih fun id hl b hb => h id hl b (List.mem_cons_of_mem _ hb)
    rw [show kept late (m :: t) = Mark.kept late m ++ kept late t from rfl,
      show spelled (m :: t) = Mark.spelled m ++ spelled t from rfl, Atom.size_append, List.length_append, rest]
    congr 1
    cases m with
    | bit b => rfl
    | value id bits =>
      rw [Mark.kept, Mark.spelled]
      split
      next hl => rw [BitString.length_toList, ← h id hl bits List.mem_cons_self]; rfl
      next => rw [Atom.size_ofBits, BitString.length_toList]

/-- Values of the right lengths fill the slots with what was read exactly when they are what was read. -/
theorem fill_kept_eq_iff (h : ∀ id, late id = true → ∀ b, .value id b ∈ t → (value id).length = b.length) :
    (Atom.fill value (kept late t)).toList = spelled t ↔
      ∀ id, late id = true → ∀ b, .value id b ∈ t → value id = b := by
  induction t with
  | nil => simp [spelled, kept]
  | cons m t ih =>
    have rest := ih fun id hl b hb => h id hl b (List.mem_cons_of_mem _ hb)
    rw [show kept late (m :: t) = Mark.kept late m ++ kept late t from rfl,
      show spelled (m :: t) = Mark.spelled m ++ spelled t from rfl, Atom.fill_append, BitString.toList_append]
    cases m with
    | bit b =>
      have one : (Atom.fill value (Mark.kept late (.bit b))).toList = [b] := by
        simp [Mark.kept, Atom.fill, Atom.bits]
      rw [one, Mark.spelled, List.append_cancel_left_eq, rest]
      simp
    | value id bits =>
      rw [Mark.kept, Mark.spelled]
      split
      next hl =>
        have hn := h id hl bits List.mem_cons_self
        rw [Atom.fill_slot]
        constructor
        · intro he
          have hlen : (value id).toList.length = bits.toList.length := by
            rw [BitString.length_toList, BitString.length_toList, hn]
          obtain ⟨hv, ht⟩ := List.append_inj he hlen
          intro other ho b hb
          rcases List.mem_cons.mp hb with hb | hb
          · cases hb
            exact BitString.toList_injective hv
          · exact rest.mp ht other ho b hb
        · intro hv
          rw [hv id hl bits List.mem_cons_self, rest.mpr fun other ho b hb => hv other ho b (List.mem_cons_of_mem _ hb)]
      next hl =>
        rw [Atom.fill_ofBits, List.append_cancel_left_eq, rest]
        constructor
        · intro hv other ho b hb
          rcases List.mem_cons.mp hb with hb | hb
          · cases hb
            exact absurd ho hl
          · exact hv other ho b hb
        · exact fun hv other ho b hb => hv other ho b (List.mem_cons_of_mem _ hb)

end Values

theorem Uniform.length_last? (h : Uniform late t) (hl : late id = true) (hb : .value id b ∈ t) :
    ((last? id t).getD .empty).length = b.length := by
  obtain ⟨last, hlast⟩ := Option.isSome_iff_exists.mp (isSome_last? hb)
  rw [hlast, Option.getD_some]
  exact h id hl last b (mem_of_last? hlast) hb

/-- As long as the lengths of late readings do not differ, what is shown is what was read if the readings agree. -/
theorem shown_eq_spelled_iff (h : Uniform late t) : (shown late t).toList = spelled t ↔ Agrees late t := by
  rw [shown, fill_kept_eq_iff fun id hl b hb => h.length_last? hl hb]
  constructor
  · intro hv id hl b b' hb hb'
    rw [← hv id hl b hb, ← hv id hl b' hb']
  · intro ha id hl b hb
    obtain ⟨last, hlast⟩ := Option.isSome_iff_exists.mp (isSome_last? hb)
    rw [hlast, Option.getD_some]
    exact ha id hl last b (mem_of_last? hlast) hb

end Trace

end WireGrammar
