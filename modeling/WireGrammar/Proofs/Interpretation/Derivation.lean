import Mathlib.Data.List.Nodup
import Mathlib.Data.List.Range
import WireGrammar.Memory
import WireGrammar.Proofs.Assignment.Content
import WireGrammar.Proofs.DataType.Lengths
import WireGrammar.Proofs.Variable.Tree

/-!
# Derivations

How a variable without relations derives a sequence of bits, said without assignments, offsets or contents:
`Variable.derivations` lists, for a sequence of bits, all ways in which the variable derives a front of it, each as a
tree with the values learned and the bits that are left.

* `Variable.IsPlain`: the trees for which these are all interpretations.
* `derivations_nodup`: no tree is listed twice.
* `derivations_sound`: a tree spells the bits taken from the front, and these are at least as many as the bounds say.
-/

namespace WireGrammar

/-- How a variable accounts for bits. -/
inductive Derivation where
  /-- A data leaf holds these bits. -/
  | leaf (bits : BitString)
  /-- The place of the value of a relation. -/
  | relation (id : VarId)
  /-- A choice takes the child with an index. -/
  | choice (index : Nat) (inner : Derivation)
  | sequence (parts : List Derivation)
  | repetition (delimiter : Option BitString) (parts : List Derivation)

namespace Derivation

/-- The atoms of the delimiter before an instance; there is none before the first. -/
def delimiterAtoms (delimiter : Option BitString) (isFirst : Bool) : List Atom :=
  if isFirst then [] else delimiter.elim [] Atom.ofBits

/-- The atoms of instances one after the other, with the delimiters between them. -/
def joined (delimiter : Option BitString) : Bool → List (List Atom) → List Atom
  | _, [] => []
  | isFirst, part :: rest => delimiterAtoms delimiter isFirst ++ part ++ joined delimiter false rest

mutual

/-- The bits of a derivation, with a slot in each place of a relation. -/
def atoms : Derivation → List Atom
  | leaf bits => Atom.ofBits bits
  | relation id => [.slot id]
  | choice _ inner => atoms inner
  | sequence parts => (atomsAll parts).flatten
  | repetition delimiter parts => joined delimiter true (atomsAll parts)

def atomsAll : List Derivation → List (List Atom)
  | [] => []
  | d :: rest => atoms d :: atomsAll rest

end

/-- The derivations of the children of a sequence, or the instances of a repetition. -/
def parts : Derivation → List Derivation
  | sequence parts | repetition _ parts => parts
  | leaf _ | relation _ | choice .. => []

/-- The bits of a derivation under values for the relations. -/
def bits (value : VarId → BitString) (d : Derivation) : BitString :=
  Atom.fill value d.atoms

end Derivation

/-- Values by variable, the newest first. -/
abbrev Values : Type :=
  List (VarId × BitString)

/-- A result, with the values learned on the way to it and the bits that are left behind it. -/
structure Parse (α : Type) where
  result : α
  learned : Values
  rest : List Bool

/-- The same parse with another result. -/
def Parse.map {α β : Type} (f : α → β) (p : Parse α) : Parse β :=
  ⟨f p.result, p.learned, p.rest⟩

/-- The bits behind given ones, if the sequence starts with those. -/
def behind? (bits : BitString) (rest : List Bool) : Option (List Bool) :=
  if bits.toList <+: rest then some (rest.drop bits.length) else none

/-- The bits behind the delimiter before an instance; there is none before the first. -/
def behindDelimiter? (delimiter : Option BitString) (isFirst : Bool) (rest : List Bool) : Option (List Bool) :=
  if isFirst then some rest else delimiter.elim (some rest) (behind? · rest)

/-- The newest value of a variable, otherwise the committed one. -/
def Store.knownWith (committed : Store) (learned : Values) (id : VarId) : Option BitString :=
  (learned.lookup id).or (committed.get? id)

namespace Variable

section Derivations

variable (committed : Store)

/-- A leaf derives the value that it has already, or each front that its type accepts, the longest first. -/
def leafDerivations (id : VarId) (type : DataType) (scope : Scope) (learned : Values) (rest : List Bool) :
    List (Parse Derivation) :=
  match if scope.replays then type.constant?.or (committed.knownWith learned id) else none with
  | some value => (behind? value rest).toList.map fun rest => ⟨.leaf value, learned, rest⟩
  | none =>
    if scope = .constant then []
    else (List.range (rest.length + 1)).reverse.filterMap fun n =>
      let bits := BitString.ofList (rest.take n)
      if type.accepts bits then
        some ⟨.leaf bits, if scope = .volatile then learned else (id, bits) :: learned, rest.drop n⟩
      else none

/-- `k` instances, none of them empty, with the delimiters between them. -/
def derivationsTimes (one : Values → List Bool → List (Parse Derivation)) (delimiter : Option BitString) :
    Nat → Bool → Values → List Bool → List (Parse (List Derivation))
  | 0, _, learned, rest => [⟨[], learned, rest⟩]
  | k + 1, isFirst, learned, rest =>
    (behindDelimiter? delimiter isFirst rest).toList.flatMap fun start =>
      ((one learned start).filter (·.rest.length < start.length)).flatMap fun p =>
        (derivationsTimes one delimiter k false p.learned p.rest).map (·.map (p.result :: ·))

mutual

/--
All ways in which a variable without relations derives a front of the bits: a leaf the longest first, a choice what
its children derive in order, a sequence what they derive one after the other, a repetition its counts in ascending
order.
-/
def derivations : Variable → Values → List Bool → List (Parse Derivation)
  | .data id _ type scope, learned, rest => leafDerivations committed id type scope learned rest
  | .relation _, _, _ => []
  | .choice _ _ children, learned, rest => derivationsAny children 0 learned rest
  | .sequence _ _ children, learned, rest => (derivationsAll children learned rest).map (·.map .sequence)
  | .repetition _ _ child count delimiter, learned, rest =>
    (List.range' count.least (count.stop - count.least)).flatMap fun k =>
      (derivationsTimes (derivations child) delimiter k true learned rest).map (·.map (.repetition delimiter))

/-- What the children of a choice derive, from the one with the given index on. -/
def derivationsAny : List Variable → Nat → Values → List Bool → List (Parse Derivation)
  | [], _, _, _ => []
  | child :: more, index, learned, rest =>
    (derivations child learned rest).map (·.map (.choice index)) ++ derivationsAny more (index + 1) learned rest

/-- What the children of a sequence derive one after the other. -/
def derivationsAll : List Variable → Values → List Bool → List (Parse (List Derivation))
  | [], learned, rest => [⟨[], learned, rest⟩]
  | child :: more, learned, rest =>
    (derivations child learned rest).flatMap fun p =>
      (derivationsAll more p.learned p.rest).map (·.map (p.result :: ·))

end

end Derivations

/-- Trees without relations in which every record of a child lasts until its node is recorded. -/
structure IsPlain (v : Variable) : Prop where
  relationFree : ∀ r, .relation r ∉ v.preorder
  /-- No child of a sequence occurs again in a later child. -/
  separate : ∀ {id name children}, .sequence id name children ∈ v.preorder →
    children.Pairwise fun c d => c.id ∉ d.ids
  /-- An identity belongs to leaves of one type only. -/
  leaf_unique : ∀ {id name type scope name' type' scope'}, .data id name type scope ∈ v.preorder →
    .data id name' type' scope' ∈ v.preorder → type = type'
  /-- Counts are within the limit for all repetitions. -/
  limited : ∀ {id name child count delimiter}, .repetition id name child count delimiter ∈ v.preorder →
    count.stop ≤ RepeatCount.limit

/-- The values known are accepted by the types of their leaves. -/
def Remembers (v : Variable) (known? : VarId → Option BitString) : Prop :=
  ∀ ⦃id name type scope⦄, .data id name type scope ∈ v.preorder → ∀ value ∈ known? id, type.accepts value = true

theorem remembers_empty (v : Variable) : v.Remembers Assignment.empty.known? := by
  intro id name type scope _ value h
  cases h

/-! ## No derivation twice -/

section Distinct

variable {committed : Store} {α β : Type}

/-- No result occurs twice. -/
def Distinct (parses : List (Parse α)) : Prop :=
  parses.Pairwise fun p q => p.result ≠ q.result

theorem Distinct.map {parses : List (Parse α)} (h : Distinct parses) {f : α → β} (hf : Function.Injective f) :
    Distinct (parses.map (·.map f)) :=
  List.pairwise_map.mpr (h.imp fun hne he => hne (hf he))

/-- Results that differ in their first part differ. -/
theorem Distinct.flatMap_cons {parses : List (Parse α)} (h : Distinct parses) {next : Parse α → List (Parse (List α))}
    (hn : ∀ p ∈ parses, Distinct (next p)) :
    Distinct (parses.flatMap fun p => (next p).map (·.map (p.result :: ·))) := by
  refine List.pairwise_flatMap.mpr ⟨fun p hp => (hn p hp).map (List.cons_injective), h.imp fun {p q} hne x hx y hy => ?_⟩
  obtain ⟨x, -, rfl⟩ := List.mem_map.mp hx
  obtain ⟨y, -, rfl⟩ := List.mem_map.mp hy
  exact fun he => hne (List.head_eq_of_cons_eq he)

theorem leafDerivations_distinct (id : VarId) (type : DataType) (scope : Scope) (learned : Values) (rest : List Bool) :
    Distinct (leafDerivations committed id type scope learned rest) := by
  unfold leafDerivations
  split
  next value h =>
    cases behind? value rest <;> simp [Distinct]
  next h =>
    split
    · exact List.Pairwise.nil
    · have descending : (List.range (rest.length + 1)).reverse.Pairwise fun m n => n < m ∧ m ≤ rest.length := by
        rw [List.pairwise_reverse]
        exact List.pairwise_lt_range.imp_of_mem fun _ hn hmn => ⟨hmn, Nat.le_of_lt_succ (List.mem_range.mp hn)⟩
      refine descending.filterMap _ fun m n hmn p hp q hq he => ?_
      simp only [Option.ite_none_right_eq_some, Option.some.injEq] at hp hq
      obtain ⟨-, rfl⟩ := hp
      obtain ⟨-, rfl⟩ := hq
      have hl := congrArg BitString.length (Derivation.leaf.inj he)
      simp only [BitString.length_ofList, List.length_take] at hl
      omega

/-- Of results that differ only the given one is kept, if nothing else is. -/
theorem Distinct.filter_eq {parses : List (Parse α)} (h : Distinct parses) {p : Parse α} (hp : p ∈ parses)
    {k : Parse α → Bool} (hk : ∀ q ∈ parses, k q = true ↔ q.result = p.result) : parses.filter k = [p] := by
  induction parses with
  | nil => cases hp
  | cons q parses ih =>
    obtain ⟨hq, h⟩ := List.pairwise_cons.mp h
    obtain ⟨own, others⟩ := List.forall_mem_cons.mp hk
    rw [List.filter_cons]
    rcases List.mem_cons.mp hp with rfl | hp
    · rw [if_pos (own.mpr rfl), List.filter_eq_nil_iff.mpr fun r hr hkr => hq r hr ((others r hr).mp hkr).symm]
    · rw [if_neg fun hkq => hq p hp (own.mp hkq), ih h hp others]

theorem derivationsTimes_distinct {one : Values → List Bool → List (Parse Derivation)}
    (h : ∀ learned rest, Distinct (one learned rest)) (delimiter : Option BitString) (k : Nat) (isFirst : Bool)
    (learned : Values) (rest : List Bool) : Distinct (derivationsTimes one delimiter k isFirst learned rest) := by
  induction k generalizing isFirst learned rest with
  | zero => exact List.pairwise_singleton _ _
  | succ k ih =>
    unfold derivationsTimes
    cases behindDelimiter? delimiter isFirst rest with
    | none => exact List.Pairwise.nil
    | some start =>
      simp only [Option.toList_some, List.flatMap_cons, List.flatMap_nil, List.append_nil]
      exact Distinct.flatMap_cons ((h learned start).filter _) fun p _ => ih false p.learned p.rest

theorem length_of_mem_derivationsTimes {one : Values → List Bool → List (Parse Derivation)}
    {delimiter : Option BitString} {k : Nat} {isFirst : Bool} {learned : Values} {rest : List Bool}
    {p : Parse (List Derivation)} (h : p ∈ derivationsTimes one delimiter k isFirst learned rest) :
    p.result.length = k := by
  induction k generalizing isFirst learned rest p with
  | zero =>
    rw [derivationsTimes, List.mem_singleton] at h
    rw [h, List.length_nil]
  | succ k ih =>
    simp only [derivationsTimes, List.mem_flatMap, List.mem_map] at h
    obtain ⟨_, -, q, -, r, hr, rfl⟩ := h
    exact congrArg (· + 1) (ih hr)

theorem length_of_mem_derivationsAll {children : List Variable} {learned : Values} {rest : List Bool}
    {p : Parse (List Derivation)} (h : p ∈ derivationsAll committed children learned rest) :
    p.result.length = children.length := by
  induction children generalizing learned rest p with
  | nil =>
    rw [derivationsAll, List.mem_singleton] at h
    rw [h]
    rfl
  | cons c more ih =>
    simp only [derivationsAll, List.mem_flatMap, List.mem_map] at h
    obtain ⟨q, -, r, hr, rfl⟩ := h
    exact congrArg (· + 1) (ih hr)

theorem derivationsAll_append {xs ys : List Variable} {learned : Values} {rest : List Bool} :
    derivationsAll committed (xs ++ ys) learned rest =
      (derivationsAll committed xs learned rest).flatMap fun p =>
        (derivationsAll committed ys p.learned p.rest).map (·.map (p.result ++ ·)) := by
  induction xs generalizing learned rest with
  | nil => simp [derivationsAll, Parse.map]
  | cons x xs ih =>
    rw [List.cons_append, derivationsAll, derivationsAll, List.flatMap_assoc]
    refine List.flatMap_congr fun p _ => ?_
    rw [ih, List.map_flatMap, List.flatMap_map]
    refine List.flatMap_congr fun q _ => ?_
    rw [List.map_map]
    rfl

theorem derivationsAny_distinct {children : List Variable}
    (h : ∀ c ∈ children, ∀ learned rest, Distinct (derivations committed c learned rest)) (index : Nat)
    (learned : Values) (rest : List Bool) :
    Distinct (derivationsAny committed children index learned rest) ∧
      ∀ p ∈ derivationsAny committed children index learned rest, ∃ j d, index ≤ j ∧ p.result = .choice j d := by
  induction children generalizing index with
  | nil => exact ⟨List.Pairwise.nil, fun p hp => absurd hp List.not_mem_nil⟩
  | cons c more ih =>
    obtain ⟨hd, hi⟩ := ih (fun c hc => h c (List.mem_cons_of_mem _ hc)) (index + 1)
    rw [derivationsAny]
    constructor
    · refine List.pairwise_append.mpr
        ⟨(h c List.mem_cons_self learned rest).map fun _ _ he => (Derivation.choice.inj he).2, hd, fun p hp q hq => ?_⟩
      obtain ⟨p, -, rfl⟩ := List.mem_map.mp hp
      obtain ⟨j, d, hj, hq⟩ := hi q hq
      rw [hq]
      intro he
      have := (Derivation.choice.inj he).1
      omega
    · intro p hp
      rcases List.mem_append.mp hp with hp | hp
      · obtain ⟨p, -, rfl⟩ := List.mem_map.mp hp
        exact ⟨index, p.result, Nat.le_refl _, rfl⟩
      · obtain ⟨j, d, hj, hp⟩ := hi p hp
        exact ⟨j, d, Nat.le_of_succ_le hj, hp⟩

theorem derivationsAll_distinct {children : List Variable}
    (h : ∀ c ∈ children, ∀ learned rest, Distinct (derivations committed c learned rest)) (learned : Values)
    (rest : List Bool) : Distinct (derivationsAll committed children learned rest) := by
  induction children generalizing learned rest with
  | nil => exact List.pairwise_singleton _ _
  | cons c more ih =>
    rw [derivationsAll]
    exact Distinct.flatMap_cons (h c List.mem_cons_self learned rest) fun p _ =>
      ih (fun c hc => h c (List.mem_cons_of_mem _ hc)) p.learned p.rest

/-- No derivation is listed twice. -/
theorem derivations_distinct (v : Variable) (learned : Values) (rest : List Bool) :
    Distinct (derivations committed v learned rest) := by
  induction v using induct generalizing learned rest with
  | data id name type scope =>
    rw [derivations]
    exact leafDerivations_distinct id type scope learned rest
  | relation r =>
    rw [derivations]
    exact List.Pairwise.nil
  | choice id name children ih =>
    rw [derivations]
    exact (derivationsAny_distinct ih 0 learned rest).1
  | sequence id name children ih =>
    rw [derivations]
    exact (derivationsAll_distinct ih learned rest).map fun _ _ he => Derivation.sequence.inj he
  | repetition id name child count delimiter ih =>
    rw [derivations]
    refine List.pairwise_flatMap.mpr ⟨fun k _ => ?_, ?_⟩
    · exact (derivationsTimes_distinct ih delimiter k true learned rest).map
        fun _ _ he => (Derivation.repetition.inj he).2
    · have ascending : (List.range' count.least (count.stop - count.least)).Pairwise (· < ·) :=
        List.pairwise_lt_range'
      refine ascending.imp fun {j k} hjk x hx y hy he => ?_
      obtain ⟨p, hp, rfl⟩ := List.mem_map.mp hx
      obtain ⟨q, hq, rfl⟩ := List.mem_map.mp hy
      have hl := congrArg List.length (Derivation.repetition.inj he).2
      rw [length_of_mem_derivationsTimes hp, length_of_mem_derivationsTimes hq] at hl
      omega

end Distinct

/-! ## What a derivation spells -/

section Sound

variable {committed : Store}

/-- The atoms spell the bits between `rest` and what is left of it, and these are at least so many. -/
def Front (atoms : List Atom) (rest left : List Bool) (least : Nat) : Prop :=
  ∃ bits, atoms = Atom.ofBits bits ∧ rest = bits.toList ++ left ∧ least ≤ bits.length

namespace Front

variable {x y : List Atom} {rest left left' : List Bool} {m n : Nat}

theorem nil (rest : List Bool) : Front [] rest rest 0 :=
  ⟨.empty, rfl, rfl, Nat.le_refl 0⟩

theorem ofBits (bits : BitString) (left : List Bool) : Front (Atom.ofBits bits) (bits.toList ++ left) left bits.length :=
  ⟨bits, rfl, rfl, Nat.le_refl _⟩

theorem append (h₁ : Front x rest left m) (h₂ : Front y left left' n) : Front (x ++ y) rest left' (m + n) := by
  obtain ⟨b, rfl, rfl, hm⟩ := h₁
  obtain ⟨c, rfl, rfl, hn⟩ := h₂
  refine ⟨b ++ c, (Atom.ofBits_append b c).symm, ?_, ?_⟩
  · rw [BitString.toList_append, List.append_assoc]
  · rw [BitString.length_append]
    exact Nat.add_le_add hm hn

theorem mono (h : Front x rest left m) (hn : n ≤ m) : Front x rest left n := by
  obtain ⟨b, hx, hr, hm⟩ := h
  exact ⟨b, hx, hr, Nat.le_trans hn hm⟩

/-- What is not empty has at least one bit. -/
theorem max_one (h : Front x rest left m) (hl : left.length < rest.length) : Front x rest left (max m 1) := by
  obtain ⟨b, hx, rfl, hm⟩ := h
  refine ⟨b, hx, rfl, ?_⟩
  rw [List.length_append, BitString.length_toList] at hl
  omega

theorem length_le (h : Front x rest left m) : m + left.length ≤ rest.length := by
  obtain ⟨b, -, rfl, hm⟩ := h
  rw [List.length_append, BitString.length_toList]
  omega

end Front

theorem behind?_eq_some_iff {bits : BitString} {rest left : List Bool} :
    behind? bits rest = some left ↔ rest = bits.toList ++ left := by
  unfold behind?
  constructor
  · intro h
    obtain ⟨⟨t, rfl⟩, hl⟩ := Option.ite_none_right_eq_some.mp h
    rw [← Option.some.inj hl, ← BitString.length_toList, List.drop_left]
  · rintro rfl
    rw [if_pos (List.prefix_append _ _), ← BitString.length_toList, List.drop_left]

/-- A value that its leaf accepts may be learned. -/
theorem Remembers.learn {w : Variable} (hw : w.IsPlain) {learned : Values} (h : w.Remembers (committed.knownWith learned))
    {id : VarId} {name : String} {type : DataType} {scope : Scope} (hid : .data id name type scope ∈ w.preorder)
    {value : BitString} (ha : type.accepts value = true) :
    w.Remembers (committed.knownWith ((id, value) :: learned)) := by
  intro id' name' type' scope' hid' value' hv
  unfold Store.knownWith at hv
  rw [List.lookup_cons] at hv
  by_cases he : id' = id
  · subst he
    rw [BEq.rfl, Option.some_or, Option.mem_def, Option.some.injEq] at hv
    rw [← hv, ← hw.leaf_unique hid hid']
    exact ha
  · rw [beq_eq_false_iff_ne.mpr he] at hv
    exact h hid' value' hv

/-- A leaf that replays no values derives all fronts that its type accepts. -/
theorem mem_leafDerivations_fresh {learned : Values} {rest : List Bool} {id : VarId} {type : DataType} {p : Parse Derivation} :
    p ∈ leafDerivations committed id type .volatile learned rest ↔
      ∃ bits, p.result = .leaf bits ∧ p.learned = learned ∧ rest = bits.toList ++ p.rest ∧ type.accepts bits = true := by
  have fresh : leafDerivations committed id type .volatile learned rest =
      (List.range (rest.length + 1)).reverse.filterMap fun n =>
        if type.accepts (BitString.ofList (rest.take n)) then
          some ⟨.leaf (BitString.ofList (rest.take n)), learned, rest.drop n⟩
        else none := rfl
  rw [fresh, List.mem_filterMap]
  constructor
  · rintro ⟨n, -, h⟩
    obtain ⟨ha, h⟩ := Option.ite_none_right_eq_some.mp h
    cases h
    exact ⟨_, rfl, rfl, by rw [BitString.toList_ofList, List.take_append_drop], ha⟩
  · rintro ⟨bits, hr, hl, hrest, ha⟩
    have own : BitString.ofList (rest.take bits.length) = bits := by
      rw [hrest, ← BitString.length_toList, List.take_left, BitString.ofList_toList]
    refine ⟨bits.length, ?_, ?_⟩
    · rw [List.mem_reverse, List.mem_range, hrest, List.length_append, BitString.length_toList]
      omega
    · rw [own, if_pos ha]
      obtain ⟨result, learned', left⟩ := p
      obtain rfl : result = .leaf bits := hr
      obtain rfl : learned' = learned := hl
      have hrest : rest = bits.toList ++ left := hrest
      rw [hrest, ← BitString.length_toList, List.drop_left]

/-- The value that a leaf has already is not shorter than its type asks for. -/
theorem least_le_of_replayed {known? : Option BitString} {type : DataType} {scope : Scope}
    (h : ∀ value ∈ known?, type.accepts value = true) {value : BitString}
    (hv : (if scope.replays then type.constant?.or known? else none) = some value) : type.bounds.1 ≤ value.length := by
  obtain ⟨-, hv⟩ := Option.ite_none_right_eq_some.mp hv
  cases hc : type.constant? with
  | some c =>
    rw [hc, Option.some_or, Option.some.injEq] at hv
    exact (DataType.acceptsLength_iff.mp ((DataType.acceptsLength_of_constant hc).mpr (by rw [hv]))).1
  | none =>
    rw [hc, Option.none_or] at hv
    exact (DataType.acceptsLength_iff.mp (DataType.acceptsLength_of_accepts (h value hv))).1

variable {w : Variable} {learned : Values} {rest : List Bool}

/-- A parse with what it spells, and with values that their leaves accept. -/
structure Sound (committed : Store) (w : Variable) (rest : List Bool) {α : Type} (atoms : α → List Atom) (least : Nat)
    (p : Parse α) : Prop where
  front : Front (atoms p.result) rest p.rest least
  remembers : w.Remembers (committed.knownWith p.learned)

theorem leafDerivations_sound (hw : w.IsPlain) (hk : w.Remembers (committed.knownWith learned)) {id : VarId}
    {name : String} {type : DataType} {scope : Scope} (hid : .data id name type scope ∈ w.preorder)
    {p : Parse Derivation} (hp : p ∈ leafDerivations committed id type scope learned rest) :
    Sound committed w rest Derivation.atoms type.bounds.1 p := by
  unfold leafDerivations at hp
  split at hp
  next value h =>
    obtain ⟨left, hl, rfl⟩ := List.mem_map.mp hp
    rw [behind?_eq_some_iff.mp (Option.mem_toList.mp hl)]
    exact ⟨(Front.ofBits value left).mono (least_le_of_replayed (hk hid) h), hk⟩
  next h =>
    split at hp
    · cases hp
    · obtain ⟨n, -, hp⟩ := List.mem_filterMap.mp hp
      obtain ⟨ha, hp⟩ := Option.ite_none_right_eq_some.mp hp
      cases hp
      have front := Front.ofBits (BitString.ofList (rest.take n)) (rest.drop n)
      rw [BitString.toList_ofList, List.take_append_drop] at front
      refine ⟨front.mono (DataType.acceptsLength_iff.mp (DataType.acceptsLength_of_accepts ha)).1, ?_⟩
      split
      · exact hk
      · exact hk.learn hw hid ha

/-- The least length of `k` instances, the first of them behind a delimiter or not. -/
def leastOf (k least delimiter : Nat) (isFirst : Bool) : Nat :=
  least * k + delimiter * if isFirst then k - 1 else k

theorem front_delimiter {delimiter : Option BitString} {isFirst : Bool} {start : List Bool}
    (h : behindDelimiter? delimiter isFirst rest = some start) :
    Front (Derivation.delimiterAtoms delimiter isFirst) rest start
      (if isFirst then 0 else delimiterLength delimiter) := by
  cases isFirst with
  | true =>
    cases h
    exact Front.nil rest
  | false =>
    cases delimiter with
    | none =>
      cases h
      exact Front.nil rest
    | some d =>
      rw [behind?_eq_some_iff.mp h]
      exact Front.ofBits d start

theorem derivationsTimes_sound {child : Variable} {delimiter : Option BitString}
    (one : ∀ {learned rest}, w.Remembers (committed.knownWith learned) → ∀ p ∈ derivations committed child learned rest,
      Sound committed w rest Derivation.atoms child.bounds.1 p)
    {k : Nat} {isFirst : Bool} (hk : w.Remembers (committed.knownWith learned)) {p : Parse (List Derivation)}
    (hp : p ∈ derivationsTimes (derivations committed child) delimiter k isFirst learned rest) :
    Sound committed w rest (fun parts => Derivation.joined delimiter isFirst (Derivation.atomsAll parts))
      (leastOf k (max child.bounds.1 1) (delimiterLength delimiter) isFirst) p := by
  induction k generalizing isFirst learned rest p with
  | zero =>
    rw [derivationsTimes, List.mem_singleton] at hp
    rw [hp]
    exact ⟨(Front.nil rest).mono (by simp [leastOf]), hk⟩
  | succ k ih =>
    simp only [derivationsTimes, List.mem_flatMap, List.mem_map, List.mem_filter, decide_eq_true_eq,
      Option.mem_toList] at hp
    obtain ⟨start, hs, q, ⟨hq, hlt⟩, r, hr, rfl⟩ := hp
    obtain ⟨front, known⟩ := one hk q hq
    obtain ⟨others, known⟩ := ih known hr
    refine ⟨?_, known⟩
    refine (((front_delimiter hs).append (front.max_one hlt)).append others).mono ?_
    unfold leastOf
    cases isFirst <;> simp [Nat.mul_add] <;> omega

theorem derivationsAll_sound {children : List Variable}
    (one : ∀ c ∈ children, ∀ {learned rest}, w.Remembers (committed.knownWith learned) →
      ∀ p ∈ derivations committed c learned rest, Sound committed w rest Derivation.atoms c.bounds.1 p)
    (hk : w.Remembers (committed.knownWith learned)) {p : Parse (List Derivation)}
    (hp : p ∈ derivationsAll committed children learned rest) :
    Sound committed w rest (fun parts => (Derivation.atomsAll parts).flatten)
      (sequenceBounds (boundsAll children)).1 p := by
  induction children generalizing learned rest p with
  | nil =>
    rw [derivationsAll, List.mem_singleton] at hp
    rw [hp]
    exact ⟨Front.nil rest, hk⟩
  | cons c more ih =>
    simp only [derivationsAll, List.mem_flatMap, List.mem_map] at hp
    obtain ⟨q, hq, r, hr, rfl⟩ := hp
    obtain ⟨front, known⟩ := one c List.mem_cons_self hk q hq
    obtain ⟨others, known⟩ := ih (fun c hc => one c (List.mem_cons_of_mem _ hc)) known hr
    exact ⟨front.append others, known⟩

theorem derivationsAny_sound {children : List Variable} {least : Nat}
    (one : ∀ c ∈ children, ∀ p ∈ derivations committed c learned rest,
      Sound committed w rest Derivation.atoms least p)
    {index : Nat} {p : Parse Derivation} (hp : p ∈ derivationsAny committed children index learned rest) :
    Sound committed w rest Derivation.atoms least p := by
  induction children generalizing index with
  | nil => cases hp
  | cons c more ih =>
    rw [derivationsAny] at hp
    rcases List.mem_append.mp hp with hp | hp
    · obtain ⟨q, hq, rfl⟩ := List.mem_map.mp hp
      obtain ⟨front, known⟩ := one c List.mem_cons_self q hq
      exact ⟨front, known⟩
    · exact ih (fun c hc => one c (List.mem_cons_of_mem _ hc)) hp

/--
A derivation spells the bits that it takes, these are at least as many as the bounds of the variable say, and the
values known stay values that their leaves accept.
-/
theorem derivations_sound (hw : w.IsPlain) (v : Variable) (hv : v.preorder ⊆ w.preorder)
    (hk : w.Remembers (committed.knownWith learned)) {p : Parse Derivation}
    (hp : p ∈ derivations committed v learned rest) : Sound committed w rest Derivation.atoms v.bounds.1 p := by
  induction v using induct generalizing learned rest p with
  | data id name type scope =>
    rw [derivations] at hp
    exact leafDerivations_sound hw hk (hv (self_mem_preorder _)) hp
  | relation r =>
    rw [derivations] at hp
    cases hp
  | choice id name children ih =>
    rw [derivations] at hp
    refine derivationsAny_sound (fun c hc q hq => ?_) hp
    have hs : c.preorder ⊆ w.preorder := fun x hx =>
      hv (List.mem_cons_of_mem _ (preorder_subset_of_mem hc hx))
    obtain ⟨front, known⟩ := ih c hc hs hk hq
    refine ⟨front.mono (choiceBounds_le ?_), known⟩
    rw [boundsAll_eq]
    exact List.mem_map_of_mem hc
  | sequence id name children ih =>
    rw [derivations] at hp
    obtain ⟨q, hq, rfl⟩ := List.mem_map.mp hp
    obtain ⟨front, known⟩ := derivationsAll_sound
      (fun c hc _ _ hk _ => ih c hc (fun x hx => hv (List.mem_cons_of_mem _ (preorder_subset_of_mem hc hx))) hk) hk hq
    exact ⟨front, known⟩
  | repetition id name child count delimiter ih =>
    rw [derivations] at hp
    obtain ⟨k, hk', hp⟩ := List.mem_flatMap.mp hp
    obtain ⟨q, hq, rfl⟩ := List.mem_map.mp hp
    obtain ⟨front, known⟩ := derivationsTimes_sound
      (fun hk _ => ih (fun x hx => hv (List.mem_cons_of_mem _ hx)) hk) hk hq
    refine ⟨front.mono (Nat.le_trans (repeated_le_repeated (List.mem_range'_1.mp hk').1) ?_), known⟩
    exact Nat.add_le_add (Nat.mul_le_mul_right _ (Nat.le_max_left _ _)) (Nat.le_refl _)

end Sound

end Variable

end WireGrammar
