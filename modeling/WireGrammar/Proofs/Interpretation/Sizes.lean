import WireGrammar.Proofs.Interpretation.Fits

/-!
# How long derivations are

With values for the relations in it, a derivation of a variable is as long as the bounds of the variable allow, if its
leaves and these values are (`Fits.within`), and a multiple of a unit of which these are multiples (`Fits.dvd`).

* `Derivation.HasInstance`: what stands between the delimiters of a repetition.
-/

namespace WireGrammar

variable {b : Nat × Option Nat} {n m k : Nat}

/-- A length lies between a least and a greatest one. -/
def Within (b : Nat × Option Nat) (n : Nat) : Prop :=
  b.1 ≤ n ∧ ∀ greatest ∈ b.2, n ≤ greatest

theorem DataType.within_of_accepts {t : DataType} {bits : BitString} (h : t.accepts bits = true) :
    Within t.bounds bits.length :=
  have allowed := acceptsLength_iff.mp (acceptsLength_of_accepts h)
  ⟨allowed.1, allowed.2.1⟩

namespace Variable

theorem within_choiceBounds {all : List (Nat × Option Nat)} (hb : b ∈ all) (h : Within b n) :
    Within (choiceBounds all) n := by
  refine ⟨(choiceBounds_le hb).trans h.1, fun greatest hg => ?_⟩
  fun_induction choiceBounds all generalizing greatest with
  | case1 => cases hb
  | case2 x =>
    obtain rfl := List.mem_singleton.mp hb
    exact h.2 greatest hg
  | case3 x rest _ r ih =>
    obtain ⟨own, ho, hg⟩ := Option.bind_eq_some_iff.mp hg
    obtain ⟨others, hr, rfl⟩ := Option.map_eq_some_iff.mp hg
    rcases List.mem_cons.mp hb with rfl | hb
    · exact (h.2 own ho).trans (Nat.le_max_left _ _)
    · exact (ih hb others hr).trans (Nat.le_max_right _ _)

theorem within_sequenceBounds {rest : List (Nat × Option Nat)} (h : Within b n) (hr : Within (sequenceBounds rest) m) :
    Within (sequenceBounds (b :: rest)) (n + m) := by
  refine ⟨Nat.add_le_add h.1 hr.1, fun greatest hg => ?_⟩
  obtain ⟨own, ho, hg⟩ := Option.bind_eq_some_iff.mp hg
  obtain ⟨others, hr', rfl⟩ := Option.map_eq_some_iff.mp hg
  exact Nat.add_le_add (h.2 own ho) (hr.2 others hr')

end Variable

theorem Variable.leastOf_succ (k m delimiter : Nat) (isFirst : Bool) :
    leastOf (k + 1) m delimiter isFirst = (delimiter * if isFirst then 0 else 1) + m + leastOf k m delimiter false := by
  unfold leastOf
  cases isFirst <;> simp [Nat.mul_add] <;> omega

namespace Derivation

variable {value : VarId → BitString} {delimiter : Option BitString} {parts : List Derivation}

theorem length_delimiterAtoms (value : VarId → BitString) (delimiter : Option BitString) (isFirst : Bool) :
    (Atom.fill value (delimiterAtoms delimiter isFirst)).length =
      Variable.delimiterLength delimiter * if isFirst then 0 else 1 := by
  unfold delimiterAtoms
  cases isFirst with
  | true => rfl
  | false =>
    cases delimiter with
    | none => rfl
    | some d => simp [Variable.delimiterLength]

/-- Instances with the delimiters between them are as long as so many of the shortest, and of the longest. -/
theorem within_joined (each : ∀ part ∈ parts, Within b (part.bits value).length) (isFirst : Bool) :
    Within (Variable.leastOf parts.length b.1 (Variable.delimiterLength delimiter) isFirst,
        b.2.map fun m => Variable.leastOf parts.length m (Variable.delimiterLength delimiter) isFirst)
      (Atom.fill value (joined delimiter isFirst (atomsAll parts))).length := by
  induction parts generalizing isFirst with
  | nil => simp [Within, Variable.leastOf, atomsAll, joined]
  | cons part rest ih =>
    obtain ⟨own, each⟩ := List.forall_mem_cons.mp each
    obtain ⟨least, greatest⟩ := ih each false
    rw [atomsAll, joined, Atom.fill_append, Atom.fill_append, BitString.length_append, BitString.length_append,
      length_delimiterAtoms, List.length_cons]
    refine ⟨?_, fun m hm => ?_⟩
    · rw [Variable.leastOf_succ]
      exact Nat.add_le_add (Nat.add_le_add_left own.1 _) least
    · obtain ⟨longest, hl, rfl⟩ := Option.map_eq_some_iff.mp hm
      rw [Variable.leastOf_succ]
      exact Nat.add_le_add (Nat.add_le_add_left (own.2 longest hl) _) (greatest _ (by rw [hl]; rfl))

/-- What stands between the delimiters of a repetition somewhere in a derivation. -/
inductive HasInstance : Derivation → Derivation → Prop where
  | repetition {delimiter : Option BitString} {parts : List Derivation} {part : Derivation} (h : part ∈ parts) :
    HasInstance (.repetition delimiter parts) part
  | part {d part e : Derivation} (hp : part ∈ d.parts) (h : HasInstance part e) : HasInstance d e
  | choice {index : Nat} {inner e : Derivation} (h : HasInstance inner e) : HasInstance (.choice index inner) e

/-- No instance of a repetition in a derivation is empty. -/
def Solid (value : VarId → BitString) (d : Derivation) : Prop :=
  ∀ e, d.HasInstance e → (e.bits value).length ≠ 0

/-- An instance has its place in the atoms of the repetition. -/
theorem mem_joined {x : Atom} {part : Derivation} (hp : part ∈ parts) (hx : x ∈ part.atoms) (isFirst : Bool) :
    x ∈ joined delimiter isFirst (atomsAll parts) := by
  induction parts generalizing isFirst with
  | nil => cases hp
  | cons other rest ih =>
    rw [atomsAll, joined, List.mem_append, List.mem_append]
    rcases List.mem_cons.mp hp with rfl | hp
    · exact Or.inl (Or.inr hx)
    · exact Or.inr (ih hp false)

/-- An instance is part of the derivation. -/
theorem HasInstance.atoms_subset {d e : Derivation} (h : d.HasInstance e) : e.atoms ⊆ d.atoms := by
  induction h with
  | repetition h => exact fun x hx => mem_joined h hx true
  | @part d part e hp _ ih =>
    cases d with
    | sequence parts =>
      exact fun x hx => List.mem_flatten.mpr ⟨part.atoms, Variable.mem_atomsAll.mpr ⟨part, hp, rfl⟩, ih hx⟩
    | repetition delimiter parts => exact fun x hx => mem_joined hp (ih hx) true
    | leaf | relation | choice => cases hp
  | choice _ ih => exact ih

/-- Instances with the delimiters between them are a multiple of a unit if all of these are. -/
theorem dvd_joined (each : ∀ part ∈ parts, n ∣ (part.bits value).length)
    (hd : n ∣ Variable.delimiterLength delimiter) (isFirst : Bool) :
    n ∣ (Atom.fill value (joined delimiter isFirst (atomsAll parts))).length := by
  induction parts generalizing isFirst with
  | nil => exact Nat.dvd_zero n
  | cons part rest ih =>
    obtain ⟨own, each⟩ := List.forall_mem_cons.mp each
    rw [atomsAll, joined, Atom.fill_append, Atom.fill_append, BitString.length_append, BitString.length_append,
      length_delimiterAtoms]
    exact Nat.dvd_add (Nat.dvd_add (Nat.dvd_mul_right_of_dvd hd _) own) (ih each false)

end Derivation

namespace Variable

open Derivation

variable {leaf : LeafRule} {counts : RepeatCount → Nat → Prop} {v : Variable} {d e : Derivation}

/-- An instance is a derivation of a child that is repeated. -/
theorem Fits.exists_repeated (h : Fits leaf counts v d) (he : d.HasInstance e) :
    ∃ id name child count delimiter, .repetition id name child count delimiter ∈ v.preorder ∧
      Fits leaf counts child e := by
  induction v using Variable.induct generalizing d with
  | data id name type scope =>
    obtain ⟨bits, rfl, -⟩ := h
    cases he with
    | part hp => cases hp
  | relation r =>
    obtain rfl : d = .relation r.id := h
    cases he with
    | part hp => cases hp
  | choice id name children ih =>
    obtain ⟨index, inner, rfl, hn⟩ := h
    obtain ⟨c, hc, hf⟩ := fitsNth_iff.mp hn
    have hm := List.mem_of_getElem? hc
    cases he with
    | part hp => cases hp
    | choice he =>
      obtain ⟨i, n, child, count, delimiter, hr, hf⟩ := ih c hm hf he
      exact ⟨i, n, child, count, delimiter, List.mem_cons_of_mem _ (preorder_subset_of_mem hm hr), hf⟩
  | sequence id name children ih =>
    obtain ⟨parts, rfl, hp⟩ := h
    cases he with
    | part hpart he =>
      obtain ⟨c, hc, hf⟩ := hp.exists_of_mem hpart
      obtain ⟨i, n, child, count, delimiter, hr, hf⟩ := ih c hc hf he
      exact ⟨i, n, child, count, delimiter, List.mem_cons_of_mem _ (preorder_subset_of_mem hc hr), hf⟩
  | repetition id name child count delimiter ih =>
    obtain ⟨parts, rfl, -, hp⟩ := h
    cases he with
    | repetition hpart => exact ⟨id, name, child, count, delimiter, self_mem_preorder _, hp _ hpart⟩
    | part hpart he =>
      obtain ⟨i, n, child, count, delimiter, hr, hf⟩ := ih (hp _ hpart) he
      exact ⟨i, n, child, count, delimiter, List.mem_cons_of_mem _ hr, hf⟩

section Within

variable {value : VarId → BitString}

theorem FitsAll.within {children : List Variable} {parts : List Derivation}
    (one : ∀ c ∈ children, ∀ d ∈ parts, Fits leaf counts c d → Within c.bounds (d.bits value).length)
    (h : FitsAll leaf counts children parts) :
    Within (sequenceBounds (boundsAll children)) (Atom.fill value (atomsAll parts).flatten).length := by
  induction children generalizing parts with
  | nil =>
    obtain rfl : parts = [] := h
    exact ⟨Nat.le_refl _, fun greatest _ => Nat.zero_le greatest⟩
  | cons c more ih =>
    obtain ⟨d, rest, rfl, hd, hr⟩ := h
    rw [atomsAll, List.flatten_cons, Atom.fill_append, BitString.length_append, boundsAll]
    refine within_sequenceBounds (one c List.mem_cons_self d List.mem_cons_self hd) (ih (fun c hc d hd => ?_) hr)
    exact one c (List.mem_cons_of_mem _ hc) d (List.mem_cons_of_mem _ hd)

theorem FitsAll.dvd {children : List Variable} {parts : List Derivation}
    (one : ∀ c ∈ children, ∀ d ∈ parts, Fits leaf counts c d → n ∣ (d.bits value).length)
    (h : FitsAll leaf counts children parts) : n ∣ (Atom.fill value (atomsAll parts).flatten).length := by
  induction children generalizing parts with
  | nil =>
    obtain rfl : parts = [] := h
    exact Nat.dvd_zero n
  | cons c more ih =>
    obtain ⟨d, rest, rfl, hd, hr⟩ := h
    rw [atomsAll, List.flatten_cons, Atom.fill_append, BitString.length_append]
    refine Nat.dvd_add (one c List.mem_cons_self d List.mem_cons_self hd) (ih (fun c hc d hd => ?_) hr)
    exact one c (List.mem_cons_of_mem _ hc) d (List.mem_cons_of_mem _ hd)

/-- A derivation is as long as the bounds of the variable allow, if its leaves and the values of its relations are. -/
theorem Fits.within (leaves : ∀ {id type scope bits}, leaf id type scope bits → Within type.bounds bits.length)
    (inRange : ∀ {count k}, counts count k → count.least ≤ k ∧ k < count.stop)
    (relations : ∀ r, .relation r ∈ v.preorder → .slot r.id ∈ d.atoms → Within r.type.bounds (value r.id).length)
    (h : Fits leaf counts v d) : Within v.bounds (d.bits value).length := by
  induction v using Variable.induct generalizing d with
  | data id name type scope =>
    obtain ⟨bits, rfl, hb⟩ := h
    rw [Derivation.bits, Derivation.atoms, Atom.fill_ofBits]
    exact leaves hb
  | relation r =>
    obtain rfl : d = .relation r.id := h
    rw [Derivation.bits, Derivation.atoms, Atom.fill_slot]
    exact relations r (self_mem_preorder _) (List.mem_singleton_self _)
  | choice id name children ih =>
    obtain ⟨index, inner, rfl, hn⟩ := h
    obtain ⟨c, hc, hf⟩ := fitsNth_iff.mp hn
    have hm := List.mem_of_getElem? hc
    have own : Within c.bounds (inner.bits value).length :=
      ih c hm (fun r hr => relations r (List.mem_cons_of_mem _ (preorder_subset_of_mem hm hr))) hf
    refine within_choiceBounds ?_ own
    rw [boundsAll_eq]
    exact List.mem_map_of_mem hm
  | sequence id name children ih =>
    obtain ⟨parts, rfl, hp⟩ := h
    refine hp.within fun c hc d hd hf => ih c hc (fun r hr hs => ?_) hf
    refine relations r (List.mem_cons_of_mem _ (preorder_subset_of_mem hc hr)) ?_
    exact List.mem_flatten.mpr ⟨d.atoms, mem_atomsAll.mpr ⟨d, hd, rfl⟩, hs⟩
  | repetition id name child count delimiter ih =>
    obtain ⟨parts, rfl, hk, hp⟩ := h
    obtain ⟨least, below⟩ := inRange hk
    have each (part : Derivation) (hpart : part ∈ parts) : Within child.bounds (part.bits value).length :=
      ih (fun r hr hs => relations r (List.mem_cons_of_mem _ hr) (mem_joined hpart hs true)) (hp part hpart)
    obtain ⟨shortest, longest⟩ : Within _ (Atom.fill value (joined delimiter true (atomsAll parts))).length :=
      within_joined each true
    refine ⟨(repeated_le_repeated least).trans shortest, fun greatest hg => ?_⟩
    obtain ⟨m, hm, rfl⟩ := Option.map_eq_some_iff.mp hg
    exact (longest _ (by rw [hm]; rfl)).trans (repeated_le_repeated (Nat.le_sub_one_of_lt below))

/-- A derivation is a multiple of a unit if its leaves, its delimiters and the values of its relations are. -/
theorem Fits.dvd (leaves : ∀ {id name type scope bits}, .data id name type scope ∈ v.preorder →
      leaf id type scope bits → n ∣ bits.length)
    (delimiters : ∀ {id name child count delimiter}, .repetition id name child count delimiter ∈ v.preorder →
      n ∣ delimiterLength delimiter)
    (relations : ∀ r, .relation r ∈ v.preorder → .slot r.id ∈ d.atoms → n ∣ (value r.id).length)
    (h : Fits leaf counts v d) : n ∣ (d.bits value).length := by
  induction v using Variable.induct generalizing d with
  | data id name type scope =>
    obtain ⟨bits, rfl, hb⟩ := h
    rw [Derivation.bits, Derivation.atoms, Atom.fill_ofBits]
    exact leaves (self_mem_preorder _) hb
  | relation r =>
    obtain rfl : d = .relation r.id := h
    rw [Derivation.bits, Derivation.atoms, Atom.fill_slot]
    exact relations r (self_mem_preorder _) (List.mem_singleton_self _)
  | choice id name children ih =>
    obtain ⟨index, inner, rfl, hn⟩ := h
    obtain ⟨c, hc, hf⟩ := fitsNth_iff.mp hn
    have below {w : Variable} (hw : w ∈ c.preorder) : w ∈ (Variable.choice id name children).preorder :=
      List.mem_cons_of_mem _ (preorder_subset_of_mem (List.mem_of_getElem? hc) hw)
    have own : n ∣ (inner.bits value).length :=
      ih c (List.mem_of_getElem? hc) (fun hl => leaves (below hl)) (fun hr => delimiters (below hr))
        (fun r hr => relations r (below hr)) hf
    exact own
  | sequence id name children ih =>
    obtain ⟨parts, rfl, hp⟩ := h
    have one (c : Variable) (hc : c ∈ children) (e : Derivation) (he : e ∈ parts) (hf : Fits leaf counts c e) :
        n ∣ (e.bits value).length := by
      have below {w : Variable} (hw : w ∈ c.preorder) : w ∈ (Variable.sequence id name children).preorder :=
        List.mem_cons_of_mem _ (preorder_subset_of_mem hc hw)
      refine ih c hc (fun hl => leaves (below hl)) (fun hr => delimiters (below hr)) (fun r hr hs => ?_) hf
      exact relations r (below hr) (List.mem_flatten.mpr ⟨e.atoms, mem_atomsAll.mpr ⟨e, he, rfl⟩, hs⟩)
    exact hp.dvd one
  | repetition id name child count delimiter ih =>
    obtain ⟨parts, rfl, -, hp⟩ := h
    refine dvd_joined (fun part hpart => ?_) (delimiters (self_mem_preorder _)) true
    exact ih (fun hl => leaves (List.mem_cons_of_mem _ hl)) (fun hr => delimiters (List.mem_cons_of_mem _ hr))
      (fun r hr hs => relations r (List.mem_cons_of_mem _ hr) (mem_joined hpart hs true)) (hp part hpart)

end Within

end Variable

end WireGrammar
