import Mathlib.Data.List.Forall2
import WireGrammar.Proofs.Assignment.Known
import WireGrammar.Proofs.Interpretation.Derivation
import WireGrammar.Proofs.Interpretation.Steps

/-!
# Interpretations are derivations

The interpretations of a plain variable correspond one to one, in order, to its derivations from the bits at the
offset (`interpret_forall₂`). The counts of a repetition that are not tried have no derivation, for a derivation is at
least as long as the bounds say (`counts_complete`). An assignment in which no relation waits need not be compared;
what matters is only that the comparisons on the way change nothing (`Assignment.Idle`).
-/

namespace WireGrammar

/-! ## Lists that correspond -/

section Lists

variable {α β γ δ : Type} {R : α → β → Prop} {S : γ → δ → Prop} {xs : List α} {ys : List β}

theorem forall₂_flatMap (h : List.Forall₂ R xs ys) {f : α → List γ} {g : β → List δ}
    (hf : ∀ x, ∀ y ∈ ys, R x y → List.Forall₂ S (f x) (g y)) : List.Forall₂ S (xs.flatMap f) (ys.flatMap g) := by
  induction h with
  | nil => exact .nil
  | cons hr _ ih =>
    rw [List.flatMap_cons, List.flatMap_cons]
    exact List.rel_append (hf _ _ List.mem_cons_self hr) (ih fun x y hy => hf x y (List.mem_cons_of_mem _ hy))

/-- The same when only some elements on the right have results, and those that correspond to the others have none. -/
theorem forall₂_flatMap_filter (h : List.Forall₂ R xs ys) {f : α → List γ} {keep : β → Bool} {g : β → List δ}
    (hf : ∀ x, ∀ y ∈ ys, R x y → keep y = true → List.Forall₂ S (f x) (g y))
    (he : ∀ x, ∀ y ∈ ys, R x y → keep y = false → f x = []) :
    List.Forall₂ S (xs.flatMap f) ((ys.filter keep).flatMap g) := by
  induction h with
  | nil => exact .nil
  | @cons x y xs ys hr _ ih =>
    have rest := ih (fun x y hy => hf x y (List.mem_cons_of_mem _ hy)) fun x y hy => he x y (List.mem_cons_of_mem _ hy)
    rw [List.flatMap_cons, List.filter_cons]
    cases hk : keep y with
    | true => exact List.rel_append (hf x y List.mem_cons_self hr hk) rest
    | false =>
      rw [he x y List.mem_cons_self hr hk]
      exact rest

theorem forall₂_filterMap_map (h : List.Forall₂ R xs ys) {f : α → Option γ} {g : β → δ}
    (hf : ∀ x, ∀ y ∈ ys, R x y → ∃ z, f x = some z ∧ S z (g y)) :
    List.Forall₂ S (xs.filterMap f) (ys.map g) := by
  induction h with
  | nil => exact .nil
  | cons hr _ ih =>
    obtain ⟨z, hz, hs⟩ := hf _ _ List.mem_cons_self hr
    rw [List.filterMap_cons_some hz, List.map_cons]
    exact .cons hs (ih fun x y hy => hf x y (List.mem_cons_of_mem _ hy))

theorem rel_toList {x : Option α} {y : Option β} (h : Option.Rel R x y) : List.Forall₂ R x.toList y.toList := by
  cases h with
  | some h => exact .cons h .nil
  | none => exact .nil

theorem forall₂_filterMap {f : α → Option γ} {g : α → Option δ} (xs : List α)
    (hf : ∀ x ∈ xs, Option.Rel S (f x) (g x)) : List.Forall₂ S (xs.filterMap f) (xs.filterMap g) := by
  induction xs with
  | nil => exact .nil
  | cons x xs ih =>
    have hx := hf x List.mem_cons_self
    have rest := ih fun y hy => hf y (List.mem_cons_of_mem _ hy)
    rw [List.filterMap_cons, List.filterMap_cons]
    cases hfx : f x <;> cases hgx : g x <;> rw [hfx, hgx] at hx <;> cases hx
    · exact rest
    case some.some.some hs => exact .cons hs rest

/-- What is kept of results joined is joined from what is kept on the way to them. -/
theorem filter_flatMap_map {ε : Type} {ys : List β} {g : β → List δ} {join : β → δ → ε} {p : β → Bool}
    {q : β → δ → Bool} {r : ε → Bool} (h : ∀ y ∈ ys, ∀ z ∈ g y, r (join y z) = (p y && q y z)) :
    (ys.flatMap fun y => (g y).map (join y)).filter r =
      (ys.filter p).flatMap fun y => ((g y).filter (q y)).map (join y) := by
  induction ys with
  | nil => rfl
  | cons y ys ih =>
    have own : ((g y).map (join y)).filter r = if p y then ((g y).filter (q y)).map (join y) else [] := by
      rw [List.filter_map]
      split
      next hp =>
        refine congrArg (List.map (join y)) (List.filter_congr fun z hz => ?_)
        rw [Function.comp_apply, h y List.mem_cons_self z hz, hp, Bool.true_and]
      next hp =>
        rw [List.map_eq_nil_iff, List.filter_eq_nil_iff]
        intro z hz
        rw [Function.comp_apply, h y List.mem_cons_self z hz, eq_false_of_ne_true hp, Bool.false_and]
        exact Bool.false_ne_true
    rw [List.flatMap_cons, List.filter_append, own, ih fun y hy => h y (List.mem_cons_of_mem _ hy), List.filter_cons]
    split
    · rw [List.flatMap_cons]
    · rw [List.nil_append]

theorem forall₂_and_mem (h : List.Forall₂ R xs ys) : List.Forall₂ (fun x y => R x y ∧ y ∈ ys) xs ys := by
  induction h with
  | nil => exact .nil
  | cons hr _ ih =>
    exact .cons ⟨hr, List.mem_cons_self⟩ (ih.imp fun _ _ h => ⟨h.1, List.mem_cons_of_mem _ h.2⟩)

end Lists

/-! ## Values learned -/

namespace Assignment

variable {a : Assignment}

theorem learned_learnFresh (scope : Scope) (id : VarId) (value : BitString) :
    (a.learnFresh scope id value).learned = if scope = .volatile then a.learned else (id, value) :: a.learned := by
  unfold learnFresh
  split <;> rfl

theorem pending_learnFresh (scope : Scope) (id : VarId) (value : BitString) :
    (a.learnFresh scope id value).pending = a.pending := by
  unfold learnFresh
  split <;> rfl

end Assignment

/-! ## Interpretations and derivations -/

namespace Reading

open Assignment Variable

variable {reading : Reading} {w : Variable} {a b : Assignment} {offset : Nat}

/-- What interpreting a variable does to an assignment, as a derivation of it says. -/
structure Realizes (v : Variable) (a b : Assignment) (p : Parse Derivation) : Prop where
  grows : Grows v.ids a b
  pending : b.pending = a.pending
  learned : b.learned = p.learned
  bits : ∃ bits, p.result.atoms = Atom.ofBits bits ∧ b.Spells v.id bits

/-- What was derived is what is recorded, and the next bits are those that the derivation leaves. -/
theorem next_of_spells (reading : Reading) {v : Variable} {p : Parse Derivation} {least : Nat}
    (h : ∃ bits, p.result.atoms = Atom.ofBits bits ∧ b.Spells v.id bits)
    (hp : Front p.result.atoms (reading.data.toList.drop offset) p.rest least) (ho : offset ≤ reading.data.length) :
    reading.data.toList.drop (offset + b.consumed v) = p.rest ∧ offset + b.consumed v ≤ reading.data.length ∧
      b.consumed v + p.rest.length = (reading.data.toList.drop offset).length := by
  obtain ⟨bits, hbits, hr, -⟩ := hp
  obtain ⟨bits', hbits', hs⟩ := h
  obtain rfl : bits = bits' := Atom.ofBits_injective (hbits.symm.trans hbits')
  have hn : b.consumed v = bits.length := by
    rw [consumed, hs.length?, Option.getD_some]
  have hl := congrArg List.length hr
  rw [List.length_drop, List.length_append, BitString.length_toList, BitString.length_toList] at hl
  refine ⟨?_, by omega, ?_⟩
  · rw [hn, ← List.drop_drop, hr, ← BitString.length_toList, List.drop_left]
  · rw [hn, List.length_drop, BitString.length_toList]
    omega

theorem Realizes.remembers {v : Variable} {p : Parse Derivation} (h : Realizes v a b p)
    (hk : w.Remembers (a.committed.knownWith p.learned)) : w.Remembers b.known? := by
  rwa [← h.grows.committed, ← h.learned] at hk

theorem bitsAt_eq {n : Nat} :
    reading.bitsAt offset n = BitString.ofList ((reading.data.toList.drop offset).take n) := by
  apply BitString.toList_injective
  rw [bitsAt, BitString.toList_slice, BitString.toList_ofList, List.drop_take, Nat.add_sub_cancel_left]

theorem matchesAt_iff_behind? {value : BitString} (ho : offset ≤ reading.data.length) :
    value.matchesAt reading.data offset = true ↔ (behind? value (reading.data.toList.drop offset)).isSome := by
  rw [Option.isSome_iff_exists]
  simp only [behind?_eq_some_iff, BitString.matchesAt_iff]
  have slice : (reading.data.slice offset (offset + value.length)).toList = (reading.data.toList.drop offset).take value.length := by
    rw [BitString.toList_slice, List.drop_take, Nat.add_sub_cancel_left]
  constructor
  · rintro ⟨-, hs⟩
    refine ⟨(reading.data.toList.drop offset).drop value.length, ?_⟩
    conv_lhs => rw [← List.take_append_drop value.length (reading.data.toList.drop offset)]
    rw [← slice, hs]
  · rintro ⟨left, hl⟩
    have hn := congrArg List.length hl
    rw [List.length_drop, List.length_append, BitString.length_toList, BitString.length_toList] at hn
    refine ⟨by omega, BitString.toList_injective ?_⟩
    rw [slice, hl, ← BitString.length_toList value, List.take_left]

/-- Fresh bits for a leaf are those that it derives, as long as the same are kept. -/
theorem fresh_forall₂ {type : DataType} {S : Assignment → Parse Derivation → Prop} {f : BitString → Option Assignment}
    {l : BitString → Values} {k : Derivation → Bool}
    (step : ∀ value left, reading.data.toList.drop offset = value.toList ++ left → type.accepts value = true →
      Option.Rel S (f value) (Option.guard (k ·.result) ⟨.leaf value, l value, left⟩)) :
    List.Forall₂ S
      ((type.candidateLengths (reading.remaining offset)).filterMap fun n =>
        if type.accepts (reading.bitsAt offset n) then f (reading.bitsAt offset n) else none)
      (((List.range ((reading.data.toList.drop offset).length + 1)).reverse.filterMap fun n =>
        let bits := BitString.ofList ((reading.data.toList.drop offset).take n)
        if type.accepts bits then some ⟨.leaf bits, l bits, (reading.data.toList.drop offset).drop n⟩
        else none).filter (k ·.result)) := by
  have remaining : reading.remaining offset = (reading.data.toList.drop offset).length := by
    rw [List.length_drop, BitString.length_toList]
    rfl
  rw [DataType.candidateLengths_eq, List.filterMap_filter, remaining, List.filter_filterMap]
  refine forall₂_filterMap _ fun n hn => ?_
  rw [List.mem_reverse, List.mem_range] at hn
  dsimp only
  rw [bitsAt_eq]
  generalize hv : BitString.ofList ((reading.data.toList.drop offset).take n) = value
  have hl : value.length = n := by
    rw [← hv, BitString.length_ofList, List.length_take]
    omega
  by_cases ha : type.accepts value = true
  · rw [if_pos (hl ▸ DataType.acceptsLength_of_accepts ha), if_pos ha, if_pos ha]
    refine step value _ ?_ ha
    rw [← hv, BitString.toList_ofList, List.take_append_drop]
  · rw [if_neg ha, if_neg ha, ite_self]
    exact .none

/--
The interpretations of a leaf are what it derives, as far as that is kept: the comparison behind a record succeeds for
what is kept, and fails for what is not.
-/
theorem interpretData_kept {id : VarId} {type : DataType} {scope : Scope} {S : Assignment → Parse Derivation → Prop}
    {k : Derivation → Bool} (ho : offset ≤ reading.data.length)
    (step : ∀ {b value p}, Grows [id] a b → b.pending = a.pending → b.learned = p.learned → p.result = .leaf value →
      Option.Rel S (b.record id (.ofBits value)).verified? (Option.guard (k ·.result) p)) :
    List.Forall₂ S (reading.interpretData id type scope a offset).toList
      ((leafDerivations a.committed id type scope a.learned (reading.data.toList.drop offset)).filter
        (k ·.result)) := by
  unfold leafDerivations
  split
  next value h =>
    rw [toList_interpretData_replay (show a.replayed? id type scope = some value from h)]
    cases hb : behind? value (reading.data.toList.drop offset) with
    | none =>
      rw [if_neg]
      · exact .nil
      · rw [matchesAt_iff_behind? ho, hb]
        exact Bool.false_ne_true
    | some left =>
      rw [if_pos ((matchesAt_iff_behind? ho).mpr (by rw [hb]; rfl))]
      have one := step (p := ⟨.leaf value, a.learned, left⟩) (Grows.refl _ a) rfl rfl rfl
      have single : (([left] : List (List Bool)).map fun rest => (⟨.leaf value, a.learned, rest⟩ : Parse Derivation)).filter
          (k ·.result) = (Option.guard (k ·.result) ⟨.leaf value, a.learned, left⟩).toList := by
        rw [List.map_singleton, List.filter_singleton, Option.guard_eq_ite]
        cases k (.leaf value) <;> rfl
      rw [Option.toList_some, single]
      exact rel_toList one
  next h =>
    have h : a.replayed? id type scope = none := h
    split
    next hs =>
      subst hs
      rw [toList_interpretData_constant h]
      exact .nil
    next hs =>
      rw [toList_interpretData_fresh h hs]
      refine fresh_forall₂ (l := fun bits => if scope = .volatile then a.learned else (id, bits) :: a.learned)
        (f := fun value => ((a.learnFresh scope id value).record id (.ofBits value)).verified?) fun value left _ _ => ?_
      exact step ((Grows.refl _ a).learnFresh List.mem_cons_self _ _) (pending_learnFresh scope id value)
        (learned_learnFresh scope id value) rfl

theorem interpretData_forall₂ {id : VarId} {name : String} {type : DataType} {scope : Scope} (hi : a.Idle [id])
    (ho : offset ≤ reading.data.length) :
    List.Forall₂ (Realizes (.data id name type scope) a)
      (reading.interpretData id type scope a offset).toList
      (leafDerivations a.committed id type scope a.learned (reading.data.toList.drop offset)) := by
  have hid : id ∈ [id] := List.mem_singleton_self id
  rw [← List.filter_true (leafDerivations a.committed id type scope a.learned (reading.data.toList.drop offset))]
  refine interpretData_kept (k := fun _ => true) ho fun {b value p} hb hp hl hv => ?_
  rw [hi.verified? (hb.record hid _) hp]
  refine .some ⟨?_, hp, hl, value, ?_, ?_⟩
  · rw [ids_data]
    exact hb.record hid _
  · rw [hv, Derivation.atoms]
  · exact .content (entry?_record_self id _) (Content.atoms_ofBits value)

/-! ### Nodes -/

/-- What was derived for children stays known as long as nothing is recorded for them. -/
theorem spelled_grows {children : List Variable} {parts : List Derivation} {c : Assignment} {ids : List VarId}
    (h : List.Forall₂ (fun c d => ∃ bits, d.atoms = Atom.ofBits bits ∧ b.Spells c.id bits) children parts)
    (hg : Grows ids b c) (apart : ∀ v ∈ children, v.id ∉ ids) (hp : c.pending ⊆ b.pending) :
    List.Forall₂ (fun v d => ∃ bits, d.atoms = Atom.ofBits bits ∧ c.Spells v.id bits) children parts := by
  induction h with
  | nil => exact .nil
  | cons hd _ ih =>
    obtain ⟨bits, ha, hs⟩ := hd
    refine .cons ⟨bits, ha, hs.grows hg (apart _ List.mem_cons_self) hp⟩ (ih fun v hv => ?_)
    exact apart v (List.mem_cons_of_mem _ hv)

/-- What interpreting the children of a sequence does to an assignment, as derivations of them say. -/
structure RealizesAll (children : List Variable) (a b : Assignment) (p : Parse (List Derivation)) : Prop where
  grows : Grows (idsOf children) a b
  pending : b.pending = a.pending
  learned : b.learned = p.learned
  bits : List.Forall₂ (fun c d => ∃ bits, d.atoms = Atom.ofBits bits ∧ b.Spells c.id bits) children p.result

namespace RealizesAll

variable {children more : List Variable} {c : Assignment} {p q : Parse (List Derivation)}

theorem nil (a : Assignment) (rest : List Bool) : RealizesAll [] a a ⟨[], a.learned, rest⟩ :=
  ⟨.refl _ a, rfl, rfl, .nil⟩

theorem single {v : Variable} {p : Parse Derivation} (h : Realizes v a b p) : RealizesAll [v] a b (p.map ([·])) := by
  refine ⟨?_, h.pending, h.learned, .cons h.bits .nil⟩
  rw [idsOf_cons, idsOf_nil, List.append_nil]
  exact h.grows

theorem append (h : RealizesAll children a b p) (h' : RealizesAll more b c q)
    (apart : ∀ v ∈ children, v.id ∉ idsOf more) : RealizesAll (children ++ more) a c (q.map (p.result ++ ·)) := by
  refine ⟨?_, h'.pending.trans h.pending, h'.learned, List.rel_append ?_ h'.bits⟩
  · rw [idsOf_append]
    exact (h.grows.mono (List.subset_append_left _ _)).trans (h'.grows.mono (List.subset_append_right _ _))
  · exact spelled_grows h.bits h'.grows apart (h'.pending ▸ List.Subset.refl _)

/-- The contents of the children, with the values of their relations, are what was derived. -/
theorem contents (h : RealizesAll children a b p) : ∃ contents,
    children.mapM (fun c => b.content? c.id) = some contents ∧
      contents.flatMap (fun c => c.atoms.flatMap b.settleAtom) = (Derivation.atomsAll p.result).flatten := by
  have bits := h.bits
  generalize p.result = parts at bits
  clear h
  induction bits with
  | nil => exact ⟨[], rfl, rfl⟩
  | @cons v d vs ds hd _ ih =>
    obtain ⟨bits, ha, hs⟩ := hd
    obtain ⟨c, hc, hatoms⟩ := hs.content?
    obtain ⟨contents, hm, hflat⟩ := ih
    refine ⟨c :: contents, ?_, ?_⟩
    · rw [List.mapM_cons, hc, hm]
      rfl
    · rw [List.flatMap_cons, hatoms, hflat, ← ha]
      rfl

end RealizesAll

/-- What instances of a child behind a content do to an assignment and that content, as derivations of them say. -/
structure RealizesTimes (child : Variable) (delimiter : Option BitString) (isFirst : Bool) (a : Assignment)
    (before : Content) (x : Assignment × Content) (p : Parse (List Derivation)) : Prop where
  grows : Grows child.ids a x.1
  pending : x.1.pending = a.pending
  learned : x.1.learned = p.learned
  content : x.2.atoms = before.atoms ++ Derivation.joined delimiter isFirst (Derivation.atomsAll p.result)

/-- The interpretations of a variable correspond to its derivations, wherever comparisons change nothing. -/
def Corresponds (reading : Reading) (w v : Variable) : Prop :=
  ∀ {a : Assignment} {offset : Nat}, a.Idle v.ids → w.Remembers a.known? → offset ≤ reading.data.length →
    List.Forall₂ (Realizes v a) (reading.interpret v a offset).toList
      (derivations a.committed v a.learned (reading.data.toList.drop offset))

/-- A node is recorded with the bits that were derived, and the comparison behind it changes nothing. -/
theorem record_realizes {v : Variable} {p : Parse Derivation} {content : Content} {bits : BitString}
    (hg : Grows v.ids a b) (hp : b.pending = a.pending) (hl : b.learned = p.learned) (hi : a.Idle v.ids)
    (hc : content.atoms = Atom.ofBits bits) (hb : p.result.atoms = Atom.ofBits bits) :
    (b.record v.id content).verified? = some (b.record v.id content) ∧ Realizes v a (b.record v.id content) p := by
  have hg := hg.record v.id_mem_ids content
  exact ⟨hi.verified? hg hp, hg, hp, hl, bits, hb, .content (entry?_record_self _ _) hc⟩

/-- The content of a node that is composed of its children. -/
theorem RealizesAll.composed {children real : List Variable} {p : Parse (List Derivation)}
    (h : RealizesAll children a b p) (hreal : real.map Variable.id = children.map Variable.id) : ∃ contents,
      real.mapM (fun c => b.content? c.id) = some contents ∧
        (contents.foldl (fun (content : Content) c => content.append (b.freeze c)) .empty).atoms =
          (Derivation.atomsAll p.result).flatten := by
  obtain ⟨contents, hm, hflat⟩ := h.contents
  have same := congrArg (List.mapM b.content?) hreal
  rw [List.mapM_map, List.mapM_map] at same
  refine ⟨contents, same.trans hm, ?_⟩
  rw [atoms_foldl_freeze, Content.atoms_empty, List.nil_append, hflat]

/-- A node is composed of its children as they were derived. -/
theorem compose_realizes {v : Variable} {children real : List Variable} {p : Parse (List Derivation)}
    {q : Parse Derivation} {bits : BitString} (h : RealizesAll children a b p) (hids : idsOf children ⊆ v.ids)
    (hreal : real.map Variable.id = children.map Variable.id) (hi : a.Idle v.ids)
    (hb : q.result.atoms = Atom.ofBits bits) (hq : q.result.atoms = (Derivation.atomsAll p.result).flatten)
    (hl : q.learned = p.learned) :
    ∃ content, b.compose? v.id real = some (b.record v.id content) ∧ Realizes v a (b.record v.id content) q := by
  obtain ⟨contents, hm, atoms⟩ := h.composed hreal
  obtain ⟨hc, hr⟩ := record_realizes (h.grows.mono hids) h.pending (h.learned.trans hl.symm) hi
    (atoms.trans (hq.symm.trans hb)) hb
  exact ⟨_, compose?_eq_some_iff.mpr ⟨contents, hm, hc⟩, hr⟩

theorem interpretAny_forall₂ (hw : w.IsPlain) {id : VarId} {name : String} {all children : List Variable}
    (hsub : children ⊆ all) (hv : (Variable.choice id name all).preorder ⊆ w.preorder)
    (one : ∀ c ∈ all, Corresponds reading w c) (hi : a.Idle (Variable.choice id name all).ids)
    (hk : w.Remembers a.known?) (ho : offset ≤ reading.data.length) (index : Nat) :
    List.Forall₂ (Realizes (.choice id name all) a) (reading.interpretAny id children a offset).toList
      (derivationsAny a.committed children index a.learned (reading.data.toList.drop offset)) := by
  induction children generalizing index with
  | nil => rw [interpretAny, derivationsAny]; exact .nil
  | cons c more ih =>
    have hc : c ∈ all := hsub List.mem_cons_self
    have hids : c.ids ⊆ (Variable.choice id name all).ids := by
      rw [ids_choice]
      exact fun i hi => List.mem_cons_of_mem _ (ids_subset_of_mem hc hi)
    have hpre : c.preorder ⊆ w.preorder := fun x hx => hv (List.mem_cons_of_mem _ (preorder_subset_of_mem hc hx))
    rw [toList_interpretAny_cons, derivationsAny]
    refine List.rel_append (forall₂_filterMap_map (one c hc (hi.mono hids) hk ho) fun b p hp hr => ?_)
      (ih (fun x hx => hsub (List.mem_cons_of_mem _ hx)) (index + 1))
    obtain ⟨bits, hb, -⟩ := (derivations_sound hw c hpre hk hp).front
    have one : idsOf [c] = c.ids := List.append_nil _
    obtain ⟨content, hc, hr⟩ := compose_realizes (v := .choice id name all) (q := p.map (.choice index)) (.single hr)
      (one ▸ hids) rfl hi hb (List.append_nil _).symm rfl
    exact ⟨_, hc, hr⟩

/-- Children of a sequence that were read up to an offset, where the bits are those that derivations leave. -/
structure ReadsAll (reading : Reading) (children : List Variable) (a : Assignment) (x : Assignment × Nat)
    (p : Parse (List Derivation)) : Prop where
  realizes : RealizesAll children a x.1 p
  within : x.2 ≤ reading.data.length
  rest : reading.data.toList.drop x.2 = p.rest

theorem Realizes.reads {v : Variable} {p : Parse Derivation} {least : Nat} (h : Realizes v a b p)
    (hp : Front p.result.atoms (reading.data.toList.drop offset) p.rest least) (ho : offset ≤ reading.data.length) :
    ReadsAll reading [v] a (b, offset + b.consumed v) (p.map ([·])) := by
  obtain ⟨hrest, hle, -⟩ := next_of_spells reading h.bits hp ho
  exact ⟨.single h, hle, hrest⟩

theorem interpretAll_forall₂ (hw : w.IsPlain) {children : List Variable}
    (hv : ∀ c ∈ children, c.preorder ⊆ w.preorder) (hs : children.Pairwise fun c d => c.id ∉ d.ids)
    (one : ∀ c ∈ children, Corresponds reading w c) (hi : a.Idle (idsOf children)) (hk : w.Remembers a.known?)
    (ho : offset ≤ reading.data.length) :
    List.Forall₂ (ReadsAll reading children a) (reading.interpretAll children a offset).toList
      (derivationsAll a.committed children a.learned (reading.data.toList.drop offset)) := by
  induction children generalizing a offset with
  | nil =>
    rw [toList_interpretAll_nil, derivationsAll]
    exact .cons ⟨.nil a _, ho, rfl⟩ .nil
  | cons c more ih =>
    obtain ⟨hc, hs⟩ := List.pairwise_cons.mp hs
    have hids : c.ids ⊆ idsOf (c :: more) := ids_subset_of_mem List.mem_cons_self
    have hmore : idsOf more ⊆ idsOf (c :: more) := fun i hi => List.mem_append_right _ hi
    rw [toList_interpretAll_cons, derivationsAll]
    refine forall₂_flatMap (one c List.mem_cons_self (hi.mono hids) hk ho) fun b p hp hr => ?_
    have sound := derivations_sound hw c (hv c List.mem_cons_self) hk hp
    have first := hr.reads sound.front ho
    have others := ih (fun d hd => hv d (List.mem_cons_of_mem _ hd)) hs (fun d hd => one d (List.mem_cons_of_mem _ hd))
      ((hi.grows (hr.grows.mono hids) hr.pending).mono hmore) (hr.remembers sound.remembers) first.within
    rw [first.rest, hr.grows.committed, hr.learned] at others
    refine List.forall₂_map_right_iff.mpr (others.imp fun x q hq => ?_)
    refine ⟨first.realizes.append hq.realizes fun v hv hm => ?_, hq.within, hq.rest⟩
    obtain rfl := List.mem_singleton.mp hv
    obtain ⟨d, hd, hid⟩ := mem_idsOf.mp hm
    exact hc d hd hid

/--
Children in a row are interpreted in two parts: what the first part leaves behind decides what is kept of the second.
-/
theorem append_forall₂ {R T : Assignment × Nat → Parse (List Derivation) → Prop}
    {S : Assignment × Nat → Parse (List Derivation) → Assignment × Nat → Parse (List Derivation) → Prop}
    {xs ys xs' ys' : List Variable} {committed : Store} {learned : Values} {rest : List Bool}
    {p : List Derivation → Bool} {q : List Derivation → List Derivation → Bool} {r : List Derivation → Bool}
    (first : List.Forall₂ R (reading.interpretAll xs a offset).toList
      ((derivationsAll committed xs' learned rest).filter (p ·.result)))
    (second : ∀ x, ∀ u ∈ derivationsAll committed xs' learned rest, R x u →
      List.Forall₂ (S x u) (reading.interpretAll ys x.1 x.2).toList
        ((derivationsAll committed ys' u.learned u.rest).filter (q u.result ·.result)))
    (join : ∀ {x u y v}, R x u → S x u y v → T y (v.map (u.result ++ ·)))
    (hr : ∀ ds es, ds.length = xs'.length → r (ds ++ es) = (p ds && q ds es)) :
    List.Forall₂ T (reading.interpretAll (xs ++ ys) a offset).toList
      ((derivationsAll committed (xs' ++ ys') learned rest).filter (r ·.result)) := by
  rw [toList_interpretAll_append, derivationsAll_append, filter_flatMap_map (p := (p ·.result))
    (q := fun u v => q u.result v.result) fun u hu v _ => hr u.result v.result (length_of_mem_derivationsAll hu)]
  refine forall₂_flatMap first fun x u hu hx => ?_
  refine List.forall₂_map_right_iff.mpr ((second x u (List.mem_filter.mp hu).1 hx).imp fun y v hy => ?_)
  exact join hx hy

/-- One child is interpreted as the variable itself. -/
theorem single_forall₂ {R : Assignment → Parse Derivation → Prop} {T : Assignment × Nat → Parse (List Derivation) → Prop}
    {v plain : Variable} {committed : Store} {learned : Values} {rest : List Bool} {k : Derivation → Bool}
    {r : List Derivation → Bool}
    (one : List.Forall₂ R (reading.interpret v a offset).toList
      ((derivations committed plain learned rest).filter (k ·.result)))
    (step : ∀ b, ∀ p ∈ derivations committed plain learned rest, R b p →
      T (b, offset + b.consumed v) (p.map ([·])))
    (hr : ∀ d, r [d] = k d) :
    List.Forall₂ T (reading.interpretAll [v] a offset).toList
      ((derivationsAll committed [plain] learned rest).filter (r ·.result)) := by
  have left : (reading.interpretAll [v] a offset).toList =
      (reading.interpret v a offset).toList.map fun b => (b, offset + b.consumed v) := by
    rw [toList_interpretAll_cons, List.map_eq_flatMap]
    exact List.flatMap_congr fun b _ => toList_interpretAll_nil
  have right : derivationsAll committed [plain] learned rest =
      (derivations committed plain learned rest).map (·.map ([·])) := by
    rw [derivationsAll, List.map_eq_flatMap]
    rfl
  have kept : ((r ·.result) ∘ fun p : Parse Derivation => p.map ([·])) = (k ·.result) := by
    funext p
    exact hr p.result
  rw [left, right, List.filter_map, kept]
  refine List.forall₂_map_left_iff.mpr (List.forall₂_map_right_iff.mpr ((forall₂_and_mem one).imp fun b p h => ?_))
  exact step b p (List.mem_filter.mp h.2).1 h.1

/-- A delimiter that is passed in the data stands before the bits of a derivation as well. -/
theorem behindDelimiter?_eq_some {delimiter : Option BitString} {isFirst : Bool} {before behind : Content} {start : Nat}
    (ho : offset ≤ reading.data.length)
    (h : reading.passDelimiter? delimiter isFirst offset before = some (start, behind)) :
    start ≤ reading.data.length ∧
      behindDelimiter? delimiter isFirst (reading.data.toList.drop offset) = some (reading.data.toList.drop start) ∧
      behind.atoms = before.atoms ++ Derivation.delimiterAtoms delimiter isFirst := by
  have here (h : (offset, before) = (start, behind)) : start ≤ reading.data.length ∧
      some (reading.data.toList.drop offset) = some (reading.data.toList.drop start) ∧
      behind.atoms = before.atoms ++ [] := by
    cases h
    exact ⟨ho, rfl, (List.append_nil _).symm⟩
  cases isFirst with
  | true => cases delimiter <;> exact here (Option.some.inj h)
  | false =>
    cases delimiter with
    | none => exact here (Option.some.inj h)
    | some d =>
      obtain ⟨hm, hd⟩ := Option.ite_none_right_eq_some.mp h
      cases hd
      obtain ⟨left, hl⟩ := Option.isSome_iff_exists.mp ((matchesAt_iff_behind? ho).mp hm)
      refine ⟨(BitString.matchesAt_iff.mp hm).1, ?_, Content.atoms_pushBits _ _⟩
      change behind? d _ = _
      rw [hl, ← List.drop_drop, behind?_eq_some_iff.mp hl, ← BitString.length_toList, List.drop_left]

theorem behindDelimiter?_eq_none {delimiter : Option BitString} {isFirst : Bool} {before : Content}
    (ho : offset ≤ reading.data.length) (h : reading.passDelimiter? delimiter isFirst offset before = none) :
    behindDelimiter? delimiter isFirst (reading.data.toList.drop offset) = none := by
  cases isFirst with
  | true => cases delimiter <;> cases h
  | false =>
    cases delimiter with
    | none => cases h
    | some d =>
      change behind? d _ = none
      cases hb : behind? d (reading.data.toList.drop offset) with
      | none => rfl
      | some left =>
        have hm : d.matchesAt reading.data offset = true := (matchesAt_iff_behind? ho).mpr (by rw [hb]; rfl)
        simp [passDelimiter?, hm] at h

/-- Whether all derivations are kept, where it depends on those before which are. -/
def keepsAll {σ : Type} (keep : σ → Derivation → Bool) (next : σ → Derivation → σ) : σ → List Derivation → Bool
  | _, [] => true
  | state, d :: rest => keep state d && keepsAll keep next (next state d) rest

/--
The interpretations of a child, which may have relations, correspond to derivations of a plain variable in its place:
to those that are kept in a state. Each interpretation ends in the next state.
-/
def CorrespondsIn {σ : Type} (reading : Reading) (w child plain : Variable) (In : σ → Assignment → Prop)
    (keep : σ → Derivation → Bool) (next : σ → Derivation → σ) : Prop :=
  ∀ (a : Assignment) (state : σ) (offset : Nat), In state a → a.Idle plain.ids → w.Remembers a.known? →
    offset ≤ reading.data.length →
      List.Forall₂ (fun b p => Realizes plain a b p ∧ In (next state p.result) b)
        (reading.interpret child a offset).toList
        ((derivations a.committed plain a.learned (reading.data.toList.drop offset)).filter (keep state ·.result))

theorem Corresponds.always {v : Variable} (h : Corresponds reading w v) :
    CorrespondsIn reading w v v (fun (_ : Unit) _ => True) (fun _ _ => true) fun _ _ => () := by
  intro a state offset _ hi hk ho
  rw [List.filter_true]
  exact (h hi hk ho).imp fun b p hr => ⟨hr, trivial⟩

theorem keepsAll_always (parts : List Derivation) :
    keepsAll (fun (_ : Unit) _ => true) (fun _ _ => ()) () parts = true := by
  induction parts with
  | nil => rfl
  | cons d rest ih => exact ih

theorem instances_forall₂ {σ : Type} {In : σ → Assignment → Prop} {keep : σ → Derivation → Bool}
    {next : σ → Derivation → σ} {state : σ} (hw : w.IsPlain) {child plain : Variable} (hid : child.id = plain.id)
    (hv : plain.preorder ⊆ w.preorder) (one : CorrespondsIn reading w child plain In keep next) (hin : In state a)
    (hi : a.Idle plain.ids) (hk : w.Remembers a.known?) (ho : offset ≤ reading.data.length)
    (delimiter : Option BitString) (k : Nat) (isFirst : Bool) (before : Content) :
    List.Forall₂ (RealizesTimes plain delimiter isFirst a before)
      (reading.instances (reading.interpret child) child delimiter k isFirst a offset before).toList
      ((derivationsTimes (derivations a.committed plain) delimiter k isFirst a.learned
        (reading.data.toList.drop offset)).filter (keepsAll keep next state ·.result)) := by
  induction k generalizing a state offset isFirst before with
  | zero =>
    rw [toList_instances_zero, derivationsTimes]
    refine .cons ⟨Grows.refl _ a, rfl, rfl, ?_⟩ .nil
    rw [Derivation.atomsAll, Derivation.joined, List.append_nil]
  | succ k ih =>
    rw [toList_instances_succ, derivationsTimes]
    cases hp : reading.passDelimiter? delimiter isFirst offset before with
    | none =>
      rw [behindDelimiter?_eq_none ho hp]
      exact .nil
    | some q =>
      obtain ⟨start, behind⟩ := q
      obtain ⟨hs, hrest, hbehind⟩ := behindDelimiter?_eq_some ho hp
      rw [hrest, Option.toList_some, List.flatMap_cons, List.flatMap_nil, List.append_nil,
        filter_flatMap_map (p := (keep state ·.result))
          (q := fun p q => keepsAll keep next (next state p.result) q.result) fun _ _ _ _ => rfl,
        List.filter_comm]
      refine forall₂_flatMap_filter (one _ _ _ hin hi hk hs) (fun b p hp hr hlt => ?_) fun b p hp hr hlt => ?_
      · obtain ⟨hr, hin⟩ := hr
        have sound := derivations_sound hw plain hv hk (List.mem_filter.mp hp).1
        obtain ⟨hrest, ho', hl⟩ := next_of_spells reading hr.bits sound.front hs
        obtain ⟨bits, hb, hspells⟩ := hr.bits
        obtain ⟨content, he, ha⟩ := hspells.content?
        have hn : b.consumed child = b.consumed plain := by rw [consumed, consumed, hid]
        rw [decide_eq_true_eq] at hlt
        rw [toList_afterInstance (by omega) (hid ▸ he), hn]
        have others := ih hin (hi.grows hr.grows hr.pending) (hr.remembers sound.remembers) ho' false
          (behind.append (b.freeze content))
        rw [hrest, hr.grows.committed, hr.learned] at others
        refine List.forall₂_map_right_iff.mpr (others.imp fun x q hq => ?_)
        refine ⟨hr.grows.trans hq.grows, hq.pending.trans hr.pending, hq.learned, ?_⟩
        rw [hq.content, Content.atoms_append, hbehind, atoms_freeze, ha, ← hb]
        simp only [Parse.map, Derivation.atomsAll, Derivation.joined, List.append_assoc]
      · have sound := derivations_sound hw plain hv hk (List.mem_filter.mp hp).1
        obtain ⟨-, -, hl⟩ := next_of_spells reading hr.1.bits sound.front hs
        rw [decide_eq_false_iff_not] at hlt
        have hn : b.consumed child = 0 := by
          rw [consumed, hid, ← consumed]
          omega
        unfold afterInstance
        rw [hn]
        rfl

/-- A count that is not tried, for its shortest contents do not fit, has no derivation. -/
theorem derivationsTimes_eq_nil (hw : w.IsPlain) {child : Variable} (hv : child.preorder ⊆ w.preorder)
    (hk : w.Remembers a.known?) {delimiter : Option BitString} {k : Nat}
    (h : ¬ repeated k (max child.bounds.1 1) (delimiterLength delimiter) ≤ reading.remaining offset) :
    derivationsTimes (derivations a.committed child) delimiter k true a.learned (reading.data.toList.drop offset) =
      [] := by
  rw [List.eq_nil_iff_forall_not_mem]
  intro p hp
  obtain ⟨front, -⟩ := derivationsTimes_sound (fun hk _ => derivations_sound hw child hv hk) hk hp
  have hl := front.length_le
  rw [List.length_drop, BitString.length_toList] at hl
  exact h (Nat.le_trans (Nat.le_add_right _ _) hl)

/--
The interpretations of a sequence correspond to derivations when those of its children do. What its record keeps true
of the children is true of the sequence.
-/
theorem sequence_forall₂ {S : Assignment → Parse Derivation → Prop} (hw : w.IsPlain) {id : VarId} {name : String} {children plain : List Variable}
    (hreal : children.map Variable.id = plain.map Variable.id)
    (hv : (Variable.sequence id name plain).preorder ⊆ w.preorder) (hi : a.Idle (Variable.sequence id name plain).ids)
    (hk : w.Remembers a.known?) {parses : List (Parse (List Derivation))}
    (hp : parses ⊆ derivationsAll a.committed plain a.learned (reading.data.toList.drop offset))
    (all : List.Forall₂ (ReadsAll reading plain a) (reading.interpretAll children a offset).toList parses)
    (step : ∀ x p content, ReadsAll reading plain a x p → S (x.1.record id content) (p.map .sequence)) :
    List.Forall₂ (fun b p => Realizes (.sequence id name plain) a b p ∧ S b p)
      (reading.interpret (.sequence id name children) a offset).toList (parses.map (·.map .sequence)) := by
  have hpre : ∀ c ∈ plain, c.preorder ⊆ w.preorder := fun c hc x hx =>
    hv (List.mem_cons_of_mem _ (preorder_subset_of_mem hc hx))
  rw [interpret, Choices.toList_filterMap]
  refine forall₂_filterMap_map all fun x p hm hx => ?_
  obtain ⟨⟨bits, hb, -⟩, -⟩ :=
    derivationsAll_sound (fun c hc _ _ hk _ => derivations_sound hw c (hpre c hc) hk) hk (hp hm)
  have hids : idsOf plain ⊆ (Variable.sequence id name plain).ids := by
    rw [ids_sequence]
    exact List.subset_cons_self _ _
  obtain ⟨content, hc, hr⟩ := compose_realizes (v := .sequence id name plain) (q := p.map .sequence) hx.realizes hids
    hreal hi hb rfl rfl
  exact ⟨_, hc, hr, step x p content hx⟩

/-- The interpretations of a repetition correspond to the derivations all of whose instances are kept. -/
theorem repetition_forall₂ {σ : Type} {In : σ → Assignment → Prop} {keep : σ → Derivation → Bool}
    {next : σ → Derivation → σ} (hw : w.IsPlain) (hr : RepeatCount.limit ≤ reading.maxRepeat) {id : VarId}
    {name : String} {child plain : Variable} {count : RepeatCount} {delimiter : Option BitString}
    (hid : child.id = plain.id) (hbounds : child.bounds = plain.bounds)
    (hv : (Variable.repetition id name plain count delimiter).preorder ⊆ w.preorder)
    (one : CorrespondsIn reading w child plain In keep next) (state : σ) (hin : In state a)
    (hi : a.Idle (Variable.repetition id name plain count delimiter).ids) (hk : w.Remembers a.known?)
    (ho : offset ≤ reading.data.length) :
    List.Forall₂ (Realizes (.repetition id name plain count delimiter) a)
      (reading.interpret (.repetition id name child count delimiter) a offset).toList
      ((derivations a.committed (.repetition id name plain count delimiter) a.learned
        (reading.data.toList.drop offset)).filter (keepsAll keep next state ·.result.parts)) := by
  have hpre : plain.preorder ⊆ w.preorder := fun x hx => hv (List.mem_cons_of_mem _ hx)
  have hids : plain.ids ⊆ (Variable.repetition id name plain count delimiter).ids := by
    rw [ids_repetition]
    exact List.subset_cons_self _ _
  have hstop : min count.stop (max reading.maxRepeat (count.least + 1)) = count.stop := by
    have := hw.limited (hv (self_mem_preorder _))
    omega
  have kept (k : Nat) (p : Parse (List Derivation)) :
      keepsAll keep next state (p.map (Derivation.repetition delimiter)).result.parts =
        (true && keepsAll keep next state p.result) := rfl
  rw [interpret, derivations, Choices.toList_flatMap, Choices.toList_ofList, counts_eq, hstop, hbounds,
    filter_flatMap_map (p := fun _ => true) (q := fun _ p => keepsAll keep next state p.result)
      (r := fun p : Parse Derivation => keepsAll keep next state p.result.parts) fun k _ p _ => kept k p, List.filter_true]
  -- a count that is left out on the left side has no derivation on the right side
  have cut : ∀ k, ¬ repeated k (max plain.bounds.1 1) (delimiterLength delimiter) ≤ reading.remaining offset →
      derivationsTimes (derivations a.committed plain) delimiter k true a.learned (reading.data.toList.drop offset) = [] :=
    fun k h => derivationsTimes_eq_nil hw hpre hk h
  generalize List.range' count.least (count.stop - count.least) = counts
  induction counts with
  | nil => exact .nil
  | cons k counts rest =>
    rw [List.filter_cons, List.flatMap_cons]
    split
    next =>
      rw [List.flatMap_cons]
      refine List.rel_append ?_ rest
      rw [Choices.toList_filterMap]
      have times := instances_forall₂ hw hid hpre one hin (hi.mono hids) hk ho delimiter k true .empty
      refine forall₂_filterMap_map times fun x p hp hx => ?_
      obtain ⟨⟨bits, hb, -⟩, -⟩ :=
        derivationsTimes_sound (fun hk _ => derivations_sound hw plain hpre hk) hk (List.mem_filter.mp hp).1
      have content : x.2.atoms = Atom.ofBits bits := by
        rw [hx.content, Content.atoms_empty, List.nil_append]
        exact hb
      exact ⟨_, record_realizes (v := .repetition id name plain count delimiter) (p := p.map (.repetition delimiter))
        (hx.grows.mono hids) hx.pending hx.learned hi content hb⟩
    next h =>
      rw [cut k (by simpa using h)]
      exact rest

/-- The interpretations of a plain variable are its derivations, wherever comparisons change nothing. -/
theorem interpret_forall₂ (reading : Reading) (hw : w.IsPlain) (hr : RepeatCount.limit ≤ reading.maxRepeat) (v : Variable)
    (hv : v.preorder ⊆ w.preorder) : Corresponds reading w v := by
  induction v using Variable.induct with
  | data id name type scope =>
    intro a offset hi _ ho
    rw [interpret, derivations]
    rw [ids_data] at hi
    exact interpretData_forall₂ hi ho
  | relation r => exact absurd (hv (self_mem_preorder _)) (hw.relationFree r)
  | choice id name children ih =>
    intro a offset hi hk ho
    rw [interpret, derivations]
    refine interpretAny_forall₂ hw (List.Subset.refl _) hv (fun c hc => ih c hc fun x hx => ?_) hi hk ho 0
    exact hv (List.mem_cons_of_mem _ (preorder_subset_of_mem hc hx))
  | sequence id name children ih =>
    intro a offset hi hk ho
    have hpre : ∀ c ∈ children, c.preorder ⊆ w.preorder := fun c hc x hx =>
      hv (List.mem_cons_of_mem _ (preorder_subset_of_mem hc hx))
    have hids : idsOf children ⊆ (Variable.sequence id name children).ids := by
      rw [ids_sequence]
      exact List.subset_cons_self _ _
    have all := interpretAll_forall₂ hw hpre (hw.separate (hv (self_mem_preorder _)))
      (fun c hc => ih c hc (hpre c hc)) (hi.mono hids) hk ho
    rw [derivations]
    exact (sequence_forall₂ (S := fun _ _ => True) hw rfl hv hi hk (List.Subset.refl _) all
      fun _ _ _ _ => trivial).imp fun _ _ h => h.1
  | repetition id name child count delimiter ih =>
    intro a offset hi hk ho
    have one : Corresponds reading w child := ih fun x hx => hv (List.mem_cons_of_mem _ hx)
    have all := repetition_forall₂ hw hr rfl rfl hv one.always () trivial hi hk ho
    rwa [List.filter_eq_self.mpr fun p _ => keepsAll_always _] at all

/-- The interpretations of plain variables in a row are their derivations, wherever comparisons change nothing. -/
theorem plain_forall₂ (reading : Reading) (hw : w.IsPlain) (hr : RepeatCount.limit ≤ reading.maxRepeat) {children : List Variable}
    (hv : ∀ c ∈ children, c.preorder ⊆ w.preorder) (hs : children.Pairwise fun c d => c.id ∉ d.ids)
    (hi : a.Idle (idsOf children)) (hk : w.Remembers a.known?) (ho : offset ≤ reading.data.length) :
    List.Forall₂ (ReadsAll reading children a) (reading.interpretAll children a offset).toList
      (derivationsAll a.committed children a.learned (reading.data.toList.drop offset)) :=
  interpretAll_forall₂ hw hv hs (fun c hc => interpret_forall₂ reading hw hr c (hv c hc)) hi hk ho

end Reading

/-! ## The theorem -/

section Theorem

open Variable

/-- An interpretation of a variable records exactly the bits that it consumes, with the bits and values of a derivation. -/
structure Records (v : Variable) (data : BitString) (offset : Nat) (b : Assignment) (p : Parse Derivation) : Prop where
  within : offset + b.consumed v ≤ data.length
  bits : b.bits? v.id = some (data.slice offset (offset + b.consumed v))
  derived : ∀ value, p.result.bits value = data.slice offset (offset + b.consumed v)
  learned : b.learned = p.learned

theorem Reading.Realizes.records {v : Variable} {a b : Assignment} {data : BitString} {offset least : Nat}
    {p : Parse Derivation} (h : Realizes v a b p) (hp : Front p.result.atoms (data.toList.drop offset) p.rest least)
    (ho : offset ≤ data.length) : Records v data offset b p := by
  obtain ⟨-, hle, -⟩ := next_of_spells (.of data RepeatCount.limit) h.bits hp ho
  obtain ⟨bits, hb, hd, -⟩ := hp
  obtain ⟨bits', hb', hs⟩ := h.bits
  obtain rfl : bits = bits' := Atom.ofBits_injective (hb.symm.trans hb')
  have hn : b.consumed v = bits.length := by
    rw [Assignment.consumed, hs.length?, Option.getD_some]
  have slice : data.slice offset (offset + b.consumed v) = bits := by
    apply BitString.toList_injective
    rw [BitString.toList_slice, List.drop_take, Nat.add_sub_cancel_left, hd, hn, ← BitString.length_toList,
      List.take_left]
  constructor
  · exact hle
  · rw [slice]
    exact hs.bits?
  · intro value
    rw [slice, Derivation.bits, hb, Atom.fill_ofBits]
  · exact h.learned

/--
The interpretations of a plain variable and its derivations from the bits at the offset correspond one to one, in
order, where no relation waits and the values known are accepted by their leaves. No derivation is listed twice.
-/
theorem interpretations_are_derivations (v : Variable) (hv : v.IsPlain) (a : Assignment) (hp : a.pending = [])
    (hk : v.Remembers a.known?) (data : BitString) (offset : Nat) (ho : offset ≤ data.length) :
    List.Forall₂ (Records v data offset) ((Reading.of data RepeatCount.limit).interpret v a offset).toList
        (derivations a.committed v a.learned (data.toList.drop offset)) ∧
      Distinct (derivations a.committed v a.learned (data.toList.drop offset)) := by
  refine ⟨?_, derivations_distinct v a.learned _⟩
  have all := Reading.interpret_forall₂ (.of data RepeatCount.limit) hv (Nat.le_refl _) v
    (List.Subset.refl _) (Assignment.idle_of_pending_nil hp _) hk ho
  refine (forall₂_and_mem all).imp fun b p ⟨hr, hp⟩ => ?_
  exact hr.records (derivations_sound hv v (List.Subset.refl _) hk hp).front ho

/-- Up to three bytes, all the same. -/
def sameBytes : Variable :=
  .repetition (.ofRoot 1) "same" (.data (.ofRoot 0) "byte" (.rawExactly 1) .persistent) ⟨0, 4⟩ none

theorem sameBytes_isPlain : sameBytes.IsPlain where
  relationFree := by simp [sameBytes, preorder]
  separate := by simp [sameBytes, preorder]
  leaf_unique := by
    intro id name type scope name' type' scope' h h'
    simp only [sameBytes, preorder, List.mem_cons, List.not_mem_nil, or_false, reduceCtorEq, false_or,
      Variable.data.injEq] at h h'
    rw [h.2.2.1, h'.2.2.1]
  limited := by
    intro id name child count delimiter h
    simp only [sameBytes, preorder, List.mem_cons, List.not_mem_nil, or_false, reduceCtorEq,
      Variable.repetition.injEq] at h
    rw [h.2.2.2.1]
    decide

/-- Of two equal bytes and another one, `sameBytes` accounts for none, one or both of the equal ones. -/
theorem interpretations_sameBytes :
    List.Forall₂ (Records sameBytes (.ofBytes [0x61, 0x61, 0x62]) 0)
        ((Reading.of (.ofBytes [0x61, 0x61, 0x62]) RepeatCount.limit).interpret sameBytes .empty 0).toList
        (derivations .empty sameBytes [] (BitString.ofBytes [0x61, 0x61, 0x62]).toList) ∧
      (derivations .empty sameBytes [] (BitString.ofBytes [0x61, 0x61, 0x62]).toList).length = 3 :=
  ⟨(interpretations_are_derivations sameBytes sameBytes_isPlain .empty rfl (remembers_empty _)
    (.ofBytes [0x61, 0x61, 0x62]) 0 (Nat.zero_le _)).1, by decide +kernel⟩

/-- A sequence in which one leaf stands twice. -/
def doubled : Variable :=
  let byte := .data (.ofRoot 0) "byte" (.rawExactly 1) .ephemeral
  .sequence (.ofRoot 1) "doubled" [byte, byte]

/-- The record of a leaf that stands twice is the later one, so `doubled` records bits that do not stand in the data. -/
theorem doubled_records_other_bits :
    (∀ r, .relation r ∉ doubled.preorder) ∧ Assignment.empty.pending = [] ∧
      doubled.Remembers Assignment.empty.known? ∧
      ∃ b ∈ ((Reading.of (.ofBytes [0x61, 0x62]) RepeatCount.limit).interpret doubled .empty 0).toList,
        b.consumed doubled = 16 ∧ b.bits? doubled.id = some (.ofBytes [0x62, 0x62]) ∧
          b.bits? doubled.id ≠ some ((BitString.ofBytes [0x61, 0x62]).slice 0 (b.consumed doubled)) := by
  have recorded : ((Reading.of (.ofBytes [0x61, 0x62]) RepeatCount.limit).interpret doubled .empty 0).toList.map
      (fun b => (b.consumed doubled, b.bits? doubled.id)) = [(16, some (.ofBytes [0x62, 0x62]))] := by
    decide +kernel
  refine ⟨by simp [doubled, preorder, preorderAll], rfl, remembers_empty _, ?_⟩
  obtain ⟨b, hb, he⟩ := List.mem_map.mp (recorded ▸ List.mem_singleton_self (16, some (BitString.ofBytes [0x62, 0x62])))
  obtain ⟨hn, hbits⟩ := Prod.mk.inj he
  refine ⟨b, hb, hn, hbits, ?_⟩
  rw [hbits, hn]
  decide +kernel

end Theorem

end WireGrammar
