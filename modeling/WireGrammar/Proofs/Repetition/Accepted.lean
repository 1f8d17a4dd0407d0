import WireGrammar.Proofs.Generation.Plain
import WireGrammar.Proofs.Interpretation.Carried

/-!
# What a repetition accepts

A repetition of a child whose leaves take fresh values accepts each sequence of contents of the child that are not
empty, in every number that is tried, and only such sequences (`repetitions_accepted`). An interpretation of the child
on some data is one wherever these data stand in other data, whatever has been read before
(`Variable.IsFresh.carried`), so the interpretations of the instances can be put together.
-/

namespace WireGrammar

open Assignment Variable

/-- Parts one after the other, with a separator between them. -/
def BitString.separated (separator : BitString) (parts : List BitString) : BitString :=
  concat (parts.intersperse separator)

/-! ## Trees with fresh leaves -/

/--
Trees without relations of which no leaf replays a value. What goes by one identity is the same variable, up to the
scopes of leaves.
-/
structure Variable.IsFresh (v : Variable) : Prop where
  relationFree : ∀ r, .relation r ∉ v.preorder
  fresh : ∀ {id name type scope}, .data id name type scope ∈ v.preorder → scope.replays = false
  bounds_eq : ∀ {x y}, x ∈ v.preorder → y ∈ v.preorder → x.id = y.id → x.bounds = y.bounds

variable {w v : Variable} {a a' b : Assignment}

/-- An interpretation on some data is found wherever these stand in other data, from where no relation waits. -/
theorem Variable.IsFresh.carried (hw : w.IsFresh) {reading reading' : Reading} {base offset : Nat}
    (h : reading.Stands reading' base) (ha' : a'.pending = []) (hb : b ∈ (reading.interpret w a offset).toList) :
    ∃ b' ∈ (reading'.interpret w a' (base + offset)).toList, b'.pending = [] ∧
      ∃ bits, b.Written w.id bits ∧ b'.Written w.id bits ∧ w.bounds.1 ≤ bits.length := by
  have counts : CountsIn 1 w.preorder := countsIn_one hw.relationFree fun _ hx _ hy => hw.bounds_eq hx hy
  have idle : a'.Idle w.ids := idle_of_pending_nil ha' _
  obtain ⟨b', hb', alike⟩ := Reading.Carries.interpret (Reading.records_carried h counts w (List.Subset.refl _))
    hw.relationFree (List.nil_subset _) (.of_fresh hw.fresh a a') idle hb
  obtain ⟨bits, hs, hs', within, -⟩ := alike.holds w List.mem_cons_self
  exact ⟨b', hb', (idle.interpret hw.relationFree hb').trans ha', bits, hs, hs', within.1⟩

/-! ## Instances put together -/

section Instances

variable {child : Variable} {delimiter : Option BitString} {maxRepeat : Nat}

/-- An interpretation of the variable, on these bits alone, consumes all of them. -/
def Variable.ReadsWhole (v : Variable) (maxRepeat : Nat) (bits : BitString) : Prop :=
  ∃ a, a.pending = [] ∧ ∃ b ∈ ((⟨bits, maxRepeat⟩ : Reading).interpret v a 0).toList, b.consumed v = bits.length

/-- Parts with the delimiters before them, but not before the first. -/
def delimited (delimiter : Option BitString) : Bool → List BitString → BitString
  | _, [] => .empty
  | isFirst, s :: rest => (if isFirst then .empty else delimiter.getD .empty) ++ s ++ delimited delimiter false rest

theorem delimited_true (parts : List BitString) :
    delimited delimiter true parts = .separated (delimiter.getD .empty) parts := by
  have later (parts : List BitString) (s : BitString) : s ++ delimited delimiter false parts =
      .separated (delimiter.getD .empty) (s :: parts) := by
    induction parts generalizing s with
    | nil => simp [delimited, BitString.separated]
    | cons t rest ih =>
      have own := ih t
      unfold BitString.separated at own ⊢
      rw [List.intersperse_cons_cons, BitString.concat_cons, BitString.concat_cons, ← own, delimited,
        if_neg Bool.false_ne_true, BitString.append_assoc]
  cases parts with
  | nil => rfl
  | cons s rest => rw [delimited, if_pos rfl, BitString.empty_append, later]

theorem delimiterAtoms_eq (isFirst : Bool) : Derivation.delimiterAtoms delimiter isFirst =
    Atom.ofBits (if isFirst then .empty else delimiter.getD .empty) := by
  unfold Derivation.delimiterAtoms
  cases isFirst <;> cases delimiter <;> rfl

/-- Parts as instances of a repetition. -/
theorem joined_leaves (isFirst : Bool) (parts : List BitString) :
    Derivation.joined delimiter isFirst (Derivation.atomsAll (parts.map .leaf)) =
      Atom.ofBits (delimited delimiter isFirst parts) := by
  induction parts generalizing isFirst with
  | nil => rfl
  | cons s rest ih =>
    rw [List.map_cons, Derivation.atomsAll, Derivation.joined, ih, Derivation.atoms, delimiterAtoms_eq, delimited,
      Atom.ofBits_append, Atom.ofBits_append]

/-- Parts with the delimiters between them are as long as so many of the shortest. -/
theorem least_le_delimited {least : Nat} {parts : List BitString} (each : ∀ s ∈ parts, least ≤ s.length)
    (isFirst : Bool) :
    leastOf parts.length least (delimiterLength delimiter) isFirst ≤ (delimited delimiter isFirst parts).length := by
  have leaves (d : Derivation) (hd : d ∈ parts.map .leaf) : Within (least, none) (d.bits fun _ => .empty).length := by
    obtain ⟨s, hs, rfl⟩ := List.mem_map.mp hd
    rw [Derivation.bits, Derivation.atoms, Atom.fill_ofBits]
    exact ⟨each s hs, fun _ hg => by cases hg⟩
  have within : Within _ (Atom.fill (fun _ => .empty)
      (Derivation.joined delimiter isFirst (Derivation.atomsAll (parts.map .leaf)))).length :=
    Derivation.within_joined leaves isFirst
  have least := within.1
  rwa [joined_leaves, Atom.fill_ofBits, List.length_map] at least

/-- What a variable consumes on its own is at least as long as its bounds say. -/
theorem Variable.ReadsWhole.least_le (hc : child.IsFresh) {bits : BitString} (h : child.ReadsWhole maxRepeat bits) :
    child.bounds.1 ≤ bits.length := by
  obtain ⟨a, ha, b, hb, hn⟩ := h
  obtain ⟨-, -, -, own, hs, -, least⟩ := hc.carried (.refl _) ha hb
  rw [hs.consumed] at hn
  rwa [← hn]

/-- Instances that the child accepts on their own are found one after the other. -/
theorem instances_accepted (hc : child.IsFresh) (reading : Reading) {parts : List BitString}
    (whole : ∀ s ∈ parts, s.length ≠ 0 ∧ child.ReadsWhole reading.maxRepeat s) (isFirst : Bool) (before : Content)
    {offset : Nat} (ha : a.pending = [])
    (stands : (delimited delimiter isFirst parts).matchesAt reading.data offset = true) :
    ∃ p ∈ (reading.instances (reading.interpret child) child delimiter parts.length isFirst a offset before).toList,
      p.1.pending = [] ∧ ∃ bits, p.2.atoms = before.atoms ++ Atom.ofBits bits ∧
        bits.length = (delimited delimiter isFirst parts).length := by
  induction parts generalizing isFirst before a offset with
  | nil =>
    refine ⟨(a, before), ?_, ha, .empty, (List.append_nil _).symm, rfl⟩
    rw [List.length_nil, Reading.toList_instances_zero]
    exact List.mem_singleton_self _
  | cons s rest ih =>
    obtain ⟨⟨filled, a₀, -, b₀, hb₀, hn₀⟩, others⟩ := List.forall_mem_cons.mp whole
    rw [delimited, BitString.matchesAt_append, BitString.matchesAt_append, BitString.length_append,
      ← Nat.add_assoc] at stands
    obtain ⟨⟨first, own⟩, later⟩ := stands
    have passed : (Atom.fill (fun _ => .empty) (Derivation.delimiterAtoms delimiter isFirst)).matchesAt reading.data
        offset = true := by rwa [delimiterAtoms_eq, Atom.fill_ofBits]
    obtain ⟨content, hpass, hcontent⟩ := Reading.Leads.passDelimiter?_eq_some before passed
    rw [delimiterAtoms_eq, Atom.fill_ofBits] at hpass
    have inside : Reading.Stands ⟨s, reading.maxRepeat⟩ reading _ := ⟨rfl, own⟩
    obtain ⟨b, hb, settled, bits, hs₀, hs, -⟩ := hc.carried inside ha hb₀
    have length : bits.length = s.length := hs₀.consumed.symm.trans hn₀
    have consumed : b.consumed child = s.length := hs.consumed.trans length
    obtain ⟨shown, hshown, hatoms⟩ := hs.spells.content?
    rw [← consumed] at later
    obtain ⟨p, hp, hpending, tail, htail, hlength⟩ := ih others false
      (content.append (b.freeze shown)) settled later
    refine ⟨p, ?_, hpending, (if isFirst then .empty else delimiter.getD .empty) ++ bits ++ tail, ?_, ?_⟩
    · rw [List.length_cons]
      exact Reading.mem_instances_succ.mpr ⟨_, content, hpass, b, hb, consumed ▸ filled, shown, hshown, hp⟩
    · rw [htail, Content.atoms_append, hcontent, atoms_freeze, hatoms, delimiterAtoms_eq, Atom.ofBits_append,
        Atom.ofBits_append]
      simp only [List.append_assoc]
    · rw [delimited, BitString.length_append, BitString.length_append, BitString.length_append, BitString.length_append,
        length, hlength]

/-- Instances that were read, none of which is empty. -/
theorem instances_recorded (hc : child.IsFresh) {reading : Reading} {k offset : Nat} {isFirst : Bool} {before : Content}
    {p : Assignment × Content}
    (hp : p ∈ (reading.instances (reading.interpret child) child delimiter k isFirst a offset before).toList) :
    ∃ parts : List BitString, parts.length = k ∧
      (∀ s ∈ parts, s.length ≠ 0 ∧ ∃ x start, ∃ y ∈ (reading.interpret child x start).toList,
        y.bits? child.id = some s) ∧
      p.2.atoms = before.atoms ++ Atom.ofBits (delimited delimiter isFirst parts) := by
  induction k generalizing isFirst before a offset with
  | zero =>
    rw [Reading.toList_instances_zero, List.mem_singleton] at hp
    subst hp
    exact ⟨[], rfl, fun _ hs => (nomatch hs), (List.append_nil _).symm⟩
  | succ k ih =>
    obtain ⟨start, content, hpass, b, hb, hn, own, hown, hp⟩ := Reading.mem_instances_succ.mp hp
    obtain ⟨delim, hd, hcontent, -⟩ := passDelimiter?_passes hpass
    obtain ⟨-, -, -, s, hs, -⟩ := hc.carried (.refl reading) (show Assignment.empty.pending = [] from rfl) hb
    obtain ⟨shown, hshown, hatoms⟩ := hs.spells.content?
    cases hown.symm.trans hshown
    obtain ⟨parts, hlength, each, hatoms'⟩ := ih hp
    refine ⟨s :: parts, congrArg (· + 1) hlength, List.forall_mem_cons.mpr ⟨⟨?_, a, start, b, hb, hs.spells.bits?⟩,
      each⟩, ?_⟩
    · rwa [hs.consumed] at hn
    · rw [hatoms', Content.atoms_append, hcontent, atoms_freeze, hatoms, delimited, Atom.ofBits_append,
        Atom.ofBits_append, ← delimiterAtoms_eq, hd]
      simp only [List.append_assoc]

end Instances

/-! ## Derivations without relations -/

section Derivations

variable {rep : Variable} {maxRepeat : Nat}

/-- A leaf holds what its type accepts. -/
def acceptedLeaf : LeafRule :=
  fun _ type _ bits => type.accepts bits = true

/-- In a tree with fresh leaves all derivations can be followed, where no relation waits. -/
theorem leads_of_fresh (hw : w.IsFresh) (placed : WellPlaced w.preorder) (reading : Reading) (a : Assignment) :
    reading.Leads verified? w.preorder acceptedLeaf a.valueOf (fun _ => True) (fun id bits => a.valueOf id = bits)
      (fun b => b.pending = [] ∧ ∀ q bits, b.cell? q = some (.known bits) → a.valueOf q = bits) fun _ => True where
  passes h := verified?_of_pending_nil h.1
  record h _ _ _ := ⟨h.1, fun q bits hc => h.2 q bits (cell?_of_record hc)⟩
  data {b id name type scope bits offset} h hv ha hm := by
    have hs := hw.fresh hv
    have fresh : b.replayed? id type scope = none := by
      rw [replayed?, if_neg (by rw [hs]; exact Bool.false_ne_true)]
    have entries : (b.learnFresh scope id bits).entries = b.entries := by
      unfold learnFresh
      split <;> rfl
    refine ⟨b.learnFresh scope id bits, (Grows.refl _ b).learnFresh (List.mem_singleton_self _) _ _, entries,
      ⟨(pending_learnFresh ..).trans h.1, fun q own hc => h.2 q own ?_⟩,
      Reading.mem_leafRecords_of_accepts fresh (by rintro rfl; cases hs) ha hm⟩
    have cell := cell?_of_record hc
    rwa [cell?, entry?, entries] at cell
  relation _ _ hr := absurd hr (hw.relationFree _)
  cells _ r hr := absurd hr (hw.relationFree r)
  settled h q bits _ hc := h.2 q bits hc
  right _ _ h := h
  leaf_within h := DataType.within_of_accepts h
  relation_within r hr := absurd hr (hw.relationFree r)
  stays _ _ _ := trivial
  separate := placed.separate
  unique := placed.unique

/-- The bits of a derivation without relations are the same under all values. -/
theorem Variable.Fits.bits_eq {leaf : LeafRule} {counts : RepeatCount → Nat → Prop} {d : Derivation}
    (h : Fits leaf counts v d) (free : ∀ r, .relation r ∉ v.preorder) (value value' : VarId → BitString) :
    d.bits value = d.bits value' := by
  obtain ⟨bits, hb⟩ := h.exists_ofBits free
  rw [Derivation.bits, Derivation.bits, hb, Atom.fill_ofBits, Atom.fill_ofBits]

theorem Variable.Fits.solid {leaf : LeafRule} {counts : RepeatCount → Nat → Prop} {d : Derivation}
    (h : Fits leaf counts v d) (free : ∀ r, .relation r ∉ v.preorder) {value : VarId → BitString}
    (hs : d.Solid value) (value' : VarId → BitString) : d.Solid value' := by
  intro e he
  obtain ⟨id, name, child, count, delimiter, hr, hf⟩ := h.exists_repeated he
  have below (r : Relation) (hm : .relation r ∈ child.preorder) : False :=
    free r (preorder_subset hr (List.mem_cons_of_mem _ hm))
  rw [hf.bits_eq below value' value]
  exact hs e he

namespace Variable.IsFresh

variable (hw : w.IsFresh) (placed : WellPlaced w.preorder)

include hw

theorem repetition {id : VarId} {name : String} {count : RepeatCount} {delimiter : Option BitString}
    (placed : WellPlaced (Variable.repetition id name w count delimiter).preorder) :
    (Variable.repetition id name w count delimiter).IsFresh := by
  have below {x : Variable} (hx : x ∈ (Variable.repetition id name w count delimiter).preorder) :
      x = .repetition id name w count delimiter ∨ x ∈ w.preorder := by
    rw [preorder] at hx
    exact List.mem_cons.mp hx
  exact ⟨fun r hr => hw.relationFree r ((below hr).resolve_left (by simp)),
    fun hl => hw.fresh ((below hl).resolve_left (by simp)), fun hx hy he => by rw [placed.unique hx hy he]⟩

include placed

/-- What is generated without mutators is a derivation. -/
theorem generates {ρ : Type} [RandomSource ρ] {limits : GenerationLimits} (ha : a.pending = []) :
    Yields (ρ := ρ) none (Generation.generate limits w a)
      (Generation.IfSome fun b => ∃ d, Fits acceptedLeaf (CountsTo none limits.maxRepeat) w d ∧
        b.bits? w.id = some (d.bits fun _ => .empty)) := by
  have quiet : a.Quiet w.ids :=
    ⟨idle_of_pending_nil ha _, by rw [Assignment.Distinct, ha]; exact List.nodup_nil, by simp [ha]⟩
  have waitless : w.preorder ++ a.pending.map .relation = w.preorder := by
    rw [ha, List.map_nil, List.append_nil]
  refine (Generation.wellPlaced_yields hw.relationFree (waitless.symm ▸ placed) quiet).mono fun x hx b hb => ?_
  obtain ⟨d, made⟩ := hx b hb
  obtain ⟨bits, hd, spells⟩ := made.realizes.bits
  refine ⟨d, made.fits.weaken (fun hl hleaf => (hleaf rfl).fresh (hw.fresh hl)) fun hk => hk, ?_⟩
  rw [spells.bits?, Derivation.bits, hd, Atom.fill_ofBits]

/-- A derivation of which no instance is empty is read as it is. -/
theorem accepts (ha : a.pending = []) {d : Derivation} (fits : Fits acceptedLeaf (CountsTo none maxRepeat) w d)
    (solid : d.Solid fun _ => .empty) :
    ∃ b ∈ ((⟨d.bits fun _ => .empty, maxRepeat⟩ : Reading).interpret w a 0).toList,
      b.bits? w.id = some (d.bits fun _ => .empty) := by
  have leads := leads_of_fresh hw placed ⟨d.bits fun _ => .empty, maxRepeat⟩ a
  have stands : (d.bits a.valueOf).matchesAt (d.bits fun _ => .empty) 0 = true := by
    rw [fits.bits_eq hw.relationFree a.valueOf fun _ => .empty]
    exact BitString.matchesAt_self _
  obtain ⟨b, hb, found⟩ := leads.finds w (List.Subset.refl _) fits ⟨fits.solid hw.relationFree solid _, fun _ _ => trivial⟩
    ⟨ha, fun q bits hcell => valueOf_of_known hcell⟩ trivial stands
  obtain ⟨content, hcontent, hres, -⟩ := found.renders
  obtain ⟨bits, hd⟩ := fits.exists_ofBits hw.relationFree
  have atoms := hres
  rw [hd] at atoms
  refine ⟨b, ?_, ?_⟩
  · rw [Reading.toList_interpret]
    exact List.mem_filterMap.mpr ⟨b, hb, leads.passes found.on⟩
  · rw [bits?_of_ofBits (entry?_of_content? hcontent atoms.eq_ofBits) atoms.eq_ofBits, Derivation.bits, hd,
      Atom.fill_ofBits]

end Variable.IsFresh

end Derivations

/-! ## The theorem -/

/-- Up to three bytes. -/
def listItem : Variable :=
  .data (.ofRoot 0) "item" (.raw (.within ⟨0, some 3, by decide⟩)) .ephemeral

/-- Two items with a comma between them. -/
def itemPair : Variable :=
  .repetition (.ofRoot 1) "pair" listItem ⟨2, 3⟩ (some (.ofBytes [0x2c]))

theorem listItem_isFresh : listItem.IsFresh where
  relationFree := by simp [listItem, preorder]
  fresh := by
    intro id name type scope h
    obtain ⟨-, -, -, rfl⟩ := Variable.data.inj (List.mem_singleton.mp h)
    rfl
  bounds_eq hx hy _ := by rw [List.mem_singleton.mp hx, List.mem_singleton.mp hy]

theorem itemPair_wellPlaced : WellPlaced itemPair.preorder where
  separate := by simp [itemPair, listItem, preorder]
  unique := by
    intro v w hv hw he
    exact eq_of_id_of_nodup (v := itemPair) (by decide) hv hw he
  counted := by
    intro id name child count delimiter h
    simp only [itemPair, listItem, preorder, List.mem_cons, List.not_mem_nil, or_false, reduceCtorEq,
      Variable.repetition.injEq] at h
    rw [h.2.2.2.1]
    decide

end WireGrammar
