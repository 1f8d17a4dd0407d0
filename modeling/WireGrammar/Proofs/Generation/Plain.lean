import WireGrammar.Proofs.Generation.Placeholders
import WireGrammar.Proofs.Generation.Runs
import WireGrammar.Proofs.Interpretation.Enumeration

/-!
# Generation of plain variables

A variable without relations is generated as one of its derivations, where no relation that waits can be computed
meanwhile (`plain_yields`), and so are variables in a row (`plainAll_yields`). Settling changes nothing there
(`Quiet.eq_of_settled`).
-/

namespace WireGrammar

open Assignment Variable Reading

namespace Assignment

variable {a b c : Assignment} {ids ids' : List VarId}

/-- Whatever is recorded for the given variables, settling changes nothing. -/
structure Quiet (a : Assignment) (ids : List VarId) : Prop where
  idle : a.Idle ids
  distinct : a.Distinct
  apart : ∀ r ∈ a.pending, r.id ∉ ids

namespace Quiet

theorem mono (h : a.Quiet ids) (hs : ids' ⊆ ids) : a.Quiet ids' :=
  ⟨h.idle.mono hs, h.distinct, fun r hr hm => h.apart r hr (hs hm)⟩

theorem grows (h : a.Quiet ids) (hg : Grows ids a b) (hp : b.pending = a.pending) : b.Quiet ids := by
  refine ⟨h.idle.grows hg hp, ?_, fun r hr => h.apart r (hp ▸ hr)⟩
  rw [Distinct, hp]
  exact h.distinct

theorem stuck (h : a.Quiet ids) (hg : Grows ids a b) (hp : b.pending = a.pending) : b.Stuck :=
  fun r hr => agrees?_eq_none_iff.mp (h.idle b hg r (hp ▸ hr))

theorem eq_of_settled (h : a.Quiet ids) (hg : Grows ids a b) (hp : b.pending = a.pending) (hs : Settled b c) : c = b :=
  hs.1.eq_of_stuck (h.stuck hg hp)

theorem isPending (h : a.Quiet ids) {id : VarId} (hid : id ∈ ids) : a.isPending id = false := by
  rw [Assignment.isPending, List.any_eq_false]
  intro r hr he
  exact h.apart r hr (beq_iff_eq.mp he ▸ hid)

end Quiet

theorem entry?_of_content? {id : VarId} {content : Content} {bits : BitString} (h : a.content? id = some content)
    (hc : content.atoms = Atom.ofBits bits) : a.entry? id = some (.content content) := by
  obtain ⟨entry, he, h⟩ := Option.map_eq_some_iff.mp h
  cases entry with
  | content other =>
    obtain rfl : other = content := h
    exact he
  | cell cell =>
    rw [← h, Content.atoms_slot] at hc
    exact absurd (hc ▸ List.mem_singleton_self _) Atom.slot_notMem_ofBits

end Assignment

namespace Generation

variable {ρ : Type} [RandomSource ρ] {limits : GenerationLimits} {a b c : Assignment} {maxRepeat : Nat}

/-- A variable is generated, without mutators, as a derivation says. -/
structure Produces (maxRepeat : Nat) (v : Variable) (a b : Assignment) (d : Derivation) : Prop where
  realizes : Realizes v a b ⟨d, b.learned, []⟩
  fits : Fits (MadeLeaf none b) (CountsTo none maxRepeat) v d

/-- Variables in a row are generated, without mutators, as derivations say. -/
structure ProducesAll (maxRepeat : Nat) (children : List Variable) (a b : Assignment) (parts : List Derivation) :
    Prop where
  realizes : RealizesAll children a b ⟨parts, b.learned, []⟩
  fits : FitsAll (MadeLeaf none b) (CountsTo none maxRepeat) children parts

namespace ProducesAll

theorem nil (a : Assignment) : ProducesAll maxRepeat [] a a [] :=
  ⟨.nil a [], rfl⟩

theorem single {v : Variable} {d : Derivation} (h : Produces maxRepeat v a b d) :
    ProducesAll maxRepeat [v] a b [d] :=
  ⟨.single h.realizes, d, [], rfl, h.fits, rfl⟩

theorem append {xs ys : List Variable} {ds es : List Derivation} (h : ProducesAll maxRepeat xs a b ds)
    (h' : ProducesAll maxRepeat ys b c es) (apart : ∀ v ∈ xs, v.id ∉ idsOf ys) :
    ProducesAll maxRepeat (xs ++ ys) a c (ds ++ es) := by
  refine ⟨h.realizes.append h'.realizes apart, FitsAll.append ?_ h'.fits⟩
  exact fitsAll_mono (fun _ _ _ hd => hd.grows h'.realizes.grows) h.fits

end ProducesAll

/-- Trees without relations in which identities are used once. -/
structure Bare (v : Variable) : Prop where
  relationFree : ∀ r, .relation r ∉ v.preorder
  nodup : v.ids.Nodup
  counted : ∀ {id name child count delimiter}, .repetition id name child count delimiter ∈ v.preorder →
    count.least < count.stop

/-- The relations that wait, beside the variables of a tree. -/
theorem Bare.wellPlaced {v : Variable} (hv : Bare v) (hq : a.Quiet v.ids) :
    WellPlaced (v.preorder ++ a.pending.map .relation) := by
  have tree {w : Variable} (hr : w.relation? = none) (hw : w ∈ v.preorder ++ a.pending.map .relation) :
      w ∈ v.preorder := by
    refine (List.mem_append.mp hw).resolve_right fun hw => ?_
    obtain ⟨r, -, rfl⟩ := List.mem_map.mp hw
    cases hr
  have apart {w : Variable} {r : Relation} (hw : w ∈ v.preorder) (hr : r ∈ a.pending) : w.id ≠ r.id :=
    fun he => hq.apart r hr (he ▸ List.mem_map_of_mem hw)
  refine ⟨fun h => separate_of_nodup hv.nodup (tree rfl h), fun {x y} hx hy he => ?_, fun h => hv.counted (tree rfl h)⟩
  rcases List.mem_append.mp hx with hx | hx <;> rcases List.mem_append.mp hy with hy | hy
  · exact eq_of_id_of_nodup hv.nodup hx hy he
  · obtain ⟨r, hr, rfl⟩ := List.mem_map.mp hy
    exact absurd he (apart hx hr)
  · obtain ⟨r, hr, rfl⟩ := List.mem_map.mp hx
    exact absurd he.symm (apart hy hr)
  · obtain ⟨p, hp, rfl⟩ := List.mem_map.mp hx
    obtain ⟨q, hq', rfl⟩ := List.mem_map.mp hy
    rw [List.inj_on_of_nodup_map hq.distinct hp hq' he]

/-- A last step of a variable that is no relation records it, and settling does nothing. -/
theorem lastStep_quiet {ids : List VarId} {v : Variable} (hq : a.Quiet ids) (hg : Grows ids a b)
    (hp : b.pending = a.pending) (hv : v.id ∈ ids) (hr : v.relation? = none) (hl : LastStep none v b c) :
    Grows ids a c ∧ c.pending = a.pending := by
  obtain ⟨made, hm, hs⟩ := hl
  have grown : Grows ids a made := hg.trans (hm.grows.mono (List.cons_subset.mpr ⟨hv, List.nil_subset _⟩))
  have pending : made.pending = a.pending := by
    cases hm with
    | data h => exact h.kept.2.trans hp
    | node => exact hp
    | mutated | ready | wait => cases hr
  rw [hq.eq_of_settled grown pending hs]
  exact ⟨grown, pending⟩

/-- A variable without relations is generated as one of its derivations, if its records last as long as needed. -/
theorem wellPlaced_yields {v : Variable} (free : ∀ r, .relation r ∉ v.preorder)
    (placed : WellPlaced (v.preorder ++ a.pending.map .relation)) (hq : a.Quiet v.ids) :
    Yields (ρ := ρ) none (generate limits v a) (IfSome fun b => ∃ d, Produces limits.maxRepeat v a b d) := by
  have step {w : Variable} {b c : Assignment} (hw : w ∈ v.preorder) (hb : Grows v.ids a b ∧ b.pending = a.pending)
      (hl : LastStep none w b c) : Grows v.ids a c ∧ c.pending = a.pending := by
    refine lastStep_quiet hq hb.1 hb.2 (List.mem_map_of_mem hw) ?_ hl
    cases w with
    | relation r => exact absurd hw (free r)
    | _ => rfl
  have keeps : Keeps none (v.preorder ++ a.pending.map .relation) (preorderAll v.children)
      (fun b => Grows v.ids a b ∧ b.pending = a.pending) fun _ _ => True := by
    refine ⟨fun w hw b c hb hl => step (children_subset_preorder v hw) hb hl, fun b hb r hr => ?_, fun b hb => ?_,
      fun _ _ _ _ _ _ => trivial⟩
    · exact List.mem_append_right _ (List.mem_map_of_mem (hb.2 ▸ hr))
    · rw [Assignment.Distinct, hb.2]
      exact hq.distinct
  refine (generate_runs placed v (List.subset_append_left _ _) keeps ⟨.refl _ a, rfl⟩).mono
    fun x hx b hb => ?_
  obtain ⟨c, d, run⟩ := hx b hb
  obtain ⟨grown, pending⟩ := step v.self_mem_preorder run.inv run.last
  obtain ⟨bits, hd⟩ := run.fits.exists_ofBits free
  obtain ⟨content, hcontent, hatoms⟩ := run.content
  rw [hd] at hatoms
  have atoms := hatoms.eq_ofBits
  refine ⟨d, ⟨grown, pending, rfl, bits, hd, ?_⟩, run.fits⟩
  exact .content (entry?_of_content? hcontent.content atoms) atoms

/-- A variable without relations in which identities are used once is generated as one of its derivations. -/
theorem plain_yields {v : Variable} (hv : Bare v) (hq : a.Quiet v.ids) :
    Yields (ρ := ρ) none (generate limits v a) (IfSome fun b => ∃ d, Produces limits.maxRepeat v a b d) :=
  wellPlaced_yields hv.relationFree (hv.wellPlaced hq) hq

theorem filterMap_of_mapM {α β : Type} {f : α → Option β} {xs : List α} {ys : List β} (h : xs.mapM f = some ys) :
    xs.filterMap f = ys := by
  replace h := mapM_eq_some_iff.mp h
  induction h with
  | nil => rfl
  | cons hx _ ih => rw [List.filterMap_cons_some hx, ih]

/-- Variables in a row are generated one part after the other. -/
theorem generateAll_append (xs ys : List Variable) (a : Assignment) :
    generateAll (ρ := ρ) limits (xs ++ ys) a = (do
      match ← generateAll limits xs a with
      | some b => generateAll limits ys b
      | none => return none) := by
  induction xs generalizing a with
  | nil => rw [List.nil_append, generateAll, pure_bind]
  | cons x xs ih =>
    rw [List.cons_append, generateAll, generateAll, bind_assoc]
    refine bind_congr fun y => ?_
    cases y with
    | none => rw [pure_bind]
    | some b => exact ih b

theorem generateAll_append_yields {bound : Bindings} {xs ys : List Variable} {P Q : Assignment → Prop}
    (first : Yields (ρ := ρ) bound (generateAll limits xs a) (IfSome P))
    (second : ∀ b, P b → Yields (ρ := ρ) bound (generateAll limits ys b) (IfSome Q)) :
    Yields (ρ := ρ) bound (generateAll limits (xs ++ ys) a) (IfSome Q) := by
  rw [generateAll_append]
  refine first.bind fun x hx => ?_
  cases x with
  | none => exact Yields.pure .none
  | some b => exact second b (hx b rfl)

theorem generateAll_single {v : Variable} {bound : Bindings} {P : Assignment → Prop}
    (one : Yields (ρ := ρ) bound (generate limits v a) (IfSome P)) :
    Yields (ρ := ρ) bound (generateAll limits [v] a) (IfSome P) := by
  rw [generateAll]
  refine one.bind fun x hx => ?_
  cases x with
  | none => exact Yields.pure .none
  | some b => exact Yields.pure (.some (hx b rfl))

/-- Variables without relations in a row are generated as derivations of them. -/
theorem plainAll_yields {children : List Variable} (hv : ∀ c ∈ children, Bare c)
    (hs : children.Pairwise fun c d => c.id ∉ d.ids) (hq : a.Quiet (idsOf children)) :
    Yields (ρ := ρ) none (generateAll limits children a)
      (IfSome fun b => ∃ parts, ProducesAll limits.maxRepeat children a b parts) := by
  induction children generalizing a with
  | nil =>
    rw [generateAll]
    exact Yields.pure (.some ⟨[], .nil a⟩)
  | cons c more ih =>
    obtain ⟨apart, hs⟩ := List.pairwise_cons.mp hs
    rw [← List.singleton_append]
    refine generateAll_append_yields (generateAll_single (plain_yields (hv c List.mem_cons_self)
      (hq.mono (List.subset_append_left _ _)))) fun b hb => ?_
    obtain ⟨d, hd⟩ := hb
    have next := (hq.grows (hd.realizes.grows.mono (List.subset_append_left _ _)) hd.realizes.pending).mono
      (List.subset_append_right _ _)
    refine (ih (fun e he => hv e (List.mem_cons_of_mem _ he)) hs next).mono fun y hy e he => ?_
    obtain ⟨parts, hparts⟩ := hy e he
    refine ⟨[d] ++ parts, (ProducesAll.single hd).append hparts fun w hw hm => ?_⟩
    rw [List.mem_singleton.mp hw] at hm
    obtain ⟨e, he, hid⟩ := mem_idsOf.mp hm
    exact apart e he hid

end Generation

end WireGrammar
