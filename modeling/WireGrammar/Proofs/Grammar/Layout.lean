import WireGrammar.Proofs.Grammar.Structure
import WireGrammar.Proofs.Symbol.Acyclic

/-!
# The layout of a symbol

A symbol that is built from a text has one variable for each identity (`MadeOf.eq_of_id`), and its relations refer to
whole fields (`MadeOf.target`).
-/

namespace WireGrammar.Grammar

open Variable

variable {fields : Fields} {s : Symbol}

theorem mem_allVariables {v : Variable} : v ∈ s.allVariables ↔ ∃ f ∈ s.fields, v ∈ f.domain.preorder :=
  List.mem_flatMap

theorem variableIds_eq (s : Symbol) : s.variableIds = s.fields.flatMap fun f => f.domain.ids := by
  rw [Symbol.variableIds, Symbol.allVariables, List.map_flatMap]
  rfl

theorem mem_variableIds {i : VarId} : i ∈ s.variableIds ↔ ∃ f ∈ s.fields, i ∈ f.domain.ids := by
  rw [variableIds_eq, List.mem_flatMap]

/-- The trees of two fields have nothing in common. -/
theorem InOrder.eq_of_mem_ids (ho : InOrder fields) {f g : VarId × Variable} (hf : f ∈ fields) (hg : g ∈ fields)
    {i : VarId} (hif : i ∈ f.2.ids) (hig : i ∈ g.2.ids) : f = g := by
  have root {f : VarId × Variable} (hf : f ∈ fields) (hi : i ∈ f.2.ids) : f.1 = .ofRoot i.root := by
    obtain ⟨hr, -⟩ := (ho.made f hf).placed.above i hi
    rw [VarId.ofRoot, hr, ← ho.root f hf]
  exact List.inj_on_of_nodup_map ho.nodup hf hg (by rw [root hf hif, root hg hig])

/-- Variables of the same identity are the same, also in different fields. -/
theorem InOrder.eq_of_id (ho : InOrder fields) {f g : VarId × Variable} (hf : f ∈ fields) (hg : g ∈ fields)
    {v w : Variable} (hv : v ∈ f.2.preorder) (hw : w ∈ g.2.preorder) (he : v.id = w.id) : v = w := by
  obtain rfl := ho.eq_of_mem_ids hf hg (List.mem_map_of_mem hv) (he ▸ List.mem_map_of_mem hw)
  exact List.inj_on_of_nodup_map (ho.made f hf).placed.nodup hv hw he

namespace MadeOf

section Fields

variable (h : MadeOf fields s) (ho : InOrder fields)

include h ho

theorem made {f : Field} (hf : f ∈ s.fields) : Made fields f.id f.domain :=
  ho.made _ (h.mem f hf)

theorem root {f : Field} (hf : f ∈ s.fields) : f.id.branch = [] :=
  ho.root _ (h.mem f hf)

theorem checks {v : Variable} (hv : v ∈ s.allVariables) : Checks fields v := by
  obtain ⟨f, hf, hv⟩ := mem_allVariables.mp hv
  exact (h.made ho hf).checks v hv

/-- The trees of two fields have nothing in common. -/
theorem field_unique {f g : Field} (hf : f ∈ s.fields) (hg : g ∈ s.fields) {i : VarId} (hif : i ∈ f.domain.ids)
    (hig : i ∈ g.domain.ids) : f.id = g.id :=
  congrArg Prod.fst (ho.eq_of_mem_ids (h.mem f hf) (h.mem g hg) hif hig)

/-- No identity occurs twice. -/
theorem nodup_variableIds : s.variableIds.Nodup := by
  rw [variableIds_eq]
  refine List.nodup_flatMap.mpr ⟨fun f hf => (h.made ho hf).placed.nodup, ?_⟩
  refine (List.pairwise_map.mp h.nodup).imp_of_mem fun {f g} hf hg hne i hif hig => hne ?_
  exact h.field_unique ho hf hg hif hig

/-- Variables of the same identity are the same, also in different symbols. -/
theorem eq_of_id_of_made {s' : Symbol} (h' : MadeOf fields s') {v w : Variable} (hv : v ∈ s.allVariables)
    (hw : w ∈ s'.allVariables) (he : v.id = w.id) : v = w := by
  obtain ⟨f, hf, hv⟩ := mem_allVariables.mp hv
  obtain ⟨g, hg, hw⟩ := mem_allVariables.mp hw
  exact ho.eq_of_id (h.mem f hf) (h'.mem g hg) hv hw he

theorem eq_of_id {v w : Variable} (hv : v ∈ s.allVariables) (hw : w ∈ s.allVariables) (he : v.id = w.id) : v = w :=
  h.eq_of_id_of_made ho h hv hw he

/-- A root is a variable of the symbol only as one of its fields. -/
theorem field_of_root {i : VarId} (hi : i.branch = []) (hm : i ∈ s.variableIds) : ∃ f ∈ s.fields, f.id = i := by
  obtain ⟨f, hf, hif⟩ := mem_variableIds.mp hm
  refine ⟨f, hf, ?_⟩
  by_contra hne
  exact (h.made ho hf).placed.branch_ne_nil hif (fun he => hne he.symm) hi

/-- The targets of a relation are roots, and none of them lies below a field. -/
theorem target_root {r : Relation} (hr : .relation r ∈ s.allVariables) {t : VarId} (ht : t ∈ r.targets) :
    t.branch = [] :=
  (h.checks ho hr).2.2.2 t ht

end Fields

end MadeOf

/-! ## Relations that wait for bits -/

/-- An induction over the relations that need bits: each comes after all others in the fields that it refers to. -/
theorem MadeOf.bitRelations_induct (h : MadeOf fields s) (ho : InOrder fields) (acyclic : s.isAcyclic = true)
    {P : VarId → Prop}
    (step : ∀ r, .relation r ∈ s.allVariables → r.rule.readsLengthsOnly = false →
      (∀ f ∈ s.fields, f.id ∈ r.targets → ∀ q, .relation q ∈ f.domain.preorder → q.rule.readsLengthsOnly = false →
        q.id ≠ r.id → P q.id) → P r.id)
    {r : Relation} (hr : .relation r ∈ s.allVariables) (hb : r.rule.readsLengthsOnly = false) : P r.id := by
  have acc := Symbol.acc_of_isAcyclic (h.nodup_variableIds ho) acyclic hr hb
  induction acc with
  | intro r _ ih =>
    refine step r hr hb fun f hf ht q hq hqb hne => ?_
    have root : f.domain ∈ s.allVariables := mem_allVariables.mpr ⟨f, hf, f.domain.self_mem_preorder⟩
    have reads : s.ReadsBitsOf r q := ⟨hr, hb, hqb, hne, f.domain, root, ht, hq⟩
    exact ih q reads reads.mem hqb

end WireGrammar.Grammar
