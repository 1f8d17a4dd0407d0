import WireGrammar.Assignment
import WireGrammar.Variable.Basic

/-!
# Disciplines

Generation and interpretation change an assignment in the same few ways: leaves get values, relations get values or
wait, and nodes are recorded with contents made from those of their children. A discipline names a property of
assignments that is kept in this, together with what it asks of a content that is to be recorded, so that the recursion
over a variable need not be repeated for every such property.
-/

namespace WireGrammar

/-- A property of assignments that is kept while variables are recorded one after the other. -/
structure Discipline where
  Inv : Assignment → Prop
  /-- How what comes later stands to what comes earlier. -/
  Step : Assignment → Assignment → Prop
  /-- Which contents may be recorded. -/
  Fit : Assignment → Content → Prop
  /-- What is true of a variable once it is recorded. -/
  Done : Variable → Assignment → Prop
  refl : ∀ a, Step a a
  trans : ∀ {a b c}, Step a b → Step b c → Step a c
  done : ∀ {v a b}, Step a b → Done v a → Done v b
  kept : ∀ {a b content}, Step a b → Fit a content → Fit b content
  empty : ∀ a, Fit a .empty
  pushBits : ∀ {a content}, Fit a content → ∀ bits, Fit a (content.pushBits bits)
  append : ∀ {a content own} {id : VarId}, Inv a → Fit a content → a.content? id = some own →
    Fit a (content.append (a.freeze own))

namespace Discipline

variable {D : Discipline} {v : Variable} {children : List Variable} {a b c : Assignment} {content : Content}

/-- What is true after a variable has been recorded. -/
structure After (D : Discipline) (v : Variable) (a b : Assignment) : Prop where
  inv : D.Inv b
  step : D.Step a b
  done : D.Done v b

/-- What is true after all variables of a list have been recorded. -/
structure AfterAll (D : Discipline) (children : List Variable) (a b : Assignment) : Prop where
  inv : D.Inv b
  step : D.Step a b
  done : ∀ child ∈ children, D.Done child b

theorem AfterAll.nil (h : D.Inv a) : D.AfterAll [] a a :=
  ⟨h, D.refl a, fun _ hc => nomatch hc⟩

theorem After.cons (h : D.After v a b) (h' : D.AfterAll children b c) : D.AfterAll (v :: children) a c :=
  ⟨h'.inv, D.trans h.step h'.step, List.forall_mem_cons.mpr ⟨D.done h'.step h.done, h'.done⟩⟩

theorem After.behind (h : D.Step a b) (h' : D.After v b c) : D.After v a c :=
  ⟨h'.inv, D.trans h h'.step, h'.done⟩

/-- Contents of variables put together may be recorded. -/
theorem fit_foldl (hi : D.Inv a) {contents : List Content}
    (hc : ∀ own ∈ contents, ∃ id, a.content? id = some own) (h : D.Fit a content) :
    D.Fit a (contents.foldl (fun content own => content.append (a.freeze own)) content) := by
  induction contents generalizing content with
  | nil => exact h
  | cons own contents ih =>
    obtain ⟨⟨id, hid⟩, hc⟩ := List.forall_mem_cons.mp hc
    exact ih hc (D.append hi h hid)

end Discipline

end WireGrammar
