import WireGrammar.Variable.Basic

/-!
# Remembered values

Values that survive from one message to the next. A message in progress stages its values; they become part of the
memory when it is complete, and are dropped when it is not.

* `Store`: one value for each variable; `Store.get?` is its view.
* `Store.get?_insert`, `get?_erase`, `get?_union`: what each operation does to the view.
* `Memory`: the committed store, and the staged one in front of it.
-/

namespace WireGrammar

/-- Values by variable, at most one for each. -/
structure Store where
  entries : List (VarId × BitString)
  deriving DecidableEq, Inhabited

namespace Store

def empty : Store := ⟨[]⟩

instance : EmptyCollection Store := ⟨empty⟩

/-- The value of a variable. -/
def get? (s : Store) (id : VarId) : Option BitString :=
  s.entries.lookup id

def contains (s : Store) (id : VarId) : Bool :=
  (s.get? id).isSome

/-- Takes the value of a variable away. -/
def erase (s : Store) (id : VarId) : Store :=
  ⟨s.entries.filter (·.1 != id)⟩

/-- Gives a variable a value, in place of any it had. -/
def insert (s : Store) (id : VarId) (value : BitString) : Store :=
  ⟨(id, value) :: (s.erase id).entries⟩

/-- The number of variables that have a value. -/
def size (s : Store) : Nat :=
  s.entries.length

/-- The values of `newer` and, for variables without one there, those of `s`. -/
def union (s newer : Store) : Store :=
  newer.entries.foldr (fun e s => s.insert e.1 e.2) s

theorem lookup_filter_ne {β : Type} (entries : List (VarId × β)) (id other : VarId) :
    (entries.filter (·.1 != id)).lookup other = if other = id then none else entries.lookup other := by
  induction entries with
  | nil => simp
  | cons e rest ih =>
    obtain ⟨k, v⟩ := e
    simp only [List.filter_cons, List.lookup_cons]
    by_cases hk : k = id
    · subst hk
      by_cases ho : other = k
      · simpa [ho] using ih
      · simpa [ho, beq_eq_false_iff_ne.mpr ho] using ih
    · by_cases ho : other = k
      · subst ho
        simp [hk]
      · simpa [hk, List.lookup_cons, beq_eq_false_iff_ne.mpr ho] using ih

theorem get?_erase (s : Store) (id other : VarId) :
    (s.erase id).get? other = if other = id then none else s.get? other :=
  lookup_filter_ne s.entries id other

theorem get?_insert (s : Store) (id other : VarId) (value : BitString) :
    (s.insert id value).get? other = if other = id then some value else s.get? other := by
  by_cases h : other = id
  · subst h; simp [insert, get?]
  · have : (other == id) = false := by simpa using h
    have erased := get?_erase s id other
    simp only [get?] at erased
    simp [insert, get?, List.lookup_cons, this, h, erased]

theorem get?_union (s newer : Store) (id : VarId) : (s.union newer).get? id = (newer.get? id).or (s.get? id) := by
  obtain ⟨entries⟩ := newer
  induction entries with
  | nil => rfl
  | cons e rest ih =>
    obtain ⟨k, v⟩ := e
    have step : s.union ⟨(k, v) :: rest⟩ = (s.union ⟨rest⟩).insert k v := rfl
    rw [step, get?_insert, ih]
    by_cases h : id = k
    · subst h; simp [get?]
    · have : (id == k) = false := by simpa using h
      simp [get?, List.lookup_cons, this, h]

end Store

/-- The values remembered, and those of the message in progress. -/
structure Memory where
  committed : Store
  staged : Store
  deriving DecidableEq, Inhabited

namespace Memory

def empty : Memory := ⟨.empty, .empty⟩

instance : EmptyCollection Memory := ⟨empty⟩

/-- Stages a value of the message in progress. -/
def memorize (m : Memory) (id : VarId) (value : BitString) : Memory :=
  { m with staged := m.staged.insert id value }

/-- The committed value of a variable. -/
def known? (m : Memory) (id : VarId) : Option BitString :=
  m.committed.get? id

/-- Takes away both the committed and the staged value. -/
def forget (m : Memory) (id : VarId) : Memory :=
  ⟨m.committed.erase id, m.staged.erase id⟩

/-- Commits all staged values. -/
def persist (m : Memory) : Memory :=
  ⟨m.committed.union m.staged, .empty⟩

/-- Drops all staged values. -/
def discard (m : Memory) : Memory :=
  { m with staged := .empty }

end Memory

end WireGrammar
