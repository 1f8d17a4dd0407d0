/-!
# Lazy choices

A finite sequence of possibilities of which each is computed when it is asked for. It is used for search: to look at
the first few possibilities costs no more than to find these.

* `Choices.toList`: all possibilities, the view in which the operations are those of lists.
* `Choices.toList_append`, `toList_map`, `toList_filterMap`, `toList_flatMap`, `toList_ofList`.
-/

namespace WireGrammar

/-- A sequence whose rest is computed on demand. -/
inductive Choices (α : Type) where
  | nil
  | cons (head : α) (rest : Unit → Choices α)

namespace Choices

variable {α β : Type}

/-- All possibilities in order. -/
def toList : Choices α → List α
  | nil => []
  | cons x rest => x :: (rest ()).toList

/-- The possibilities of a list. -/
def ofList : List α → Choices α
  | [] => nil
  | x :: rest => cons x fun _ => ofList rest

/-- The one possibility, if there is one. -/
def ofOption : Option α → Choices α
  | none => nil
  | some x => cons x fun _ => nil

/-- One sequence after the other. -/
def append (xs : Choices α) (ys : Unit → Choices α) : Choices α :=
  match xs with
  | nil => ys ()
  | cons x rest => cons x fun _ => append (rest ()) ys

def map (f : α → β) : Choices α → Choices β
  | nil => nil
  | cons x rest => cons (f x) fun _ => (rest ()).map f

/-- The results of `f` on those possibilities where it has one. -/
def filterMap (f : α → Option β) : Choices α → Choices β
  | nil => nil
  | cons x rest =>
    match f x with
    | none => (rest ()).filterMap f
    | some y => cons y fun _ => (rest ()).filterMap f

/-- The possibilities of `f` for each possibility in order. -/
def flatMap (f : α → Choices β) : Choices α → Choices β
  | nil => nil
  | cons x rest =>
    match f x with
    | nil => (rest ()).flatMap f
    | cons y more => cons y fun _ => append (more ()) fun _ => (rest ()).flatMap f

/-- The first possibility. -/
def head? : Choices α → Option α
  | nil => none
  | cons x _ => some x

/-- The first `n` possibilities; no others are computed. -/
def take : Nat → Choices α → List α
  | 0, _ => []
  | _ + 1, nil => []
  | 1, cons x _ => [x]
  | n + 2, cons x rest => x :: take (n + 1) (rest ())

@[simp] theorem toList_ofList (xs : List α) : (ofList xs).toList = xs := by
  induction xs with
  | nil => rfl
  | cons x xs ih => simp [ofList, toList, ih]

@[simp] theorem toList_ofOption (x : Option α) : (ofOption x).toList = x.toList := by
  cases x <;> rfl

@[simp] theorem toList_append (xs : Choices α) (ys : Unit → Choices α) :
    (append xs ys).toList = xs.toList ++ (ys ()).toList := by
  induction xs with
  | nil => rfl
  | cons x rest ih => simp [append, toList, ih]

@[simp] theorem toList_map (f : α → β) (xs : Choices α) : (xs.map f).toList = xs.toList.map f := by
  induction xs with
  | nil => rfl
  | cons x rest ih => simp [map, toList, ih]

@[simp] theorem toList_filterMap (f : α → Option β) (xs : Choices α) :
    (xs.filterMap f).toList = xs.toList.filterMap f := by
  induction xs with
  | nil => rfl
  | cons x rest ih =>
    simp only [filterMap, toList, List.filterMap_cons]
    cases f x <;> simp [toList, ih]

@[simp] theorem toList_flatMap (f : α → Choices β) (xs : Choices α) :
    (xs.flatMap f).toList = xs.toList.flatMap fun x => (f x).toList := by
  induction xs with
  | nil => rfl
  | cons x rest ih =>
    simp only [flatMap, toList, List.flatMap_cons]
    cases f x <;> simp [toList, ih]

theorem head?_toList (xs : Choices α) : xs.toList.head? = xs.head? := by
  cases xs <;> rfl

theorem take_eq (n : Nat) (xs : Choices α) : xs.take n = xs.toList.take n := by
  induction n generalizing xs with
  | zero => simp [take]
  | succ n ih =>
    cases xs with
    | nil => simp [take, toList]
    | cons x rest =>
      cases n with
      | zero => simp [take, toList]
      | succ n => simp [take, toList, ih]

end Choices

end WireGrammar
