/-!
# Lists of named things

Packages within a category and categories within a tree are kept in the order of their arrival and
found by name; of several with one name the first is meant. `upsert` changes the thing with a name,
which is made and put last if there is none.
-/

namespace PackageIndex.Named

variable {α : Type}

/-- Changes the first thing with a name; if there is none, a new one is changed and put last. -/
def upsert (nameOf : α → String) (name : String) (new : α) (f : α → α) : List α → List α
  | [] => [f new]
  | x :: xs => if nameOf x = name then f x :: xs else x :: upsert nameOf name new f xs

/-- Changes the first thing with a name, if there is one. -/
def modify (nameOf : α → String) (name : String) (f : α → α) : List α → List α
  | [] => []
  | x :: xs => if nameOf x = name then f x :: xs else x :: modify nameOf name f xs

/-- The first thing with a name. -/
def find? (nameOf : α → String) (name : String) (xs : List α) : Option α :=
  xs.find? fun x => nameOf x == name

/-- What an upsert leaves to be found under its name. -/
theorem find?_upsert_self {nameOf : α → String} {name : String} {new : α} {f : α → α}
    (hf : ∀ x, nameOf x = name → nameOf (f x) = name) (hnew : nameOf new = name) (xs : List α) :
    find? nameOf name (upsert nameOf name new f xs) =
      some (f ((find? nameOf name xs).getD new)) := by
  induction xs with
  | nil => simp [upsert, find?, hf new hnew]
  | cons x xs ih =>
    rw [upsert]
    split
    next h => simp [find?, h, hf x h]
    next h =>
      simp only [find?, List.find?_cons, beq_eq_false_iff_ne.2 h] at ih ⊢
      exact ih

/-- An upsert leaves what has another name. -/
theorem find?_upsert_of_ne {nameOf : α → String} {name other : String} {new : α} {f : α → α}
    (hf : ∀ x, nameOf x = name → nameOf (f x) = name) (hnew : nameOf new = name)
    (hne : other ≠ name) (xs : List α) :
    find? nameOf other (upsert nameOf name new f xs) = find? nameOf other xs := by
  induction xs with
  | nil => simp [upsert, find?, hf new hnew, Ne.symm hne]
  | cons x xs ih =>
    rw [upsert]
    split
    next h => simp [find?, h, hf x h, Ne.symm hne]
    next h =>
      simp only [find?, List.find?_cons] at ih ⊢
      split
      · rfl
      · exact ih

end PackageIndex.Named
