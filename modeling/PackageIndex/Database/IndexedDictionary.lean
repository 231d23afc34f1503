import PackageIndex.Database.Dictionary

/-!
# Dictionaries with an index

A dictionary that takes in texts keeps them twice: in the order of their numbers, and in an index
that leads from a text to its number, so that the texts need not be searched for it. A text that is
new goes into both, one after the other.
-/

namespace PackageIndex

/-- The texts of a dictionary with an index of them. -/
structure IndexedDictionary where
  /-- The texts in the order of their numbers. -/
  entries : List String := []
  /-- The numbers of the texts; of two pairs with the same text the first counts. -/
  numbers : List (String × Nat) := []
  deriving DecidableEq

namespace IndexedDictionary

/-- The number of texts. -/
def size (d : IndexedDictionary) : Nat :=
  d.entries.length

/-- The index of a text. -/
def indexOf? (d : IndexedDictionary) (s : String) : Option Nat :=
  d.numbers.lookup s

/-- The text with an index. -/
def get? (d : IndexedDictionary) (i : Nat) : Option String :=
  d.entries[i]?

/-- The index of a text, and the dictionary with it; a text that is not there gets the next. -/
def insert (d : IndexedDictionary) (s : String) : Nat × IndexedDictionary :=
  match d.indexOf? s with
  | some i => (i, d)
  | none => (d.size, ⟨d.entries ++ [s], (s, d.size) :: d.numbers⟩)

/-- The dictionary with all texts of a list, in order. -/
def insertAll (d : IndexedDictionary) (ss : List String) : IndexedDictionary :=
  ss.foldl (fun d s => (d.insert s).2) d

/-- The dictionary with all words of a text, in order. -/
def insertWords (d : IndexedDictionary) (s : String) : IndexedDictionary :=
  d.insertAll (Text.words s)

/-- The dictionary of the texts of a list. -/
def ofList (ss : List String) : IndexedDictionary :=
  insertAll {} ss

end IndexedDictionary

end PackageIndex
