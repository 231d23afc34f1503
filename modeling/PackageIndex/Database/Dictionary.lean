import PackageIndex.Text.Blank

/-!
# Dictionaries

The texts that many records of a database share are stored once, in a dictionary, and referred to by
their index. Indices follow the order of first insertion, and an index never changes.
-/

namespace PackageIndex

/-- A numbered set of texts. -/
structure Dictionary where
  /-- The texts in the order of their indices. -/
  entries : List String
  /-- Each text has one index. -/
  nodup : entries.Nodup
  deriving DecidableEq

namespace Dictionary

/-- The dictionary without texts. -/
def empty : Dictionary := ⟨[], .nil⟩

instance : Inhabited Dictionary := ⟨empty⟩

/-- The number of texts. -/
def size (d : Dictionary) : Nat :=
  d.entries.length

/-- The dictionary with one more text, unless it is there already. -/
def insert (d : Dictionary) (s : String) : Dictionary :=
  if h : s ∈ d.entries then d
  else ⟨d.entries ++ [s], List.nodup_append.2 ⟨d.nodup, by simp, by grind⟩⟩

/-- The dictionary with all texts of a list, in order. -/
def insertAll (d : Dictionary) (ss : List String) : Dictionary :=
  ss.foldl insert d

/-- The dictionary with all words of a text, in order. -/
def insertWords (d : Dictionary) (s : String) : Dictionary :=
  d.insertAll (Text.words s)

/-- The dictionary of the texts of a list. -/
def ofList (ss : List String) : Dictionary :=
  empty.insertAll ss

/-- The index of a text. -/
def indexOf? (d : Dictionary) (s : String) : Option Nat :=
  d.entries.idxOf? s

/-- The text with an index. -/
def get? (d : Dictionary) (i : Nat) : Option String :=
  d.entries[i]?

end Dictionary

end PackageIndex
