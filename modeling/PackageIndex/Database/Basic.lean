import PackageIndex.Database.Record

/-!
# Databases

A database is a complete snapshot of a tree: the header and, behind it, every category. Writing one
prepares the header for the tree; reading one gives the header and the tree, or fails as a whole.
-/

namespace PackageIndex.Database

/-- The written form of a tree under a header that is prepared for it. -/
def encodePrepared (h : Header) (t : Tree) : Except Error (List UInt8) := do
  let categories ← t.categories.mapM (Record.encodeCategory h)
  return h.encode ++ categories.flatten

/-- The written form of a tree; counts and dictionaries of the header are those of the tree. -/
def encode (h : Header) (t : Tree) : Except Error (List UInt8) :=
  encodePrepared (h.prepare t) t

/-- Reads a number of categories behind `found` packages, and counts the packages on. -/
def readCategories (h : Header) (found : Nat) : Nat → Decoder (List Category × Nat)
  | 0 => pure ([], found)
  | count + 1 => do
    let c ← Record.readCategory h
    let found := found + c.packages.length
    if found < UInt64.size then
      let (cs, found) ← readCategories h found count
      return (c :: cs, found)
    else throw (.corrupt .countOverflow)

/-- Reads a database; the name is its name in error messages. -/
def read (name : String) : Decoder (Header × Tree) := do
  let h ← Header.read name
  let (categories, found) ← readCategories h 0 h.categoryCount.toNat
  if found = h.packageCount.toNat then return (h, { categories })
  else throw (.corrupt (.packageCount name h.packageCount found))

/-- The header and the tree of a database. -/
def decode (name : String) (bytes : List UInt8) : Except Error (Header × Tree) :=
  (read name).run' (.ofBytes bytes)

/-- The header of a database. -/
def decodeHeader (name : String) (bytes : List UInt8) : Except Error Header :=
  (Header.read name).run' (.ofBytes bytes)

end PackageIndex.Database
