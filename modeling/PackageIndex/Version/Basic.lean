import PackageIndex.Version.Digits

/-!
# Versions

A version is written `N(.N)*[a-z]?(_(alpha|beta|pre|rc|p)N?)*(-rN)?`, for example
`1.2.3b_pre2_p1-r4`, where `N` is a nonempty digit run. The type holds exactly the parts of this
form, so every value has one spelling, `Version.toList`, and two versions are equal as values iff
they are spelled alike. The order on versions, under which `1.0` and `1.00` are alike, is a separate
matter.
-/

namespace PackageIndex

/-- A nonempty digit run, as written. -/
structure Numeral where
  /-- The first digit. -/
  lead : Digit
  /-- The digits after the first. -/
  tail : List Digit
  deriving DecidableEq, Repr

/-- The digits of a numeral. -/
def Numeral.digits (n : Numeral) : List Digit :=
  n.lead :: n.tail

/-- A lower-case letter `a` to `z`, by its place in the alphabet. -/
abbrev Letter := Fin 26

namespace Letter

/-- The character of a letter. -/
def toChar (l : Letter) : Char :=
  Char.ofNat ('a'.toNat + l.val)

/-- The letter that a character is, if it is one of `a` to `z`. -/
def ofChar? (c : Char) : Option Letter :=
  if h : 'a'.toNat ≤ c.toNat ∧ c.toNat ≤ 'z'.toNat then
    some ⟨c.toNat - 'a'.toNat, by have : 'a'.toNat = 97 ∧ 'z'.toNat = 122 := by decide
                                  omega⟩
  else none

end Letter

/-- The kinds of a version suffix, in ascending order. -/
inductive SuffixKind where
  | alpha
  | beta
  | pre
  | rc
  /-- A patch level, written `p`: the one kind that comes after the plain version. -/
  | patch
  deriving DecidableEq, Repr

namespace SuffixKind

/-- The place of a kind in the order. -/
def rank : SuffixKind → Nat
  | alpha => 0
  | beta => 1
  | pre => 2
  | rc => 3
  | patch => 4

/-- The word of a kind. -/
def toList : SuffixKind → List Char
  | alpha => ['a', 'l', 'p', 'h', 'a']
  | beta => ['b', 'e', 't', 'a']
  | pre => ['p', 'r', 'e']
  | rc => ['r', 'c']
  | patch => ['p']

/-- The kind whose word starts the text, and the text after the word; the word `pre` is not taken
for the word `p`. -/
def take? : List Char → Option (SuffixKind × List Char)
  | 'a' :: 'l' :: 'p' :: 'h' :: 'a' :: cs => some (alpha, cs)
  | 'b' :: 'e' :: 't' :: 'a' :: cs => some (beta, cs)
  | 'p' :: 'r' :: 'e' :: cs => some (pre, cs)
  | 'r' :: 'c' :: cs => some (rc, cs)
  | 'p' :: cs => some (patch, cs)
  | _ => none

theorem length_take? {cs rest : List Char} {kind : SuffixKind} (h : take? cs = some (kind, rest)) :
    rest.length < cs.length := by
  unfold take? at h
  split at h <;> simp_all <;> (obtain ⟨_, rfl⟩ := h; omega)

end SuffixKind

/-- A suffix such as `_pre2`; an empty number means that none is written. -/
structure Suffix where
  /-- What the suffix says about the version. -/
  kind : SuffixKind
  /-- The number after the word. -/
  number : List Digit
  deriving DecidableEq, Repr

/-- The text of a suffix. -/
def Suffix.toList (s : Suffix) : List Char :=
  '_' :: (s.kind.toList ++ Digits.toList s.number)

/-- A version, part by part as written. -/
structure Version where
  /-- The first component. -/
  first : Numeral
  /-- The components after the first, each written after a dot. -/
  rest : List Numeral
  /-- The letter after the components. -/
  letter : Option Letter
  /-- The suffixes, in order. -/
  suffixes : List Suffix
  /-- The number of the revision `-rN`; empty if there is none. -/
  revision : List Digit
  deriving DecidableEq, Repr

namespace Version

/-- The text of a revision. -/
def revisionToList (revision : List Digit) : List Char :=
  if revision.isEmpty then [] else '-' :: 'r' :: Digits.toList revision

/-- The text of a version, as characters. -/
def toList (v : Version) : List Char :=
  Digits.toList v.first.digits ++ (v.rest.flatMap fun n => '.' :: Digits.toList n.digits) ++
    (v.letter.map Letter.toChar).toList ++ v.suffixes.flatMap Suffix.toList ++
    revisionToList v.revision

/-- The text of a version. -/
protected def toString (v : Version) : String :=
  String.ofList v.toList

instance : ToString Version := ⟨Version.toString⟩

/-- The text of the revision number. -/
def revisionText (v : Version) : String :=
  String.ofList (Digits.toList v.revision)

end Version

end PackageIndex
