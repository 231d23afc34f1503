import PackageIndex.Text.Blank

/-!
# Flag sets

Masks, restrictions and properties of a version are sets of flags, kept as the bits of one 64-bit
word. A vocabulary names the flags by words: its first word owns the lowest bit. Restrictions and
properties are read from lists of words in which conditions such as `foo? ( ... )` may group some;
a word inside a group counts whether or not the condition holds, and words outside the vocabulary
are passed over.
-/

namespace PackageIndex

/-- A set of flags. -/
structure FlagSet where
  /-- The bits of the flags in the set. -/
  bits : UInt64
  deriving DecidableEq, Repr

namespace FlagSet

/-- No flags. -/
def empty : FlagSet := ⟨0⟩

instance : Inhabited FlagSet := ⟨empty⟩

/-- The flag with the given place. -/
def single (place : Nat) : FlagSet := ⟨1 <<< place.toUInt64⟩

/-- Whether all flags of another set are in the set. -/
def contains (s t : FlagSet) : Bool :=
  s.bits &&& t.bits == t.bits

/-- The flags that are in one of two sets. -/
def union (s t : FlagSet) : FlagSet := ⟨s.bits ||| t.bits⟩

/-- The flags of a set that are not in another. -/
def without (s t : FlagSet) : FlagSet := ⟨s.bits &&& ~~~t.bits⟩

/-- Whether the set has no flags. -/
def isEmpty (s : FlagSet) : Bool :=
  s.bits == 0

/-- The words of a list that can name a flag: all but conditions and parentheses. -/
def flagWords (text : String) : List String :=
  (Text.words text).filter fun w => w.toList.getLast? != some '?' && w != "(" && w != ")"

/-- The flag that a word names in a vocabulary, or none. -/
def ofWord (vocabulary : List String) (word : String) : FlagSet :=
  match vocabulary.idxOf? word with
  | some place => single place
  | none => empty

/-- The flags that the words of a list name. -/
def ofWords (vocabulary : List String) (text : String) : FlagSet :=
  (flagWords text).foldl (fun s w => s.union (ofWord vocabulary w)) empty

/-- The words of the flags in a set, in the order of the vocabulary. -/
def toWords (vocabulary : List String) (s : FlagSet) : List String :=
  (vocabulary.zipIdx.filter fun (_, place) => s.contains (single place)).map Prod.fst

/-- The words of the flags in a set as one text. -/
def render (vocabulary : List String) (s : FlagSet) : String :=
  Text.unwords (s.toWords vocabulary)

end FlagSet

/-- The words of RESTRICT that are kept. -/
def restrictVocabulary : List String :=
  ["binchecks", "strip", "test", "userpriv", "installsources", "fetch", "mirror", "primaryuri",
    "bindist", "parallel", "splitdebug", "preserve-libs"]

/-- The words of PROPERTIES that are kept. -/
def propertiesVocabulary : List String :=
  ["interactive", "live", "virtual", "set"]

end PackageIndex
