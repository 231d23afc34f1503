import PackageIndex.Database.Dictionary
import PackageIndex.Database.Number

/-!
# Fields

The parts that records are made of: texts, which are stored in UTF-8 behind their length, references
to the entries of a dictionary, lists of such references, and dictionaries themselves. The writer
and the reader of each stand together.
-/

namespace PackageIndex.Field

/-- The written form of a length or count. -/
def encodeNat (n : Nat) : List UInt8 :=
  Number.encode n.toUInt64

/-! ## Texts -/

/-- The written form of a text. -/
def encodeText (s : String) : List UInt8 :=
  let bytes := Utf8.encode s
  encodeNat bytes.length ++ bytes

/-- Reads a text. -/
def readText : Decoder String := do
  let length ← Number.read
  let bytes ← Decoder.upTo length.toNat
  if bytes.length < length.toNat then throw (.truncated (.text length.toNat bytes.length))
  else match Utf8.decode bytes with
    | .ok s => pure s
    | .error fault => throw (.corrupt (.text fault))

/-! ## References to a dictionary -/

/-- The written form of a dictionary entry. -/
def encodeEntry (d : Dictionary) (s : String) : Except Error (List UInt8) :=
  match d.indexOf? s with
  | some i => .ok (encodeNat i)
  | none => .error (.corrupt (.missingWord s))

/-- Reads a dictionary entry. -/
def readEntry (d : Dictionary) : Decoder String := do
  let index ← Number.read
  Decoder.require (d.get? index.toNat) (.corrupt (.noEntry index d.size))

/-- The written form of a list of dictionary entries. -/
def encodeEntries (d : Dictionary) (ss : List String) : Except Error (List UInt8) := do
  let entries ← ss.mapM (encodeEntry d)
  return encodeNat ss.length ++ entries.flatten

/-- Reads a list of dictionary entries. -/
def readEntries (d : Dictionary) : Decoder (List String) := do
  let count ← Number.read
  Decoder.repeated (readEntry d) count.toNat

/-! ## Dictionaries -/

/-- The written form of a dictionary. -/
def encodeDictionary (d : Dictionary) : List UInt8 :=
  encodeNat d.size ++ d.entries.flatMap encodeText

/-- Reads a dictionary. -/
def readDictionary : Decoder Dictionary := do
  let count ← Number.read
  let entries ← Decoder.repeated readText count.toNat
  let d := Dictionary.ofList entries
  if d.size = entries.length then pure d else throw (.corrupt .duplicateEntry)

end PackageIndex.Field
