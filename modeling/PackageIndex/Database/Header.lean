import PackageIndex.Database.Field
import PackageIndex.Tree.Basic
import PackageIndex.Version.Digits

/-!
# Database headers

A database starts with its magic bytes and a header: the format version, the number of categories
and packages, the table of repository layers, the options, and five dictionaries. The key of a layer
is its place in the table; keys have a meaning only within one database.
-/

namespace PackageIndex

/-- A repository layer. -/
structure Overlay where
  /-- Where the repository is. -/
  path : String
  /-- The name that the repository gives itself; empty if it has none. -/
  label : String
  deriving DecidableEq, Repr

/-- The label of a layer, or its path if it has none. -/
def Overlay.humanName (o : Overlay) : String :=
  if o.label.isEmpty then o.path else o.label

/-- The texts that the records of a database refer to. -/
structure Dictionaries where
  /-- EAPI values. -/
  eapi : Dictionary := .empty
  /-- LICENSE values. -/
  license : Dictionary := .empty
  /-- Slots and sub-slots. -/
  slot : Dictionary := .empty
  /-- USE flags. -/
  iuse : Dictionary := .empty
  /-- Words of dependency values. -/
  depend : Dictionary := .empty
  deriving DecidableEq

instance : Inhabited Dictionaries := ⟨{}⟩

/-- What a database stores before its first category. -/
structure Header where
  /-- The format version. -/
  version : UInt64
  /-- The number of categories. -/
  categoryCount : UInt64 := 0
  /-- The number of packages. -/
  packageCount : UInt64 := 0
  /-- Whether dependencies are stored. -/
  storesDependencies : Bool := false
  /-- The repository layers; the key of a layer is its place. -/
  overlays : List Overlay := []
  /-- The dictionaries. -/
  dictionaries : Dictionaries := {}
  deriving DecidableEq

namespace Dictionaries

/-- The dictionaries with the texts that the record of an ebuild refers to, in the order of the
record. -/
def addEbuild (dependencies : Bool) (d : Dictionaries) (e : Ebuild) : Dictionaries :=
  { d with
    eapi := d.eapi.insert e.eapi
    slot := (d.slot.insert e.slot.name).insert e.slot.subText
    iuse := d.iuse.insertAll e.iuse
    depend :=
      if dependencies then
        (e.depend.getD .none).fields.foldl Dictionary.insertWords d.depend
      else d.depend }

/-- The dictionaries with the texts that the record of a package refers to, in the order of the
record. -/
def addPackage (dependencies : Bool) (d : Dictionaries) (p : Package) : Dictionaries :=
  p.ebuilds.foldl (addEbuild dependencies)
    { d with
      license := d.license.insert p.license
      iuse := d.iuse.insertAll p.useFlags.toList }

end Dictionaries

namespace Header

/-- The one format version that is read, and that new headers have. -/
def currentVersion : UInt64 := 39

/-- A header of the current format with nothing in it. -/
def new : Header := { version := currentVersion }

instance : Inhabited Header := ⟨new⟩

/-- Whether the format version is the one that is read. -/
def isCurrent (h : Header) : Bool :=
  h.version == currentVersion

/-! ## Layers -/

/-- Enters a layer and tells its key; a known path keeps its layer and key. -/
def addOverlay (h : Header) (o : Overlay) : Header × OverlayKey :=
  match h.overlays.findIdx? fun known => known.path == o.path with
  | some i => (h, i.toUInt32)
  | none => ({ h with overlays := h.overlays ++ [o] }, h.overlays.length.toUInt32)

/-- The layer with a key. -/
def overlay? (h : Header) (key : OverlayKey) : Option Overlay :=
  h.overlays[key.toNat]?

/-- The key that a text writes as a number: decimal digits after an optional plus sign, of a value
that fits a key. -/
def keyOfText? (text : String) : Option OverlayKey :=
  let cs := match text.toList with
    | '+' :: cs => cs
    | cs => cs
  match Digits.take cs with
  | (d :: ds, []) =>
    let n := Digits.value (d :: ds)
    if n < UInt32.size then some n.toUInt32 else none
  | _ => none

/-- A path without slashes at its end. -/
def withoutSlashes (path : String) : List Char :=
  Text.trimEnd (· == '/') path.toList

/-- The key of the first layer with the label, or with the path up to slashes at its end. -/
def keyOfName? (h : Header) (name : String) : Option OverlayKey :=
  (h.overlays.findIdx? fun o =>
    o.label == name || withoutSlashes o.path == withoutSlashes name).map Nat.toUInt32

/-- The key of a layer that is named by its key, its label or its path. -/
def findOverlay? (h : Header) (name : String) : Option OverlayKey :=
  match keyOfText? name with
  | some key => if key.toNat < h.overlays.length then some key else h.keyOfName? name
  | none => h.keyOfName? name

/-- The names of the layers, in the order of their keys. -/
def overlayNames (h : Header) : List String :=
  h.overlays.map Overlay.humanName

/-! ## Preparation -/

/-- The header with the counts and dictionaries that the records of a tree need. The dictionaries
are made anew, so that indices follow the order in which the records first refer to them. -/
def prepare (h : Header) (t : Tree) : Header :=
  { h with
    categoryCount := t.categories.length.toUInt64
    packageCount := t.packageCount.toUInt64
    dictionaries := t.packages.foldl (Dictionaries.addPackage h.storesDependencies) {} }

/-! ## Written form -/

/-- The first bytes of every database. -/
def magic : List UInt8 := [0x50, 0x49, 0x58, 0x0A]

/-- The options as a number: the lowest bit says that dependencies are stored. -/
def options (h : Header) : UInt64 :=
  if h.storesDependencies then 1 else 0

/-- The written form of a layer. -/
def encodeOverlay (o : Overlay) : List UInt8 :=
  Field.encodeText o.path ++ Field.encodeText o.label

/-- Reads a layer. -/
def readOverlay : Decoder Overlay := do
  let path ← Field.readText
  let label ← Field.readText
  return ⟨path, label⟩

/-- The written form of a header, with the magic bytes. -/
def encode (h : Header) : List UInt8 :=
  magic ++ Number.encode h.version ++ Number.encode h.categoryCount ++
    Number.encode h.packageCount ++ Field.encodeNat h.overlays.length ++
    h.overlays.flatMap encodeOverlay ++ Number.encode h.options ++
    Field.encodeDictionary h.dictionaries.eapi ++ Field.encodeDictionary h.dictionaries.license ++
    Field.encodeDictionary h.dictionaries.slot ++ Field.encodeDictionary h.dictionaries.iuse ++
    Field.encodeDictionary h.dictionaries.depend

/-- Passes over the magic bytes. -/
def readMagic (name : String) : Decoder Unit := do
  let start ← Decoder.upTo magic.length
  if start = magic then pure () else throw (.notADatabase name)

/-- Reads the format version and refuses all but the current one. -/
def readVersion (name : String) : Decoder UInt64 := do
  let version ← Number.read
  if version < currentVersion then throw (.obsoleteFormat name version currentVersion)
  else if currentVersion < version then throw (.newerFormat name version currentVersion)
  else pure version

/-- Reads the five dictionaries. -/
def readDictionaries : Decoder Dictionaries := do
  let eapi ← Field.readDictionary
  let license ← Field.readDictionary
  let slot ← Field.readDictionary
  let iuse ← Field.readDictionary
  let depend ← Field.readDictionary
  return { eapi, license, slot, iuse, depend }

/-- Reads a header; the name is the database's in error messages. -/
def read (name : String) : Decoder Header := do
  readMagic name
  let version ← readVersion name
  let categoryCount ← Number.read
  let packageCount ← Number.read
  let overlayCount ← Number.read
  let overlays ← Decoder.repeated readOverlay overlayCount.toNat
  let options ← Number.read
  let dictionaries ← readDictionaries
  return {
    version, categoryCount, packageCount
    storesDependencies := options &&& 1 != 0
    overlays, dictionaries }

end Header

end PackageIndex
