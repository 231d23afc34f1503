import PackageIndex.Database.Header
import PackageIndex.Version.Parser

/-!
# Records

How ebuilds, packages and categories are stored. The record of a package starts with its length in
bytes, so that a reader that wants no more of it can pass over the rest; so does the dependency
block of an ebuild. Records refer to the dictionaries of the header that they are written and read
with.
-/

namespace PackageIndex

/-- How much of each package record is read. -/
inductive Detail where
  /-- Category and name. -/
  | names
  /-- All but the releases. -/
  | metadata
  /-- Everything. -/
  | full
  deriving DecidableEq, Repr

namespace Record

/-- A written form behind its length. -/
def measured (bytes : List UInt8) : List UInt8 :=
  Field.encodeNat bytes.length ++ bytes

/-! ## Dependencies -/

/-- The written form of dependencies. -/
def encodeDependencies (h : Header) (d : Dependencies) : Except Error (List UInt8) := do
  let fields ← d.fields.mapM fun f => Field.encodeEntries h.dictionaries.depend (Text.words f)
  return measured fields.flatten

/-- Reads one dependency value. -/
def readDependency (h : Header) : Decoder String :=
  Text.unwords <$> Field.readEntries h.dictionaries.depend

/-- Reads dependencies; they are absent if all are empty. -/
def readDependencies (h : Header) : Decoder (Option Dependencies) := do
  let length ← Number.read
  let start ← Decoder.position
  let depend ← readDependency h
  let rdepend ← readDependency h
  let pdepend ← readDependency h
  let bdepend ← readDependency h
  let stop ← Decoder.position
  if stop = min (start + length.toNat) (UInt64.size - 1) then
    return Dependencies.normalize (some ⟨depend, rdepend, pdepend, bdepend⟩)
  else throw (.corrupt .dependencyLength)

/-! ## Ebuilds -/

/-- The written form of an ebuild. -/
def encodeEbuild (h : Header) (e : Ebuild) : Except Error (List UInt8) := do
  let eapi ← Field.encodeEntry h.dictionaries.eapi e.eapi
  let slot ← Field.encodeEntry h.dictionaries.slot e.slot.name
  let subslot ← Field.encodeEntry h.dictionaries.slot e.slot.subText
  let iuse ← Field.encodeEntries h.dictionaries.iuse e.iuse
  let depend ←
    if h.storesDependencies then encodeDependencies h (e.depend.getD .none) else pure []
  return Field.encodeText (toString e.version) ++ eapi ++ Number.encode e.stability.code ++
    Number.encode e.mask.bits ++ Number.encode e.restrict.bits ++
    Number.encode e.properties.bits ++ slot ++ subslot ++ iuse ++
    Number.encode e.overlay.toUInt64 ++ depend

/-- Reads a version. -/
def readVersion : Decoder Version := do
  let text ← Field.readText
  Decoder.require (Version.ofString? text) (.corrupt (.version text))

/-- Reads a stability. -/
def readStability : Decoder Stability := do
  let code ← Number.read
  Decoder.require (Stability.ofCode? code) (.corrupt (.stability code))

/-- Reads an overlay key. -/
def readOverlayKey : Decoder OverlayKey := do
  let key ← Number.read
  if key.toNat < UInt32.size then pure key.toUInt32 else throw (.corrupt (.overlayKey key))

/-- Reads an ebuild. -/
def readEbuild (h : Header) : Decoder Ebuild := do
  let version ← readVersion
  let eapi ← Field.readEntry h.dictionaries.eapi
  let stability ← readStability
  let mask ← Number.read
  let restrict ← Number.read
  let properties ← Number.read
  let slot ← Field.readEntry h.dictionaries.slot
  let subslot ← Field.readEntry h.dictionaries.slot
  let iuse ← Field.readEntries h.dictionaries.iuse
  let overlay ← readOverlayKey
  let depend ← if h.storesDependencies then readDependencies h else pure none
  return {
    version, eapi, overlay, stability, iuse, depend
    slot := ⟨slot, if subslot.isEmpty then none else some subslot⟩
    mask := ⟨mask⟩
    restrict := ⟨restrict⟩
    properties := ⟨properties⟩ }

/-! ## Packages -/

/-- The fields of a package record behind its length. -/
def encodePackageFields (h : Header) (p : Package) : Except Error (List UInt8) := do
  let license ← Field.encodeEntry h.dictionaries.license p.license
  let useFlags ← Field.encodeEntries h.dictionaries.iuse p.useFlags.toList
  let ebuilds ← p.ebuilds.mapM (encodeEbuild h)
  return Field.encodeText p.name ++ Field.encodeText p.description ++
    Field.encodeText p.homepage ++ license ++ Field.encodeText p.provide ++ useFlags ++
    Field.encodeNat p.ebuilds.length ++ ebuilds.flatten

/-- The written form of a package. -/
def encodePackage (h : Header) (p : Package) : Except Error (List UInt8) :=
  measured <$> encodePackageFields h p

/-- Reads the length of a package record and tells the offset of the record's end. -/
def readStop : Decoder Nat := do
  let length ← Number.read
  let start ← Decoder.position
  if start + length.toNat < UInt64.size then pure (start + length.toNat)
  else throw (.corrupt (.recordTooLong length))

/-- Reads what a package record holds between the name and the releases. -/
def readMetadata (h : Header) (p : Package) : Decoder Package := do
  let description ← Field.readText
  let homepage ← Field.readText
  let license ← Field.readEntry h.dictionaries.license
  let provide ← Field.readText
  let useFlags ← Field.readEntries h.dictionaries.iuse
  return { p with description, homepage, license, provide, useFlags := .ofList useFlags }

/-- Reads the releases of a package. -/
def readReleases (h : Header) (p : Package) : Decoder Package := do
  let count ← Number.read
  let ebuilds ← Decoder.repeated (readEbuild h) count.toNat
  return { p with releases := .ofList ebuilds }

/-- Reads a package of the category with the given name, to the given detail. -/
def readPackage (h : Header) (category : String) (detail : Detail) : Decoder Package := do
  let stop ← readStop
  let name ← Field.readText
  let p : Package := { category, name }
  match detail with
  | .names =>
    Decoder.skipTo stop
    return p
  | .metadata =>
    let p ← readMetadata h p
    Decoder.skipTo stop
    return p
  | .full =>
    let p ← readMetadata h p
    let p ← readReleases h p
    let position ← Decoder.position
    if position = stop then return p
    else throw (.corrupt (.recordEnd p.fullName position stop))

/-! ## Categories -/

/-- The written form of a category's name and number of packages. -/
def encodeCategoryHeader (name : String) (packageCount : Nat) : List UInt8 :=
  Field.encodeText name ++ Field.encodeNat packageCount

/-- The written form of a category. -/
def encodeCategory (h : Header) (c : Category) : Except Error (List UInt8) := do
  let packages ← c.packages.mapM (encodePackage h)
  return encodeCategoryHeader c.name c.packages.length ++ packages.flatten

/-- Reads the name of a category and the number of its packages. -/
def readCategoryHeader : Decoder (String × UInt64) := do
  let name ← Field.readText
  let count ← Number.read
  return (name, count)

/-- Reads a category with all its packages. -/
def readCategory (h : Header) : Decoder Category := do
  let (name, count) ← readCategoryHeader
  let packages ← Decoder.repeated (readPackage h name .full) count.toNat
  return { name, packages }

end Record

end PackageIndex
