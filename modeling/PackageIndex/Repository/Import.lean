import PackageIndex.Database.File
import PackageIndex.Repository.Attempt

/-!
# Imports

A database can be a source of ebuilds for another one. Either the ebuilds of one of its layers are
taken or those of all; each is taken over unchanged, except that it gets the key of the importing
layer.
-/

namespace PackageIndex

/-- What is to be imported. -/
structure ImportRequest where
  /-- The database file. -/
  path : String
  /-- The layer of the database to be taken, by key, label or path; all if there is none. -/
  overlay : Option String
  deriving DecidableEq, Repr

/-- Reads `FILE` or `FILE:OVERLAY`. The first layer is meant if none is named, and all by `*`. -/
def ImportRequest.parse (text : String) : Except Error ImportRequest :=
  let cs := text.toList
  let (path, overlay) := (Text.cutLast ':' cs).getD (cs, [])
  if path.isEmpty then .error (.missingPath text)
  else .ok {
    path := String.ofList path
    overlay :=
      if overlay = ['*'] then none
      else if overlay.isEmpty then some "0"
      else some (String.ofList overlay) }

/-- A database as a source of ebuilds for one layer. -/
structure DatabaseImport where
  /-- What is imported. -/
  request : ImportRequest
  /-- The layer that the ebuilds are in. -/
  key : OverlayKey
  deriving DecidableEq, Repr

namespace DatabaseImport

/-- The name of the source. -/
def name (source : DatabaseImport) : String :=
  match source.request.overlay with
  | some overlay => "eix " ++ source.request.path ++ " [" ++ overlay ++ "]"
  | none => "eix " ++ source.request.path

/-- The error that the layer to be imported is not there. -/
def missingOverlay (request : ImportRequest) : Error :=
  .missingOverlay request.path (request.overlay.getD "*")

/-- The key in the database of the layer to be imported; none if all are. -/
def selection (request : ImportRequest) (h : Header) : Except Error (Option OverlayKey) :=
  match request.overlay with
  | none => .ok none
  | some name =>
    match h.findOverlay? name with
    | some key => .ok (some key)
    | none => .error (missingOverlay request)

/-- What the importing layer is to be registered as: the imported layer, or the file if all layers
are imported. -/
def ident (fs : FileSystem) (request : ImportRequest) : Except Error Overlay := do
  let h ← Database.loadHeader fs request.path
  match ← selection request h with
  | none => return ⟨request.path, ""⟩
  | some key =>
    match h.overlay? key with
    | some o => return o
    | none => throw (missingOverlay request)

/-- The cursor over the database, and the key of the layer to be imported. -/
def openCursor (source : DatabaseImport) (fs : FileSystem) (detail : Detail) :
    Except Error (Cursor × Option OverlayKey) := do
  let cursor ← Database.openCursor fs source.request.path detail
  let selected ← selection source.request cursor.header
  return (cursor, selected)

/-- Whether an ebuild is to be imported. -/
def wanted (selected : Option OverlayKey) (e : Ebuild) : Bool :=
  selected.all fun key => e.overlay == key

/-- Takes the metadata of a package over. -/
def describe (source p : Package) : Package :=
  { p with
    description := source.description
    homepage := source.homepage
    license := source.license
    provide := source.provide }

/-- Adds one imported ebuild; the newest version describes the package. -/
def addEbuild (source : Package) (p : Package) (e : Ebuild) : Package :=
  (if p.isNewest e.version then describe source p else p).add e

/-- The ebuilds of a package that are imported, with the key of the importing layer. -/
def imported (key : OverlayKey) (selected : Option OverlayKey) (source : Package) : List Ebuild :=
  (source.ebuilds.filter (wanted selected)).map fun e => { e with overlay := key }

/-- Merges a package of the database into the category. A package that is missing is added; if it
gets no ebuild, it is removed again. -/
def merge (key : OverlayKey) (selected : Option OverlayKey) (c : Category) (source : Package) :
    Category :=
  let ebuilds := imported key selected source
  let merged := c.update source.name fun p => ebuilds.foldl (addEbuild source) p
  if (c.find? source.name).isSome || !ebuilds.isEmpty then
    merged.modify source.name fun p => p.addUseFlags source.useFlags.toList
  else merged.remove source.name

/-- The names of the categories of packages, each named once where it repeats without a gap. -/
def runNames : List String → List String
  | [] => []
  | [n] => [n]
  | n :: m :: ns => if n = m then runNames (m :: ns) else n :: runNames (m :: ns)

/-- The categories of the database. -/
def categoryNames (source : DatabaseImport) (fs : FileSystem) : Except Error (List String) := do
  let (cursor, _) ← source.openCursor fs .names
  let packages ← cursor.packages
  return runNames (packages.map Package.category)

/-- Merges one item of the cursor, if it is of the category. -/
def addToCategory (key : OverlayKey) (selected : Option OverlayKey) (c : Category) :
    Except Error Package → Attempt Category
  | .error e => { value := c, error? := some e }
  | .ok p => { value := if p.category = c.name then merge key selected c p else c }

/-- Adds the ebuilds of a category. -/
def readCategory (source : DatabaseImport) (fs : FileSystem) (c : Category) : Attempt Category :=
  match source.openCursor fs .full with
  | .error e => { value := c, error? := some e }
  | .ok (cursor, selected) => .each (addToCategory source.key selected) c cursor.items

/-- Merges one item of the cursor into its category, which is added if it is missing. -/
def addToTree (key : OverlayKey) (selected : Option OverlayKey) (t : Tree) :
    Except Error Package → Attempt Tree
  | .error e => { value := t, error? := some e }
  | .ok p => { value := t.update p.category fun c => merge key selected c p }

/-- Adds the ebuilds of all categories in one pass. -/
def readCategories (source : DatabaseImport) (fs : FileSystem) (t : Tree) : Attempt Tree :=
  match source.openCursor fs .full with
  | .error e => { value := t, error? := some e }
  | .ok (cursor, selected) => .each (addToTree source.key selected) t cursor.items

end DatabaseImport

end PackageIndex
