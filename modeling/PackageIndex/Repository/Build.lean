import PackageIndex.Repository.Import
import PackageIndex.Repository.MetadataCache

/-!
# Building the index

The index is built layer by layer: first the main repository, then the overlays, then the imports.
Every layer gets its key before the first is read, and a layer whose path is known already shares
the key of the first with that path. All layers are read into one tree, whose categories are then
put in order.
-/

namespace PackageIndex

/-- The default main repository. -/
def defaultRepository : String := "/var/db/repos/gentoo"

/-- The default architecture. -/
def defaultArchitecture : String := "amd64"

/-- What an index is built from. -/
structure BuildConfig where
  /-- The main repository. -/
  mainRepository : String := defaultRepository
  /-- Further repositories. -/
  overlays : List String := []
  /-- Databases to import from. -/
  imports : List ImportRequest := []
  /-- The architecture that the stability is meant for. -/
  arch : String := defaultArchitecture
  /-- Whether dependencies are kept. -/
  withDependencies : Bool := false
  deriving DecidableEq, Repr

/-- The name that a repository gives itself; empty if it gives none. -/
def repositoryLabel (fs : FileSystem) (root : String) : String :=
  match fs.text (Path.join root "profiles/repo_name") with
  | .ok content => Text.trim ((Text.lines content).headD "")
  | .error _ => ""

/-- A source of ebuilds. -/
inductive Source where
  /-- The metadata cache of a repository. -/
  | cache (repository : MetadataCache)
  /-- A database file. -/
  | database (file : DatabaseImport)
  deriving DecidableEq, Repr

namespace Source

/-- The categories that the source can provide. -/
def categoryNames (s : Source) (fs : FileSystem) : Except Error (List String) :=
  match s with
  | .cache repository => repository.categoryNames fs
  | .database file => file.categoryNames fs

/-- Adds the ebuilds of a category. -/
def readCategory (s : Source) (fs : FileSystem) (c : Category) : Attempt Category :=
  match s with
  | .cache repository => repository.readCategory fs c
  | .database file => file.readCategory fs c

/-- Adds the ebuilds of the category with a name, which is added if it is missing. -/
def addCategory (s : Source) (fs : FileSystem) (t : Tree) (name : String) : Attempt Tree :=
  let attempt := s.readCategory fs ((t.findCategory? name).getD { name })
  { value := t.update name fun _ => attempt.value, error? := attempt.error? }

/-- Adds the ebuilds of all categories, one category after the other. -/
def readEachCategory (s : Source) (fs : FileSystem) (t : Tree) : Attempt Tree :=
  match s.categoryNames fs with
  | .error e => { value := t, error? := some e }
  | .ok names => .each (s.addCategory fs) t names

/-- Adds the ebuilds of all categories. -/
def readCategories (s : Source) (fs : FileSystem) (t : Tree) : Attempt Tree :=
  match s with
  | .cache _ => s.readEachCategory fs t
  | .database file => file.readCategories fs t

end Source

namespace BuildConfig

/-- Registers a repository and tells its source. -/
def addRepository (config : BuildConfig) (fs : FileSystem) (h : Header) (root : String) :
    Header × Source :=
  let (h, key) := h.addOverlay ⟨root, repositoryLabel fs root⟩
  let withDependencies := config.withDependencies
  (h, .cache { root, key, arch := config.arch, withDependencies })

/-- Registers the repositories of a list in order. -/
def addRepositories (config : BuildConfig) (fs : FileSystem) (h : Header) :
    List String → Header × List Source
  | [] => (h, [])
  | root :: roots =>
    let (h, source) := config.addRepository fs h root
    let (h, sources) := config.addRepositories fs h roots
    (h, source :: sources)

/-- Registers the imports of a list in order. -/
def addImports (fs : FileSystem) (h : Header) :
    List ImportRequest → Except Error (Header × List Source)
  | [] => .ok (h, [])
  | request :: requests => do
    let o ← DatabaseImport.ident fs request
    let (h, key) := h.addOverlay o
    let (h, sources) ← addImports fs h requests
    return (h, .database { request, key } :: sources)

/-- Registers all layers and tells their sources. -/
def sources (config : BuildConfig) (fs : FileSystem) : Except Error (Header × List Source) := do
  let h : Header := { Header.new with storesDependencies := config.withDependencies }
  let (h, caches) := config.addRepositories fs h (config.mainRepository :: config.overlays)
  let (h, imports) ← addImports fs h config.imports
  return (h, caches ++ imports)

/-- Builds the index: the tree, and a header with the layers. -/
def build (config : BuildConfig) (fs : FileSystem) : Except Error (Tree × Header) := do
  let (h, sources) ← config.sources fs
  let t ← (Attempt.each (fun t (s : Source) => s.readCategories fs t) {} sources).toExcept
  return (t.sortCategories, h)

end BuildConfig

end PackageIndex
