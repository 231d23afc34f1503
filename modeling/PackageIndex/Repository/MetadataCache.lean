import PackageIndex.Files.Basic
import PackageIndex.Repository.Attempt
import PackageIndex.Tree.Basic
import PackageIndex.Version.Name

/-!
# Metadata caches

A repository keeps the metadata of its ebuilds in `metadata/md5-cache/category/name-version`, one
file of `KEY=VALUE` lines per ebuild. The categories are those listed in `profiles/categories`, or
the directories of the cache if there is no such list. Entries whose name does not end in a valid
version, or which cannot be read, are passed over.
-/

namespace PackageIndex

/-! ## Entries -/

/-- An entry of a metadata cache: its keys and values in the order of the lines. -/
abbrev CacheEntry := List (String × String)

namespace CacheEntry

/-- The key and value of a line; the value is without blanks at its ends. -/
def ofLine? (line : String) : Option (String × String) :=
  (Text.cut '=' line.toList).map fun (key, value) =>
    (String.ofList key, Text.trim (String.ofList value))

/-- Reads an entry. Lines without an equals sign do not count. -/
def parse (content : String) : CacheEntry :=
  (Text.lines content).filterMap ofLine?

/-- The value of the last line with a key. -/
def get? (entry : CacheEntry) (key : String) : Option String :=
  entry.reverse.lookup key

/-- The value of the last line with a key, or the empty text. -/
def get (entry : CacheEntry) (key : String) : String :=
  (entry.get? key).getD ""

/-- A USE flag without the sign of its default. -/
def bareFlag (flag : String) : String :=
  String.ofList (flag.toList.dropWhile fun c => c == '+' || c == '-')

/-- Puts what an entry says into an ebuild. -/
def fill (entry : CacheEntry) (key : OverlayKey) (arch : String) (withDependencies : Bool)
    (e : Ebuild) : Ebuild :=
  let eapi := entry.get "EAPI"
  { e.withSlot (entry.get "SLOT") with
    eapi := if eapi.isEmpty then "0" else eapi
    stability := Stability.ofKeywords (entry.get "KEYWORDS") arch
    iuse := (Text.words (entry.get "IUSE")).map bareFlag
    restrict := FlagSet.ofWords restrictVocabulary (entry.get "RESTRICT")
    properties := FlagSet.ofWords propertiesVocabulary (entry.get "PROPERTIES")
    overlay := key
    depend :=
      if withDependencies then
        Dependencies.normalize (some ⟨entry.get "DEPEND", entry.get "RDEPEND",
          entry.get "PDEPEND", entry.get "BDEPEND"⟩)
      else e.depend }

/-- Puts what an entry says about all versions into a package. -/
def describe (entry : CacheEntry) (p : Package) : Package :=
  { p with
    description := entry.get "DESCRIPTION"
    homepage := entry.get "HOMEPAGE"
    license := entry.get "LICENSE"
    provide := entry.get "PROVIDE" }

end CacheEntry

/-! ## Caches -/

/-- The metadata cache of a repository, as a source of ebuilds for one layer. -/
structure MetadataCache where
  /-- The directory of the repository. -/
  root : String
  /-- The layer that the ebuilds are in. -/
  key : OverlayKey
  /-- The architecture that the stability is meant for. -/
  arch : String
  /-- Whether dependencies are read. -/
  withDependencies : Bool := false
  deriving DecidableEq, Repr

namespace MetadataCache

/-- The name of the source. -/
def name (cache : MetadataCache) : String :=
  "md5-cache " ++ cache.root

/-- The directory of the cache. -/
def directory (cache : MetadataCache) : String :=
  Path.join cache.root "metadata/md5-cache"

/-- The file of an entry, given the full name of the package and the text of the version. -/
def entryPath (cache : MetadataCache) (package version : String) : String :=
  Path.join cache.directory (package ++ "-" ++ version)

/-- The entry of a version. -/
def readEntry (cache : MetadataCache) (fs : FileSystem) (package version : String) :
    Except Error CacheEntry :=
  let path := cache.entryPath package version
  match fs.text path with
  | .ok content => .ok (.parse content)
  | .error fault => .error (.cacheEntry path fault)

/-- The names in a directory that do not start with a dot, in order. -/
def visibleNames (fs : FileSystem) (path : String) : Except FileFault (List String) := do
  let names ← fs.list path
  return (names.filter fun n => n.toList.head? != some '.').mergeSort fun a b => decide (a ≤ b)

/-- The file that lists the categories of the repository. -/
def categoryList (cache : MetadataCache) : String :=
  Path.join cache.root "profiles/categories"

/-- The categories that the lines of a list name: blank lines and comments name none. -/
def categoriesOfList (content : String) : List String :=
  ((Text.lines content).map Text.trim).filter fun l => !l.isEmpty && l.toList.head? != some '#'

/-- The categories that the directories of the cache name. -/
def categoriesOfDirectory (cache : MetadataCache) (fs : FileSystem) :
    Except Error (List String) :=
  match visibleNames fs cache.directory with
  | .ok names => .ok (names.filter fun n => fs.isDirectory (Path.join cache.directory n))
  | .error .notFound => .ok []
  | .error fault => .error (.file fault)

/-- The categories of the repository. -/
def categoryNames (cache : MetadataCache) (fs : FileSystem) : Except Error (List String) :=
  match fs.text cache.categoryList with
  | .ok content => .ok (categoriesOfList content)
  | .error .notFound => cache.categoriesOfDirectory fs
  | .error fault => .error (.categoryList cache.categoryList fault)

/-- The ebuild that an entry describes. -/
def ebuild (cache : MetadataCache) (entry : CacheEntry) (version : Version) : Ebuild :=
  entry.fill cache.key cache.arch cache.withDependencies { version }

/-- Adds the ebuild of an entry to its package. The newest version describes the package. -/
def addEntry (cache : MetadataCache) (entry : CacheEntry) (version : Version) (p : Package) :
    Package :=
  let e := cache.ebuild entry version
  let p := if p.isNewest version then entry.describe p else p
  (p.addUseFlags e.iuse).add e

/-- Adds the ebuild of a file of the category's directory to the category. -/
def addFile (cache : MetadataCache) (fs : FileSystem) (c : Category) (file : String) :
    Category :=
  match splitNameVersion file with
  | none => c
  | some (name, text) =>
    match Version.ofString? text with
    | none => c
    | some version =>
      match cache.readEntry fs (c.name ++ "/" ++ name) text with
      | .error _ => c
      | .ok entry => c.update name (cache.addEntry entry version)

/-- Adds the ebuilds of a category. -/
def readCategory (cache : MetadataCache) (fs : FileSystem) (c : Category) : Attempt Category :=
  match visibleNames fs (Path.join cache.directory c.name) with
  | .ok files => { value := files.foldl (cache.addFile fs) c }
  | .error .notFound => { value := c }
  | .error fault => { value := c, error? := some (.file fault) }

/-- When the entry of a version was last changed. -/
def modified? (cache : MetadataCache) (fs : FileSystem) (package version : String) : Option Int :=
  fs.modified? (cache.entryPath package version)

/-- The checksum that the entry of a version records. -/
def checksum? (cache : MetadataCache) (fs : FileSystem) (package version : String) :
    Option String :=
  match cache.readEntry fs package version with
  | .ok entry => entry.get? "_md5_"
  | .error _ => none

/-- Puts what the entry of a version says into an ebuild. -/
def fillEbuild (cache : MetadataCache) (fs : FileSystem) (package version : String) (e : Ebuild) :
    Except Error Ebuild := do
  let entry ← cache.readEntry fs package version
  return entry.fill cache.key cache.arch cache.withDependencies e

end MetadataCache

end PackageIndex
