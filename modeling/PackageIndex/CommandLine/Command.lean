import PackageIndex.CommandLine.Arguments
import PackageIndex.Repository.Build

/-!
# Commands

The commands of the program, with what their arguments say. Where a database, repository or
directory is not named, the default location is meant.
-/

namespace PackageIndex

/-- The default database file. -/
def defaultDatabase : String := "/var/cache/portix/portage.db"

/-- The default database of installed packages. -/
def defaultInstalled : String := "/var/db/pkg"

/-- A command of the program. -/
inductive Command where
  /-- Tells the version of the program. -/
  | about
  /-- Builds the index and writes the database. -/
  | update (database : String) (config : BuildConfig)
  /-- Lists the packages whose name or description contains a text. -/
  | search (pattern database : String) (descriptions json : Bool)
  /-- Shows the best version of a package, overall and per slot. -/
  | best (package database : String) (unstable json : Bool)
  /-- Lists installed packages with better versions. -/
  | upgrades (package : Option String) (database installed : String)
      (unstable slots json : Bool)
  /-- Compares two databases. -/
  | diff (old new : String) (slots json : Bool)
  /-- Shows the header of a database. -/
  | info (database : String) (json : Bool)

namespace Command

/-- The option that names the database. -/
def databaseOption : OptionSpec := { long := "db-path", short := some 'd', kind := .single }

/-- The option that asks for JSON. -/
def jsonOption : OptionSpec := { long := "json", kind := .flag }

/-- The option that accepts unstable versions. -/
def unstableOption : OptionSpec := { long := "unstable", short := some 'u', kind := .flag }

/-- The arguments, if none of the paths among them is empty. -/
def checkPaths? (paths : List String) : Option Unit :=
  if paths.any String.isEmpty then none else some ()

/-- Reads the arguments of the command that builds the index. -/
def readUpdate? (args : List String) : Option Command := do
  let a ← Arguments.read? [databaseOption,
    { long := "portdir", short := some 'p', kind := .single },
    { long := "overlay", short := some 'o', kind := .repeated },
    { long := "import", short := some 'i', kind := .repeated },
    { long := "arch", short := some 'a', kind := .single },
    { long := "with-deps", kind := .flag }] args
  if !a.positionals.isEmpty then none
  let database := a.getD "db-path" defaultDatabase
  let mainRepository := a.getD "portdir" defaultRepository
  let overlays := a.getAll "overlay"
  checkPaths? (database :: mainRepository :: overlays)
  let imports ← (a.getAll "import").mapM fun text => (ImportRequest.parse text).toOption
  let arch := a.getD "arch" defaultArchitecture
  return .update database
    { mainRepository, overlays, imports, arch, withDependencies := a.has "with-deps" }

/-- Reads the arguments of the command that searches. -/
def readSearch? (args : List String) : Option Command := do
  let a ← Arguments.read? [databaseOption, jsonOption,
    { long := "description", short := some 'S', kind := .flag }] args
  let database := a.getD "db-path" defaultDatabase
  checkPaths? [database]
  match a.positionals with
  | [pattern] => return .search pattern database (a.has "description") (a.has "json")
  | _ => none

/-- Reads the arguments of the command that shows best versions. -/
def readBest? (args : List String) : Option Command := do
  let a ← Arguments.read? [databaseOption, unstableOption, jsonOption] args
  let database := a.getD "db-path" defaultDatabase
  checkPaths? [database]
  match a.positionals with
  | [package] => return .best package database (a.has "unstable") (a.has "json")
  | _ => none

/-- Reads the arguments of the command that lists upgrades. -/
def readUpgrades? (args : List String) : Option Command := do
  let a ← Arguments.read? [databaseOption, { long := "vdb", kind := .single }, unstableOption,
    { long := "upgrade-slots", kind := .flag }, jsonOption] args
  let database := a.getD "db-path" defaultDatabase
  let installed := a.getD "vdb" defaultInstalled
  checkPaths? [database, installed]
  let rest := fun package =>
    Command.upgrades package database installed (a.has "unstable") (a.has "upgrade-slots")
      (a.has "json")
  match a.positionals with
  | [] => return rest none
  | [package] => return rest (some package)
  | _ => none

/-- Reads the arguments of the command that compares databases. -/
def readDiff? (args : List String) : Option Command := do
  let a ← Arguments.read? [{ long := "slots", short := some 's', kind := .flag }, jsonOption] args
  checkPaths? a.positionals
  match a.positionals with
  | [old] => return .diff old defaultDatabase (a.has "slots") (a.has "json")
  | [old, new] => return .diff old new (a.has "slots") (a.has "json")
  | _ => none

/-- Reads the arguments of the command that shows a header. -/
def readInfo? (args : List String) : Option Command := do
  let a ← Arguments.read? [databaseOption, jsonOption] args
  if !a.positionals.isEmpty then none
  let database := a.getD "db-path" defaultDatabase
  checkPaths? [database]
  return .info database (a.has "json")

/-- Reads the arguments of the program; there is no command if they do not fit. -/
def read? (args : List String) : Option Command :=
  match args with
  | [] => some .about
  | ["--"] => some .about
  | "update" :: args => readUpdate? args
  | "search" :: args => readSearch? args
  | "best" :: args => readBest? args
  | "upgrades" :: args => readUpgrades? args
  | "diff" :: args => readDiff? args
  | "info" :: args => readInfo? args
  | _ => none

end Command

end PackageIndex
