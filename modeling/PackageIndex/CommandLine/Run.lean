import PackageIndex.CommandLine.Query
import PackageIndex.Report.Message

/-!
# Running commands

What a command prints and how it changes the files. Nothing is printed before a command has come to
its end, so a command that fails prints its error only.
-/

namespace PackageIndex

/-- What the program answers. -/
structure Response where
  /-- The exit code: 0 for success, 1 for failure, 2 for arguments that do not fit. -/
  exit : Nat
  /-- What it prints. -/
  output : String := ""
  /-- What it prints as errors. -/
  errors : String := ""
  deriving DecidableEq, Repr

namespace Response

/-- Success with printed lines. -/
def lines (ls : List String) : Response :=
  { exit := 0, output := String.join (ls.map (· ++ "\n")) }

/-- Success with a printed JSON value. -/
def json (value : Json) : Response :=
  lines [value.render]

/-- Failure, with the wordings of the error and its causes. -/
def failure (chain : List String) : Response :=
  { exit := 1, errors := ErrorReport.ofChain chain }

/-- The arguments do not fit. -/
def usage : Response :=
  { exit := 2, errors := "error: the arguments do not fit\n" }

/-- The response to a result, or to the error in its place; the context says what was being done. -/
def ofResult {α : Type} (context : List String) (result : Except Error α) (success : α → Response) :
    Response :=
  match result with
  | .ok a => success a
  | .error e => failure (context ++ e.chain)

end Response

/-! ## Printed forms -/

namespace SearchHit

/-- The hit in JSON. -/
def toJson (hit : SearchHit) : Json :=
  .object [("name", .text hit.name), ("description", .text hit.description),
    ("homepage", .text hit.homepage)]

/-- The lines of a hit. -/
def toLines (hit : SearchHit) : List String :=
  hit.name :: if hit.description.isEmpty then [] else ["  " ++ hit.description]

/-- The response of a search. -/
def respond (json : Bool) (hits : List SearchHit) : Response :=
  if json then .json (.list (hits.map toJson))
  else if hits.isEmpty then .lines ["No packages found."]
  else .lines (hits.flatMap toLines ++ ["", s!"Total: {hits.length} package(s)"])

end SearchHit

namespace BestReport

/-- The report in JSON. -/
def toJson (r : BestReport) : Json :=
  .object [("name", .text r.name),
    ("best", match r.best with
      | some best => best.toJson
      | none => .null),
    ("slots", .list (r.slots.map ReleaseReport.toJson))]

/-- The lines of a report. -/
def toLines (r : BestReport) : List String :=
  (match r.best with
    | some best => s!"{r.name}: {best.version} (slot {best.slot}, {best.overlay})"
    | none => s!"{r.name}: no installable version") ::
  r.slots.map fun slot => s!"  slot {slot.slot}: {slot.version} ({slot.overlay})"

/-- The response to the question for best versions. -/
def respond (atom : String) (json : Bool) (reports : List BestReport) : Response :=
  if reports.isEmpty then .failure ["Package '" ++ atom ++ "' not found"]
  else if json then .json (.list (reports.map toJson))
  else .lines (reports.flatMap toLines)

end BestReport

namespace UpgradeReport

/-- The report in JSON. -/
def toJson (r : UpgradeReport) : Json :=
  .object [("name", .text r.name), ("status", .text r.status.identifier),
    ("candidates", .list (r.candidates.map ReleaseReport.toJson))]

/-- The line of a report. -/
def toLine (r : UpgradeReport) : String :=
  let targets := r.candidates.map fun c => s!"{c.version} ({c.overlay})"
  s!"{r.name} [{r.status.label}]: " ++ String.intercalate ", " targets

/-- The response to the question for upgrades. -/
def respond (json : Bool) (reports : List UpgradeReport) : Response :=
  if json then .json (.list (reports.map toJson))
  else if reports.isEmpty then .lines ["No upgrades available."]
  else .lines (reports.map toLine ++ ["", s!"Total: {reports.length} package(s)"])

end UpgradeReport

namespace Change

/-- The text of a version that may be missing. -/
def versionText (v : Option Version) : Option String :=
  v.map toString

/-- The change in JSON. -/
def toJson (c : Change) : Json :=
  .object [("name", .text c.name), ("change", .text c.kind.label),
    ("old", .ofText? (versionText c.old)), ("new", .ofText? (versionText c.new))]

/-- The line of a change. -/
def toLine (c : Change) : String :=
  let old := (versionText c.old).getD "none"
  let new := (versionText c.new).getD "none"
  s!"{c.kind.label} {c.name}: {old} -> {new}"

/-- The response to the question for changes. -/
def respond (json : Bool) (changes : List Change) : Response :=
  if json then .json (.list (changes.map toJson))
  else .lines (changes.map toLine ++ ["", s!"Total: {changes.length} change(s)"])

end Change

namespace Header

/-- A layer and its key in JSON. -/
def overlayToJson (key : Nat) (o : Overlay) : Json :=
  .object [("key", .number key), ("path", .text o.path), ("label", .text o.label)]

/-- The header of a database file in JSON. -/
def toJson (path : String) (h : Header) : Json :=
  .object [("path", .text path), ("format", .number h.version.toNat),
    ("categories", .number h.categoryCount.toNat), ("packages", .number h.packageCount.toNat),
    ("with_deps", .bool h.storesDependencies),
    ("overlays", .list (h.overlays.mapIdx overlayToJson))]

/-- The line of a layer. -/
def overlayToLine (key : Nat) (o : Overlay) : String :=
  if o.label.isEmpty then s!"  [{key}] {o.path}" else s!"  [{key}] {o.label} ({o.path})"

/-- The lines of the header of a database file. -/
def toLines (path : String) (h : Header) : List String :=
  [s!"Database: {path}", s!"  Format: {h.version}", s!"  Categories: {h.categoryCount}",
    s!"  Packages: {h.packageCount}",
    "  Dependencies stored: " ++ if h.storesDependencies then "yes" else "no"] ++
  h.overlays.mapIdx overlayToLine

/-- The response to the question for the header. -/
def respond (path : String) (json : Bool) (h : Header) : Response :=
  if json then .json (h.toJson path) else .lines (h.toLines path)

end Header

/-! ## Commands -/

namespace Command

/-- Reads the two databases of a comparison. -/
def readBoth (fs : FileSystem) (old new : String) :
    Except (List String) (Tree × Tree) := do
  let (_, before) ← readOne old
  let (_, after) ← readOne new
  return (before, after)
where
  /-- Reads one database, or tells what failed. -/
  readOne (path : String) : Except (List String) (Header × Tree) :=
    (Database.load fs path).mapError fun e => ("Failed to read " ++ path) :: e.chain

/-- Builds the index and writes the database. -/
def runUpdate (fs : FileSystem) (now : Int) (database : String) (config : BuildConfig)
    (refusal : Option Database.Refusal) : FileSystem × Response :=
  match config.build fs with
  | .error e => (fs, .failure e.chain)
  | .ok (tree, header) =>
    let written := Database.store fs database now header tree refusal
    (written.files, .ofResult ["Failed to write " ++ database] written.outcome fun _ =>
      let h := written.header
      .lines ["Database updated: " ++ toString h.categoryCount ++ " categories, " ++
        toString h.packageCount ++ " packages in " ++ database])

/-- Runs a command on the files, at the given time in seconds since 1970. If it writes a database,
the operating system may refuse that. -/
def run (fs : FileSystem) (now : Int) (command : Command)
    (refusal : Option Database.Refusal := none) : FileSystem × Response :=
  match command with
  | .about =>
    (fs, .lines ["Portix v0.1.0", "Run 'portix --help' for usage information"])
  | .update database config => runUpdate fs now database config refusal
  | .search pattern database descriptions json =>
    (fs, .ofResult [] (SearchHit.search fs database pattern descriptions) (SearchHit.respond json))
  | .best package database unstable json =>
    (fs, .ofResult [] (BestReport.query fs database package unstable)
      (BestReport.respond package json))
  | .upgrades package database installed unstable slots json =>
    (fs, .ofResult [] (UpgradeReport.query fs package database installed unstable slots)
      (UpgradeReport.respond json))
  | .diff old new slots json =>
    match readBoth fs old new with
    | .error chain => (fs, .failure chain)
    | .ok (before, after) => (fs, Change.respond json (before.changes after slots))
  | .info database json =>
    (fs, .ofResult [] (Database.loadHeader fs database) (Header.respond database json))

/-- Runs the program on the files with the given arguments. -/
def runArguments (fs : FileSystem) (now : Int) (args : List String)
    (refusal : Option Database.Refusal := none) : FileSystem × Response :=
  match read? args with
  | some command => command.run fs now refusal
  | none => (fs, .usage)

end Command

end PackageIndex
