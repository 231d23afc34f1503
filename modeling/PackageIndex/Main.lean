import PackageIndex.CommandLine.Run

/-!
# The program

Commands work on file systems as values. The program takes the files and directories that its
command may read into such a value, runs the command on it, prints the response, and writes the
files that the command has changed.
-/

open PackageIndex

namespace PackageIndex

/-- The paths below which a command reads. -/
def Command.reads : Command → List String
  | .about => []
  | .update _ config =>
    (config.mainRepository :: config.overlays).flatMap (fun root =>
      [Path.join root "profiles", Path.join root "metadata/md5-cache"]) ++
    config.imports.map ImportRequest.path
  | .search _ database .. => [database]
  | .best _ database .. => [database]
  | .upgrades _ database installed .. => [database, installed]
  | .diff old new .. => [old, new]
  | .info database .. => [database]

/-- The file that a command writes. -/
def Command.writes : Command → List String
  | .update database _ => [database]
  | _ => []

end PackageIndex

/-- Enters a file into the value. -/
def enterFile (fs : FileSystem) (path : String) (bytes : ByteArray) : FileSystem :=
  match fs.replaceFile path bytes.toList 0 with
  | .ok fs => fs
  | .error _ => fs

/-- The names in a directory, if the path leads to one. -/
def namesOnDisk (path : String) : IO (Option (List String)) := do
  let here : IO.FS.DirEntry := { root := path, fileName := "." }
  match ← here.root.readDir.toBaseIO with
  | .ok entries => return some (entries.toList.map IO.FS.DirEntry.fileName)
  | .error _ => return none

/-- Enters a file or directory into the value, without what the directory holds. -/
def enterNode (fs : FileSystem) (path : String) : IO FileSystem := do
  match ← namesOnDisk path with
  | some _ => return (fs.makeDirectories path).2
  | none =>
    match ← (IO.FS.readBinFile path).toBaseIO with
    | .ok bytes => return enterFile fs path bytes
    | .error _ => return fs

/-- Enters the directories that lead to a path, and what is at the path. -/
def enterLineage (fs : FileSystem) (path : String) : IO FileSystem :=
  (Path.lineage path).reverse.foldlM enterNode fs

/-- Enters all that is at or below a path. -/
partial def enterBelow (fs : FileSystem) (path : String) : IO FileSystem := do
  match ← namesOnDisk path with
  | none => return fs
  | some names =>
    names.foldlM (fun fs name => do
      let child := Path.join path name
      enterBelow (← enterNode fs child) child) fs

/-- The path of a location. -/
def pathOf (loc : Location) : String :=
  let start := match loc.origin with
    | .root => "/"
    | .above levels => (List.replicate levels "..").foldl Path.join ""
  (loc.names.reverse.map EntryName.text).foldl Path.join start

/-- Takes a step of writing, or tells what is refused. -/
def attempt {α : Type} (refusal : FileFault → Database.Refusal) (step : IO α) :
    ExceptT Database.Refusal IO α := do
  match ← step.toBaseIO with
  | .ok a => return a
  | .error e => throw (refusal (.other (toString e)))

/-- Writes a file under another name and puts it in its place in one step. -/
def replaceOnDisk (path : String) (content : List UInt8) : ExceptT Database.Refusal IO Unit := do
  let draft := path ++ ".new"
  let file ← attempt .temporary (IO.FS.Handle.mk draft .write)
  try
    attempt .write (file.write content.toByteArray)
    attempt .flush file.flush
    attempt .move (IO.FS.rename draft path)
  catch refusal =>
    discard (IO.FS.removeFile draft).toBaseIO
    throw refusal

/-- Writes what one value has more or otherwise than the other. -/
def writeChanges (before after : FileSystem) : ExceptT Database.Refusal IO Unit := do
  for (loc, node) in after.entries do
    if before.nodeAt? loc != some node then
      match node with
      | .directory _ => attempt (.directory 0) (IO.FS.createDirAll (pathOf loc))
      | .file content _ => replaceOnDisk (pathOf loc) content

/-- Runs a command and answers with the exit code. What cannot be written is known at the end only,
and then the command answers as it does to that refusal. -/
def runCommand (command : Command) : IO UInt32 := do
  let fs ← (command.reads ++ command.writes).foldlM enterLineage default
  let fs ← command.reads.foldlM enterBelow fs
  let (after, response) := command.run fs 0
  let response ← match ← (writeChanges fs after).run with
    | .ok _ => pure response
    | .error refusal => pure (command.run fs 0 (some refusal)).2
  IO.print response.output
  IO.eprint response.errors
  return response.exit.toUInt32

/-- Runs the program with its arguments. -/
def main (args : List String) : IO UInt32 := do
  match Command.read? args with
  | some command => runCommand command
  | none =>
    IO.eprint Response.usage.errors
    return Response.usage.exit.toUInt32
