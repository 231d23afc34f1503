import PackageIndex.Files.Location
import PackageIndex.Text.Utf8

/-!
# File systems

The files and directories that the library works on, as a value. A path is followed from the working
directory, or from the root if it is absolute, one step at a time; every step but the last must lead
to a directory. A change that fails leaves what it found, except that directories made on the way
stay.
-/

namespace PackageIndex

/-- What a path can refer to. -/
inductive Node where
  /-- A file with its content, and when it was last changed, in seconds since 1970. -/
  | file (content : List UInt8) (modified : Int)
  /-- A directory, and when it was last changed. -/
  | directory (modified : Int)
  deriving DecidableEq, Repr

/-- The files and directories besides the working directory, those above it and the root. -/
structure FileSystem where
  /-- What is at each location. -/
  entries : List (Location × Node) := []
  /-- There is at most one thing at a location. -/
  distinct : (entries.map Prod.fst).Nodup := by simp
  deriving DecidableEq

namespace FileSystem

instance : Inhabited FileSystem := ⟨{}⟩

/-- What is at a location. The working directory, those above it and the root are always there. -/
def nodeAt? (fs : FileSystem) (loc : Location) : Option Node :=
  if loc.isOrigin then some (.directory 0) else fs.entries.lookup loc

/-- The entries with one more or one changed: a new one is put last. -/
def put (loc : Location) (node : Node) : List (Location × Node) → List (Location × Node)
  | [] => [(loc, node)]
  | e :: es => if e.1 = loc then (loc, node) :: es else e :: put loc node es

theorem mem_map_put {loc l : Location} {node : Node} {es : List (Location × Node)} :
    l ∈ (put loc node es).map Prod.fst ↔ l = loc ∨ l ∈ es.map Prod.fst := by
  induction es with
  | nil => simp [put]
  | cons e es ih =>
    rw [put]
    split
    next h => subst h; simp
    next =>
      rw [List.map_cons, List.mem_cons, ih, List.map_cons, List.mem_cons]
      grind

theorem nodup_map_put {loc : Location} {node : Node} {es : List (Location × Node)}
    (h : (es.map Prod.fst).Nodup) : ((put loc node es).map Prod.fst).Nodup := by
  induction es with
  | nil => simp [put]
  | cons e es ih =>
    have ⟨he, hes⟩ := List.nodup_cons.1 h
    rw [put]
    split
    next heq => subst heq; exact List.nodup_cons.2 ⟨he, hes⟩
    next hne =>
      refine List.nodup_cons.2 ⟨fun hm => ?_, ih hes⟩
      rcases mem_map_put.1 hm with heq | hm
      · exact hne heq
      · exact he hm

/-- Puts something at a location in place of what was there. -/
def setNode (fs : FileSystem) (loc : Location) (node : Node) : FileSystem :=
  ⟨put loc node fs.entries, nodup_map_put fs.distinct⟩

/-! ## Following paths -/

/-- Goes from a directory to where a step leads. -/
def follow (fs : FileSystem) (loc : Location) (step : PathStep) : Except FileFault Location :=
  match fs.nodeAt? loc with
  | none => .error .notFound
  | some (.file ..) => .error .notDirectory
  | some (.directory _) =>
    match step with
    | .stay => .ok loc
    | .up => .ok loc.parent
    | .into name => if name.isTooLong then .error .nameTooLong else .ok (loc.child name)

/-- Where a path is followed from. -/
def startOf (path : String) : Location :=
  if Path.isAbsolute path then .root else .here

/-- The location that a path leads to; there may be nothing. -/
def locate (fs : FileSystem) (path : String) : Except FileFault Location :=
  match Path.fault? path with
  | some fault => .error fault
  | none => (Path.steps path).foldlM fs.follow (startOf path)

/-- What a path refers to. -/
def node (fs : FileSystem) (path : String) : Except FileFault Node := do
  let loc ← fs.locate path
  match fs.nodeAt? loc with
  | some n => .ok n
  | none => .error .notFound

/-! ## Reading -/

/-- The content of a file. -/
def content (fs : FileSystem) (path : String) : Except FileFault (List UInt8) := do
  match ← fs.node path with
  | .file content _ => .ok content
  | .directory _ => .error .isDirectory

/-- The content of a file that is a text. -/
def text (fs : FileSystem) (path : String) : Except FileFault String := do
  match Utf8.decode (← fs.content path) with
  | .ok s => .ok s
  | .error _ => .error .notText

/-- When a file or directory was last changed. -/
def modified? (fs : FileSystem) (path : String) : Option Int :=
  match fs.node path with
  | .ok (.file _ time) => some time
  | .ok (.directory time) => some time
  | .error _ => none

/-- Whether a path refers to a directory. -/
def isDirectory (fs : FileSystem) (path : String) : Bool :=
  match fs.node path with
  | .ok (.directory _) => true
  | _ => false

/-- The names of what is in the directory at a location. -/
def childrenOf (fs : FileSystem) (dir : Location) : List EntryName :=
  fs.entries.filterMap fun e => dir.nameIn? e.1

/-- The names of what a directory holds. -/
def list (fs : FileSystem) (path : String) : Except FileFault (List String) := do
  let loc ← fs.locate path
  match fs.nodeAt? loc with
  | some (.directory _) => .ok ((fs.childrenOf loc).map EntryName.text)
  | some (.file ..) => .error .notDirectory
  | none => .error .notFound

/-! ## Changing -/

/-- Makes the directories that steps from a directory lead through, as far as they are missing. A
file in their way is met as something to go through, but as what is to be made if it is the last or
if a directory before it was missing. -/
def makeAlong (fs : FileSystem) (loc : Location) (made : Bool) :
    List PathStep → Except FileFault Unit × FileSystem
  | [] => (.ok (), fs)
  | .stay :: steps => fs.makeAlong loc made steps
  | .up :: steps => fs.makeAlong loc.parent made steps
  | .into name :: steps =>
    if name.isTooLong then (.error .nameTooLong, fs)
    else match fs.nodeAt? (loc.child name) with
      | some (.directory _) => fs.makeAlong (loc.child name) made steps
      | some (.file ..) =>
        (.error (if made || steps.isEmpty then .alreadyExists else .notDirectory), fs)
      | none => (fs.setNode (loc.child name) (.directory 0)).makeAlong (loc.child name) true steps

/-- Makes a directory and the directories that lead to it, as far as they are missing. The empty
path asks for none. -/
def makeDirectories (fs : FileSystem) (path : String) : Except FileFault Unit × FileSystem :=
  if path.isEmpty then (.ok (), fs)
  else match Path.fault? path with
    | some fault => (.error fault, fs)
    | none => fs.makeAlong (startOf path) false (Path.stepsBeforeSlashes path)

/-- Makes only the directories that the first steps of a path lead through. -/
def makeFirst (fs : FileSystem) (path : String) (taken : Nat) : FileSystem :=
  (fs.makeAlong (startOf path) false ((Path.stepsBeforeSlashes path).take taken)).2

/-- Puts a finished file at a path, in one step, in place of the file that may be there. The path
has to end in the name of the file. -/
def replaceFile (fs : FileSystem) (path : String) (content : List UInt8) (modified : Int) :
    Except FileFault FileSystem :=
  match Path.replaceFault? path with
  | some fault => .error fault
  | none => do
    let steps := Path.stepsBeforeSlashes path
    let loc ← steps.foldlM fs.follow (startOf path)
    match steps.getLast? with
    | some (.into _) =>
      if Path.endsInSlash path then .error .notDirectory
      else match fs.nodeAt? loc with
        | some (.directory _) => .error .isDirectory
        | _ => .ok (fs.setNode loc (.file content modified))
    | _ => .error .busy

end FileSystem

end PackageIndex
