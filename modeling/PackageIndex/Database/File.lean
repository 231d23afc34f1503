import PackageIndex.Database.Basic
import PackageIndex.Database.Cursor
import PackageIndex.Files.Basic

/-!
# Database files

Reading databases from files and writing them. A file is written under another name and then put in
its place in one step, so its old content stays until the new one is complete. The operating system
can refuse any step of this for reasons of its own.
-/

namespace PackageIndex.Database

/-- The content of a database file. A directory can be opened like a file, and fails only when it is
read. -/
def fileContent (fs : FileSystem) (path : String) : Except Error (List UInt8) :=
  match fs.content path with
  | .ok bytes => .ok bytes
  | .error .isDirectory => .error (.file .isDirectory)
  | .error fault => .error (.unreadableDatabase path fault)

/-- The header and the tree of a database file. -/
def load (fs : FileSystem) (path : String) : Except Error (Header × Tree) := do
  decode path (← fileContent fs path)

/-- The header of a database file. -/
def loadHeader (fs : FileSystem) (path : String) : Except Error Header := do
  decodeHeader path (← fileContent fs path)

/-- The cursor before the first package of a database file. -/
def openCursor (fs : FileSystem) (path : String) (detail : Detail) : Except Error Cursor := do
  Cursor.ofBytes (← fileContent fs path) path detail

/-! ## Writing -/

/-- What the operating system refuses while a database file is written, for a reason that the files
do not show, such as a full disk, a missing permission or a name that gets too long. -/
inductive Refusal where
  /-- After the first steps on the way to the directory of the file no more directories are made. -/
  | directory (taken : Nat) (fault : FileFault)
  /-- No temporary file is made in the directory. -/
  | temporary (fault : FileFault)
  /-- Bytes are not taken although there are more to come. -/
  | write (fault : FileFault)
  /-- The last bytes are not taken. -/
  | flush (fault : FileFault)
  /-- The bytes do not get to the disk. -/
  | sync (fault : FileFault)
  /-- The finished file is not moved to its place. -/
  | move (fault : FileFault)
  deriving DecidableEq, Repr

/-- Makes the directory of a database file. -/
def makeDirectory (fs : FileSystem) (dir : String) :
    Option Refusal → Except FileFault Unit × FileSystem
  | some (.directory taken fault) => (.error fault, fs.makeFirst dir taken)
  | _ => fs.makeDirectories dir

/-- Makes the temporary file, which nothing but a refusal prevents. -/
def makeTemporary : Option Refusal → Except FileFault Unit
  | some (.temporary fault) => .error fault
  | _ => .ok ()

/-- The bytes of a database with a prepared header, once all of them are on the disk. -/
def writeOut (h : Header) (t : Tree) (refusal : Option Refusal) : Except Error (List UInt8) := do
  let bytes ← encodePrepared h t
  match refusal with
  | some (.write fault) => .error (.file fault)
  | some (.flush fault) => .error (.flush fault)
  | some (.sync fault) => .error (.sync fault)
  | _ => .ok bytes

/-- What comes of a move, unless it is refused. -/
def takePlace (moved : Except FileFault FileSystem) : Option Refusal → Except FileFault FileSystem
  | some (.move fault) => .error fault
  | _ => moved

/-- What an attempt to write a database file leaves. -/
structure Written where
  /-- The files after the attempt. -/
  files : FileSystem
  /-- The header, which is prepared as soon as there is a temporary file. -/
  header : Header
  /-- The written bytes, or why there are none. -/
  outcome : Except Error (List UInt8)

/-- Writes a database file in place of the one that may be there; its directory is made if it is
missing. -/
def store (fs : FileSystem) (path : String) (now : Int) (h : Header) (t : Tree)
    (refusal : Option Refusal := none) : Written :=
  let dir := Path.directoryOf path
  match makeDirectory fs dir refusal with
  | (.error fault, fs) => ⟨fs, h, .error (.createDirectory dir fault)⟩
  | (.ok (), fs) =>
    match makeTemporary refusal with
    | .error fault => ⟨fs, h, .error (.createTemporary dir fault)⟩
    | .ok _ =>
      let prepared := h.prepare t
      match writeOut prepared t refusal with
      | .error e => ⟨fs, prepared, .error e⟩
      | .ok bytes =>
        match takePlace (fs.replaceFile path bytes now) refusal with
        | .error fault => ⟨fs, prepared, .error (.replace path fault)⟩
        | .ok fs => ⟨fs, prepared, .ok bytes⟩

/-! ## Laws -/

@[simp] theorem makeDirectory_none (fs : FileSystem) (dir : String) :
    makeDirectory fs dir none = fs.makeDirectories dir := rfl

@[simp] theorem makeTemporary_none : makeTemporary none = .ok () := rfl

@[simp] theorem writeOut_none (h : Header) (t : Tree) : writeOut h t none = encodePrepared h t := by
  unfold writeOut
  cases encodePrepared h t with
  | error e => rfl
  | ok bytes => rfl

@[simp] theorem takePlace_none (moved : Except FileFault FileSystem) :
    takePlace moved none = moved := rfl

end PackageIndex.Database
