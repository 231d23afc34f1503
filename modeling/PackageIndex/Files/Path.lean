import PackageIndex.Files.Fault
import PackageIndex.Text.Pieces

/-!
# Paths

Paths are texts whose components stand between slashes. They are kept as given, since messages and
the index show them. To follow a path is to take its steps one after the other: a name leads into a
directory, `..` leads out of it, and `.` or nothing between two slashes leads nowhere else.
-/

namespace PackageIndex

/-- Whether a text can be the name of a file or directory. -/
def IsEntryName (s : String) : Prop :=
  s ≠ "" ∧ s ≠ "." ∧ s ≠ ".." ∧ '/' ∉ s.toList

instance (s : String) : Decidable (IsEntryName s) :=
  inferInstanceAs (Decidable (_ ∧ _))

/-- The name of a file or directory. -/
structure EntryName where
  /-- The name as a text. -/
  text : String
  /-- It is not empty, does not stand for a place, and has no slashes. -/
  valid : IsEntryName text
  deriving DecidableEq

/-- Whether a name has more than the 255 bytes that a directory takes. -/
def EntryName.isTooLong (name : EntryName) : Bool :=
  255 < name.text.utf8ByteSize

/-- What a piece of a path does. -/
inductive PathStep where
  /-- It leads nowhere else. -/
  | stay
  /-- It leads to the directory above. -/
  | up
  /-- It leads to what has the name. -/
  | into (name : EntryName)
  deriving DecidableEq

namespace Path

/-- The texts between the slashes of a path. -/
def pieces (path : String) : List (List Char) :=
  Text.pieces (· == '/') path.toList

/-- Whether a piece that is not the first adds nothing to a path. -/
def isIdle (piece : List Char) : Bool :=
  piece.isEmpty || piece == ['.']

/-- Pieces without those at the end that add nothing. -/
def withoutIdleEnd (ps : List (List Char)) : List (List Char) :=
  (ps.reverse.dropWhile isIdle).reverse

/-- What a piece does. -/
def stepOf (piece : List Char) : PathStep :=
  if piece = ['.', '.'] then .up
  else if h : IsEntryName (String.ofList piece) then .into ⟨String.ofList piece, h⟩
  else .stay

/-- The steps of a path. -/
def steps (path : String) : List PathStep :=
  (pieces path).map stepOf

/-- Whether a path starts at the root. -/
def isAbsolute (path : String) : Bool :=
  path.toList.head? == some '/'

/-- Whether a path ends in a slash, so that it can only be that of a directory. -/
def endsInSlash (path : String) : Bool :=
  path.toList.getLast? == some '/'

/-- A path followed below another. An absolute path stands for itself. -/
def join (base rel : String) : String :=
  if isAbsolute rel || base.isEmpty then rel
  else if endsInSlash base then base ++ rel
  else base ++ "/" ++ rel

/-- The steps of a path before the slashes at its end. -/
def stepsBeforeSlashes (path : String) : List PathStep :=
  (((pieces path).reverse.dropWhile List.isEmpty).reverse).map stepOf

/-- The greatest length of a path in bytes. -/
def maxLength : Nat := 4095

/-- What is wrong with a path wherever it leads. -/
def fault? (path : String) : Option FileFault :=
  if path.toList.contains '\x00' then some .nulCharacter
  else if path.isEmpty then some .notFound
  else if maxLength < path.utf8ByteSize then some .nameTooLong
  else none

/-- What is wrong with a path as that of what is to be replaced, wherever it leads. There a NUL
character is one of the things that an argument cannot have. -/
def replaceFault? (path : String) : Option FileFault :=
  (fault? path).map fun fault => if fault = .nulCharacter then .invalidArgument else fault

/-- The path without its last component: empty for a single component, absent for the root and for
the empty path. -/
def parent? (path : String) : Option String :=
  match pieces path with
  | [] => none
  | first :: others =>
    match withoutIdleEnd others with
    | [] => if first.isEmpty then none else some ""
    | body =>
      match withoutIdleEnd body.dropLast with
      | [] => some (if first.isEmpty then "/" else String.ofList first)
      | kept => some (String.ofList (Text.join '/' (first :: kept)))

/-- The directory that a file is made in. -/
def directoryOf (path : String) : String :=
  match parent? path with
  | some dir => if dir.isEmpty then "." else dir
  | none => "."

/-- The path, its parent, the parent of that and so on, at most `count` of them. -/
def ancestors (count : Nat) (path : String) : List String :=
  match count with
  | 0 => []
  | count + 1 => path :: match parent? path with
    | some dir => ancestors count dir
    | none => []

/-- The path and all its ancestors. A path has no more of them than characters and one. -/
def lineage (path : String) : List String :=
  ancestors (path.length + 1) path

end Path

end PackageIndex
