/-!
# File faults

Why an operation on a file or directory failed, in the words of the operating system.
-/

namespace PackageIndex

/-- Why an operation on a file or directory failed. -/
inductive FileFault where
  /-- Nothing has the path. -/
  | notFound
  /-- Something has the path of what is to be made. -/
  | alreadyExists
  /-- The path goes through a file, or names a file where a directory is needed. -/
  | notDirectory
  /-- The path names a directory where a file is needed. -/
  | isDirectory
  /-- The path names a directory by `.` or `..` where its own name is needed. -/
  | busy
  /-- A path or a name in it is longer than the operating system takes. -/
  | nameTooLong
  /-- A path has a NUL character, which ends a text for the operating system. -/
  | nulCharacter
  /-- A path cannot be that of what is to be replaced. -/
  | invalidArgument
  /-- A file that is to be read as text is not UTF-8. -/
  | notText
  /-- Anything else that the operating system finds wrong, such as a full disk, in its words. -/
  | other (wording : String)
  deriving DecidableEq, Repr

namespace FileFault

/-- The wording of a fault. -/
def message : FileFault → String
  | notFound => "No such file or directory (os error 2)"
  | alreadyExists => "File exists (os error 17)"
  | notDirectory => "Not a directory (os error 20)"
  | isDirectory => "Is a directory (os error 21)"
  | busy => "Device or resource busy (os error 16)"
  | nameTooLong => "File name too long (os error 36)"
  | nulCharacter => "file name contained an unexpected NUL byte"
  | invalidArgument => "Invalid argument (os error 22)"
  | notText => "stream did not contain valid UTF-8"
  | other wording => wording

end FileFault

end PackageIndex
