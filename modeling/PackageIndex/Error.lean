import PackageIndex.Files.Fault
import PackageIndex.Text.Utf8

/-!
# Errors

The causes for which an operation of the library fails, and their wording.
-/

namespace PackageIndex

/-- Where the bytes of a database end too early. -/
inductive Truncation where
  /-- Inside a number, or before it. -/
  | endOfInput
  /-- Inside a text of `length` bytes, of which `present` are there. -/
  | text (length present : Nat)
  /-- Inside the `length` bytes left of a record, of which `present` are there. -/
  | record (length present : Nat)
  deriving DecidableEq, Repr

/-- What is malformed in a database. -/
inductive Corruption where
  /-- A number has more bytes after its first one than 64 bits hold. -/
  | numberTooWide (trailing : Nat)
  /-- A text is not UTF-8. -/
  | text (fault : Utf8.Fault)
  /-- A dictionary of `size` entries has none at `index`. -/
  | noEntry (index : UInt64) (size : Nat)
  /-- A dictionary lists an entry twice. -/
  | duplicateEntry
  /-- A package record would end beyond the greatest offset of 64 bits. -/
  | recordTooLong (length : UInt64)
  /-- The fields of a record go on after its end. -/
  | recordEndsBefore (stop position : Nat)
  /-- The fields of a package record end elsewhere than the record. -/
  | recordEnd (package : String) (position stop : Nat)
  /-- A stored version does not follow the grammar. -/
  | version (text : String)
  /-- No stability has the number. -/
  | stability (code : UInt64)
  /-- An overlay key does not fit its 32 bits. -/
  | overlayKey (key : UInt64)
  /-- The length of a dependency block is wrong. -/
  | dependencyLength
  /-- The package counts of the categories add up to a number beyond 64 bits. -/
  | countOverflow
  /-- The header announces another number of packages than the categories hold. -/
  | packageCount (name : String) (announced : UInt64) (found : Nat)
  /-- A text to be written is not in its dictionary. -/
  | missingWord (word : String)
  deriving DecidableEq, Repr

/-- Why an operation failed. -/
inductive Error where
  /-- An operation on a file failed. -/
  | file (fault : FileFault)
  /-- A database file cannot be opened. -/
  | unreadableDatabase (path : String) (fault : FileFault)
  /-- The directory for a database file cannot be made. -/
  | createDirectory (path : String) (fault : FileFault)
  /-- No temporary file for a database can be made in the directory. -/
  | createTemporary (directory : String) (fault : FileFault)
  /-- The last bytes of a database cannot be handed over. -/
  | flush (fault : FileFault)
  /-- The bytes of a database cannot be brought to the disk. -/
  | sync (fault : FileFault)
  /-- A finished database file cannot take its place. -/
  | replace (path : String) (fault : FileFault)
  /-- The bytes do not start as a database does. -/
  | notADatabase (name : String)
  /-- The database has an older format than the library reads. -/
  | obsoleteFormat (name : String) (found current : UInt64)
  /-- The database has a newer format than the library reads. -/
  | newerFormat (name : String) (found current : UInt64)
  /-- The bytes of a database end too early. -/
  | truncated (cause : Truncation)
  /-- Something in a database is malformed, or cannot be stored in one. -/
  | corrupt (cause : Corruption)
  /-- A text does not follow the grammar of versions. -/
  | invalidVersion (text : String)
  /-- An entry of a metadata cache cannot be read. -/
  | cacheEntry (path : String) (fault : FileFault)
  /-- The list of categories of a repository cannot be read. -/
  | categoryList (path : String) (fault : FileFault)
  /-- A database lacks the overlay to be imported from it. -/
  | missingOverlay (path overlay : String)
  /-- An import names no database. -/
  | missingPath (text : String)
  deriving DecidableEq, Repr

/-- The wording of a truncation. -/
def Truncation.message : Truncation → String
  | .endOfInput => "unexpected end of file"
  | .text length present => s!"string of {length} bytes cut off after {present}"
  | .record length present => s!"record of {length} more bytes cut off after {present}"

/-- The wording of a corruption. -/
def Corruption.message : Corruption → String
  | .numberTooWide trailing => s!"number with {trailing} trailing bytes does not fit 64 bits"
  | .text fault => s!"invalid UTF-8 in string: {fault.message}"
  | .noEntry index size => s!"dictionary index {index} out of range ({size} entries)"
  | .duplicateEntry => "duplicate dictionary entry"
  | .recordTooLong length => s!"package record length {length} overflows"
  | .recordEndsBefore stop position => s!"record ends at offset {stop} before {position}"
  | .recordEnd package position stop =>
    s!"package {package} ended at offset {position}, record says {stop}"
  | .version written => s!"stored version \"{written}\" does not parse"
  | .stability code => s!"unknown stability code {code}"
  | .overlayKey key => s!"overlay key {key} out of range"
  | .dependencyLength => "dependency block length mismatch"
  | .countOverflow => "package counts add up to more than 64 bits hold"
  | .packageCount name announced found =>
    s!"{name}: header announces {announced} packages, found {found}"
  | .missingWord word => s!"\"{word}\" is missing from the dictionary"

/-- The wording of an error. -/
def Error.message : Error → String
  | .file fault => s!"I/O error: {fault.message}"
  | .unreadableDatabase path fault =>
    s!"I/O error: Can't read database file {path}: {fault.message}"
  | .createDirectory path fault =>
    s!"I/O error: Failed to create directory {path}: {fault.message}"
  | .createTemporary directory fault =>
    s!"I/O error: Failed to create temporary file in {directory}: {fault.message}"
  | .flush fault => s!"I/O error: Failed to flush database: {fault.message}"
  | .sync fault => s!"I/O error: Failed to sync database: {fault.message}"
  | .replace path fault => s!"I/O error: Failed to replace {path}: {fault.message}"
  | .notADatabase name => s!"Not a portix database: {name}"
  | .obsoleteFormat name found current =>
    s!"Database file {name} uses obsolete format {found} (current is {current})"
  | .newerFormat name found current =>
    s!"Database file {name} uses newer format {found} (current is {current})"
  | .truncated cause => s!"Database truncated: {cause.message}"
  | .corrupt cause => s!"Database corrupt: {cause.message}"
  | .invalidVersion text => s!"Invalid version: {text}"
  | .cacheEntry path fault => s!"Cache error: Can't read cache entry {path}: {fault.message}"
  | .categoryList path fault => s!"Cache error: Can't read {path}: {fault.message}"
  | .missingOverlay path overlay =>
    s!"Cache error: Cache file {path} does not contain overlay {overlay}"
  | .missingPath text => s!"Parse error: missing database path in \"{text}\""

end PackageIndex
