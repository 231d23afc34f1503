import PackageIndex.Error

/-!
# Decoders

A decoder takes a value off the front of the bytes that are left of a database. It knows how many
bytes of the whole it has passed, since records are delimited by offsets.
-/

namespace PackageIndex

/-- The bytes that are left to read. -/
structure Input where
  /-- The number of bytes before them. -/
  offset : Nat
  /-- The bytes. -/
  bytes : List UInt8
  deriving DecidableEq, Repr

/-- The input that has all bytes left. -/
def Input.ofBytes (bytes : List UInt8) : Input := ⟨0, bytes⟩

/-- A reader of values from the front of the input. -/
abbrev Decoder (α : Type) := StateT Input (Except Error) α

namespace Decoder

/-- Takes one byte. -/
def byte : Decoder UInt8 := fun input =>
  match input.bytes with
  | [] => .error (.truncated .endOfInput)
  | b :: bs => .ok (b, ⟨input.offset + 1, bs⟩)

/-- Takes as many bytes as there are, up to the given number. -/
def upTo (count : Nat) : Decoder (List UInt8) := fun input =>
  let taken := input.bytes.take count
  .ok (taken, ⟨input.offset + taken.length, input.bytes.drop count⟩)

/-- The offset of the next byte. -/
def position : Decoder Nat := fun input => .ok (input.offset, input)

/-- Fails unless there is a value. -/
def require {α : Type} (value : Option α) (cause : Error) : Decoder α :=
  match value with
  | some a => pure a
  | none => throw cause

/-- Takes a number of values, one after the other. -/
def repeated {α : Type} (item : Decoder α) : Nat → Decoder (List α)
  | 0 => pure []
  | count + 1 => do
    let first ← item
    let others ← repeated item count
    return first :: others

/-- Passes over the bytes up to an offset. -/
def skipTo (stop : Nat) : Decoder Unit := do
  let position ← Decoder.position
  if stop < position then throw (.corrupt (.recordEndsBefore stop position))
  else
    let skipped ← upTo (stop - position)
    if skipped.length < stop - position then
      throw (.truncated (.record (stop - position) skipped.length))
    else pure ()

end Decoder

end PackageIndex
