import PackageIndex.Database.Number

/-!
# Numbers in buffers

A number is written into a buffer that has room for the longest written form of a 64-bit number:
seven escape bytes, eight bytes of the number, and the zero behind a first byte `0xFF`. The bytes of
the number are a part of its eight bytes. A byte that is not in the buffer cannot be written, and a
part that is not there cannot be taken.
-/

namespace PackageIndex.Number

/-- The length of the longest written form. -/
def maxLength : Nat := 16

/-- A buffer that is filled from the front. -/
structure Buffer where
  /-- The bytes, written or not. -/
  bytes : Vector UInt8 maxLength
  /-- How many of them are written. -/
  used : Nat
  deriving DecidableEq

/-- The buffer with one more byte, if there is room for it. -/
def Buffer.put? (b : Buffer) (byte : UInt8) : Option Buffer :=
  if h : b.used < maxLength then some ⟨b.bytes.set b.used byte, b.used + 1⟩ else none

/-- The bytes that are written. -/
def Buffer.written (b : Buffer) : List UInt8 :=
  b.bytes.toList.take b.used

/-- The lowest bytes of a number, the highest of them first. -/
def lowBytes : Nat → Nat → List UInt8
  | 0, _ => []
  | count + 1, n => lowBytes count (n / 256) ++ [(n % 256).toUInt8]

/-- The last bytes of the eight bytes of a number, as many as are significant. -/
def significant? (n : UInt64) : Option (List UInt8) :=
  if width n ≤ 8 then some ((lowBytes 8 n.toNat).drop (8 - width n)) else none

/-- Writes a number to the front of a buffer. -/
def encodeInto? (bytes : Vector UInt8 maxLength) (n : UInt64) : Option Buffer :=
  match significant? n with
  | some (lead :: tail) => do
    let b ← (List.replicate tail.length escape).foldlM Buffer.put? ⟨bytes, 0⟩
    let b ← b.put? lead
    let b ← if lead = escape then b.put? 0 else some b
    tail.foldlM Buffer.put? b
  | _ => none

end PackageIndex.Number
