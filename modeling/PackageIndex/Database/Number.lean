import PackageIndex.Database.Decoder

/-!
# Numbers

A 64-bit number up to 254 is one byte. A wider number is written as its significant bytes, the
highest first, behind one escape byte `0xFF` for each of its bytes after the first; if the first is
`0xFF` itself, a zero follows it, so that it is not taken for another escape byte.
-/

namespace PackageIndex.Number

/-- The byte that is not the number it looks like. -/
def escape : UInt8 := 0xFF

/-! ## Writing -/

/-- The significant bytes of a number, the highest first; zero has one. -/
def significant (n : Nat) : List UInt8 :=
  if n < 256 then [n.toUInt8] else significant (n / 256) ++ [(n % 256).toUInt8]

/-- The written form of a number with the given significant bytes. -/
def encodeBytes : List UInt8 → List UInt8
  | [] => []
  | lead :: tail =>
    List.replicate tail.length escape ++ lead :: ((if lead = escape then [0] else []) ++ tail)

/-- The written form of a number. -/
def encode (n : UInt64) : List UInt8 :=
  encodeBytes (significant n.toNat)

/-- The number of significant bytes of a number, by the place of its highest bit. -/
def width (n : UInt64) : Nat :=
  n.toNat.log2 / 8 + 1

/-- The length of the written form of a number, without writing it. -/
def encodedLength (n : UInt64) : Nat :=
  let trailing := width n - 1
  let lead := n >>> (8 * trailing).toUInt64
  (if lead = 0xFF then 2 else 1) + 2 * trailing

/-! ## Reading -/

/-- Reads on after `trailing` escape bytes, up to and including the first byte of the number. The
answer is that byte and how many bytes follow it; a zero means that the last escape byte was the
first byte of the number. -/
def readLead (trailing : Nat) (offset : Nat) :
    List UInt8 → Except Error ((Nat × UInt8) × Input)
  | [] => .error (.truncated .endOfInput)
  | b :: bs =>
    if b = escape then readLead (trailing + 1) (offset + 1) bs
    else if b = 0 then .ok ((trailing - 1, escape), ⟨offset + 1, bs⟩)
    else .ok ((trailing, b), ⟨offset + 1, bs⟩)

/-- Reads the last bytes of a number behind those that give the value so far. -/
def readTail : Nat → UInt64 → Decoder UInt64
  | 0, value => pure value
  | count + 1, value => do
    let b ← Decoder.byte
    readTail count (value * 256 + b.toUInt64)

/-- Reads a number behind its first escape byte. -/
def readWide : Decoder UInt64 := do
  let (trailing, lead) ← (fun input => readLead 1 input.offset input.bytes : Decoder _)
  if 7 < trailing then throw (.corrupt (.numberTooWide trailing))
  else readTail trailing lead.toUInt64

/-- Reads a number. -/
def read : Decoder UInt64 := do
  let first ← Decoder.byte
  if first = escape then readWide else pure first.toUInt64

end PackageIndex.Number
