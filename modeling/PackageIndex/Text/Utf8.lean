/-!
# UTF-8

Texts are stored as UTF-8. `Utf8.encode` writes a text; `Utf8.decode` reads one and, on bytes that
are not UTF-8, says where the longest valid beginning ends and how many of the bytes from there on
form the maximal beginning of a sequence, or that the bytes end inside one. The second byte of a
sequence is held to the range that rules out surrogates, overlong forms and values above U+10FFFF.
Main statement: what is written is read back (`decode_encode`).
-/

namespace PackageIndex.Utf8

/-! ## Writing -/

/-- The bytes of one character. -/
def encodeChar (c : Char) : List UInt8 :=
  let n := c.toNat
  if n < 0x80 then [n.toUInt8]
  else if n < 0x800 then [(0xC0 + n / 0x40).toUInt8, (0x80 + n % 0x40).toUInt8]
  else if n < 0x10000 then
    [(0xE0 + n / 0x1000).toUInt8, (0x80 + n / 0x40 % 0x40).toUInt8, (0x80 + n % 0x40).toUInt8]
  else
    [(0xF0 + n / 0x40000).toUInt8, (0x80 + n / 0x1000 % 0x40).toUInt8,
      (0x80 + n / 0x40 % 0x40).toUInt8, (0x80 + n % 0x40).toUInt8]

/-- The bytes of a text. -/
def encode (s : String) : List UInt8 :=
  s.toList.flatMap encodeChar

/-! ## Reading -/

/-- What is wrong with bytes that are not UTF-8. -/
inductive Fault where
  /-- From byte `index` on, `length` bytes begin a sequence that does not go on as it must. -/
  | invalid (length index : Nat)
  /-- The bytes end inside the sequence that starts at byte `index`. -/
  | incomplete (index : Nat)
  deriving DecidableEq, Repr

/-- What a first byte above 0x7F asks for: the range of the second byte, the number of further
bytes after it, and the bits that the first byte contributes. -/
structure Lead where
  /-- The least second byte. -/
  low : UInt8
  /-- The greatest second byte. -/
  high : UInt8
  /-- The number of bytes after the second one. -/
  more : Nat
  /-- The value of the first byte's own bits. -/
  bits : Nat

/-- The demands of a first byte, if it can be one. -/
def lead? (b : UInt8) : Option Lead :=
  let n := b.toNat
  if n < 0xC2 then none
  else if n < 0xE0 then some ⟨0x80, 0xBF, 0, n - 0xC0⟩
  else if n < 0xF0 then
    some ⟨if n = 0xE0 then 0xA0 else 0x80, if n = 0xED then 0x9F else 0xBF, 1, n - 0xE0⟩
  else if n < 0xF5 then
    some ⟨if n = 0xF0 then 0x90 else 0x80, if n = 0xF4 then 0x8F else 0xBF, 2, n - 0xF0⟩
  else none

/-- A byte that continues a sequence. -/
def isContinuation (b : UInt8) : Bool :=
  0x80 ≤ b && b ≤ 0xBF

/-- The value of a sequence's bits with those of one more byte after them. -/
def push (bits : Nat) (b : UInt8) : Nat :=
  bits * 0x40 + (b.toNat - 0x80)

/-- Reads the characters of bytes that start at the given index of a whole. -/
def decodeFrom (index : Nat) : List UInt8 → Except Fault (List Char)
  | [] => .ok []
  | b :: bs =>
    if b < 0x80 then (Char.ofNat b.toNat :: ·) <$> decodeFrom (index + 1) bs
    else match lead? b with
      | none => .error (.invalid 1 index)
      | some lead => match bs with
        | [] => .error (.incomplete index)
        | b₂ :: bs =>
          if b₂ < lead.low || lead.high < b₂ then .error (.invalid 1 index)
          else match lead.more with
            | 0 => (Char.ofNat (push lead.bits b₂) :: ·) <$> decodeFrom (index + 2) bs
            | more + 1 => match bs with
              | [] => .error (.incomplete index)
              | b₃ :: bs =>
                if !isContinuation b₃ then .error (.invalid 2 index)
                else match more with
                  | 0 =>
                    (Char.ofNat (push (push lead.bits b₂) b₃) :: ·) <$> decodeFrom (index + 3) bs
                  | _ + 1 => match bs with
                    | [] => .error (.incomplete index)
                    | b₄ :: bs =>
                      if !isContinuation b₄ then .error (.invalid 3 index)
                      else
                        (Char.ofNat (push (push (push lead.bits b₂) b₃) b₄) :: ·) <$>
                          decodeFrom (index + 4) bs

/-- The text that the bytes spell. -/
def decode (bytes : List UInt8) : Except Fault String :=
  String.ofList <$> decodeFrom 0 bytes

/-- The wording of a fault. -/
def Fault.message : Fault → String
  | .invalid length index => s!"invalid utf-8 sequence of {length} bytes from index {index}"
  | .incomplete index => s!"incomplete utf-8 byte sequence from index {index}"

/-! ## What is written is read back -/

theorem toNat_toUInt8 {n : Nat} (h : n < 0x100) : n.toUInt8.toNat = n := by
  have ht : n.toUInt8.toNat = n % 2 ^ 8 := UInt8.toNat_ofNat'
  exact ht.trans (Nat.mod_eq_of_lt h)

/-- The value of six more bits. -/
theorem push_toUInt8 {n : Nat} (h : n < 0x40) (bits : Nat) :
    push bits (0x80 + n).toUInt8 = bits * 0x40 + n := by
  have ht : (0x80 + n).toUInt8.toNat = 0x80 + n := toNat_toUInt8 (by omega)
  unfold push
  omega

/-- A byte with six bits after the mark of a continuation continues a sequence. -/
theorem isContinuation_toUInt8 {n : Nat} (h : n < 0x40) :
    isContinuation (0x80 + n).toUInt8 = true := by
  have ht : (0x80 + n).toUInt8.toNat = 0x80 + n := toNat_toUInt8 (by omega)
  have hl : (0x80 : UInt8).toNat = 0x80 ∧ (0xBF : UInt8).toNat = 0xBF := by decide
  simp only [isContinuation, Bool.and_eq_true, decide_eq_true_eq, UInt8.le_iff_toNat_le, ht]
  omega

/-- A byte is in a range of second bytes if its number is. -/
theorem not_outside {n : Nat} {low high : UInt8} (hn : n < 0x100) (hl : low.toNat ≤ n)
    (hh : n ≤ high.toNat) : ¬ (n.toUInt8 < low || high < n.toUInt8) = true := by
  simp only [Bool.or_eq_true, decide_eq_true_eq, UInt8.lt_iff_toNat_lt, toNat_toUInt8 hn]
  omega

/-- A byte from 0x80 on is not a character by itself. -/
theorem not_lt_toUInt8 {n : Nat} (hn : n < 0x100) (h : 0x80 ≤ n) :
    ¬ n.toUInt8 < (0x80 : UInt8) := by
  have hl : (0x80 : UInt8).toNat = 0x80 := by decide
  rw [UInt8.lt_iff_toNat_lt, toNat_toUInt8 hn]
  omega

/-- The code points of characters leave out the surrogates. -/
theorem toNat_ranges (c : Char) :
    c.toNat < 0xD800 ∨ (0xDFFF < c.toNat ∧ c.toNat < 0x110000) :=
  c.valid

theorem decodeFrom_encodeChar (index : Nat) (c : Char) (rest : List UInt8) :
    decodeFrom index (encodeChar c ++ rest) =
      (c :: ·) <$> decodeFrom (index + (encodeChar c).length) rest := by
  have hr := toNat_ranges c
  have hc : Char.ofNat c.toNat = c := Char.ofNat_toNat c
  have hb : (0x80 : UInt8).toNat = 0x80 ∧ (0xBF : UInt8).toNat = 0xBF ∧
    (0x8F : UInt8).toNat = 0x8F ∧ (0x90 : UInt8).toNat = 0x90 ∧ (0x9F : UInt8).toNat = 0x9F ∧
    (0xA0 : UInt8).toNat = 0xA0 := by decide
  unfold encodeChar
  generalize c.toNat = n at hr hc
  simp only
  split
  next h1 =>
    have hl : n.toUInt8 < (0x80 : UInt8) := by
      rw [UInt8.lt_iff_toNat_lt, toNat_toUInt8 (by omega)]
      omega
    rw [List.singleton_append, decodeFrom, if_pos hl, toNat_toUInt8 (by omega), hc]
    rfl
  next h1 =>
    split
    next h2 =>
      have hl : lead? (0xC0 + n / 0x40).toUInt8 = some ⟨0x80, 0xBF, 0, n / 0x40⟩ := by
        rw [lead?, toNat_toUInt8 (by omega), if_neg (by omega), if_pos (by omega),
          Nat.add_sub_cancel_left]
      simp only [List.cons_append, List.nil_append]
      rw [decodeFrom, if_neg (not_lt_toUInt8 (by omega) (by omega)), hl]
      simp only
      rw [if_neg (not_outside (by omega) (by omega) (by omega)), push_toUInt8 (by omega),
        Nat.div_add_mod' n 0x40, hc]
      rfl
    next h2 =>
      split
      next h3 =>
        have hl : lead? (0xE0 + n / 0x1000).toUInt8 =
            some ⟨if n / 0x1000 = 0 then 0xA0 else 0x80, if n / 0x1000 = 0xD then 0x9F else 0xBF,
              1, n / 0x1000⟩ := by
          have h0 : 0xE0 + n / 0x1000 = 0xE0 ↔ n / 0x1000 = 0 := by omega
          have hD : 0xE0 + n / 0x1000 = 0xED ↔ n / 0x1000 = 0xD := by omega
          rw [lead?, toNat_toUInt8 (by omega), if_neg (by omega), if_neg (by omega),
            if_pos (by omega), Nat.add_sub_cancel_left]
          simp only [h0, hD]
        simp only [List.cons_append, List.nil_append]
        rw [decodeFrom, if_neg (not_lt_toUInt8 (by omega) (by omega)), hl]
        simp only
        rw [if_neg (not_outside (by omega) (by split <;> omega) (by split <;> omega)),
          isContinuation_toUInt8 (by omega)]
        have hn : (n / 0x1000 * 0x40 + n / 0x40 % 0x40) * 0x40 + n % 0x40 = n := by omega
        rw [if_neg (by simp), push_toUInt8 (by omega), push_toUInt8 (by omega), hn, hc]
        rfl
      next h3 =>
        have hl : lead? (0xF0 + n / 0x40000).toUInt8 =
            some ⟨if n / 0x40000 = 0 then 0x90 else 0x80, if n / 0x40000 = 4 then 0x8F else 0xBF,
              2, n / 0x40000⟩ := by
          have h0 : 0xF0 + n / 0x40000 = 0xF0 ↔ n / 0x40000 = 0 := by omega
          have h4 : 0xF0 + n / 0x40000 = 0xF4 ↔ n / 0x40000 = 4 := by omega
          rw [lead?, toNat_toUInt8 (by omega), if_neg (by omega), if_neg (by omega),
            if_neg (by omega), if_pos (by omega), Nat.add_sub_cancel_left]
          simp only [h0, h4]
        simp only [List.cons_append, List.nil_append]
        rw [decodeFrom, if_neg (not_lt_toUInt8 (by omega) (by omega)), hl]
        simp only
        have hn : ((n / 0x40000 * 0x40 + n / 0x1000 % 0x40) * 0x40 + n / 0x40 % 0x40) * 0x40 +
          n % 0x40 = n := by omega
        rw [if_neg (not_outside (by omega) (by split <;> omega) (by split <;> omega)),
          isContinuation_toUInt8 (by omega), isContinuation_toUInt8 (by omega),
          if_neg (by simp), if_neg (by simp), push_toUInt8 (by omega), push_toUInt8 (by omega),
          push_toUInt8 (by omega), hn, hc]
        rfl

/-- Characters are read back wherever they stand. -/
theorem decodeFrom_flatMap (index : Nat) (cs : List Char) :
    decodeFrom index (cs.flatMap encodeChar) = .ok cs := by
  induction cs generalizing index with
  | nil => rfl
  | cons c cs ih =>
    rw [List.flatMap_cons, decodeFrom_encodeChar, ih]
    rfl

/-- A written text is read back. -/
@[simp] theorem decode_encode (s : String) : decode (encode s) = .ok s := by
  rw [decode, encode, decodeFrom_flatMap]
  simp [Functor.map, Except.map]

end PackageIndex.Utf8
