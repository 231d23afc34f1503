import PackageIndex.Database.NumberBuffer
import PackageIndex.Proofs.Database.NumberCode

/-!
# The length of numbers

The length of a written number can be told without writing it (`length_encode`), since the place of
its highest bit tells how many bytes are significant (`width_eq`). It is never more than the buffer
has room for, into which the bytes are written one by one (`encodedLength_exact`).
-/

namespace PackageIndex.Number

variable {n : UInt64} {lead : UInt8} {tail : List UInt8}

/-! ## Counting without writing -/

/-- The highest bit of a number is in the first of its significant bytes. -/
theorem width_eq (h : significant n.toNat = lead :: tail) : width n = tail.length + 1 := by
  obtain ⟨hv, hne⟩ := extend_of_significant h
  by_cases hzero : n.toNat = 0
  · rw [hzero, significant_zero] at h
    cases h
    rw [width, hzero]
    rfl
  · have hpow : 2 ^ (8 * tail.length) = 256 ^ tail.length := Nat.pow_mul 2 8 tail.length
    have hlead : lead.toNat < 256 := lead.toNat_lt
    have hlower : 8 * tail.length ≤ n.toNat.log2 := by
      rw [Nat.le_log2 hzero, hpow]
      exact pow_le_of_significant h hzero
    have hupper : n.toNat.log2 < 8 + 8 * tail.length := by
      rw [Nat.log2_lt hzero, Nat.pow_add, hpow, ← hv]
      exact (extend_lt lead.toNat tail).trans_le (Nat.mul_le_mul_right _ hlead)
    unfold width
    omega

/-- Without the bytes behind the first, the first is left. -/
theorem shiftRight_eq_lead (h : significant n.toNat = lead :: tail) :
    n >>> (8 * tail.length).toUInt64 = lead.toUInt64 := by
  obtain ⟨hv, -⟩ := extend_of_significant h
  have h7 := length_tail_le h
  have hsize : 8 * tail.length < UInt64.size := Nat.lt_of_le_of_lt (by omega) (by decide : 56 < _)
  apply UInt64.toNat_inj.1
  rw [UInt64.toNat_shiftRight, toNat_toUInt64 hsize, Nat.mod_eq_of_lt (by omega),
    Nat.shiftRight_eq_div_pow, Nat.pow_mul, UInt8.toNat_toUInt64, ← hv]
  exact Nat.div_eq_of_lt_le (le_extend _ _) (extend_lt _ _)

theorem encodedLength_eq (h : significant n.toNat = lead :: tail) :
    encodedLength n = (if lead = escape then 2 else 1) + 2 * tail.length := by
  have hescape : lead.toUInt64 = 0xFF ↔ lead = escape := by
    rw [← UInt64.toNat_inj, ← UInt8.toNat_inj, UInt8.toNat_toUInt64]
    rfl
  unfold encodedLength
  rw [width_eq h, Nat.add_sub_cancel]
  dsimp only
  rw [shiftRight_eq_lead h]
  simp only [hescape]

theorem length_encodeBytes (lead : UInt8) (tail : List UInt8) :
    (encodeBytes (lead :: tail)).length = (if lead = escape then 2 else 1) + 2 * tail.length := by
  rw [encodeBytes, List.length_append, List.length_replicate, List.length_cons, List.length_append]
  split
  · rw [List.length_singleton]
    omega
  · rw [List.length_nil]
    omega

theorem length_encode (n : UInt64) : (encode n).length = encodedLength n := by
  obtain ⟨lead, tail, h, -, -⟩ := exists_significant n.toNat
  rw [encode, encodedLength_eq h, h, length_encodeBytes]

/-- The length by the number of significant bytes. -/
theorem encodedLength_bounds (n : UInt64) :
    2 * width n ≤ encodedLength n + 1 ∧ encodedLength n ≤ 2 * width n ∧
      1 ≤ width n ∧ width n ≤ 8 := by
  obtain ⟨lead, tail, h, -, -⟩ := exists_significant n.toNat
  have h7 := length_tail_le h
  rw [encodedLength_eq h, width_eq h]
  split
  · omega
  · omega

theorem encodedLength_eq_one_iff (n : UInt64) : encodedLength n = 1 ↔ n < 255 := by
  obtain ⟨lead, tail, h, hv, -⟩ := exists_significant n.toNat
  have hone : encodedLength n = 1 ↔ lead ≠ escape ∧ tail = [] := by
    rw [encodedLength_eq h, ← List.length_eq_zero_iff]
    by_cases hlead : lead = escape
    · rw [if_pos hlead]
      exact iff_of_false (by omega) fun hboth => hboth.1 hlead
    · rw [if_neg hlead, and_iff_right hlead]
      omega
  have hescape : lead = escape ↔ lead.toNat = 255 := UInt8.toNat_inj.symm
  have hlt : n < 255 ↔ n.toNat < 255 := UInt64.lt_iff_toNat_lt
  rw [hone, hlt, ne_eq, hescape]
  constructor
  · rintro ⟨hne, rfl⟩
    have hlead : lead.toNat < 256 := lead.toNat_lt
    rw [← hv]
    show lead.toNat < 255
    omega
  · intro hn
    rw [significant, if_pos (by omega)] at h
    cases h
    have hlead : n.toNat.toUInt8.toNat = n.toNat :=
      UInt8.toNat_ofNat_of_lt' (show n.toNat < 256 by omega)
    exact ⟨by omega, rfl⟩

/-! ## The part of the eight bytes -/

theorem length_lowBytes (count n : Nat) : (lowBytes count n).length = count := by
  induction count generalizing n with
  | zero => rfl
  | succ count ih => rw [lowBytes, List.length_append, ih, List.length_singleton]

theorem drop_lowBytes (k count n : Nat) : (lowBytes (k + count) n).drop k = lowBytes count n := by
  induction count generalizing n with
  | zero => exact List.drop_eq_nil_iff.2 (length_lowBytes k n).le
  | succ count ih =>
    have hle : k ≤ (lowBytes (k + count) (n / 256)).length := by
      rw [length_lowBytes]
      omega
    rw [← Nat.add_assoc, lowBytes, List.drop_append_of_le_length hle, ih, lowBytes]

theorem lowBytes_length_significant (n : Nat) :
    lowBytes (significant n).length n = significant n := by
  induction n using significant.induct with
  | case1 n h => simp [significant, h, lowBytes, Nat.mod_eq_of_lt h]
  | case2 n h ih =>
    rw [significant, if_neg h, List.length_append, List.length_singleton, lowBytes, ih]

theorem width_eq_length (n : UInt64) : width n = (significant n.toNat).length := by
  obtain ⟨lead, tail, h, -, -⟩ := exists_significant n.toNat
  rw [width_eq h, h, List.length_cons]

theorem significant?_eq (n : UInt64) : significant? n = some (significant n.toNat) := by
  obtain ⟨-, -, -, hle⟩ := encodedLength_bounds n
  have hdrop := drop_lowBytes (8 - width n) (width n) n.toNat
  rw [Nat.sub_add_cancel hle] at hdrop
  rw [significant?, if_pos hle, hdrop, width_eq_length, lowBytes_length_significant]

/-! ## Writing into a buffer -/

/-- The bytes at the front of the buffer are written, and the others are still those of another
buffer. -/
structure Buffer.Holds (b : Buffer) (old : Vector UInt8 maxLength) (written : List UInt8) :
    Prop where
  used : b.used = written.length
  bytes : b.bytes.toList = written ++ old.toList.drop written.length

namespace Buffer.Holds

variable {b : Buffer} {old : Vector UInt8 maxLength} {written : List UInt8}

theorem put (h : b.Holds old written) (hlt : written.length < maxLength) (byte : UInt8) :
    ∃ b', b.put? byte = some b' ∧ b'.Holds old (written ++ [byte]) := by
  obtain ⟨bytes, used⟩ := b
  obtain ⟨hused, hbytes⟩ := h
  dsimp only at hused hbytes
  subst hused
  have hroom : written.length < old.toList.length := hlt.trans_eq old.length_toList.symm
  refine ⟨_, dif_pos hlt, ?_, ?_⟩
  · rw [List.length_append, List.length_singleton]
  · rw [Vector.toList_set, hbytes, List.drop_eq_getElem_cons hroom,
      List.set_append_right _ _ le_rfl]
    simp

theorem written_eq (h : b.Holds old written) : b.written = written := by
  rw [Buffer.written, h.bytes, h.used, List.take_left]

theorem drop_eq (h : b.Holds old written) :
    b.bytes.toList.drop b.used = old.toList.drop b.used := by
  rw [h.bytes, h.used, List.drop_left]

/-- All bytes for which there is room are written behind those that are there. -/
theorem foldlM_put (h : b.Holds old written) {bytes : List UInt8}
    (hle : written.length + bytes.length ≤ maxLength) :
    ∃ b', bytes.foldlM put? b = some b' ∧ b'.Holds old (written ++ bytes) := by
  induction bytes generalizing b written with
  | nil => exact ⟨b, rfl, (List.append_nil written).symm ▸ h⟩
  | cons byte bytes ih =>
    rw [List.length_cons] at hle
    obtain ⟨b', hput, h'⟩ := h.put (by omega) byte
    have hnext : (written ++ [byte]).length + bytes.length ≤ maxLength := by
      rw [List.length_append, List.length_singleton]
      omega
    obtain ⟨last, hlast, hholds⟩ := ih h' hnext
    rw [List.append_assoc, List.singleton_append] at hholds
    refine ⟨last, ?_, hholds⟩
    rw [List.foldlM_cons, hput]
    exact hlast

end Buffer.Holds

/-- The bytes are put into the buffer in the order of the written form. -/
theorem encodeInto?_eq (bytes : Vector UInt8 maxLength) (n : UInt64) :
    encodeInto? bytes n = (encode n).foldlM Buffer.put? ⟨bytes, 0⟩ := by
  obtain ⟨lead, tail, h, -, -⟩ := exists_significant n.toNat
  have hzero : ∀ b : Buffer, ([0] : List UInt8).foldlM Buffer.put? b = b.put? 0 := fun b => by simp
  rw [encodeInto?, significant?_eq, encode, h, encodeBytes, List.foldlM_append]
  by_cases hlead : lead = escape
  · simp only [hlead, if_true, List.foldlM_cons, List.foldlM_append, hzero]
  · simp only [hlead, if_false, List.foldlM_cons, List.nil_append]
    rfl

/-- **What is counted is what is written.** The length of a number that is worked out from its highest
bit and its first byte is the number of bytes of its written form. In a buffer of sixteen bytes
there is room for them, whatever the number and whatever is in the buffer: they come to its front,
and what is behind them stays. It is one byte exactly for the numbers below 255, and a number with
more significant bytes has a longer written form. -/
theorem encodedLength_exact (n : UInt64) :
    (encode n).length = encodedLength n ∧ 1 ≤ encodedLength n ∧ encodedLength n ≤ maxLength ∧
      (∀ bytes : Vector UInt8 maxLength, ∃ b, encodeInto? bytes n = some b ∧
        b.used = encodedLength n ∧ b.written = encode n ∧
        b.bytes.toList.drop b.used = bytes.toList.drop b.used) ∧
      (encodedLength n = 1 ↔ n < 255) ∧
      width n = (significant n.toNat).length ∧
      ∀ wider, width n < width wider → encodedLength n < encodedLength wider := by
  obtain ⟨hlow, hhigh, hpos, h8⟩ := encodedLength_bounds n
  have hle : encodedLength n ≤ maxLength := hhigh.trans (Nat.mul_le_mul_left 2 h8)
  refine ⟨length_encode n, by omega, hle, fun bytes => ?_, encodedLength_eq_one_iff n,
    width_eq_length n, fun wider hwider => ?_⟩
  · have hempty : Buffer.Holds ⟨bytes, 0⟩ bytes [] := ⟨rfl, rfl⟩
    have hroom : ([] : List UInt8).length + (encode n).length ≤ maxLength := by
      rw [length_encode, List.length_nil, Nat.zero_add]
      exact hle
    obtain ⟨b, hb, hholds⟩ := hempty.foldlM_put hroom
    exact ⟨b, (encodeInto?_eq bytes n).trans hb, hholds.used.trans (length_encode n),
      hholds.written_eq, hholds.drop_eq⟩
  · have hbounds := encodedLength_bounds wider
    omega

/-- The highest number of one significant byte, and the lowest of two. -/
theorem encodedLength_exact_boundary :
    width 0xFF < width 0x100 ∧ encodedLength 0xFF < encodedLength 0x100 ∧
      ∃ b, encodeInto? (.replicate 16 7) 0xFF = some b ∧ b.written = [0xFF, 0] ∧
        b.bytes.toList.drop b.used = List.replicate 14 7 := by
  obtain ⟨-, -, -, hbuffer, -, -, hwider⟩ := encodedLength_exact 0xFF
  have hwidth : width 0xFF < width 0x100 := by decide +kernel
  obtain ⟨b, hb, hused, hwritten, hrest⟩ := hbuffer (.replicate 16 7)
  have hused : b.used = 2 := hused.trans (by decide +kernel)
  refine ⟨hwidth, hwider _ hwidth, b, hb, hwritten.trans (by decide +kernel), hrest.trans ?_⟩
  rw [hused]
  decide +kernel

end PackageIndex.Number
