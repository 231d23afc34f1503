import Mathlib.Algebra.Order.Ring.Nat
import Mathlib.Data.List.Induction
import Mathlib.Tactic.ByContra
import PackageIndex.Database.Number
import PackageIndex.Proofs.Database.Decoding

/-!
# The code of numbers

The written forms of the 64-bit numbers are a canonical prefix code. A form is one byte below the
escape byte, or a run of `k` escape bytes, a byte `b` that ends the run, and as many bytes as `k` and
`b` announce; `b` is the first byte of the number, unless it is zero and the first byte is an escape
byte. Reading follows this shape, and the significant bytes of a number are those of the one shape
that has its value, so every number has one form and every form that is read is that one.
-/

namespace PackageIndex.Number

/-! ## Values of byte sequences -/

/-- The number whose bytes are those of `n` and, behind them, the given ones. -/
def extend (n : Nat) (bytes : List UInt8) : Nat :=
  bytes.foldl (fun n b => n * 256 + b.toNat) n

theorem extend_append_singleton (n : Nat) (bytes : List UInt8) (b : UInt8) :
    extend n (bytes ++ [b]) = extend n bytes * 256 + b.toNat := by
  simp [extend]

theorem le_extend (n : Nat) (bytes : List UInt8) : n * 256 ^ bytes.length ≤ extend n bytes := by
  induction bytes generalizing n with
  | nil => simp [extend]
  | cons b bytes ih =>
    have h := ih (n * 256 + b.toNat)
    have hm : n * 256 * 256 ^ bytes.length ≤ (n * 256 + b.toNat) * 256 ^ bytes.length :=
      Nat.mul_le_mul_right _ (Nat.le_add_right _ _)
    rw [List.length_cons, Nat.pow_succ', ← Nat.mul_assoc]
    exact hm.trans h

theorem extend_lt (n : Nat) (bytes : List UInt8) :
    extend n bytes < (n + 1) * 256 ^ bytes.length := by
  induction bytes generalizing n with
  | nil => simp [extend]
  | cons b bytes ih =>
    have h := ih (n * 256 + b.toNat)
    have hb : b.toNat < 256 := b.toNat_lt
    have hm : (n * 256 + b.toNat + 1) * 256 ^ bytes.length ≤
        (n + 1) * 256 * 256 ^ bytes.length := Nat.mul_le_mul_right _ (by omega)
    rw [List.length_cons, Nat.pow_succ', ← Nat.mul_assoc]
    exact Nat.lt_of_lt_of_le h hm

theorem extend_lt_size {lead : UInt8} {tail : List UInt8} (h : tail.length ≤ 7) :
    extend lead.toNat tail < UInt64.size := by
  have hlt := extend_lt lead.toNat tail
  have hb : lead.toNat < 256 := lead.toNat_lt
  have hm : (lead.toNat + 1) * 256 ^ tail.length ≤ 256 * 256 ^ 7 :=
    Nat.mul_le_mul (by omega) (Nat.pow_le_pow_right (by decide) h)
  exact Nat.lt_of_lt_of_le hlt hm

theorem toNat_toUInt64 {n : Nat} (h : n < UInt64.size) : n.toUInt64.toNat = n :=
  UInt64.toNat_ofNat_of_lt' h

theorem toUInt64_extend (n : Nat) (b : UInt8) :
    (n * 256 + b.toNat).toUInt64 = n.toUInt64 * 256 + b.toUInt64 := by
  apply UInt64.toNat_inj.1
  simp [Nat.toUInt64]

/-! ## Significant bytes -/

/-- The significant bytes of a number are the bytes that have its value and, if there are several,
do not start with zero. -/
theorem significant_extend {lead : UInt8} {tail : List UInt8} (h : lead ≠ 0 ∨ tail = []) :
    significant (extend lead.toNat tail) = lead :: tail := by
  induction tail using List.reverseRecOn with
  | nil =>
    rw [significant, if_pos (show extend lead.toNat [] < 256 from lead.toNat_lt)]
    simp [extend, Nat.toUInt8]
  | append_singleton tail b ih =>
    have hlead : lead ≠ 0 := h.resolve_right (by simp)
    have hpos : 0 < lead.toNat := Nat.pos_of_ne_zero fun h0 => hlead (UInt8.toNat_inj.1 h0)
    have hge : 1 ≤ extend lead.toNat tail :=
      (Nat.mul_pos hpos (Nat.pow_pos (by decide))).trans_le (le_extend lead.toNat tail)
    have hb : b.toNat < 256 := b.toNat_lt
    rw [extend_append_singleton, significant, if_neg (by omega),
      show (extend lead.toNat tail * 256 + b.toNat) / 256 = extend lead.toNat tail by omega,
      show (extend lead.toNat tail * 256 + b.toNat) % 256 = b.toNat by omega, ih (.inl hlead)]
    simp [Nat.toUInt8]

/-- The significant bytes of a number have its value, and a leading zero stands alone. -/
theorem exists_significant (n : Nat) :
    ∃ lead tail, significant n = lead :: tail ∧ extend lead.toNat tail = n ∧
      (lead ≠ 0 ∨ tail = []) := by
  induction n using significant.induct with
  | case1 n h =>
    refine ⟨n.toUInt8, [], by rw [significant, if_pos h], ?_, .inr rfl⟩
    exact UInt8.toNat_ofNat_of_lt' h
  | case2 n h ih =>
    obtain ⟨lead, tail, hs, hv, hne⟩ := ih
    refine ⟨lead, tail ++ [(n % 256).toUInt8], by rw [significant, if_neg h, hs]; rfl, ?_, ?_⟩
    · have hb : (n % 256).toUInt8.toNat = n % 256 :=
        UInt8.toNat_ofNat_of_lt' (Nat.mod_lt n (by decide))
      rw [extend_append_singleton, hv, hb]
      omega
    · rcases hne with hne | rfl
      · exact .inl hne
      · refine .inl ?_
        rintro rfl
        rw [extend, List.foldl_nil] at hv
        have : (0 : UInt8).toNat = 0 := rfl
        omega

theorem significant_zero : significant 0 = [0] := by
  decide +kernel

theorem extend_of_significant {n : Nat} {lead : UInt8} {tail : List UInt8}
    (h : significant n = lead :: tail) : extend lead.toNat tail = n ∧ (lead ≠ 0 ∨ tail = []) := by
  obtain ⟨lead', tail', hs, hv, hne⟩ := exists_significant n
  rw [h] at hs
  cases hs
  exact ⟨hv, hne⟩

/-- A number has as many places as its significant bytes, unless it is zero. -/
theorem pow_le_of_significant {n : Nat} {lead : UInt8} {tail : List UInt8}
    (h : significant n = lead :: tail) (hn : n ≠ 0) : 256 ^ tail.length ≤ n := by
  obtain ⟨rfl, hne⟩ := extend_of_significant h
  have hle := le_extend lead.toNat tail
  have hpos : 1 ≤ lead.toNat := by
    refine Nat.pos_of_ne_zero fun hzero => ?_
    rcases hne with hne | rfl
    · exact hne (UInt8.toNat_inj.1 hzero)
    · exact hn hzero
  exact (Nat.le_mul_of_pos_left _ hpos).trans hle

/-- Behind the first there are at most seven significant bytes. -/
theorem length_tail_le {n : UInt64} {lead : UInt8} {tail : List UInt8}
    (h : significant n.toNat = lead :: tail) : tail.length ≤ 7 := by
  by_contra h8
  have hpow : 256 ^ 8 ≤ 256 ^ tail.length := Nat.pow_le_pow_right (by decide) (by omega)
  have hlt := n.toNat_lt
  by_cases hn : n.toNat = 0
  · rw [hn, significant_zero] at h
    cases h
    exact h8 (Nat.zero_le 7)
  · have hle := pow_le_of_significant h hn
    omega

/-! ## The shape of written forms -/

/-- The number of bytes that `k` escape bytes and the byte `b` behind them announce. -/
def announced (k : Nat) (b : UInt8) : Nat :=
  if b = 0 then k - 1 else k

/-- The first byte of the number, if the byte `b` ends a run of escape bytes. -/
def leadOf (b : UInt8) : UInt8 :=
  if b = 0 then escape else b

theorem leadOf_ne_zero (b : UInt8) : leadOf b ≠ 0 := by
  unfold leadOf
  split
  · decide
  · assumption

theorem encodeBytes_leadOf {k : Nat} {b : UInt8} {tail : List UInt8} (hk : 1 ≤ k)
    (hb : b ≠ escape) (hl : tail.length = announced k b) :
    encodeBytes (leadOf b :: tail) = List.replicate k escape ++ b :: tail := by
  rw [encodeBytes, hl]
  by_cases h : b = 0
  · obtain ⟨j, rfl⟩ : ∃ j, k = j + 1 := ⟨k - 1, by omega⟩
    simp [announced, leadOf, h, List.replicate_succ']
  · simp [announced, leadOf, h, hb]

/-- An escape run with the bytes that it announces is the written form of their value. -/
theorem encode_extend {k : Nat} {b : UInt8} {tail : List UInt8} (hk : 1 ≤ k) (hb : b ≠ escape)
    (hl : tail.length = announced k b) (h7 : announced k b ≤ 7) :
    encode (extend (leadOf b).toNat tail).toUInt64 = List.replicate k escape ++ b :: tail := by
  rw [encode, toNat_toUInt64 (extend_lt_size (hl.trans_le h7)),
    significant_extend (.inl (leadOf_ne_zero b)), encodeBytes_leadOf hk hb hl]

theorem encode_toUInt64 {b : UInt8} (hb : b ≠ escape) : encode b.toUInt64 = [b] := by
  have hs : significant b.toNat = [b] := by
    rw [significant, if_pos b.toNat_lt]
    simp [Nat.toUInt8]
  rw [encode, UInt8.toNat_toUInt64, hs]
  simp [encodeBytes, hb]

/-- Every number is a byte below the escape byte or the value of an escape run. -/
theorem eq_toUInt64_or_extend (n : UInt64) :
    (∃ b, b ≠ escape ∧ n = b.toUInt64) ∨
      ∃ k b tail, 1 ≤ k ∧ b ≠ escape ∧ tail.length = announced k b ∧ announced k b ≤ 7 ∧
        n = (extend (leadOf b).toNat tail).toUInt64 := by
  obtain ⟨lead, tail, hs, hv, hne⟩ := exists_significant n.toNat
  have hn : n = (extend lead.toNat tail).toUInt64 := by
    apply UInt64.toNat_inj.1
    rw [hv, toNat_toUInt64 n.toNat_lt]
  have h7 : tail.length ≤ 7 := length_tail_le hs
  by_cases he : lead = escape
  · refine .inr ⟨tail.length + 1, 0, tail, by omega, by decide, ?_, ?_, ?_⟩
    · simp [announced]
    · simpa [announced] using h7
    · simpa [leadOf, ← he] using hn
  · by_cases ht : tail = []
    · subst ht
      exact .inl ⟨lead, he, hn.trans (by simp [extend, Nat.toUInt64])⟩
    · have h0 : lead ≠ 0 := hne.resolve_right ht
      refine .inr ⟨tail.length, lead, tail, List.length_pos_iff.2 ht, he, ?_, ?_, ?_⟩
      · simp [announced, h0]
      · simpa [announced, h0] using h7
      · simpa [leadOf, h0] using hn

/-! ## Reading -/

/-- A byte string is a run of escape bytes, or goes on with another byte behind the run. -/
theorem escapes_cases (bytes : List UInt8) :
    ∃ k, bytes = List.replicate k escape ∨
      ∃ b rest, b ≠ escape ∧ bytes = List.replicate k escape ++ b :: rest := by
  induction bytes with
  | nil => exact ⟨0, .inl rfl⟩
  | cons c bytes ih =>
    by_cases hc : c = escape
    · subst hc
      obtain ⟨k, rfl | ⟨b, rest, hb, rfl⟩⟩ := ih
      · exact ⟨k + 1, .inl rfl⟩
      · exact ⟨k + 1, .inr ⟨b, rest, hb, rfl⟩⟩
    · exact ⟨0, .inr ⟨c, bytes, hc, rfl⟩⟩

theorem readLead_escapes (trailing offset k : Nat) (bytes : List UInt8) :
    readLead trailing offset (List.replicate k escape ++ bytes) =
      readLead (trailing + k) (offset + k) bytes := by
  induction k generalizing trailing offset with
  | zero => rfl
  | succ k ih =>
    rw [List.replicate_succ, List.cons_append, readLead, if_pos rfl, ih,
      show trailing + 1 + k = trailing + (k + 1) by omega,
      show offset + 1 + k = offset + (k + 1) by omega]

theorem readTail_append (offset n : Nat) (tail rest : List UInt8) :
    (readTail tail.length n.toUInt64).run ⟨offset, tail ++ rest⟩ =
      .ok ((extend n tail).toUInt64, ⟨offset + tail.length, rest⟩) := by
  induction tail generalizing offset n with
  | nil => rfl
  | cons b tail ih =>
    have hb : Decoder.byte.run ⟨offset, b :: tail ++ rest⟩ = .ok (b, ⟨offset + 1, tail ++ rest⟩) :=
      rfl
    rw [List.length_cons, readTail, Decoder.run_bind_of_ok hb, ← toUInt64_extend, ih,
      show offset + 1 + tail.length = offset + (tail.length + 1) by omega]
    rfl

theorem readTail_of_length_lt {count : Nat} {bytes : List UInt8} (h : bytes.length < count)
    (offset : Nat) (value : UInt64) :
    (readTail count value).run ⟨offset, bytes⟩ = .error (.truncated .endOfInput) := by
  induction count generalizing offset value bytes with
  | zero => omega
  | succ count ih =>
    cases bytes with
    | nil => exact Decoder.run_bind_of_error (e := .truncated .endOfInput) rfl
    | cons b bytes =>
      rw [List.length_cons] at h
      have hb : Decoder.byte.run ⟨offset, b :: bytes⟩ = .ok (b, ⟨offset + 1, bytes⟩) := rfl
      rw [readTail, Decoder.run_bind_of_ok hb]
      exact ih (by omega) _ _

theorem read_escapes (offset k : Nat) :
    read.run ⟨offset, List.replicate k escape⟩ = .error (.truncated .endOfInput) := by
  cases k with
  | zero => rfl
  | succ k =>
    have hl := readLead_escapes 1 (offset + 1) k []
    rw [List.append_nil] at hl
    have hb : Decoder.byte.run ⟨offset, List.replicate (k + 1) escape⟩ =
      .ok (escape, ⟨offset + 1, List.replicate k escape⟩) := rfl
    rw [read, Decoder.run_bind_of_ok hb, if_pos rfl, readWide]
    exact Decoder.run_bind_of_error hl

/-- Behind a run of escape bytes, the announced bytes are read, if 64 bits hold them. -/
theorem read_escapes_append {k : Nat} {b : UInt8} (hk : 1 ≤ k) (hb : b ≠ escape) (offset : Nat)
    (bytes : List UInt8) :
    read.run ⟨offset, List.replicate k escape ++ b :: bytes⟩ =
      if 7 < announced k b then .error (.corrupt (.numberTooWide (announced k b)))
      else (readTail (announced k b) (leadOf b).toUInt64).run ⟨offset + k + 1, bytes⟩ := by
  obtain ⟨k, rfl⟩ : ∃ j, k = j + 1 := ⟨k - 1, by omega⟩
  have hl : StateT.run (fun i => readLead 1 i.offset i.bytes : Decoder (Nat × UInt8))
      ⟨offset + 1, List.replicate k escape ++ b :: bytes⟩ =
      .ok ((announced (k + 1) b, leadOf b), ⟨offset + (k + 1) + 1, bytes⟩) := by
    show readLead 1 (offset + 1) (List.replicate k escape ++ b :: bytes) = _
    rw [readLead_escapes, readLead, if_neg hb, announced, leadOf]
    split <;> simp <;> omega
  have hf : Decoder.byte.run ⟨offset, List.replicate (k + 1) escape ++ b :: bytes⟩ =
      .ok (escape, ⟨offset + 1, List.replicate k escape ++ b :: bytes⟩) := rfl
  rw [read, Decoder.run_bind_of_ok hf, if_pos rfl, readWide]
  refine (Decoder.run_bind_of_ok hl).trans ?_
  by_cases h7 : 7 < announced (k + 1) b
  · simp only [if_pos h7]
    rfl
  · simp only [if_neg h7]

theorem read_cons_of_ne {b : UInt8} (hb : b ≠ escape) (offset : Nat) (bytes : List UInt8) :
    read.run ⟨offset, b :: bytes⟩ = .ok (b.toUInt64, ⟨offset + 1, bytes⟩) := by
  have hf : Decoder.byte.run ⟨offset, b :: bytes⟩ = .ok (b, ⟨offset + 1, bytes⟩) := rfl
  rw [read, Decoder.run_bind_of_ok hf, if_neg hb]
  rfl

/-! ## Reading and writing -/

theorem read_encode_append (offset : Nat) (n : UInt64) (rest : List UInt8) :
    read.run ⟨offset, encode n ++ rest⟩ = .ok (n, ⟨offset + (encode n).length, rest⟩) := by
  rcases eq_toUInt64_or_extend n with ⟨b, hb, rfl⟩ | ⟨k, b, tail, hk, hb, hl, h7, rfl⟩
  · rw [encode_toUInt64 hb]
    exact read_cons_of_ne hb offset rest
  · rw [encode_extend hk hb hl h7, List.append_assoc, List.cons_append,
      read_escapes_append hk hb, if_neg (by omega), ← hl,
      show (leadOf b).toUInt64 = (leadOf b).toNat.toUInt64 by simp [Nat.toUInt64],
      readTail_append]
    simp only [List.length_append, List.length_replicate, List.length_cons]
    rw [show offset + (k + (tail.length + 1)) = offset + k + 1 + tail.length by omega]

/-- A part of a written number is too short. -/
theorem read_part {n : UInt64} {part : List UInt8} (hp : part <+: encode n) (hne : part ≠ encode n)
    (offset : Nat) : read.run ⟨offset, part⟩ = .error (.truncated .endOfInput) := by
  rcases eq_toUInt64_or_extend n with ⟨b, hb, rfl⟩ | ⟨k, b, tail, hk, hb, hl, h7, rfl⟩
  · rw [encode_toUInt64 hb] at hp hne
    obtain rfl : part = [] := (List.prefix_cons_iff.1 hp).resolve_right (by simpa using hne)
    rfl
  · rw [encode_extend hk hb hl h7] at hp hne
    rcases Decoder.part_of_append hp hne with ⟨hp, -⟩ | ⟨part, rfl, hp, hne⟩
    · obtain ⟨-, he⟩ := List.prefix_replicate_iff.1 hp
      rw [he]
      exact read_escapes offset part.length
    · rcases List.prefix_cons_iff.1 hp with rfl | ⟨part, rfl, hpt⟩
      · rw [List.append_nil]
        exact read_escapes offset k
      · rw [read_escapes_append hk hb, if_neg (by omega)]
        have hlt : part.length < tail.length :=
          lt_of_le_of_ne hpt.length_le fun h => hne (by rw [hpt.eq_of_length h])
        exact readTail_of_length_lt (hl ▸ hlt) _ _

/-- What reading does: it finds too few bytes, a written number, or an escape run that announces more
bytes than 64 bits hold. -/
theorem read_cases (offset : Nat) (bytes : List UInt8) :
    read.run ⟨offset, bytes⟩ = .error (.truncated .endOfInput) ∨
      (∃ n rest, bytes = encode n ++ rest) ∨
      ∃ k b rest, 1 ≤ k ∧ b ≠ escape ∧ bytes = List.replicate k escape ++ b :: rest ∧
        7 < announced k b := by
  obtain ⟨k, rfl | ⟨b, rest, hb, rfl⟩⟩ := escapes_cases bytes
  · exact .inl (read_escapes offset k)
  · rcases Nat.eq_zero_or_pos k with rfl | hk
    · exact .inr (.inl ⟨b.toUInt64, rest, by rw [encode_toUInt64 hb]; rfl⟩)
    · by_cases h7 : 7 < announced k b
      · exact .inr (.inr ⟨k, b, rest, hk, hb, rfl, h7⟩)
      · by_cases hlt : rest.length < announced k b
        · refine .inl ?_
          rw [read_escapes_append hk hb, if_neg h7, readTail_of_length_lt hlt]
        · obtain ⟨tail, rest, hl, rfl⟩ :
              ∃ tail rest', tail.length = announced k b ∧ rest = tail ++ rest' :=
            ⟨rest.take (announced k b), rest.drop (announced k b), by simp; omega, by simp⟩
          refine .inr (.inl ⟨(extend (leadOf b).toNat tail).toUInt64, rest, ?_⟩)
          rw [encode_extend hk hb hl (by omega), List.append_assoc, List.cons_append]

theorem reads_encode (n : UInt64) : read.Reads (encode n) n := fun offset _ =>
  { whole := read_encode_append offset n
    cut := fun _ hp hne => ⟨.endOfInput, read_part hp hne offset⟩ }

theorem read_eq_ok_iff {offset offset' : Nat} {bytes rest : List UInt8} {n : UInt64} :
    read.run ⟨offset, bytes⟩ = .ok (n, ⟨offset', rest⟩) ↔
      bytes = encode n ++ rest ∧ offset' = offset + (encode n).length := by
  constructor
  · intro h
    rcases read_cases offset bytes with he | ⟨m, rest', rfl⟩ | ⟨k, b, rest', hk, hb, rfl, h7⟩
    · rw [he] at h
      cases h
    · rw [read_encode_append] at h
      cases h
      exact ⟨rfl, rfl⟩
    · rw [read_escapes_append hk hb, if_pos h7] at h
      cases h
  · rintro ⟨rfl, rfl⟩
    exact read_encode_append offset n rest

theorem encode_prefix_iff {m n : UInt64} : encode m <+: encode n ↔ m = n := by
  constructor
  · rintro ⟨rest, h⟩
    have hm := read_encode_append 0 m rest
    have hn := read_encode_append 0 n []
    rw [List.append_nil, ← h, hm] at hn
    injection hn with hn
    exact congrArg Prod.fst hn
  · rintro rfl
    exact List.prefix_rfl

theorem repeated_read_flatMap (offset : Nat) (ns : List UInt64) (rest : List UInt8) :
    (Decoder.repeated read ns.length).run ⟨offset, ns.flatMap encode ++ rest⟩ =
      .ok (ns, ⟨offset + (ns.flatMap encode).length, rest⟩) := by
  induction ns generalizing offset with
  | nil => rfl
  | cons n ns ih =>
    rw [List.flatMap_cons, List.append_assoc, List.length_cons, Decoder.repeated,
      Decoder.run_bind_of_ok (read_encode_append offset n (ns.flatMap encode ++ rest)),
      Decoder.run_bind_of_ok (ih _), List.length_append, ← Nat.add_assoc]
    rfl

/-- A number is malformed exactly if an escape run announces more bytes than 64 bits hold, however
many bytes follow. -/
theorem read_eq_corrupt_iff {offset : Nat} {bytes : List UInt8} {cause : Corruption} :
    read.run ⟨offset, bytes⟩ = .error (.corrupt cause) ↔
      ∃ k b rest, 1 ≤ k ∧ b ≠ escape ∧ bytes = List.replicate k escape ++ b :: rest ∧
        7 < announced k b ∧ cause = .numberTooWide (announced k b) := by
  constructor
  · intro h
    rcases read_cases offset bytes with he | ⟨m, rest, rfl⟩ | ⟨k, b, rest, hk, hb, rfl, h7⟩
    · rw [he] at h
      cases h
    · rw [read_encode_append] at h
      cases h
    · rw [read_escapes_append hk hb, if_pos h7] at h
      cases h
      exact ⟨k, b, rest, hk, hb, rfl, h7, rfl⟩
  · rintro ⟨k, b, rest, hk, hb, rfl, h7, rfl⟩
    rw [read_escapes_append hk hb, if_pos h7]

/-- The written forms of numbers are a canonical prefix code: reading accepts a number's written
form and nothing else as the number, no form starts with another, a sequence of forms is read as the
sequence of numbers, a part of a form is too short, and only an escape run that announces more than
seven bytes is malformed. -/
theorem canonical_prefix_code :
    (∀ (offset offset' : Nat) (bytes rest : List UInt8) (n : UInt64),
      read.run ⟨offset, bytes⟩ = .ok (n, ⟨offset', rest⟩) ↔
        bytes = encode n ++ rest ∧ offset' = offset + (encode n).length) ∧
    (∀ m n : UInt64, encode m <+: encode n ↔ m = n) ∧
    (∀ (offset : Nat) (ns : List UInt64) (rest : List UInt8),
      (Decoder.repeated read ns.length).run ⟨offset, ns.flatMap encode ++ rest⟩ =
        .ok (ns, ⟨offset + (ns.flatMap encode).length, rest⟩)) ∧
    (∀ (offset : Nat) (n : UInt64) (part : List UInt8), part <+: encode n → part ≠ encode n →
      read.run ⟨offset, part⟩ = .error (.truncated .endOfInput)) ∧
    (∀ (offset : Nat) (bytes : List UInt8) (cause : Corruption),
      read.run ⟨offset, bytes⟩ = .error (.corrupt cause) ↔
        ∃ k b rest, 1 ≤ k ∧ b ≠ escape ∧ bytes = List.replicate k escape ++ b :: rest ∧
          7 < announced k b ∧ cause = .numberTooWide (announced k b)) :=
  ⟨fun _ _ _ _ _ => read_eq_ok_iff, fun _ _ => encode_prefix_iff, repeated_read_flatMap,
    fun offset _ _ hp hne => read_part hp hne offset, fun _ _ _ => read_eq_corrupt_iff⟩

/-- The number 0xFF00 with its last byte cut off. -/
theorem canonical_prefix_code_cut :
    [0xFF, 0xFF, 0x00] <+: encode 0xFF00 ∧ [0xFF, 0xFF, 0x00] ≠ encode 0xFF00 ∧
      read.run ⟨0, [0xFF, 0xFF, 0x00]⟩ = .error (.truncated .endOfInput) := by
  have he : encode 0xFF00 = [0xFF, 0xFF, 0x00, 0x00] := by decide +kernel
  have hp : [0xFF, 0xFF, 0x00] <+: encode 0xFF00 := by rw [he]; decide
  have hne : [0xFF, 0xFF, 0x00] ≠ encode 0xFF00 := by rw [he]; decide
  exact ⟨hp, hne, canonical_prefix_code.2.2.2.1 0 0xFF00 _ hp hne⟩

end PackageIndex.Number
