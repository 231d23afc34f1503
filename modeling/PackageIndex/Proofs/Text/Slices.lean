import PackageIndex.Text.Utf8

/-!
# Slices of texts

The bytes of a text can be cut between two of its characters, not within one. An index into the bytes
that was reached character by character lies between two (`At`), and the part that was passed is a
slice (`At.append`). The byte there tells whether an ASCII character comes next, and which.
-/

namespace PackageIndex.Utf8

/-- Whether an index into the bytes of a text lies between two characters. -/
def isBoundary (bytes : List UInt8) (i : Nat) : Bool :=
  match bytes[i]? with
  | some b => i == 0 || !isContinuation b
  | none => i == bytes.length

/-- The bytes between two indices, if both lie between characters. -/
def slice? (bytes : List UInt8) (start stop : Nat) : Option (List UInt8) :=
  if start ≤ stop && isBoundary bytes start && isBoundary bytes stop then
    some ((bytes.drop start).take (stop - start))
  else none

/-- A byte that continues no sequence lies behind a boundary. -/
theorem isBoundary_of_getElem? {bytes : List UInt8} {i : Nat} {b : UInt8} (hb : bytes[i]? = some b)
    (hrange : b.toNat < 0x80 ∨ 0xBF < b.toNat) : isBoundary bytes i = true := by
  have hlead : isContinuation b = false := by
    refine Bool.eq_false_iff.2 fun hcont => ?_
    obtain ⟨hlow, hhigh⟩ := Bool.and_eq_true_iff.1 hcont
    have hlow : 0x80 ≤ b.toNat := UInt8.le_iff_toNat_le.1 (of_decide_eq_true hlow)
    have hhigh : b.toNat ≤ 0xBF := UInt8.le_iff_toNat_le.1 (of_decide_eq_true hhigh)
    omega
  unfold isBoundary
  rw [hb]
  dsimp only
  rw [hlead]
  exact Bool.or_true _

/-- The text goes on with the given characters from an index of its bytes on. -/
def At (bytes : List UInt8) (pos : Nat) (cs : List Char) : Prop :=
  pos ≤ bytes.length ∧ bytes.drop pos = cs.flatMap encodeChar

theorem at_zero (s : String) : At (encode s) 0 s.toList :=
  ⟨Nat.zero_le _, rfl⟩

theorem encodeChar_of_lt {c : Char} (h : c.toNat < 0x80) : encodeChar c = [c.toNat.toUInt8] :=
  if_pos h

/-- The first byte of a character that is not ASCII continues nothing. -/
theorem exists_encodeChar_of_le {c : Char} (h : 0x80 ≤ c.toNat) :
    ∃ b bs, encodeChar c = b :: bs ∧ 0xC0 ≤ b.toNat := by
  have hr := toNat_ranges c
  unfold encodeChar
  dsimp only
  rw [if_neg (Nat.not_lt.2 h)]
  split
  next h2 =>
    refine ⟨_, _, rfl, ?_⟩
    rw [toNat_toUInt8 (by omega)]
    omega
  next h2 =>
    split
    next h3 =>
      refine ⟨_, _, rfl, ?_⟩
      rw [toNat_toUInt8 (by omega)]
      omega
    next h3 =>
      refine ⟨_, _, rfl, ?_⟩
      rw [toNat_toUInt8 (by omega)]
      omega

/-- No byte of a character that is not ASCII is one of an ASCII character. -/
theorem le_of_mem_encodeChar {c : Char} (hc : 0x80 ≤ c.toNat) {b : UInt8} (hb : b ∈ encodeChar c) :
    0x80 ≤ b.toNat := by
  have hr := toNat_ranges c
  have hbyte : ∀ {k : Nat}, 0x80 ≤ k → k < 0x100 → 0x80 ≤ k.toUInt8.toNat := by
    intro k hlow hhigh
    rwa [toNat_toUInt8 hhigh]
  unfold encodeChar at hb
  dsimp only at hb
  rw [if_neg (Nat.not_lt.2 hc)] at hb
  split at hb
  next h2 =>
    simp only [List.mem_cons, List.not_mem_nil, or_false] at hb
    rcases hb with rfl | rfl
    all_goals exact hbyte (by omega) (by omega)
  next h2 =>
    split at hb
    next h3 =>
      simp only [List.mem_cons, List.not_mem_nil, or_false] at hb
      rcases hb with rfl | rfl | rfl
      all_goals exact hbyte (by omega) (by omega)
    next h3 =>
      simp only [List.mem_cons, List.not_mem_nil, or_false] at hb
      rcases hb with rfl | rfl | rfl | rfl
      all_goals exact hbyte (by omega) (by omega)

/-- A text of ASCII characters. -/
def IsAscii (cs : List Char) : Prop :=
  cs.all (fun c => c.toNat < 0x80) = true

instance (cs : List Char) : Decidable (IsAscii cs) :=
  inferInstanceAs (Decidable (_ = true))

theorem isAscii_iff {cs : List Char} : IsAscii cs ↔ ∀ c ∈ cs, c.toNat < 0x80 := by
  simp only [IsAscii, List.all_eq_true, decide_eq_true_eq]

theorem isAscii_cons {c : Char} {cs : List Char} :
    IsAscii (c :: cs) ↔ c.toNat < 0x80 ∧ IsAscii cs := by
  rw [isAscii_iff, isAscii_iff, List.forall_mem_cons]

theorem length_flatMap_encodeChar {cs : List Char} (h : IsAscii cs) :
    (cs.flatMap encodeChar).length = cs.length := by
  induction cs with
  | nil => rfl
  | cons c cs ih =>
    obtain ⟨hc, hcs⟩ := isAscii_cons.1 h
    rw [List.flatMap_cons, encodeChar_of_lt hc, List.length_append, ih hcs]
    exact Nat.add_comm _ _

namespace At

variable {bytes : List UInt8} {pos : Nat} {cs : List Char}

/-- What the byte at the index tells of the characters from there on. -/
theorem getElem?_cases (h : At bytes pos cs) :
    (cs = [] ∧ bytes[pos]? = none) ∨
      (∃ c rest, cs = c :: rest ∧ c.toNat < 0x80 ∧ bytes[pos]? = some c.toNat.toUInt8) ∨
      ∃ c rest b, cs = c :: rest ∧ 0x80 ≤ c.toNat ∧ bytes[pos]? = some b ∧ 0xC0 ≤ b.toNat := by
  have hhead : bytes[pos]? = (cs.flatMap encodeChar).head? := by
    rw [← h.2, List.head?_drop]
  cases cs with
  | nil => exact .inl ⟨rfl, hhead⟩
  | cons c rest =>
    by_cases hc : c.toNat < 0x80
    · rw [List.flatMap_cons, encodeChar_of_lt hc] at hhead
      exact .inr (.inl ⟨c, rest, rfl, hc, hhead⟩)
    · have hge := Nat.not_lt.1 hc
      obtain ⟨b, bs, he, hb⟩ := exists_encodeChar_of_le hge
      rw [List.flatMap_cons, he] at hhead
      exact .inr (.inr ⟨c, rest, b, rfl, hge, hhead, hb⟩)

theorem isBoundary (h : At bytes pos cs) : isBoundary bytes pos = true := by
  rcases h.getElem?_cases with ⟨rfl, hb⟩ | ⟨c, rest, rfl, hc, hb⟩ | ⟨c, rest, b, rfl, hc, hb, hge⟩
  · have hlength := List.getElem?_eq_none_iff.1 hb
    unfold Utf8.isBoundary
    rw [hb]
    exact beq_iff_eq.2 (Nat.le_antisymm h.1 hlength)
  · exact isBoundary_of_getElem? hb (.inl (by rwa [toNat_toUInt8 (by omega)]))
  · exact isBoundary_of_getElem? hb (.inr (by omega))

/-- From the beginning of a part to its end, there is a slice, which is the part. -/
theorem append {part : List Char} (h : At bytes pos (part ++ cs)) :
    At bytes (pos + (part.flatMap encodeChar).length) cs ∧
      slice? bytes pos (pos + (part.flatMap encodeChar).length) =
        some (part.flatMap encodeChar) := by
  obtain ⟨hle, hdrop⟩ := h
  rw [List.flatMap_append] at hdrop
  have hlength := congrArg List.length hdrop
  rw [List.length_drop, List.length_append] at hlength
  have hat : At bytes (pos + (part.flatMap encodeChar).length) cs := by
    refine ⟨by omega, ?_⟩
    rw [← List.drop_drop, hdrop, List.drop_left]
  refine ⟨hat, ?_⟩
  unfold slice?
  have hpos : At bytes pos (part ++ cs) := ⟨hle, hdrop.trans List.flatMap_append.symm⟩
  rw [hpos.isBoundary, hat.isBoundary, decide_eq_true (Nat.le_add_right _ _), hdrop,
    Nat.add_sub_cancel_left, List.take_left]
  rfl

theorem next {c : Char} (h : At bytes pos (c :: cs)) (hc : c.toNat < 0x80) :
    At bytes (pos + 1) cs := by
  have hlength : ([c].flatMap encodeChar).length = 1 :=
    length_flatMap_encodeChar (isAscii_cons.2 ⟨hc, rfl⟩)
  have hsingle : At bytes pos ([c] ++ cs) := h
  have hnext := hsingle.append.1
  rwa [hlength] at hnext

theorem eq_length_iff (h : At bytes pos cs) : pos = bytes.length ↔ cs = [] := by
  rcases h.getElem?_cases with ⟨rfl, hb⟩ | ⟨c, rest, rfl, -, hb⟩ | ⟨c, rest, b, rfl, -, hb, -⟩
  · have hlength := List.getElem?_eq_none_iff.1 hb
    exact iff_of_true (Nat.le_antisymm h.1 hlength) rfl
  · have hlt := (List.getElem?_eq_some_iff.1 hb).1
    exact iff_of_false (Nat.ne_of_lt hlt) (List.cons_ne_nil _ _)
  · have hlt := (List.getElem?_eq_some_iff.1 hb).1
    exact iff_of_false (Nat.ne_of_lt hlt) (List.cons_ne_nil _ _)

/-- From the index on there is a slice up to the end. -/
theorem slice?_length (h : At bytes pos cs) :
    slice? bytes pos bytes.length = some (cs.flatMap encodeChar) := by
  have hall : At bytes pos (cs ++ []) := by rwa [List.append_nil]
  have hend := hall.append.2
  have hlength := congrArg List.length h.2
  rw [List.length_drop] at hlength
  rwa [show pos + (cs.flatMap encodeChar).length = bytes.length by have := h.1; omega] at hend

/-- An ASCII character comes next if its byte does. -/
theorem getElem?_eq_some_iff (h : At bytes pos cs) {a : Char} (ha : a.toNat < 0x80) :
    bytes[pos]? = some a.toNat.toUInt8 ↔ ∃ rest, cs = a :: rest := by
  have hbyte : ∀ {n : Nat}, n < 0x80 → n.toUInt8.toNat = n := fun hn => toNat_toUInt8 (by omega)
  constructor
  · intro hb
    rcases h.getElem?_cases with ⟨-, hb'⟩ | ⟨c, rest, rfl, hc, hb'⟩ | ⟨c, rest, b, rfl, hc, hb', hge⟩
    · rw [hb'] at hb
      cases hb
    · rw [hb', Option.some_inj] at hb
      have hn := congrArg UInt8.toNat hb
      rw [hbyte hc, hbyte ha] at hn
      exact ⟨rest, by rw [Char.toNat_inj.1 hn]⟩
    · rw [hb', Option.some_inj] at hb
      rw [hb, hbyte ha] at hge
      omega
  · rintro ⟨rest, rfl⟩
    rcases h.getElem?_cases with ⟨hcs, -⟩ | ⟨c, rest', hcs, -, hb⟩ | ⟨c, rest', b, hcs, hc, -⟩
    · cases hcs
    · cases hcs
      exact hb
    · cases hcs
      omega

end At

/-- A byte of an ASCII character stands behind some characters of the text. -/
theorem exists_of_getElem?_flatMap {cs : List Char} {i : Nat} {b : UInt8}
    (h : (cs.flatMap encodeChar)[i]? = some b) (hb : b.toNat < 0x80) :
    ∃ before rest, cs = before ++ rest ∧ i = (before.flatMap encodeChar).length := by
  induction cs generalizing i with
  | nil => cases h
  | cons c cs ih =>
    rw [List.flatMap_cons] at h
    by_cases hi : i < (encodeChar c).length
    · rw [List.getElem?_append_left hi] at h
      by_cases hc : c.toNat < 0x80
      · rw [encodeChar_of_lt hc, List.length_singleton] at hi
        exact ⟨[], c :: cs, rfl, by simpa using hi⟩
      · have hle := le_of_mem_encodeChar (Nat.not_lt.1 hc) (List.mem_of_getElem? h)
        omega
    · rw [List.getElem?_append_right (Nat.not_lt.1 hi)] at h
      obtain ⟨before, rest, rfl, hlength⟩ := ih h
      refine ⟨c :: before, rest, rfl, ?_⟩
      rw [List.flatMap_cons, List.length_append]
      omega

/-- Behind some characters of a text, the others follow. -/
theorem at_append (before rest : List Char) :
    At ((before ++ rest).flatMap encodeChar) (before.flatMap encodeChar).length rest := by
  have hstart : At ((before ++ rest).flatMap encodeChar) 0 (before ++ rest) := ⟨Nat.zero_le _, rfl⟩
  have hnext := hstart.append.1
  rwa [Nat.zero_add] at hnext

/-- The byte of an ASCII character starts the bytes of no other character. -/
theorem isPrefixOf_cons_encodeChar {a c : Char} (ha : a.toNat < 0x80) (bytes rest : List UInt8) :
    (a.toNat.toUInt8 :: bytes).isPrefixOf (encodeChar c ++ rest) =
      (a == c && bytes.isPrefixOf rest) := by
  have hbyte : a.toNat.toUInt8.toNat = a.toNat := toNat_toUInt8 (by omega)
  by_cases hc : c.toNat < 0x80
  · have hbyte' : c.toNat.toUInt8.toNat = c.toNat := toNat_toUInt8 (by omega)
    have hbeq : (a.toNat.toUInt8 == c.toNat.toUInt8) = (a == c) := by
      rw [Bool.eq_iff_iff, beq_iff_eq, beq_iff_eq, ← UInt8.toNat_inj, hbyte, hbyte', Char.toNat_inj]
    rw [encodeChar_of_lt hc, List.singleton_append, List.isPrefixOf_cons_cons, hbeq]
  · obtain ⟨b, bs, he, hb⟩ := exists_encodeChar_of_le (Nat.not_lt.1 hc)
    have hbyte_ne : (a.toNat.toUInt8 == b) = false := by
      refine beq_eq_false_iff_ne.2 fun heq => ?_
      rw [← heq, hbyte] at hb
      omega
    have hchar_ne : (a == c) = false := by
      refine beq_eq_false_iff_ne.2 fun heq => hc ?_
      rwa [← heq]
    rw [he, List.cons_append, List.isPrefixOf_cons_cons, hbyte_ne, hchar_ne, Bool.false_and,
      Bool.false_and]

/-- An ASCII word starts a text if its bytes start those of the text. -/
theorem isPrefixOf_flatMap_encodeChar {word cs : List Char} (hw : IsAscii word) :
    (word.flatMap encodeChar).isPrefixOf (cs.flatMap encodeChar) = word.isPrefixOf cs := by
  induction word generalizing cs with
  | nil => rfl
  | cons a word ih =>
    obtain ⟨ha, hw⟩ := isAscii_cons.1 hw
    rw [List.flatMap_cons, encodeChar_of_lt ha, List.singleton_append]
    cases cs with
    | nil => rfl
    | cons c cs => rw [List.flatMap_cons, isPrefixOf_cons_encodeChar ha, ih hw,
        List.isPrefixOf_cons_cons]

end PackageIndex.Utf8
