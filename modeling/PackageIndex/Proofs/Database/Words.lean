import PackageIndex.Proofs.Database.Cursor

/-!
# Counting with words

The counters of the reader are words of 64 bits: the escape bytes of a number, the offset at which a
record ends, the categories and packages that a cursor has left. Here each of them is counted with
words, and a sum or difference that is no word stops the reader without an answer (`none`). On a
database whose offsets are words this never happens, and the answers are those of the reader that
counts without bounds.
-/

namespace PackageIndex

/-! ## Sums and differences -/

namespace Word

/-- The sum of two words, unless it is too high. -/
def add? (a b : UInt64) : Option UInt64 :=
  if a.toNat + b.toNat < UInt64.size then some (a + b) else none

/-- The difference of two words, unless it is below zero. -/
def sub? (a b : UInt64) : Option UInt64 :=
  if b ≤ a then some (a - b) else none

/-- The sum of two words, or the highest word if it is too high. -/
def addSaturating (a b : UInt64) : UInt64 :=
  (add? a b).getD (UInt64.size - 1).toUInt64

variable {a b : UInt64}

theorem add?_of_lt (h : a.toNat + b.toNat < UInt64.size) :
    ∃ c, add? a b = some c ∧ c.toNat = a.toNat + b.toNat := by
  refine ⟨a + b, if_pos h, ?_⟩
  rw [UInt64.toNat_add, Nat.mod_eq_of_lt h]

theorem add?_of_le (h : UInt64.size ≤ a.toNat + b.toNat) : add? a b = none :=
  if_neg (Nat.not_lt.2 h)

theorem sub?_of_le (h : b.toNat ≤ a.toNat) :
    ∃ c, sub? a b = some c ∧ c.toNat = a.toNat - b.toNat := by
  have hle : b ≤ a := UInt64.le_iff_toNat_le.2 h
  exact ⟨a - b, if_pos hle, UInt64.toNat_sub_of_le a b hle⟩

/-- From a counter that is not zero, one can be taken off. -/
theorem sub?_one_of_ne_zero (h : a ≠ 0) : ∃ c, sub? a 1 = some c ∧ a.toNat = c.toNat + 1 := by
  have hone : (1 : UInt64).toNat = 1 := rfl
  have hne : a.toNat ≠ 0 := fun hzero => h (UInt64.toNat_inj.1 hzero)
  obtain ⟨c, hc, hv⟩ := sub?_of_le (a := a) (b := 1) (by omega)
  exact ⟨c, hc, by omega⟩

theorem lt_of_sub?_one {c : UInt64} (h : sub? a 1 = some c) : c.toNat < a.toNat := by
  have hne : a ≠ 0 := by
    rintro rfl
    cases h
  obtain ⟨c', hc', hv⟩ := sub?_one_of_ne_zero hne
  rw [hc'] at h
  cases h
  omega

theorem toNat_addSaturating (a b : UInt64) :
    (addSaturating a b).toNat = min (a.toNat + b.toNat) (UInt64.size - 1) := by
  unfold addSaturating
  by_cases h : a.toNat + b.toNat < UInt64.size
  · obtain ⟨c, hc, hv⟩ := add?_of_lt h
    rw [hc, Option.getD_some, hv]
    omega
  · rw [add?_of_le (Nat.not_lt.1 h), Option.getD_none, Number.toNat_toUInt64 (by decide)]
    omega

end Word

/-! ## The escape bytes of a number -/

namespace Number

/-- Reads on after escape bytes that are counted with a word. -/
def readLeadWords (trailing : UInt64) (offset : Nat) :
    List UInt8 → Option (Except Error ((UInt64 × UInt8) × Input))
  | [] => some (.error (.truncated .endOfInput))
  | b :: bs =>
    if b = escape then do readLeadWords (← Word.add? trailing 1) (offset + 1) bs
    else if b = 0 then do return .ok ((← Word.sub? trailing 1, escape), ⟨offset + 1, bs⟩)
    else some (.ok ((trailing, b), ⟨offset + 1, bs⟩))

/-- Reads a number whose escape bytes are counted with a word. -/
def readWords (i : Input) : Option (Except Error (UInt64 × Input)) :=
  match Decoder.byte.run i with
  | .error e => some (.error e)
  | .ok (first, i) =>
    if first = escape then do
      match ← readLeadWords 1 i.offset i.bytes with
      | .error e => return .error e
      | .ok ((trailing, lead), i) =>
        if 7 < trailing then return .error (.corrupt (.numberTooWide trailing.toNat))
        else return (readTail trailing.toNat lead.toUInt64).run i
    else return .ok (first.toUInt64, i)

/-- The count starts with one escape byte and grows by one with each byte, so it is a word, and it is
not zero when one is taken off. -/
theorem readLeadWords_eq (trailing : UInt64) {bytes : List UInt8} (offset : Nat)
    (hpos : 1 ≤ trailing.toNat) (hlt : trailing.toNat + bytes.length < UInt64.size) :
    ∃ r, readLeadWords trailing offset bytes = some r ∧
      r.map (fun r => ((r.1.1.toNat, r.1.2), r.2)) = readLead trailing.toNat offset bytes := by
  have hone : (1 : UInt64).toNat = 1 := rfl
  induction bytes generalizing trailing offset with
  | nil => exact ⟨_, rfl, rfl⟩
  | cons b bs ih =>
    rw [List.length_cons] at hlt
    rw [readLeadWords, readLead]
    by_cases hb : b = escape
    · obtain ⟨next, hnext, hv⟩ := Word.add?_of_lt (a := trailing) (b := 1) (by omega)
      rw [hone] at hv
      rw [if_pos hb, if_pos hb, hnext, ← hv]
      exact ih next (offset + 1) (by omega) (by omega)
    · rw [if_neg hb, if_neg hb]
      by_cases hzero : b = 0
      · obtain ⟨last, hlast, hv⟩ := Word.sub?_of_le (a := trailing) (b := 1) (by omega)
        rw [hone] at hv
        rw [if_pos hzero, if_pos hzero, hlast, ← hv]
        exact ⟨_, rfl, rfl⟩
      · rw [if_neg hzero, if_neg hzero]
        exact ⟨_, rfl, rfl⟩

theorem readWords_eq {i : Input} (h : i.bytes.length < UInt64.size) :
    readWords i = some (read.run i) := by
  obtain ⟨offset, bytes⟩ := i
  cases bytes with
  | nil => rfl
  | cons first bytes =>
    rw [List.length_cons] at h
    have hfirst : Decoder.byte.run ⟨offset, first :: bytes⟩ = .ok (first, ⟨offset + 1, bytes⟩) := rfl
    rw [readWords, read, Decoder.run_bind_of_ok hfirst, hfirst]
    dsimp only
    by_cases hescape : first = escape
    · rw [if_pos hescape, if_pos hescape, readWide]
      obtain ⟨r, hr, hv⟩ := readLeadWords_eq 1 (offset + 1) (Nat.le_refl 1)
        (show 1 + bytes.length < UInt64.size by omega)
      have hlead : StateT.run (fun i => readLead 1 i.offset i.bytes : Decoder (Nat × UInt8))
          ⟨offset + 1, bytes⟩ = r.map fun r => ((r.1.1.toNat, r.1.2), r.2) := hv.symm
      rw [hr]
      cases r with
      | error e =>
        exact congrArg some (Decoder.run_bind_of_error hlead).symm
      | ok r =>
        obtain ⟨⟨trailing, lead⟩, i⟩ := r
        refine Eq.trans ?_ (congrArg some (Decoder.run_bind_of_ok hlead).symm)
        by_cases hwide : 7 < trailing
        · have hwide' : 7 < trailing.toNat := UInt64.lt_iff_toNat_lt.1 hwide
          simp only [bind, Option.bind, if_pos hwide, if_pos hwide']
          rfl
        · have hwide' : ¬7 < trailing.toNat := fun h => hwide (UInt64.lt_iff_toNat_lt.2 h)
          simp only [bind, Option.bind, if_neg hwide, if_neg hwide']
          rfl
    · rw [if_neg hescape, if_neg hescape]
      rfl

end Number

/-! ## The ends of records -/

namespace Record

/-- Reads the length of a record and tells the word of its end. -/
def readStopWords (i : Input) : Option (Except Error (UInt64 × Input)) := do
  match ← Number.readWords i with
  | .error e => return .error e
  | .ok (length, i) =>
    match Word.add? i.offset.toUInt64 length with
    | some stop => return .ok (stop, i)
    | none => return .error (.corrupt (.recordTooLong length))

theorem readStopWords_eq {i : Input} (h : i.offset + i.bytes.length < UInt64.size) :
    ∃ r, readStopWords i = some r ∧ r.map (Prod.map UInt64.toNat id) = readStop.run i := by
  unfold readStopWords
  rw [Number.readWords_eq (Nat.lt_of_le_of_lt (Nat.le_add_left _ _) h), readStop]
  cases hn : Number.read.run i with
  | error e => exact ⟨_, rfl, (Decoder.run_bind_of_error hn).symm⟩
  | ok r =>
    obtain ⟨length, i'⟩ := r
    have hoffset := Number.advances_read.offset_add_length hn
    have hstart : i'.offset.toUInt64.toNat = i'.offset := Number.toNat_toUInt64 (by omega)
    have hposition : Decoder.position.run i' = .ok (i'.offset, i') := rfl
    rw [Decoder.run_bind_of_ok hn, Decoder.run_bind_of_ok hposition]
    by_cases hlt : i'.offset + length.toNat < UInt64.size
    · obtain ⟨stop, hstop, hv⟩ :=
        Word.add?_of_lt (a := i'.offset.toUInt64) (b := length) (by rwa [hstart])
      rw [hstart] at hv
      rw [if_pos hlt, ← hv]
      simp only [Option.bind_eq_bind, Option.bind_some, hstop]
      exact ⟨_, rfl, rfl⟩
    · have hnone := Word.add?_of_le (a := i'.offset.toUInt64) (b := length) (by omega)
      rw [if_neg hlt]
      simp only [Option.bind_eq_bind, Option.bind_some, hnone]
      exact ⟨_, rfl, rfl⟩

end Record

/-! ## The sum of the package counts -/

namespace Database

/-- Reads a number of categories, and adds the numbers of their packages to `found`. -/
def readCategoriesWords (h : Header) (found : UInt64) :
    Nat → Input → Option (Except Error ((List Category × UInt64) × Input))
  | 0, i => some (.ok (([], found), i))
  | count + 1, i =>
    match (Record.readCategory h).run i with
    | .error e => some (.error e)
    | .ok (c, i) => do
      let found ← Word.add? found c.packages.length.toUInt64
      match ← readCategoriesWords h found count i with
      | .error e => return .error e
      | .ok ((cs, total), i) => return .ok ((c :: cs, total), i)

/-- Reads a database whose packages are counted with a word. -/
def decodeWords (name : String) (bytes : List UInt8) : Option (Except Error (Header × Tree)) :=
  match (Header.read name).run (.ofBytes bytes) with
  | .error e => some (.error e)
  | .ok (h, i) => do
    match ← readCategoriesWords h 0 h.categoryCount.toNat i with
    | .error e => return .error e
    | .ok ((categories, found), _) =>
      if found = h.packageCount then return .ok (h, { categories })
      else return .error (.corrupt (.packageCount name h.packageCount found.toNat))

/-- The packages that were counted have taken as many bytes, and the last of them ends at an offset
that is a word; so their number is one. -/
theorem readCategoriesWords_eq {h : Header} {found : UInt64} {i : Input} (n : Nat)
    (hf : found.toNat ≤ i.offset) :
    ∃ r, readCategoriesWords h found n i = some r ∧
      r.map (fun r => ((r.1.1, r.1.2.toNat), r.2)) = (readCategories h found.toNat n).run i := by
  induction n generalizing found i with
  | zero => exact ⟨_, rfl, rfl⟩
  | succ n ih =>
    rw [readCategoriesWords, readCategories]
    cases hc : (Record.readCategory h).run i with
    | error e => exact ⟨_, rfl, (Decoder.run_bind_of_error hc).symm⟩
    | ok r =>
      obtain ⟨c, i'⟩ := r
      obtain ⟨hle, hend⟩ := Record.offset_of_readCategory hc
      have hfound := found.toNat_lt
      have hsum : found.toNat + c.packages.length < UInt64.size := by
        rcases hend with hzero | hlt
        · rwa [hzero]
        · omega
      have hlength : c.packages.length.toUInt64.toNat = c.packages.length :=
        Number.toNat_toUInt64 (by omega)
      obtain ⟨total, htotal, hv⟩ := Word.add?_of_lt (a := found) (by rwa [hlength])
      rw [hlength] at hv
      have htotal_le : total.toNat ≤ i'.offset := by omega
      obtain ⟨r, hr, hrest⟩ := ih htotal_le
      rw [hv] at hrest
      rw [Decoder.run_bind_of_ok hc]
      dsimp only
      rw [htotal, if_pos hsum]
      simp only [Option.bind_eq_bind, Option.bind_some, hr]
      rcases r with e | ⟨⟨cs, total'⟩, i''⟩
      · exact ⟨_, rfl, (Decoder.run_bind_of_error hrest.symm).symm⟩
      · have hread : (readCategories h (found.toNat + c.packages.length) n).run i' =
            .ok ((cs, total'.toNat), i'') := hrest.symm
        refine ⟨_, rfl, ?_⟩
        rw [Decoder.run_bind_of_ok hread]
        rfl

theorem decodeWords_eq (name : String) (bytes : List UInt8) :
    decodeWords name bytes = some (decode name bytes) := by
  unfold decodeWords
  cases hh : (Header.read name).run (.ofBytes bytes) with
  | error e => rw [decode_of_header_error hh]
  | ok r =>
    obtain ⟨h, i⟩ := r
    have hzero : (0 : UInt64).toNat ≤ i.offset := Nat.zero_le _
    obtain ⟨r, hr, hv⟩ := readCategoriesWords_eq (h := h) h.categoryCount.toNat hzero
    dsimp only
    rw [hr]
    rcases r with e | ⟨⟨cs, total⟩, i'⟩
    · rw [decode_of_categories_error hh hv.symm]
      rfl
    · rw [decode_of_categories hh hv.symm]
      by_cases htotal : total = h.packageCount
      · have htotal' := congrArg UInt64.toNat htotal
        simp only [bind, Option.bind, if_pos htotal, if_pos htotal']
        rfl
      · have htotal' : ¬total.toNat = h.packageCount.toNat := fun he => htotal (UInt64.toNat_inj.1 he)
        simp only [bind, Option.bind, if_neg htotal, if_neg htotal']
        rfl

end Database

/-! ## The counters of a cursor -/

/-- A cursor that counts the categories and packages that it has left with words. -/
structure WordCursor where
  input : Input
  header : Header
  detail : Detail
  categoriesLeft : UInt64
  packagesLeft : UInt64 := 0
  category : String := ""
  failed : Bool := false

namespace WordCursor

open Record

/-- The cursor at the same place that counts without bounds. -/
def toCursor (c : WordCursor) : Cursor :=
  { c with categoriesLeft := c.categoriesLeft.toNat, packagesLeft := c.packagesLeft.toNat }

/-- The cursor before the first package of a database. -/
def ofBytes (bytes : List UInt8) (name : String) (detail : Detail) : Except Error WordCursor := do
  let (header, input) ← (Header.read name).run (.ofBytes bytes)
  return { input, header, detail, categoriesLeft := header.categoryCount }

/-- Reads the next package and moves behind it. -/
def step (c : WordCursor) : Option (Except Error (Option (Package × WordCursor))) :=
  if c.packagesLeft = 0 then
    if c.categoriesLeft = 0 then some (.ok none)
    else match readCategoryHeader.run c.input with
      | .error e => some (.error e)
      | .ok ((category, count), input) =>
        match h : Word.sub? c.categoriesLeft 1 with
        | none => none
        | some categoriesLeft =>
          have := Word.lt_of_sub?_one h
          step { c with input, category, categoriesLeft, packagesLeft := count }
  else match Word.sub? c.packagesLeft 1 with
    | none => none
    | some packagesLeft =>
      match (readPackage c.header c.category c.detail).run c.input with
      | .error e => some (.error e)
      | .ok (p, input) => some (.ok (some (p, { c with input, packagesLeft })))
termination_by c.categoriesLeft.toNat

/-- What the cursor yields, and the cursor after that. -/
def next (c : WordCursor) : Option (Option (Except Error Package) × WordCursor) :=
  if c.failed then some (none, c)
  else c.step.map fun
    | .ok (some (p, c)) => (some (.ok p), c)
    | .ok none => (none, { c with categoriesLeft := 0, packagesLeft := 0 })
    | .error e => (some (.error e), { c with failed := true })

/-- The cursor after a number of calls. -/
def after (c : WordCursor) : Nat → Option WordCursor
  | 0 => some c
  | n + 1 => c.next.bind fun r => r.2.after n

/-- What one more call yields after a number of calls. -/
def call (c : WordCursor) (n : Nat) : Option (Option (Except Error Package)) :=
  (c.after n).bind fun c => c.next.map Prod.fst

theorem step_eq (c : WordCursor) : ∃ r, c.step = some r ∧
    r.map (Option.map (Prod.map id toCursor)) = c.toCursor.step := by
  fun_induction step c with
  | case1 c hp hc =>
    refine ⟨_, rfl, (Cursor.step_end ?_ ?_).symm⟩
    · exact congrArg UInt64.toNat hp
    · exact congrArg UInt64.toNat hc
  | case2 c hp hc e hr =>
    obtain ⟨n, -, hn⟩ := Word.sub?_one_of_ne_zero hc
    exact ⟨_, rfl, (Cursor.step_category_error (congrArg UInt64.toNat hp) hn hr).symm⟩
  | case3 c hp hc category count input hr hnone =>
    obtain ⟨n, hsome, -⟩ := Word.sub?_one_of_ne_zero hc
    rw [hsome] at hnone
    cases hnone
  | case4 c hp hc category count input hr n hsome hlt ih =>
    obtain ⟨n', hsome', hn⟩ := Word.sub?_one_of_ne_zero hc
    rw [hsome] at hsome'
    cases hsome'
    rw [Cursor.step_category (c := c.toCursor) (congrArg UInt64.toNat hp) hn hr]
    exact ih
  | case5 c hp hnone =>
    obtain ⟨n, hsome, -⟩ := Word.sub?_one_of_ne_zero hp
    rw [hsome] at hnone
    cases hnone
  | case6 c hp n hsome e hr =>
    obtain ⟨n', -, hn⟩ := Word.sub?_one_of_ne_zero hp
    exact ⟨_, rfl, (Cursor.step_package_error (c := c.toCursor) hn hr).symm⟩
  | case7 c hp n hsome p input hr =>
    obtain ⟨n', hsome', hn⟩ := Word.sub?_one_of_ne_zero hp
    rw [hsome] at hsome'
    cases hsome'
    exact ⟨_, rfl, (Cursor.step_package (c := c.toCursor) hn hr).symm⟩

theorem next_eq (c : WordCursor) : ∃ r, c.next = some r ∧ r.map id toCursor = c.toCursor.next := by
  unfold next
  by_cases hf : c.failed = true
  · rw [if_pos hf]
    exact ⟨_, rfl, (Cursor.next_of_failed hf).symm⟩
  · rw [if_neg hf, Cursor.next_of_not_failed (c := c.toCursor) (Bool.eq_false_iff.2 hf)]
    obtain ⟨r, hr, hv⟩ := step_eq c
    rw [hr, ← hv]
    rcases r with e | _ | ⟨p, c'⟩
    · exact ⟨_, rfl, rfl⟩
    · exact ⟨_, rfl, rfl⟩
    · exact ⟨_, rfl, rfl⟩

theorem after_eq (c : WordCursor) (n : Nat) :
    ∃ c', c.after n = some c' ∧ c'.toCursor = c.toCursor.after n := by
  induction n generalizing c with
  | zero => exact ⟨c, rfl, rfl⟩
  | succ n ih =>
    obtain ⟨r, hr, hv⟩ := next_eq c
    rw [after, hr, Cursor.after, ← hv]
    exact ih r.2

/-- Every call is answered, and with what the cursor that counts without bounds answers. -/
theorem call_eq (c : WordCursor) (n : Nat) : c.call n = some (c.toCursor.after n).next.1 := by
  obtain ⟨c', hc, hv⟩ := after_eq c n
  obtain ⟨r, hr, hv'⟩ := next_eq c'
  rw [call, hc, ← hv, ← hv']
  exact congrArg (Option.map Prod.fst) hr

theorem ofBytes_eq (bytes : List UInt8) (name : String) (detail : Detail) :
    (ofBytes bytes name detail).map toCursor = Cursor.ofBytes bytes name detail := by
  unfold ofBytes Cursor.ofBytes
  cases (Header.read name).run (.ofBytes bytes) with
  | error e => rfl
  | ok r => rfl

end WordCursor

end PackageIndex
