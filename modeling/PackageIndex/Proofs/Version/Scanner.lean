import PackageIndex.Proofs.Text.Slices
import PackageIndex.Proofs.Version.Grammar

/-!
# Scanning versions byte by byte

A version can be read without decoding its text first: all that the grammar asks for are ASCII
characters, which are single bytes. The scanner goes through the bytes of a text by their indices and
takes the parts of the version as slices, and it goes the same way as the reader of the characters
(`Agrees`); so all its slices begin and end between characters, whatever stands in the text
(`scan_encode`).
-/

namespace PackageIndex.Version

open Utf8 (At)

/-! ## The scanner -/

/-- Why the scanner stops. -/
inductive ScanFault where
  /-- A slice would begin or end inside a character. -/
  | split
  /-- The text is no version. -/
  | malformed
  deriving DecidableEq, Repr

/-- The parts of a version, as bytes. -/
structure Parts where
  numbers : List (List UInt8)
  letter : Option UInt8
  suffixes : List (SuffixKind × List UInt8)
  revision : List UInt8
  deriving DecidableEq, Repr

/-- A slice, which must begin and end between characters. -/
def slice (bytes : List UInt8) (start stop : Nat) : Except ScanFault (List UInt8) :=
  match Utf8.slice? bytes start stop with
  | some part => .ok part
  | none => .error .split

/-- Whether a byte is a character of a range. -/
def isIn (low high : Char) (b : UInt8) : Bool :=
  low.toNat ≤ b.toNat && b.toNat ≤ high.toNat

/-- The byte at an index, if it is a character of a range. -/
def byteIn (low high : Char) (bytes : List UInt8) (pos : Nat) : Option UInt8 :=
  bytes[pos]?.filter (isIn low high)

theorem lt_of_byteIn {low high : Char} {bytes : List UInt8} {pos : Nat} {b : UInt8}
    (h : byteIn low high bytes pos = some b) : pos < bytes.length :=
  (List.getElem?_eq_some_iff.1 (Option.filter_eq_some_iff.1 h).1).1

/-- The index behind the digits from an index on. -/
def skipDigits (bytes : List UInt8) (pos : Nat) : Nat :=
  match h : byteIn '0' '9' bytes pos with
  | some _ =>
    have := lt_of_byteIn h
    skipDigits bytes (pos + 1)
  | none => pos
termination_by bytes.length - pos

theorem le_skipDigits (bytes : List UInt8) (pos : Nat) : pos ≤ skipDigits bytes pos := by
  fun_induction skipDigits bytes pos with
  | case1 pos b hb _ ih => omega
  | case2 => exact Nat.le_refl _

/-- Scans the components from an index on. -/
def scanNumbers (bytes : List UInt8) (pos : Nat) :
    Except ScanFault (List (List UInt8) × Nat) :=
  let stop := skipDigits bytes pos
  if stop = pos then .error .malformed
  else do
    let number ← slice bytes pos stop
    if h : bytes[stop]? = some '.'.toNat.toUInt8 then
      have := le_skipDigits bytes pos
      have := (List.getElem?_eq_some_iff.1 h).1
      (Prod.map (number :: ·) id) <$> scanNumbers bytes (stop + 1)
    else return ([number], stop)
termination_by bytes.length - pos

/-- Scans the letter at an index, if there is one. -/
def scanLetter (bytes : List UInt8) (pos : Nat) : Option UInt8 × Nat :=
  match byteIn 'a' 'z' bytes pos with
  | some b => (some b, pos + 1)
  | none => (none, pos)

/-- The kinds of suffixes in the order in which they are tried. -/
def kinds : List SuffixKind :=
  [.alpha, .beta, .pre, .rc, .patch]

/-- The bytes of the word of a kind. -/
def kindBytes (k : SuffixKind) : List UInt8 :=
  k.toList.flatMap Utf8.encodeChar

/-- Scans the suffixes from an index on. -/
def scanSuffixes (bytes : List UInt8) (pos : Nat) :
    Except ScanFault (List (SuffixKind × List UInt8) × Nat) :=
  if h : bytes[pos]? = some '_'.toNat.toUInt8 then do
    let rest ← slice bytes (pos + 1) bytes.length
    match kinds.find? fun k => (kindBytes k).isPrefixOf rest with
    | none => throw .malformed
    | some kind =>
      let start := pos + 1 + (kindBytes kind).length
      let stop := skipDigits bytes start
      let number ← slice bytes start stop
      have := le_skipDigits bytes (pos + 1 + (kindBytes kind).length)
      have := (List.getElem?_eq_some_iff.1 h).1
      (Prod.map ((kind, number) :: ·) id) <$> scanSuffixes bytes stop
  else return ([], pos)
termination_by bytes.length - pos

/-- Scans the revision from an index on. -/
def scanRevision (bytes : List UInt8) (pos : Nat) : Except ScanFault (List UInt8 × Nat) := do
  let rest ← slice bytes pos bytes.length
  if ("-r".toList.flatMap Utf8.encodeChar).isPrefixOf rest then
    let start := pos + 2
    let stop := skipDigits bytes start
    if stop = start then throw .malformed
    else return (← slice bytes start stop, stop)
  else return ([], pos)

/-- Scans a version, which must be all of the text. -/
def scan (bytes : List UInt8) : Except ScanFault Parts := do
  let (numbers, pos) ← scanNumbers bytes 0
  let (letter, pos) := scanLetter bytes pos
  let (suffixes, pos) ← scanSuffixes bytes pos
  let (revision, pos) ← scanRevision bytes pos
  if pos = bytes.length then return { numbers, letter, suffixes, revision }
  else throw .malformed

/-! ## Digits -/

variable {bytes : List UInt8} {pos : Nat} {cs : List Char}

/-- The bytes of a run of digits. -/
def bytesOf (ds : List Digit) : List UInt8 :=
  (Digits.toList ds).flatMap Utf8.encodeChar

section

variable {low high c : Char}

theorem byteIn_of_le (h : At bytes pos (c :: cs)) (hascii : high.toNat < 0x80)
    (hlow : low.toNat ≤ c.toNat) (hhigh : c.toNat ≤ high.toNat) :
    byteIn low high bytes pos = some c.toNat.toUInt8 := by
  have hbyte : c.toNat.toUInt8.toNat = c.toNat := Utf8.toNat_toUInt8 (by omega)
  have hin : isIn low high c.toNat.toUInt8 = true := by
    rw [isIn, hbyte, decide_eq_true hlow, decide_eq_true hhigh]
    rfl
  have hb := (h.getElem?_eq_some_iff (a := c) (by omega)).2 ⟨cs, rfl⟩
  rw [byteIn, hb, Option.filter_some, if_pos hin]

theorem byteIn_eq_none (h : At bytes pos cs) (hascii : high.toNat < 0x80)
    (hout : ∀ c ∈ cs.head?, ¬(low.toNat ≤ c.toNat ∧ c.toNat ≤ high.toNat)) :
    byteIn low high bytes pos = none := by
  refine Option.filter_eq_none_iff.2 fun b hb hin => ?_
  obtain ⟨hlow, hhigh⟩ := Bool.and_eq_true_iff.1 hin
  have hlow : low.toNat ≤ b.toNat := of_decide_eq_true hlow
  have hhigh : b.toNat ≤ high.toNat := of_decide_eq_true hhigh
  rcases h.getElem?_cases with ⟨-, hb'⟩ | ⟨c, rest, rfl, hc, hb'⟩ | ⟨c, rest, b', rfl, hc, hb', hge⟩
  · rw [hb] at hb'
    cases hb'
  · rw [hb, Option.some_inj] at hb'
    rw [hb', Utf8.toNat_toUInt8 (by omega)] at hlow hhigh
    exact hout c rfl ⟨hlow, hhigh⟩
  · rw [hb, Option.some_inj] at hb'
    rw [hb'] at hhigh
    omega

end

theorem skipDigits_of_some {b : UInt8} (h : byteIn '0' '9' bytes pos = some b) :
    skipDigits bytes pos = skipDigits bytes (pos + 1) := by
  rw [skipDigits]
  split
  next => rfl
  next hnone =>
    rw [h] at hnone
    cases hnone

theorem skipDigits_of_none (h : byteIn '0' '9' bytes pos = none) : skipDigits bytes pos = pos := by
  rw [skipDigits]
  split
  next hsome =>
    rw [h] at hsome
    cases hsome
  next => rfl

theorem skipDigits_eq (h : At bytes pos cs) :
    skipDigits bytes pos = pos + (Digits.take cs).1.length := by
  have hascii : '9'.toNat < 0x80 := by decide
  induction cs generalizing pos with
  | nil => exact skipDigits_of_none (byteIn_eq_none h hascii fun c hc => by cases hc)
  | cons c cs ih =>
    rw [Digits.take, Digit.ofChar?]
    by_cases hc : '0'.toNat ≤ c.toNat ∧ c.toNat ≤ '9'.toNat
    · rw [dif_pos hc, skipDigits_of_some (byteIn_of_le h hascii hc.1 hc.2),
        ih (h.next (Nat.lt_of_le_of_lt hc.2 hascii)), List.length_cons]
      omega
    · rw [dif_neg hc]
      refine skipDigits_of_none (byteIn_eq_none h hascii fun d hd => ?_)
      cases hd
      exact hc

theorem isAscii_digits (ds : List Digit) : Utf8.IsAscii (Digits.toList ds) := by
  refine Utf8.isAscii_iff.2 fun c hc => ?_
  obtain ⟨d, -, rfl⟩ := List.mem_map.1 hc
  clear hc
  revert d
  decide

theorem length_bytesOf (ds : List Digit) : (bytesOf ds).length = ds.length := by
  rw [bytesOf, Utf8.length_flatMap_encodeChar (isAscii_digits ds), Digits.toList, List.length_map]

/-- The digits from an index on are a slice, and what follows them follows its end. -/
theorem slice_skipDigits (h : At bytes pos cs) :
    At bytes (skipDigits bytes pos) (Digits.take cs).2 ∧
      slice bytes pos (skipDigits bytes pos) = .ok (bytesOf (Digits.take cs).1) := by
  have hlength : skipDigits bytes pos = pos + (bytesOf (Digits.take cs).1).length := by
    rw [skipDigits_eq h, length_bytesOf]
  rw [← Digits.toList_take_append cs] at h
  obtain ⟨hat, hslice⟩ := h.append
  rw [hlength, slice]
  exact ⟨hat, by rw [bytesOf, hslice]⟩

/-! ## Part by part -/

/-- Scanning and reading go the same way: both find no version, or the scanner has the bytes of what
is read, and goes on where the reader goes on. -/
def Agrees {α β : Type} (bytes : List UInt8) (bytesOf : α → β) (scanned : Except ScanFault (β × Nat))
    (read : Option (α × List Char)) : Prop :=
  match read with
  | none => scanned = .error .malformed
  | some (a, cs) => ∃ pos, scanned = .ok (bytesOf a, pos) ∧ At bytes pos cs

/-- What is put together from the parts that are taken is put together from their bytes. -/
theorem Agrees.map {α α' β β' : Type} {t : α → β} {t' : α' → β'} {f : α → α'} {g : β → β'}
    {scanned : Except ScanFault (β × Nat)} {read : Option (α × List Char)}
    (h : Agrees bytes t scanned read) (hfg : ∀ a, t' (f a) = g (t a)) :
    Agrees bytes t' (Prod.map g id <$> scanned) (read.map (Prod.map f id)) := by
  cases read with
  | none =>
    have hscanned : scanned = .error .malformed := h
    rw [hscanned]
    rfl
  | some r =>
    obtain ⟨pos', hscanned, hat⟩ := h
    refine ⟨pos', ?_, hat⟩
    rw [hscanned, hfg]
    rfl

/-- The components at the front of a text. -/
def takeNumbers (cs : List Char) : Option ((Numeral × List Numeral) × List Char) :=
  match Numeral.take? cs with
  | none => none
  | some (n, cs) => (takeComponents cs).map (Prod.map (n, ·) id)

theorem takeComponents_dot (cs : List Char) :
    takeComponents ('.' :: cs) = (takeNumbers cs).map (Prod.map (fun p => p.1 :: p.2) id) := by
  rw [takeComponents, takeNumbers]
  split
  next n rest hn =>
    simp only [hn, Option.map_map]
    rfl
  next hn =>
    simp only [hn]
    rfl

theorem takeComponents_of_ne {cs : List Char} (h : ∀ rest, cs ≠ '.' :: rest) :
    takeComponents cs = some ([], cs) := by
  rw [takeComponents]
  exact h

/-- Digits are skipped if a numeral comes next, and then the skipped slice is the numeral. -/
theorem numeral_cases (h : At bytes pos cs) :
    (Numeral.take? cs = none ∧ skipDigits bytes pos = pos) ∨
      ∃ n rest, Numeral.take? cs = some (n, rest) ∧ skipDigits bytes pos ≠ pos ∧
        slice bytes pos (skipDigits bytes pos) = .ok (bytesOf n.digits) ∧
        At bytes (skipDigits bytes pos) rest := by
  obtain ⟨hat, hslice⟩ := slice_skipDigits h
  have hstop := skipDigits_eq h
  rw [Numeral.take?]
  rcases ht : Digits.take cs with ⟨_ | ⟨d, ds⟩, rest⟩
  · rw [ht] at hstop
    exact .inl ⟨rfl, hstop⟩
  · rw [ht] at hat hslice hstop
    refine .inr ⟨⟨d, ds⟩, rest, rfl, ?_, hslice, hat⟩
    rw [hstop, List.length_cons]
    omega

theorem agrees_scanNumbers (h : At bytes pos cs) :
    Agrees bytes (fun p => (p.1 :: p.2).map fun n => bytesOf n.digits) (scanNumbers bytes pos)
      (takeNumbers cs) := by
  induction hl : cs.length using Nat.strong_induction_on generalizing cs pos with
  | _ l ih =>
    subst hl
    rw [scanNumbers, takeNumbers]
    rcases numeral_cases h with ⟨hn, hstop⟩ | ⟨n, rest, hn, hstop, hslice, hat⟩
    · rw [hn, if_pos hstop]
      rfl
    · have hdot := hat.getElem?_eq_some_iff (a := '.') (by decide)
      rw [hn, if_neg hstop, hslice]
      simp only [bind, Except.bind]
      by_cases hrest : ∃ rest', rest = '.' :: rest'
      · rw [dif_pos (hdot.2 hrest)]
        obtain ⟨rest', rfl⟩ := hrest
        have hlength := Numeral.length_take? hn
        rw [List.length_cons] at hlength
        have hmore := ih rest'.length (by omega) (hat.next (by decide)) rfl
        rw [takeComponents_dot, Option.map_map]
        refine Agrees.map (f := fun p => (n, p.1 :: p.2)) hmore fun _ => ?_
        rfl
      · rw [dif_neg (mt hdot.1 hrest), takeComponents_of_ne fun rest' he => hrest ⟨rest', he⟩]
        exact ⟨_, rfl, hat⟩

/-- A missing letter is no fault, so both always go on behind it. -/
theorem scanLetter_eq (h : At bytes pos cs) :
    (scanLetter bytes pos).1 = (takeLetter cs).1.map (fun l => l.toChar.toNat.toUInt8) ∧
      At bytes (scanLetter bytes pos).2 (takeLetter cs).2 := by
  have hascii : 'z'.toNat < 0x80 := by decide
  unfold scanLetter
  cases cs with
  | nil =>
    rw [byteIn_eq_none h hascii fun c hc => by cases hc]
    exact ⟨rfl, h⟩
  | cons c cs =>
    have happend := append_of_takeLetter (c :: cs)
    rw [takeLetter] at happend ⊢
    rw [Letter.ofChar?] at happend ⊢
    by_cases hc : 'a'.toNat ≤ c.toNat ∧ c.toNat ≤ 'z'.toNat
    · rw [dif_pos hc] at happend ⊢
      rw [byteIn_of_le h hascii hc.1 hc.2]
      have hchar := (List.cons.inj happend).1
      refine ⟨?_, h.next (Nat.lt_of_le_of_lt hc.2 hascii)⟩
      dsimp only at hchar ⊢
      rw [Option.map_some, hchar]
    · rw [dif_neg hc, byteIn_eq_none h hascii fun d hd => by cases hd; exact hc]
      exact ⟨rfl, h⟩

/-- The words of the kinds are tried in an order in which `pre` comes before `p`. -/
theorem find?_kinds (cs : List Char) :
    (kinds.find? fun k => k.toList.isPrefixOf cs) = (SuffixKind.take? cs).map Prod.fst := by
  unfold SuffixKind.take?
  split
  next => rfl
  next => rfl
  next => rfl
  next => rfl
  next rest hnot =>
    have hpre : SuffixKind.pre.toList.isPrefixOf ('p' :: rest) = false := by
      refine Bool.eq_false_iff.2 fun hp => ?_
      obtain ⟨t, ht⟩ := List.isPrefixOf_iff_prefix.1 hp
      exact hnot t (List.cons.inj ht).2.symm
    rw [kinds, List.find?_cons, List.find?_cons, List.find?_cons, hpre]
    rfl
  next halpha hbeta hpre hrc hpatch =>
    refine List.find?_eq_none.2 fun k _ hk => ?_
    obtain ⟨t, rfl⟩ := List.isPrefixOf_iff_prefix.1 hk
    cases k with
    | alpha => exact halpha t rfl
    | beta => exact hbeta t rfl
    | pre => exact hpre t rfl
    | rc => exact hrc t rfl
    | patch => exact hpatch t rfl

theorem isAscii_kind (k : SuffixKind) : Utf8.IsAscii k.toList := by
  cases k with
  | alpha | beta | pre | rc | patch => decide

theorem takeSuffixes_underscore (cs : List Char) :
    takeSuffixes ('_' :: cs) = (SuffixKind.take? cs).bind fun p =>
      (takeSuffixes (Digits.take p.2).2).map (Prod.map (⟨p.1, (Digits.take p.2).1⟩ :: ·) id) := by
  rw [takeSuffixes]
  split
  next kind rest hk =>
    simp only [hk, Option.bind_some]
    rfl
  next hk =>
    simp only [hk]
    rfl

theorem agrees_scanSuffixes (h : At bytes pos cs) :
    Agrees bytes (List.map fun s : Suffix => (s.kind, bytesOf s.number)) (scanSuffixes bytes pos)
      (takeSuffixes cs) := by
  induction hl : cs.length using Nat.strong_induction_on generalizing cs pos with
  | _ l ih =>
    subst hl
    have hunderscore := h.getElem?_eq_some_iff (a := '_') (by decide)
    rw [scanSuffixes]
    by_cases hcs : ∃ rest, cs = '_' :: rest
    · rw [dif_pos (hunderscore.2 hcs)]
      obtain ⟨rest, rfl⟩ := hcs
      have hrest := h.next (by decide)
      have hfind : (kinds.find? fun k => (kindBytes k).isPrefixOf (rest.flatMap Utf8.encodeChar)) =
          (SuffixKind.take? rest).map Prod.fst := by
        rw [← find?_kinds]
        congr 1
        exact funext fun k => Utf8.isPrefixOf_flatMap_encodeChar (isAscii_kind k)
      rw [takeSuffixes_underscore, slice, hrest.slice?_length]
      simp only [bind, Except.bind]
      rw [hfind]
      cases hk : SuffixKind.take? rest with
      | none => rfl
      | some r =>
        obtain ⟨kind, rest'⟩ := r
        obtain rfl := append_of_takeKind hk
        obtain ⟨hat, hnumber⟩ := slice_skipDigits hrest.append.1
        have hshorter := SuffixKind.length_take? hk
        have hdigits := Digits.length_take_le rest'
        have hmore := ih (Digits.take rest').2.length (by rw [List.length_cons]; omega) hat rfl
        dsimp only [Option.map_some, Option.bind_some]
        rw [kindBytes, hnumber]
        refine Agrees.map (f := (⟨kind, (Digits.take rest').1⟩ :: ·)) hmore fun _ => ?_
        rfl
    · rw [dif_neg (mt hunderscore.1 hcs)]
      have htake : takeSuffixes cs = some ([], cs) := by
        rw [takeSuffixes]
        exact fun rest he => hcs ⟨rest, he⟩
      rw [htake]
      exact ⟨_, rfl, h⟩

/-- The number of the revision at the front of a text, if there is one. -/
def takeRevision : List Char → Option (List Digit × List Char)
  | '-' :: 'r' :: cs => (Numeral.take? cs).map (Prod.map Numeral.digits id)
  | cs => some ([], cs)

theorem takeRevision_of_ne {cs : List Char} (h : ∀ rest, cs ≠ '-' :: 'r' :: rest) :
    takeRevision cs = some ([], cs) := by
  rw [takeRevision]
  exact h

/-- A revision is read where nothing may follow it. -/
theorem revisionOfList?_eq (cs : List Char) :
    revisionOfList? cs =
      (takeRevision cs).bind fun r => if r.2 = [] then some r.1 else none := by
  unfold revisionOfList?
  split
  next => rfl
  next cs =>
    rw [takeRevision, Numeral.take?]
    rcases Digits.take cs with ⟨_ | ⟨d, ds⟩, _ | ⟨c, rest⟩⟩
    · rfl
    · rfl
    · rfl
    · rfl
  next hnil hrevision =>
    rw [takeRevision_of_ne hrevision, Option.bind_some, if_neg hnil]

theorem agrees_scanRevision (h : At bytes pos cs) :
    Agrees bytes bytesOf (scanRevision bytes pos) (takeRevision cs) := by
  have hdash : Utf8.IsAscii "-r".toList := by decide
  rw [scanRevision, slice, h.slice?_length]
  simp only [bind, Except.bind]
  rw [Utf8.isPrefixOf_flatMap_encodeChar hdash]
  by_cases hcs : ∃ rest, cs = '-' :: 'r' :: rest
  · obtain ⟨rest, rfl⟩ := hcs
    have hrest := (h.next (by decide)).next (by decide)
    rw [if_pos (by rfl), takeRevision]
    rcases numeral_cases hrest with ⟨hn, hstop⟩ | ⟨n, rest', hn, hstop, hslice, hat⟩
    · rw [hn, if_pos hstop]
      rfl
    · rw [hn, if_neg hstop, hslice]
      exact ⟨_, rfl, hat⟩
  · have hnone : "-r".toList.isPrefixOf cs = false := by
      refine Bool.eq_false_iff.2 fun hp => ?_
      obtain ⟨t, ht⟩ := List.isPrefixOf_iff_prefix.1 hp
      exact hcs ⟨t, ht.symm⟩
    rw [hnone, takeRevision_of_ne fun rest he => hcs ⟨rest, he⟩]
    exact ⟨_, rfl, h⟩

/-! ## All of a text -/

/-- The parts of a version, as bytes. -/
def parts (v : Version) : Parts where
  numbers := (v.first :: v.rest).map fun n => bytesOf n.digits
  letter := v.letter.map fun l => l.toChar.toNat.toUInt8
  suffixes := v.suffixes.map fun s => (s.kind, bytesOf s.number)
  revision := bytesOf v.revision

/-- Reading takes the parts one after the other. -/
theorem ofList?_eq (cs : List Char) :
    ofList? cs = (takeNumbers cs).bind fun (n, cs) =>
      (takeSuffixes (takeLetter cs).2).bind fun (ss, rest) =>
        (takeRevision rest).bind fun (ds, rest) =>
          if rest = [] then some ⟨n.1, n.2, (takeLetter cs).1, ss, ds⟩ else none := by
  unfold ofList? takeNumbers
  cases Numeral.take? cs with
  | none => rfl
  | some first =>
    dsimp only
    cases takeComponents first.2 with
    | none => rfl
    | some components =>
      dsimp only [Option.map_some, Option.bind_some, Prod.map, id]
      cases takeSuffixes (takeLetter components.2).2 with
      | none => rfl
      | some suffixes =>
        dsimp only [Option.bind_some]
        rw [revisionOfList?_eq]
        cases takeRevision suffixes.2 with
        | none => rfl
        | some revision =>
          dsimp only [Option.bind_some]
          split
          · rfl
          · rfl

/-- On every text the scanner finds the parts of the version that is read, or that there is none; it
never cuts a character. -/
theorem scan_encode (s : String) :
    scan (Utf8.encode s) = match ofString? s with
      | some v => .ok v.parts
      | none => .error .malformed := by
  have hnumbers := agrees_scanNumbers (Utf8.at_zero s)
  rw [ofString?, ofList?_eq, scan]
  cases hn : takeNumbers s.toList with
  | none =>
    rw [hn] at hnumbers
    rw [show scanNumbers (Utf8.encode s) 0 = .error .malformed from hnumbers]
    rfl
  | some numbers =>
    rw [hn] at hnumbers
    obtain ⟨pos, hscan, hat⟩ := hnumbers
    obtain ⟨hletter, hat⟩ := scanLetter_eq hat
    have hsuffixes := agrees_scanSuffixes hat
    rw [hscan, Option.bind_some]
    simp only [bind, Except.bind]
    cases hs : takeSuffixes (takeLetter numbers.2).2 with
    | none =>
      rw [hs] at hsuffixes
      rw [show scanSuffixes _ _ = .error .malformed from hsuffixes]
      rfl
    | some suffixes =>
      rw [hs] at hsuffixes
      obtain ⟨pos', hscan, hat⟩ := hsuffixes
      have hrevision := agrees_scanRevision hat
      rw [hscan, Option.bind_some]
      dsimp only
      cases hr : takeRevision suffixes.2 with
      | none =>
        rw [hr] at hrevision
        rw [show scanRevision _ _ = .error .malformed from hrevision]
        rfl
      | some revision =>
        rw [hr] at hrevision
        obtain ⟨pos'', hscan, hat⟩ := hrevision
        rw [hscan, Option.bind_some, hletter]
        dsimp only
        by_cases hend : revision.2 = []
        · rw [if_pos hend, if_pos (hat.eq_length_iff.2 hend)]
          rfl
        · rw [if_neg hend, if_neg (mt hat.eq_length_iff.1 hend)]
          rfl

theorem toString_eq_iff {s : String} {v : Version} : toString v = s ↔ v.toList = s.toList := by
  constructor
  · rintro rfl
    exact String.toList_ofList.symm
  · intro h
    exact (congrArg String.ofList h).trans String.ofList_toList

theorem parse_eq_ok_iff {s : String} {v : Version} : parse s = .ok v ↔ toString v = s := by
  rw [toString_eq_iff, ← ofList?_eq_some_iff, parse, ofString?]
  cases ofList? s.toList with
  | none => exact iff_of_false nofun nofun
  | some w => rw [Except.ok.injEq, Option.some_inj]

theorem parse_cases (s : String) :
    (∃ v, parse s = .ok v) ∨ parse s = .error (.invalidVersion s) := by
  rw [parse]
  cases ofString? s with
  | none => exact .inr rfl
  | some v => exact .inl ⟨v, rfl⟩

/-- The texts that are read are those of the grammar, and each of them is written in one way from the
parts that are read; every other text is the cause of its failure. Reading the bytes of a text by
slices comes to the same, and never cuts a character. -/
theorem parse_accepts_grammar (s : String) :
    (s.toList ∈ grammar.matches' ↔ ∃ v, parse s = .ok v) ∧
    (s.toList ∈ grammar.matches' ↔ ∃! v : Version, toString v = s) ∧
    (∀ v, parse s = .ok v ↔ toString v = s) ∧
    (s.toList ∉ grammar.matches' ↔ parse s = .error (.invalidVersion s)) ∧
    scan (Utf8.encode s) = match parse s with
      | .ok v => .ok v.parts
      | .error _ => .error .malformed := by
  have hgrammar : s.toList ∈ grammar.matches' ↔ ∃ v, parse s = .ok v := by
    rw [spells_grammar]
    exact exists_congr fun v => toString_eq_iff.symm.trans parse_eq_ok_iff.symm
  refine ⟨hgrammar, ?_, fun v => parse_eq_ok_iff, ?_, ?_⟩
  · rw [hgrammar]
    constructor
    · rintro ⟨v, hv⟩
      refine ⟨v, parse_eq_ok_iff.1 hv, fun w hw => ?_⟩
      have hread := (parse_eq_ok_iff.2 hw).symm.trans hv
      exact Except.ok.inj hread
    · rintro ⟨v, hv, -⟩
      exact ⟨v, parse_eq_ok_iff.2 hv⟩
  · rw [hgrammar]
    rcases parse_cases s with ⟨v, hv⟩ | he
    · rw [hv]
      exact iff_of_false (fun hnone => hnone ⟨v, rfl⟩) nofun
    · rw [he]
      exact iff_of_true (fun ⟨v, hv⟩ => by cases hv) rfl
  · rw [scan_encode, parse]
    cases ofString? s with
    | none => rfl
    | some v => rfl

end PackageIndex.Version
