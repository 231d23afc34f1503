import PackageIndex.Proofs.Version.Scanner
import PackageIndex.Version.Name

/-!
# Telling names and versions apart

A version has no dash that is followed by a digit, since its only dash is that of the revision. So the
last such dash of `name-version` is the one between the two, whatever the name is
(`splitNameVersion_exact`). To look for it from the end of the bytes comes to the same as to look for
it in the characters, and the parts are slices that cut no character (`scanName_encode`).
-/

namespace PackageIndex

/-- A dash that is followed by a digit stands somewhere in a text. -/
def HasVersionDash (cs : List Char) : Prop :=
  ∃ before rest, cs = before ++ '-' :: rest ∧ startsWithDigit rest = true

variable {c : Char} {cs as bs name version : List Char}

/-! ## Dashes before digits -/

theorem hasVersionDash_cons :
    HasVersionDash (c :: cs) ↔ (c = '-' ∧ startsWithDigit cs = true) ∨ HasVersionDash cs := by
  constructor
  · rintro ⟨before, rest, hcs, hrest⟩
    cases before with
    | nil =>
      obtain ⟨rfl, rfl⟩ := List.cons.inj hcs
      exact .inl ⟨rfl, hrest⟩
    | cons b before => exact .inr ⟨before, rest, (List.cons.inj hcs).2, hrest⟩
  · rintro (⟨rfl, hcs⟩ | ⟨before, rest, rfl, hrest⟩)
    · exact ⟨[], cs, rfl, hcs⟩
    · exact ⟨c :: before, rest, rfl, hrest⟩

theorem not_hasVersionDash_nil : ¬ HasVersionDash [] := by
  rintro ⟨before, rest, h, -⟩
  exact List.append_ne_nil_of_right_ne_nil before (List.cons_ne_nil _ _) h.symm

/-- What has no dash at all changes nothing in front of a text. -/
theorem hasVersionDash_append (h : '-' ∉ as) : HasVersionDash (as ++ bs) ↔ HasVersionDash bs := by
  induction as with
  | nil => rfl
  | cons a as ih =>
    obtain ⟨ha, has⟩ := not_or.1 (mt List.mem_cons.2 h)
    rw [List.cons_append, hasVersionDash_cons, ih has]
    exact or_iff_right fun hdash => ha hdash.1.symm

/-! ## The last one -/

theorem cutAtVersion_eq_none_iff : cutAtVersion cs = none ↔ ¬ HasVersionDash cs := by
  induction cs with
  | nil => exact iff_of_true rfl not_hasVersionDash_nil
  | cons c cs ih =>
    rw [hasVersionDash_cons, not_or, ← ih, cutAtVersion]
    cases cutAtVersion cs with
    | some parts => simp
    | none => simp

theorem cutAtVersion_append (hdigit : startsWithDigit version = true)
    (hdash : ¬ HasVersionDash version) (name : List Char) :
    cutAtVersion (name ++ '-' :: version) = some (name, version) := by
  induction name with
  | nil =>
    rw [List.nil_append, cutAtVersion, cutAtVersion_eq_none_iff.2 hdash]
    exact if_pos ⟨rfl, hdigit⟩
  | cons c name ih => rw [List.cons_append, cutAtVersion, ih]

theorem version_of_cutAtVersion (h : cutAtVersion cs = some (name, version)) :
    startsWithDigit version = true ∧ ¬ HasVersionDash version := by
  induction cs generalizing name with
  | nil => cases h
  | cons c cs ih =>
    rw [cutAtVersion] at h
    split at h
    next n v hc =>
      cases h
      exact ih hc
    next hnone =>
      split at h
      next hdash =>
        cases h
        exact ⟨hdash.2, cutAtVersion_eq_none_iff.1 hnone⟩
      next => cases h

theorem cutAtVersion_eq_some_iff :
    cutAtVersion cs = some (name, version) ↔
      cs = name ++ '-' :: version ∧ startsWithDigit version = true ∧
        ¬ HasVersionDash version := by
  constructor
  · intro h
    exact ⟨append_of_cutAtVersion h, version_of_cutAtVersion h⟩
  · rintro ⟨rfl, hdigit, hdash⟩
    exact cutAtVersion_append hdigit hdash name

/-! ## Versions -/

namespace Version

theorem dash_notMem_digits (ds : List Digit) : '-' ∉ Digits.toList ds := by
  intro h
  obtain ⟨d, -, hd⟩ := List.mem_map.1 h
  revert d
  decide

theorem dash_notMem_suffix (s : Suffix) : '-' ∉ s.toList := by
  intro h
  rcases List.mem_cons.1 h with h | h
  · cases h
  · rcases List.mem_append.1 h with h | h
    · revert h
      cases s.kind with
      | alpha | beta | pre | rc | patch => decide
    · exact dash_notMem_digits s.number h

/-- Only the revision has a dash, and it goes on with a letter. -/
theorem not_hasVersionDash_toList (v : Version) : ¬ HasVersionDash v.toList := by
  have hletter : '-' ∉ (v.letter.map Letter.toChar).toList := by
    cases v.letter with
    | none => exact List.not_mem_nil
    | some l =>
      revert l
      decide
  have hrest : '-' ∉ v.rest.flatMap fun n => '.' :: Digits.toList n.digits := by
    intro h
    obtain ⟨n, -, h⟩ := List.mem_flatMap.1 h
    rcases List.mem_cons.1 h with h | h
    · cases h
    · exact dash_notMem_digits n.digits h
  have hsuffixes : '-' ∉ v.suffixes.flatMap Suffix.toList := by
    intro h
    obtain ⟨s, -, h⟩ := List.mem_flatMap.1 h
    exact dash_notMem_suffix s h
  unfold toList
  simp only [List.append_assoc]
  rw [hasVersionDash_append (dash_notMem_digits _), hasVersionDash_append hrest,
    hasVersionDash_append hletter, hasVersionDash_append hsuffixes, revisionToList]
  split
  · exact not_hasVersionDash_nil
  · have hrevision : '-' ∉ 'r' :: Digits.toList v.revision := by
      intro h
      rcases List.mem_cons.1 h with h | h
      · cases h
      · exact dash_notMem_digits v.revision h
    rw [hasVersionDash_cons, not_or]
    constructor
    · rintro ⟨-, hdigit⟩
      cases hdigit
    · rw [← List.append_nil ('r' :: Digits.toList v.revision), hasVersionDash_append hrevision]
      exact not_hasVersionDash_nil

theorem startsWithDigit_toList (v : Version) : startsWithDigit v.toList = true := by
  unfold toList
  simp [Numeral.digits, Digits.toList, startsWithDigit]

end Version

theorem splitNameVersion_eq_some_iff {s name version : String} :
    splitNameVersion s = some (name, version) ↔
      s = name ++ "-" ++ version ∧ startsWithDigit version.toList = true ∧
        ¬ HasVersionDash version.toList := by
  have htext : s = name ++ "-" ++ version ↔ s.toList = name.toList ++ '-' :: version.toList := by
    rw [← String.toList_inj, String.toList_append, String.toList_append, List.append_assoc]
    rfl
  rw [htext, ← cutAtVersion_eq_some_iff]
  unfold splitNameVersion
  constructor
  · intro h
    obtain ⟨⟨n, v⟩, hcut, hparts⟩ := Option.map_eq_some_iff.1 h
    cases hparts
    rw [String.toList_ofList, String.toList_ofList, hcut]
  · intro hcut
    rw [hcut, Option.map_some]
    simp only [String.ofList_toList]

theorem splitNameVersion_eq_none_iff {s : String} :
    splitNameVersion s = none ↔ ¬ HasVersionDash s.toList := by
  unfold splitNameVersion
  rw [Option.map_eq_none_iff, cutAtVersion_eq_none_iff]

/-- A version behind a name and a dash is found again, whatever the name is. -/
theorem splitNameVersion_append {text : String} {v : Version} (h : Version.parse text = .ok v)
    (name : String) : splitNameVersion (name ++ "-" ++ text) = some (name, text) := by
  have htext := Version.toString_eq_iff.1 (Version.parse_eq_ok_iff.1 h)
  refine splitNameVersion_eq_some_iff.2 ⟨rfl, ?_, ?_⟩
  · rw [← htext]
    exact v.startsWithDigit_toList
  · rw [← htext]
    exact v.not_hasVersionDash_toList

theorem Version.ofString?_eq_some_iff {text : String} {v : Version} :
    ofString? text = some v ↔ toString v = text := by
  rw [toString_eq_iff]
  exact ofList?_eq_some_iff

theorem splitNameVersion_toString (name : String) (v : Version) :
    splitNameVersion (name ++ "-" ++ toString v) = some (name, toString v) :=
  splitNameVersion_append (Version.parse_eq_ok_iff.2 rfl) name

/-- A name and a version can be put together in one way only. -/
theorem name_version_inj {m n : String} {v w : Version} :
    m ++ "-" ++ toString v = n ++ "-" ++ toString w ↔ m = n ∧ v = w := by
  constructor
  · intro h
    have hsplit := congrArg splitNameVersion h
    rw [splitNameVersion_toString, splitNameVersion_toString, Option.some_inj,
      Prod.mk.injEq] at hsplit
    refine ⟨hsplit.1, ?_⟩
    have hv := Version.ofString?_eq_some_iff.2 hsplit.2
    rw [Version.ofString?_eq_some_iff.2 rfl] at hv
    exact (Option.some_inj.1 hv).symm
  · rintro ⟨rfl, rfl⟩
    rfl

/-! ## The scan of the bytes -/

open Version (ScanFault byteIn slice)

/-- Whether a dash stands at an index, with a digit behind it. -/
def isMark (bytes : List UInt8) (i : Nat) : Bool :=
  bytes[i]? == some '-'.toNat.toUInt8 && (byteIn '0' '9' bytes (i + 1)).isSome

/-- The last mark below an index, searched from there to the beginning. -/
def lastMark (bytes : List UInt8) : Nat → Option Nat
  | 0 => none
  | i + 1 => if isMark bytes i then some i else lastMark bytes i

/-- The bytes of the name and of the version, cut out of those of the text. -/
def scanName (bytes : List UInt8) : Except ScanFault (List UInt8 × List UInt8) :=
  match lastMark bytes (bytes.length - 1) with
  | none => .error .malformed
  | some i => do return (← slice bytes 0 i, ← slice bytes (i + 1) bytes.length)

variable {bytes : List UInt8} {i n : Nat}

theorem lastMark_eq_none (h : ∀ i < n, isMark bytes i = false) : lastMark bytes n = none := by
  induction n with
  | zero => rfl
  | succ n ih =>
    rw [lastMark, h n (Nat.lt_succ_self n), if_neg Bool.false_ne_true]
    exact ih fun i hi => h i (Nat.lt_succ_of_lt hi)

theorem lastMark_eq_some (hi : isMark bytes i = true) (hn : i < n)
    (hlast : ∀ j < n, i < j → isMark bytes j = false) : lastMark bytes n = some i := by
  induction n with
  | zero => exact absurd hn (Nat.not_lt_zero i)
  | succ n ih =>
    rw [lastMark]
    rcases Nat.lt_succ_iff_lt_or_eq.1 hn with hlt | rfl
    · rw [hlast n (Nat.lt_succ_self n) hlt, if_neg Bool.false_ne_true]
      exact ih hlt fun j hj => hlast j (Nat.lt_succ_of_lt hj)
    · rw [if_pos hi]

open Utf8 (encodeChar At)

/-- Where a text goes on, its first byte is a digit iff its first character is. -/
theorem isSome_byteIn {cs : List Char} (h : At bytes i cs) :
    (byteIn '0' '9' bytes i).isSome = startsWithDigit cs := by
  have hascii : '9'.toNat < 0x80 := by decide
  cases cs with
  | nil =>
    rw [Version.byteIn_eq_none h hascii fun c hc => by cases hc]
    rfl
  | cons c cs =>
    rw [startsWithDigit, Digit.ofChar?]
    by_cases hc : '0'.toNat ≤ c.toNat ∧ c.toNat ≤ '9'.toNat
    · rw [Version.byteIn_of_le h hascii hc.1 hc.2, dif_pos hc]
      rfl
    · have hout : ∀ a ∈ (c :: cs).head?, ¬('0'.toNat ≤ a.toNat ∧ a.toNat ≤ '9'.toNat) := by
        rintro a ⟨⟩
        exact hc
      rw [Version.byteIn_eq_none h hascii hout, dif_neg hc]
      rfl

/-- The marks in the bytes of a text are the dashes before digits in its characters. -/
theorem isMark_iff {cs : List Char} :
    isMark (cs.flatMap encodeChar) i = true ↔
      ∃ before rest, cs = before ++ '-' :: rest ∧ startsWithDigit rest = true ∧
        i = (before.flatMap encodeChar).length := by
  have hascii : '-'.toNat < 0x80 := by decide
  unfold isMark
  rw [Bool.and_eq_true, beq_iff_eq]
  constructor
  · rintro ⟨hdash, hdigit⟩
    obtain ⟨before, rest, rfl, rfl⟩ := Utf8.exists_of_getElem?_flatMap hdash (by decide)
    have hat := Utf8.at_append before rest
    obtain ⟨rest, rfl⟩ := (hat.getElem?_eq_some_iff hascii).1 hdash
    rw [isSome_byteIn (hat.next hascii)] at hdigit
    exact ⟨before, rest, rfl, hdigit, rfl⟩
  · rintro ⟨before, rest, rfl, hdigit, rfl⟩
    have hat := Utf8.at_append before ('-' :: rest)
    refine ⟨(hat.getElem?_eq_some_iff hascii).2 ⟨rest, rfl⟩, ?_⟩
    rw [isSome_byteIn (hat.next hascii)]
    exact hdigit

/-- No mark comes after the dash in front of a text that has none. -/
theorem le_of_isMark {name text : List Char} (hdash : ¬ HasVersionDash text)
    (h : isMark ((name ++ '-' :: text).flatMap encodeChar) i = true) :
    i ≤ (name.flatMap encodeChar).length := by
  obtain ⟨before, rest, happend, hdigit, rfl⟩ := isMark_iff.1 h
  rcases List.append_eq_append_iff.1 happend with ⟨between, rfl, hrest⟩ | ⟨between, rfl, -⟩
  · cases between with
    | nil =>
      rw [List.append_nil]
    | cons c between =>
      obtain ⟨-, rfl⟩ := List.cons.inj hrest
      exact absurd ⟨between, rest, rfl, hdigit⟩ hdash
  · rw [List.flatMap_append, List.length_append]
    exact Nat.le_add_right _ _

/-- The last mark is the dash in front of the last part that starts with a digit. -/
theorem lastMark_append {name text : List Char} (hdigit : startsWithDigit text = true)
    (hdash : ¬ HasVersionDash text) (hlength : i + 1 ≤ n)
    (hi : i = (name.flatMap encodeChar).length) :
    lastMark ((name ++ '-' :: text).flatMap encodeChar) n = some i := by
  refine lastMark_eq_some (isMark_iff.2 ⟨name, text, rfl, hdigit, hi⟩) hlength ?_
  intro j _ hj
  refine Bool.eq_false_iff.2 fun hmark => ?_
  have hle := le_of_isMark hdash hmark
  omega

/-- The scan of the bytes finds the parts that the characters have, and cuts no character. -/
theorem scanName_encode (s : String) :
    scanName (Utf8.encode s) = match splitNameVersion s with
      | some (name, version) => .ok (Utf8.encode name, Utf8.encode version)
      | none => .error .malformed := by
  cases hs : splitNameVersion s with
  | none =>
    have hdash := splitNameVersion_eq_none_iff.1 hs
    have hnone : lastMark (Utf8.encode s) ((Utf8.encode s).length - 1) = none := by
      refine lastMark_eq_none fun i _ => Bool.eq_false_iff.2 fun hmark => ?_
      obtain ⟨before, rest, hcs, hdigit, -⟩ := isMark_iff.1 hmark
      exact hdash ⟨before, rest, hcs, hdigit⟩
    rw [scanName, hnone]
  | some parts =>
    obtain ⟨name, version⟩ := parts
    obtain ⟨rfl, hdigit, hdash⟩ := splitNameVersion_eq_some_iff.1 hs
    have hbytes : Utf8.encode (name ++ "-" ++ version) =
        (name.toList ++ '-' :: version.toList).flatMap encodeChar := by
      rw [Utf8.encode, String.toList_append, String.toList_append, List.append_assoc]
      rfl
    rw [scanName, hbytes]
    -- The name ends at the mark, and the version starts behind it and goes up to the end.
    have hstart : At ((name.toList ++ '-' :: version.toList).flatMap encodeChar) 0
        (name.toList ++ '-' :: version.toList) := ⟨Nat.zero_le _, rfl⟩
    obtain ⟨hmark, hname⟩ := hstart.append
    have hversion := hmark.next (by decide)
    rw [Nat.zero_add] at hname hversion
    have hlength : (name.toList.flatMap encodeChar).length + 1 ≤
        ((name.toList ++ '-' :: version.toList).flatMap encodeChar).length - 1 := by
      have hle := hversion.1
      have hne : version.toList ≠ [] := by
        intro hnil
        rw [hnil] at hdigit
        cases hdigit
      have hend := mt hversion.eq_length_iff.1 hne
      omega
    rw [lastMark_append hdigit hdash hlength rfl]
    simp only [slice]
    rw [hname, hversion.slice?_length]
    rfl

/-- A name can be told from the version behind it, whatever the name is. The parts that are told are
the text with the dash between them, and the version part starts with a digit and has no dash before a
digit; only a text with no such dash has no parts. The scan of the bytes tells the same parts. -/
theorem splitNameVersion_exact :
    (∀ name text v, Version.parse text = .ok v →
      splitNameVersion (name ++ "-" ++ text) = some (name, text)) ∧
    (∀ s name text, splitNameVersion s = some (name, text) ↔
      s = name ++ "-" ++ text ∧ startsWithDigit text.toList = true ∧
        ¬ HasVersionDash text.toList) ∧
    (∀ s, splitNameVersion s = none ↔ ¬ HasVersionDash s.toList) ∧
    ∀ s, scanName (Utf8.encode s) = match splitNameVersion s with
      | some (name, text) => .ok (Utf8.encode name, Utf8.encode text)
      | none => .error .malformed :=
  ⟨fun name _ _ h => splitNameVersion_append h name, fun _ _ _ => splitNameVersion_eq_some_iff,
    fun _ => splitNameVersion_eq_none_iff, scanName_encode⟩

/-- A name with a version of its own, and with a character that is not ASCII. -/
theorem splitNameVersion_exact_versioned :
    Version.parse "2.0-r1" = .ok ⟨⟨2, []⟩, [⟨0, []⟩], none, [], [1]⟩ ∧
      splitNameVersion "gtk-ü-1.0-2.0-r1" = some ("gtk-ü-1.0", "2.0-r1") := by
  have hparse : Version.parse "2.0-r1" = .ok ⟨⟨2, []⟩, [⟨0, []⟩], none, [], [1]⟩ := by
    decide +kernel
  exact ⟨hparse, splitNameVersion_exact.1 "gtk-ü-1.0" "2.0-r1" _ hparse⟩

end PackageIndex
