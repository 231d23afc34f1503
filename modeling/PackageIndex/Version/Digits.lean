/-!
# Digit runs

The numbers inside a version are runs of decimal digits of any length. They are kept as written, so
that leading zeros survive, and compared in two ways: as natural numbers (`compareNatural`) and as
the digits of a decimal fraction (`compareFraction`). Neither builds the number, and each is a total
preorder.
-/

namespace PackageIndex

/-- A decimal digit. -/
abbrev Digit := Fin 10

-- What makes `0` a digit, once for all modules.
instance Digit.neZero_ten : @NeZero Nat Zero.ofOfNat0 10 := ⟨Nat.succ_ne_zero 9⟩

namespace Digit

/-- The character of a digit. -/
def toChar (d : Digit) : Char :=
  Nat.digitChar d

/-- The digit that a character stands for; only the ten ASCII digits do. -/
def ofChar? (c : Char) : Option Digit :=
  if h : '0'.toNat ≤ c.toNat ∧ c.toNat ≤ '9'.toNat then
    some ⟨c.toNat - '0'.toNat, by have : '0'.toNat = 48 ∧ '9'.toNat = 57 := by decide
                                  omega⟩
  else none

@[simp] theorem ofChar?_toChar (d : Digit) : ofChar? d.toChar = some d := by
  revert d; decide

theorem toChar_of_ofChar? {c : Char} {d : Digit} (h : ofChar? c = some d) : d.toChar = c := by
  rw [ofChar?] at h
  split at h
  next hc =>
    have hz : '0'.toNat = 48 ∧ '9'.toNat = 57 := by decide
    obtain rfl := Option.some.inj h
    apply Char.toNat_inj.1
    rw [toChar, Nat.toNat_digitChar_of_lt_ten (by simp only; omega)]
    simp only
    omega
  next => cases h

end Digit

namespace Digits

/-- The digits from the first that is not zero on. -/
def dropLeadingZeros (ds : List Digit) : List Digit :=
  ds.dropWhile (· == 0)

/-- The digits up to the last that is not zero. -/
def dropTrailingZeros : List Digit → List Digit
  | [] => []
  | d :: ds =>
    let kept := dropTrailingZeros ds
    if kept.isEmpty && d == 0 then [] else d :: kept

/-- Compares digit runs as natural numbers; the empty run is zero. -/
def compareNatural (a b : List Digit) : Ordering :=
  let a := dropLeadingZeros a
  let b := dropLeadingZeros b
  (compare a.length b.length).then (compare a b)

/-- Compares digit runs as the digits after a decimal point. -/
def compareFraction (a b : List Digit) : Ordering :=
  compare (dropTrailingZeros a) (dropTrailingZeros b)

/-- The natural number that a digit run writes. -/
def value (ds : List Digit) : Nat :=
  ds.foldl (fun n d => 10 * n + d.val) 0

/-- The text of a digit run. -/
def toList (ds : List Digit) : List Char :=
  ds.map Digit.toChar

/-- The longest digit run at the front of a text, and the text after it. -/
def take : List Char → List Digit × List Char
  | [] => ([], [])
  | c :: cs =>
    match Digit.ofChar? c with
    | some d => ((d :: (take cs).1), (take cs).2)
    | none => ([], c :: cs)

/-! ## Laws -/

instance : Std.TransCmp compareNatural :=
  inferInstanceAs (Std.TransCmp (compareLex
    (compareOn fun a => (dropLeadingZeros a).length) (compareOn fun a => dropLeadingZeros a)))

instance : Std.TransCmp compareFraction :=
  inferInstanceAs (Std.TransCmp (compareOn fun a => dropTrailingZeros a))

/-- As a fraction, a run that starts with zero is below every run that does not. -/
theorem compareFraction_zero_cons {d : Digit} (hd : d ≠ 0) (as bs : List Digit) :
    compareFraction (0 :: as) (d :: bs) = .lt := by
  have hlt : compare (0 : Digit) d = .lt := by
    revert d; decide
  have hd' : (d == 0) = false := by simpa using hd
  simp only [compareFraction, dropTrailingZeros, hd', Bool.and_false, Bool.false_eq_true,
    ↓reduceIte]
  split
  · rfl
  · simp [List.compare_cons_cons, hlt]

/-- Taking the run off a text loses nothing. -/
theorem toList_take_append (cs : List Char) : toList (take cs).1 ++ (take cs).2 = cs := by
  induction cs with
  | nil => rfl
  | cons c cs ih =>
    rw [take]
    split
    next d hd =>
      simp only [toList, List.map_cons, List.cons_append, Digit.toChar_of_ofChar? hd]
      exact congrArg (c :: ·) ih
    next => rfl

/-- A text does not get longer by taking the run off it. -/
theorem length_take_le (cs : List Char) : (take cs).2.length ≤ cs.length := by
  have h := congrArg List.length (toList_take_append cs)
  simp at h
  omega

/-- What follows the run does not start with a digit. -/
def Ends (rest : List Char) : Prop :=
  ∀ c ∈ rest.head?, Digit.ofChar? c = none

/-- A written run is read back in full. -/
theorem take_toList_append {ds : List Digit} {rest : List Char} (h : Ends rest) :
    take (toList ds ++ rest) = (ds, rest) := by
  induction ds with
  | nil =>
    cases rest with
    | nil => rfl
    | cons c cs =>
      have hc : Digit.ofChar? c = none := h c (by simp)
      simp [toList, take, hc]
  | cons d ds ih =>
    have ih' : take (List.map Digit.toChar ds ++ rest) = (ds, rest) := ih
    simp [toList, take, ih']

end Digits

end PackageIndex
