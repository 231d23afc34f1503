import Mathlib.Algebra.Order.Field.Rat
import Mathlib.Tactic.FieldSimp
import Mathlib.Tactic.Linarith
import Mathlib.Tactic.Positivity
import Mathlib.Tactic.Ring
import PackageIndex.Version.Order

/-!
# The order of versions in numbers

The comparison of versions looks at digits only. Here it is compared with the numbers that the digits
write, however many there are: a run without leading zeros is the greater number the longer it is, and
runs of one length are ordered like their digits; behind a decimal point the first digits that differ
decide, and zeros at the end say nothing. Main statement: the comparison is the first difference in a
list of comparisons of numbers (`compare_eq_firstDifference`).
-/

namespace PackageIndex

/-! ## Digit runs as numbers -/

namespace Digits

theorem foldl_value (n : Nat) (ds : List Digit) :
    ds.foldl (fun n d => 10 * n + d.val) n = n * 10 ^ ds.length + value ds := by
  induction ds generalizing n with
  | nil => simp [value]
  | cons d ds ih =>
    have hv : value (d :: ds) = (10 * 0 + d.val) * 10 ^ ds.length + value ds := ih _
    rw [List.foldl_cons, ih, hv, List.length_cons]
    ring

theorem value_cons (d : Digit) (ds : List Digit) :
    value (d :: ds) = d.val * 10 ^ ds.length + value ds := by
  rw [value, List.foldl_cons, foldl_value, Nat.mul_zero, Nat.zero_add]

theorem value_lt (ds : List Digit) : value ds < 10 ^ ds.length := by
  induction ds with
  | nil => decide
  | cons d ds ih =>
    have hd : d.val + 1 ≤ 10 := d.isLt
    have hm := Nat.mul_le_mul_right (10 ^ ds.length) hd
    rw [Nat.add_mul, Nat.one_mul] at hm
    rw [value_cons, List.length_cons, Nat.pow_succ']
    omega

theorem value_dropLeadingZeros (ds : List Digit) : value (dropLeadingZeros ds) = value ds := by
  induction ds with
  | nil => rfl
  | cons d ds ih =>
    by_cases hd : d = 0
    · subst hd
      rw [value_cons, Fin.val_zero, Nat.zero_mul, Nat.zero_add, ← ih]
      rfl
    · rw [dropLeadingZeros, List.dropWhile_cons_of_neg (by simpa using hd)]

/-- Without leading zeros, the number has as many digits as the run. -/
theorem le_value_of_ne_nil {ds : List Digit} (h : dropLeadingZeros ds ≠ []) :
    10 ^ ((dropLeadingZeros ds).length - 1) ≤ value (dropLeadingZeros ds) := by
  obtain ⟨d, es, he⟩ := List.exists_cons_of_ne_nil h
  have hd : d ≠ 0 := by
    have hn := List.head_dropWhile_not (· == (0 : Digit)) h
    simp only [show ds.dropWhile (· == 0) = d :: es from he, List.head_cons] at hn
    simpa using hn
  have hpos : 1 ≤ d.val := Nat.pos_of_ne_zero fun h0 => hd (Fin.ext h0)
  have hm := Nat.mul_le_mul_right (10 ^ es.length) hpos
  rw [he, value_cons, List.length_cons, Nat.add_sub_cancel]
  omega

theorem value_lt_of_length_lt {as bs : List Digit}
    (h : (dropLeadingZeros as).length < (dropLeadingZeros bs).length) : value as < value bs := by
  have hne : dropLeadingZeros bs ≠ [] := List.ne_nil_of_length_pos (Nat.zero_lt_of_lt h)
  have hpow : 10 ^ (dropLeadingZeros as).length ≤ 10 ^ ((dropLeadingZeros bs).length - 1) :=
    Nat.pow_le_pow_right (by decide) (by omega)
  rw [← value_dropLeadingZeros as, ← value_dropLeadingZeros bs]
  exact (value_lt _).trans_le (hpow.trans (le_value_of_ne_nil hne))

/-! ### Behind the decimal point -/

/-- The number that a digit run writes behind a decimal point. -/
def fraction (ds : List Digit) : ℚ :=
  value ds / 10 ^ ds.length

theorem fraction_nil : fraction [] = 0 := by
  simp [fraction, value]

theorem fraction_cons (d : Digit) (ds : List Digit) :
    fraction (d :: ds) = (d.val + fraction ds) / 10 := by
  have hpos : (10 : ℚ) ^ ds.length ≠ 0 := by positivity
  rw [fraction, fraction, value_cons, List.length_cons, pow_succ]
  push_cast
  field_simp

theorem fraction_nonneg (ds : List Digit) : 0 ≤ fraction ds := by
  rw [fraction]
  positivity

theorem fraction_lt_one (ds : List Digit) : fraction ds < 1 := by
  have hpos : (0 : ℚ) < 10 ^ ds.length := by positivity
  rw [fraction, div_lt_one hpos]
  exact_mod_cast value_lt ds

theorem fraction_cons_lt_of_lt {a b : Digit} (h : a < b) (as bs : List Digit) :
    fraction (a :: as) < fraction (b :: bs) := by
  have hle : (a.val : ℚ) + 1 ≤ b.val := by exact_mod_cast h
  have ha := fraction_lt_one as
  have hb := fraction_nonneg bs
  rw [fraction_cons, fraction_cons]
  linarith

/-- The first digits decide, and if they are equal, the digits after them. -/
theorem compares_fraction_cons (a b : Digit) {as bs : List Digit}
    (h : (compare as bs).Compares (fraction as) (fraction bs)) :
    (compare (a :: as) (b :: bs)).Compares (fraction (a :: as)) (fraction (b :: bs)) := by
  rw [List.compare_cons_cons]
  rcases lt_trichotomy a b with hlt | rfl | hlt
  · rw [compare_lt_iff_lt.2 hlt]
    exact fraction_cons_lt_of_lt hlt as bs
  · rw [compare_eq_iff_eq.2 rfl, Ordering.eq_then, fraction_cons, fraction_cons]
    generalize compare as bs = o at h ⊢
    cases o with
    | lt => exact show _ < _ by linarith [show fraction as < fraction bs from h]
    | eq => exact show _ = _ by rw [show fraction as = fraction bs from h]
    | gt => exact show _ < _ by linarith [show fraction bs < fraction as from h]
  · rw [compare_gt_iff_gt.2 hlt]
    exact fraction_cons_lt_of_lt hlt bs as

/-! ### The two comparisons -/

/-- Runs of one length are ordered like the numbers that they write. -/
theorem compares_value {as bs : List Digit} (h : as.length = bs.length) :
    (compare as bs).Compares (value as) (value bs) := by
  have hf : (compare as bs).Compares (fraction as) (fraction bs) := by
    induction as generalizing bs with
    | nil =>
      obtain rfl : bs = [] := List.length_eq_zero_iff.1 h.symm
      exact rfl
    | cons a as ih =>
      cases bs with
      | nil => cases h
      | cons b bs => exact compares_fraction_cons a b (ih (Nat.succ.inj h))
  have hpos : (0 : ℚ) < 10 ^ bs.length := by positivity
  rw [fraction, fraction, h] at hf
  generalize compare as bs = o at hf
  cases o with
  | lt => exact_mod_cast (div_lt_div_iff_of_pos_right hpos).1 hf
  | eq => exact_mod_cast (div_left_inj' hpos.ne').1 hf
  | gt => exact_mod_cast (div_lt_div_iff_of_pos_right hpos).1 hf

/-- The comparison of digit runs as natural numbers is that of the numbers. -/
theorem compareNatural_eq (as bs : List Digit) :
    compareNatural as bs = compare (value as) (value bs) := by
  refine ((compare_iff _ _).2 ?_).symm
  rw [compareNatural]
  rcases lt_trichotomy (dropLeadingZeros as).length (dropLeadingZeros bs).length with h | h | h
  · rw [compare_lt_iff_lt.2 h]
    exact value_lt_of_length_lt h
  · rw [compare_eq_iff_eq.2 h, Ordering.eq_then]
    have hv := compares_value h
    rw [value_dropLeadingZeros, value_dropLeadingZeros] at hv
    exact hv
  · rw [compare_gt_iff_gt.2 h]
    exact value_lt_of_length_lt h

/-- A run loses its last digits if they are zero, and keeps all digits before them. -/
theorem dropTrailingZeros_cons (d : Digit) (ds : List Digit) :
    (dropTrailingZeros (d :: ds) = [] ∧ d = 0 ∧ dropTrailingZeros ds = []) ∨
      (dropTrailingZeros (d :: ds) = d :: dropTrailingZeros ds ∧
        (d ≠ 0 ∨ dropTrailingZeros ds ≠ [])) := by
  rw [dropTrailingZeros]
  by_cases hd : d = 0 <;> by_cases hds : dropTrailingZeros ds = [] <;> simp [hd, hds]

theorem fraction_dropTrailingZeros (ds : List Digit) :
    fraction (dropTrailingZeros ds) = fraction ds := by
  induction ds with
  | nil => rfl
  | cons d ds ih =>
    rcases dropTrailingZeros_cons d ds with ⟨he, rfl, hds⟩ | ⟨he, -⟩
    · rw [hds, fraction_nil] at ih
      rw [he, fraction_nil, fraction_cons, ← ih]
      simp
    · rw [he, fraction_cons, fraction_cons, ih]

theorem fraction_pos {ds : List Digit} (h : dropTrailingZeros ds ≠ []) : 0 < fraction ds := by
  induction ds with
  | nil => exact absurd rfl h
  | cons d ds ih =>
    have hds := fraction_nonneg ds
    rw [fraction_cons]
    rcases dropTrailingZeros_cons d ds with ⟨he, -⟩ | ⟨-, hd | hne⟩
    · exact absurd he h
    · have hd : (0 : ℚ) < d.val := by
        exact_mod_cast Nat.pos_of_ne_zero fun h0 => hd (Fin.ext h0)
      linarith
    · have hd : (0 : ℚ) ≤ d.val := by positivity
      linarith [ih hne]

theorem fraction_of_dropTrailingZeros_eq_nil {ds : List Digit} (h : dropTrailingZeros ds = []) :
    fraction ds = 0 := by
  rw [← fraction_dropTrailingZeros, h, fraction_nil]

theorem compares_nil_fraction (ds : List Digit) :
    (compare [] (dropTrailingZeros ds)).Compares 0 (fraction ds) := by
  cases h : dropTrailingZeros ds with
  | nil => exact (fraction_of_dropTrailingZeros_eq_nil h).symm
  | cons d es => exact fraction_pos (by simp [h])

/-- Without the zeros at their ends, runs are ordered like the fractions that they write. -/
theorem compares_fraction (as bs : List Digit) :
    (compare (dropTrailingZeros as) (dropTrailingZeros bs)).Compares (fraction as) (fraction bs) := by
  induction as generalizing bs with
  | nil =>
    rw [fraction_nil]
    exact compares_nil_fraction bs
  | cons a as ih =>
    rcases dropTrailingZeros_cons a as with ⟨ha, -⟩ | ⟨ha, -⟩
    · rw [fraction_of_dropTrailingZeros_eq_nil ha, ha]
      exact compares_nil_fraction bs
    by_cases hb : dropTrailingZeros bs = []
    · rw [fraction_of_dropTrailingZeros_eq_nil hb, hb,
        Std.OrientedOrd.eq_swap (a := dropTrailingZeros (a :: as)), Ordering.compares_swap]
      exact compares_nil_fraction (a :: as)
    cases bs with
    | nil => exact absurd rfl hb
    | cons b bs =>
      rcases dropTrailingZeros_cons b bs with ⟨hb', -⟩ | ⟨hb', -⟩
      · exact absurd hb' hb
      · have hrec := ih bs
        rw [← fraction_dropTrailingZeros as, ← fraction_dropTrailingZeros bs] at hrec
        have hcons := compares_fraction_cons a b hrec
        rw [← ha, ← hb', fraction_dropTrailingZeros, fraction_dropTrailingZeros] at hcons
        exact hcons

/-- The comparison of digit runs as the digits of fractions is that of the fractions. -/
theorem compareFraction_eq (as bs : List Digit) :
    compareFraction as bs = compare (fraction as) (fraction bs) :=
  ((compare_iff _ _).2 (compares_fraction as bs)).symm

end Digits

/-! ## Versions -/

/-- The first comparison of a list that tells its sides apart. -/
def firstDifference (os : List Ordering) : Ordering :=
  (os.find? (· != .eq)).getD .eq

theorem firstDifference_cons (o : Ordering) (os : List Ordering) :
    firstDifference (o :: os) = o.then (firstDifference os) := by
  cases o <;> rfl

theorem firstDifference_singleton (o : Ordering) : firstDifference [o] = o := by
  cases o <;> rfl

theorem firstDifference_append (os os' : List Ordering) :
    firstDifference (os ++ os') = (firstDifference os).then (firstDifference os') := by
  induction os with
  | nil => rfl
  | cons o os ih =>
    rw [List.cons_append, firstDifference_cons, firstDifference_cons, ih, Ordering.then_assoc]

/-- Compares two components that are not the first: as fractions if one of them starts with zero, as
natural numbers otherwise. -/
def Numeral.compareNumbers (a b : Numeral) : Ordering :=
  if a.lead = 0 ∨ b.lead = 0 then compare (Digits.fraction a.digits) (Digits.fraction b.digits)
  else compare (Digits.value a.digits) (Digits.value b.digits)

theorem Numeral.compareLater_eq (a b : Numeral) : compareLater a b = compareNumbers a b := by
  rw [compareLater, compareNumbers, Digits.compareFraction_eq, Digits.compareNatural_eq]

theorem compare_succ (m n : Nat) : compare (m + 1) (n + 1) = compare m n := by
  simp [Nat.compare_eq_ite_lt]

/-- A lexicographic comparison looks at the places that both lists have, and then at the lengths. -/
theorem compareLex_eq_firstDifference {α : Type} (cmp : α → α → Ordering) (as bs : List α) :
    List.compareLex cmp as bs =
      (firstDifference (List.zipWith cmp as bs)).then (compare as.length bs.length) := by
  induction as generalizing bs with
  | nil =>
    cases bs with
    | nil => rfl
    | cons b bs => rfl
  | cons a as ih =>
    cases bs with
    | nil => rfl
    | cons b bs =>
      rw [List.compareLex_cons_cons, ih, List.zipWith_cons_cons, firstDifference_cons,
        List.length_cons, List.length_cons, compare_succ, Ordering.then_assoc]

namespace Suffix

/-- Compares two suffixes at the same place: the kinds, and then the numbers. -/
def comparisons (a b : Suffix) : List Ordering :=
  [Ord.compare a.kind.rank b.kind.rank,
    Ord.compare (Digits.value a.number) (Digits.value b.number)]

/-- Where one suffix list goes on behind the end of the other, a patch level is above the end, and
every other kind below it. -/
def compareSurplus (as bs : List Suffix) : Ordering :=
  match as.drop bs.length, bs.drop as.length with
  | a :: _, _ => if a.kind = .patch then .gt else .lt
  | [], b :: _ => if b.kind = .patch then .lt else .gt
  | [], [] => .eq

theorem compareLists_eq_firstDifference (as bs : List Suffix) :
    compareLists as bs =
      (firstDifference (List.zipWith comparisons as bs).flatten).then (compareSurplus as bs) := by
  induction as generalizing bs with
  | nil =>
    cases bs with
    | nil => rfl
    | cons b bs => rfl
  | cons a as ih =>
    cases bs with
    | nil => rfl
    | cons b bs =>
      have hs : compareSurplus (a :: as) (b :: bs) = compareSurplus as bs := rfl
      have hc : Suffix.compare a b = firstDifference (comparisons a b) := by
        rw [Suffix.compare, Digits.compareNatural_eq, comparisons, firstDifference_cons,
          firstDifference_singleton]
      rw [compareLists, ih, hc, hs, List.zipWith_cons_cons, List.flatten_cons,
        firstDifference_append, Ordering.then_assoc]

end Suffix

/-- The place of a letter among the characters; a missing letter comes before all of them. -/
def Letter.place (letter : Option Letter) : Nat :=
  letter.elim 0 fun l => l.toChar.toNat

theorem Letter.place_some (l : Letter) : place (some l) = 97 + l.val := by
  revert l; decide

theorem Letter.compare_place (a b : Option Letter) :
    Ord.compare (place a) (place b) = Ord.compare a b := by
  cases a with
  | none =>
    cases b with
    | none => rfl
    | some b =>
      rw [place_some]
      exact compare_lt_iff_lt.2 (show 0 < 97 + b.val by omega)
  | some a =>
    cases b with
    | none =>
      rw [place_some]
      exact compare_gt_iff_gt.2 (show 0 < 97 + a.val by omega)
    | some b =>
      refine (compare_iff _ _).2 ?_
      show (Ord.compare a b).Compares (place (some a)) (place (some b))
      rw [place_some, place_some]
      rcases lt_trichotomy a b with hlt | rfl | hlt
      · rw [compare_lt_iff_lt.2 hlt]
        exact Nat.add_lt_add_left hlt 97
      · rw [compare_eq_iff_eq.2 rfl]
        exact rfl
      · rw [compare_gt_iff_gt.2 hlt]
        exact Nat.add_lt_add_left hlt 97

namespace Version

/-- The comparisons that settle the order of two versions, in the order in which they count: the first
components, the later ones pairwise, their number, the letters, the suffixes pairwise, the first
suffix that only one side has, and the revisions. -/
def comparisons (a b : Version) : List Ordering :=
  [Ord.compare (Digits.value a.first.digits) (Digits.value b.first.digits)] ++
    List.zipWith Numeral.compareNumbers a.rest b.rest ++
    [Ord.compare (a.rest.length + 1) (b.rest.length + 1)] ++
    [Ord.compare (Letter.place a.letter) (Letter.place b.letter)] ++
    (List.zipWith Suffix.comparisons a.suffixes b.suffixes).flatten ++
    [Suffix.compareSurplus a.suffixes b.suffixes] ++
    [Ord.compare (Digits.value a.revision) (Digits.value b.revision)]

/-- Versions are ordered by the first difference between the numbers, letters and suffixes that they
are made of. Numbers have any size; the missing number of a suffix or revision is zero. -/
theorem compare_eq_firstDifference (a b : Version) :
    Ord.compare a b = firstDifference (comparisons a b) := by
  have hlater : Numeral.compareLater = Numeral.compareNumbers :=
    funext fun a => funext (Numeral.compareLater_eq a)
  have hrest : List.compareLex Numeral.compareLater a.rest b.rest =
      (firstDifference (List.zipWith Numeral.compareNumbers a.rest b.rest)).then
        (Ord.compare (a.rest.length + 1) (b.rest.length + 1)) := by
    rw [compareLex_eq_firstDifference, hlater, compare_succ]
  show Version.compare a b = _
  rw [Version.compare, Digits.compareNatural_eq, hrest, ← Letter.compare_place,
    Suffix.compareLists_eq_firstDifference, Digits.compareNatural_eq, comparisons]
  simp only [firstDifference_append, firstDifference_singleton, Ordering.then_assoc]

end Version

end PackageIndex
