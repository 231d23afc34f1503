import PackageIndex.Version.Basic

/-!
# The order of versions

Versions are compared part by part, and the first difference decides: the first components as
natural numbers, the later components pairwise, their number, the letters, the suffixes, the
revisions. A later component with a leading zero on either side is compared as a decimal fraction;
of two suffix lists of which one goes on, the longer one is above only if it goes on with a patch
level. Main statement: this is a total preorder (the instance of `Std.TransCmp`). It does not tell
apart `1.0`, `1.00` and `1.0-r0`.
-/

namespace PackageIndex

/-- Compares two components that are not the first. -/
def Numeral.compareLater (a b : Numeral) : Ordering :=
  if a.lead = 0 ∨ b.lead = 0 then Digits.compareFraction a.digits b.digits
  else Digits.compareNatural a.digits b.digits

/-- Compares two suffixes at the same place: by kind, then by number. -/
def Suffix.compare (a b : Suffix) : Ordering :=
  (Ord.compare a.kind.rank b.kind.rank).then (Digits.compareNatural a.number b.number)

/-- Compares suffix lists; the list that goes on is the greater one iff it goes on with a patch
level. -/
def Suffix.compareLists : List Suffix → List Suffix → Ordering
  | [], [] => .eq
  | a :: _, [] => if a.kind = .patch then .gt else .lt
  | [], b :: _ => if b.kind = .patch then .lt else .gt
  | a :: as, b :: bs => (Suffix.compare a b).then (compareLists as bs)

namespace Version

/-- Compares versions. -/
def compare (a b : Version) : Ordering :=
  (Digits.compareNatural a.first.digits b.first.digits).then <|
  (List.compareLex Numeral.compareLater a.rest b.rest).then <|
  (Ord.compare a.letter b.letter).then <|
  (Suffix.compareLists a.suffixes b.suffixes).then <|
  Digits.compareNatural a.revision b.revision

instance : Ord Version := ⟨Version.compare⟩

instance : LE Version := leOfOrd

instance : LT Version := ltOfOrd

instance (a b : Version) : Decidable (a ≤ b) :=
  inferInstanceAs (Decidable (Ord.compare a b).isLE)

instance (a b : Version) : Decidable (a < b) :=
  inferInstanceAs (Decidable (Ord.compare a b = .lt))

/-- The versions are the same in the order, however they are spelled. -/
def alike (a b : Version) : Bool :=
  Ord.compare a b == .eq

end Version

/-! ## The order is a total preorder -/

namespace Numeral

theorem compareLater_of_zero_of_ne {a b : Numeral} (ha : a.lead = 0) (hb : b.lead ≠ 0) :
    compareLater a b = .lt := by
  obtain ⟨_, as⟩ := a
  obtain ⟨d, bs⟩ := b
  subst ha
  simpa [compareLater, digits] using Digits.compareFraction_zero_cons hb as bs

instance : Std.OrientedCmp compareLater where
  eq_swap {a b} := by
    simp only [compareLater]
    by_cases h : a.lead = 0 ∨ b.lead = 0
    · rw [if_pos h, if_pos h.symm]
      exact Std.OrientedCmp.eq_swap
    · rw [if_neg h, if_neg (mt Or.symm h)]
      exact Std.OrientedCmp.eq_swap

theorem compareLater_of_ne_of_zero {a b : Numeral} (ha : a.lead ≠ 0) (hb : b.lead = 0) :
    compareLater a b = .gt :=
  Std.OrientedCmp.gt_iff_lt.2 (compareLater_of_zero_of_ne hb ha)

instance : Std.TransCmp compareLater where
  isLE_trans {a b c} hab hbc := by
    by_cases ha : a.lead = 0 <;> by_cases hb : b.lead = 0 <;> by_cases hc : c.lead = 0
    · simp only [compareLater, ha, hb, hc, or_true, ↓reduceIte] at *
      exact Std.TransCmp.isLE_trans hab hbc
    · rw [compareLater_of_zero_of_ne ha hc]; rfl
    · rw [compareLater_of_ne_of_zero hb hc] at hbc; cases hbc
    · rw [compareLater_of_zero_of_ne ha hc]; rfl
    · rw [compareLater_of_ne_of_zero ha hb] at hab; cases hab
    · rw [compareLater_of_ne_of_zero ha hb] at hab; cases hab
    · rw [compareLater_of_ne_of_zero hb hc] at hbc; cases hbc
    · simp only [compareLater, ha, hb, hc, or_self, ↓reduceIte] at *
      exact Std.TransCmp.isLE_trans hab hbc

end Numeral

namespace Suffix

/-- What stands at one place of a suffix list, the place after its end included: the end ranks
between the release candidates and the patch levels. -/
def markRank : Option Suffix → Nat
  | none => 2 * SuffixKind.rc.rank + 1
  | some s => 2 * s.kind.rank

/-- The number at one place of a suffix list. -/
def markNumber : Option Suffix → List Digit
  | none => []
  | some s => s.number

/-- Compares what stands at one place of two suffix lists. -/
def compareMarks : Option Suffix → Option Suffix → Ordering :=
  compareLex (compareOn markRank) fun a b => Digits.compareNatural (markNumber a) (markNumber b)

instance : Std.TransCmp fun a b => Digits.compareNatural (markNumber a) (markNumber b) where
  eq_swap := (inferInstance : Std.OrientedCmp Digits.compareNatural).eq_swap
  isLE_trans := (inferInstance : Std.TransCmp Digits.compareNatural).isLE_trans

instance : Std.TransCmp compareMarks :=
  inferInstanceAs (Std.TransCmp (compareLex _ _))

/-- A suffix list with its end as an entry of its own. -/
def marks (ss : List Suffix) : List (Option Suffix) :=
  ss.map some ++ [none]

theorem compareMarks_some_some (a b : Suffix) :
    compareMarks (some a) (some b) = compare a b := by
  simp only [compareMarks, compareLex, compareOn, markRank, markNumber, compare]
  congr 1
  cases a.kind <;> cases b.kind <;> rfl

theorem compareMarks_some_none (a : Suffix) :
    compareMarks (some a) none = if a.kind = .patch then .gt else .lt := by
  simp only [compareMarks, compareLex, compareOn, markRank]
  cases a.kind <;> rfl

theorem compareMarks_none_some (b : Suffix) :
    compareMarks none (some b) = if b.kind = .patch then .lt else .gt := by
  simp only [compareMarks, compareLex, compareOn, markRank]
  cases b.kind <;> rfl

/-- Suffix lists are compared place by place, their ends included. -/
theorem compareLists_eq (as bs : List Suffix) :
    compareLists as bs = List.compareLex compareMarks (marks as) (marks bs) := by
  induction as generalizing bs with
  | nil =>
    cases bs with
    | nil => rfl
    | cons b bs =>
      simp only [compareLists, marks, List.map_nil, List.nil_append, List.map_cons,
        List.cons_append, List.compareLex_cons_cons, compareMarks_none_some]
      split <;> rfl
  | cons a as ih =>
    cases bs with
    | nil =>
      simp only [compareLists, marks, List.map_nil, List.nil_append, List.map_cons,
        List.cons_append, List.compareLex_cons_cons, compareMarks_some_none]
      split <;> rfl
    | cons b bs =>
      simp only [compareLists, marks, List.map_cons, List.cons_append,
        List.compareLex_cons_cons, compareMarks_some_some, ih bs]

instance : Std.TransCmp compareLists where
  eq_swap := by
    intro a b
    simp only [compareLists_eq]
    exact Std.OrientedCmp.eq_swap
  isLE_trans := by
    intro a b c
    simp only [compareLists_eq]
    exact Std.TransCmp.isLE_trans

end Suffix

namespace Version

/-- A comparison of values by a comparison of one of their parts. -/
theorem transCmp_on {α β : Type} (cmp : β → β → Ordering) [Std.TransCmp cmp] (f : α → β) :
    Std.TransCmp fun a b => cmp (f a) (f b) where
  eq_swap := Std.OrientedCmp.eq_swap
  isLE_trans := Std.TransCmp.isLE_trans

instance : Std.TransCmp Version.compare := by
  have h₁ := transCmp_on Digits.compareNatural fun v : Version => v.first.digits
  have h₂ := transCmp_on (List.compareLex Numeral.compareLater) fun v : Version => v.rest
  have h₃ := transCmp_on (Ord.compare (α := Option Letter)) fun v : Version => v.letter
  have h₄ := transCmp_on Suffix.compareLists fun v : Version => v.suffixes
  have h₅ := transCmp_on Digits.compareNatural fun v : Version => v.revision
  exact inferInstanceAs (Std.TransCmp (compareLex _ (compareLex _ (compareLex _ (compareLex _ _)))))

instance : Std.TransOrd Version :=
  inferInstanceAs (Std.TransCmp Version.compare)

theorem le_refl (a : Version) : a ≤ a :=
  (Std.ReflCmp.isLE_rfl : (Version.compare a a).isLE)

theorem le_trans {a b c : Version} (hab : a ≤ b) (hbc : b ≤ c) : a ≤ c :=
  (Std.TransCmp.isLE_trans hab hbc : (Version.compare a c).isLE)

theorem le_of_not_le {a b : Version} (h : ¬ a ≤ b) : b ≤ a := by
  show (Ord.compare b a).isLE
  rw [Std.OrientedCmp.lt_of_not_isLE h]
  rfl

end Version

end PackageIndex
