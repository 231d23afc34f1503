import PackageIndex.Version.Order

/-!
# Versions up to spelling

The comparison of versions is a total preorder, and the versions that are alike are those that it
does not separate: they are on the same side of every other version. Versions are exactly the texts
of the grammar, so this holds of all of them, however components with and without leading zeros, and
suffix lists of different lengths, are mixed.
-/

namespace PackageIndex.Version

variable {a b c : Version}

/-- The comparison with exchanged sides is the reverse one. -/
theorem compare_swap (a b : Version) : compare a b = (compare b a).swap :=
  Std.OrientedCmp.eq_swap

theorem alike_iff_compare : a.alike b = true ↔ compare a b = .eq :=
  beq_iff_eq

theorem le_total (a b : Version) : a ≤ b ∨ b ≤ a := by
  by_cases h : a ≤ b
  · exact .inl h
  · exact .inr (le_of_not_le h)

/-- Versions are alike iff neither is below the other. -/
theorem alike_iff_le_and_le : a.alike b = true ↔ a ≤ b ∧ b ≤ a := by
  constructor
  · intro h
    have hab : compare a b = .eq := alike_iff_compare.1 h
    have hba : compare b a = .eq := Std.OrientedCmp.eq_comm.1 hab
    exact ⟨Ordering.isLE_of_eq_eq hab, Ordering.isLE_of_eq_eq hba⟩
  · rintro ⟨hab, hba⟩
    exact alike_iff_compare.2 (Std.OrientedCmp.isLE_antisymm hab hba)

theorem compare_eq_lt_iff : compare a b = .lt ↔ a < b :=
  Iff.rfl

theorem compare_eq_gt_iff : compare a b = .gt ↔ b < a :=
  Std.OrientedCmp.gt_iff_lt

/-- Versions are alike iff neither is strictly below the other. -/
theorem alike_iff_not_lt : a.alike b = true ↔ ¬ a < b ∧ ¬ b < a := by
  rw [alike_iff_compare, ← compare_eq_lt_iff, ← compare_eq_gt_iff]
  cases compare a b <;> simp

theorem le_iff_not_lt : a ≤ b ↔ ¬ b < a := by
  rw [← compare_eq_gt_iff]
  exact Ordering.isLE_iff_ne_gt

theorem not_lt_of_lt (h : a < b) : ¬ b < a :=
  le_iff_not_lt.1 (Ordering.isLE_of_eq_lt h)

theorem lt_of_le_of_alike_eq_false (hle : a ≤ b) (hne : a.alike b = false) : a < b := by
  by_cases hlt : a < b
  · exact hlt
  · rw [alike_iff_not_lt.2 ⟨hlt, le_iff_not_lt.1 hle⟩] at hne
    cases hne

theorem alike_refl (a : Version) : a.alike a = true :=
  alike_iff_le_and_le.2 ⟨le_refl a, le_refl a⟩

theorem alike_symm (h : a.alike b = true) : b.alike a = true :=
  alike_iff_le_and_le.2 (alike_iff_le_and_le.1 h).symm

theorem alike_trans (hab : a.alike b = true) (hbc : b.alike c = true) : a.alike c = true := by
  obtain ⟨hab, hba⟩ := alike_iff_le_and_le.1 hab
  obtain ⟨hbc, hcb⟩ := alike_iff_le_and_le.1 hbc
  exact alike_iff_le_and_le.2 ⟨le_trans hab hbc, le_trans hcb hba⟩

/-- Versions that are alike compare alike with every version. -/
theorem compare_congr_left (h : a.alike b = true) (c : Version) : compare a c = compare b c :=
  Std.TransCmp.congr_left (alike_iff_compare.1 h)

/-- The comparison of versions is a total preorder, whose equivalence is to be alike. -/
theorem compare_total_preorder :
    (∀ a b : Version, compare a b = (compare b a).swap) ∧
    (∀ a : Version, compare a a = .eq) ∧
    (∀ a b : Version, a ≤ b ∨ b ≤ a) ∧
    (∀ a b c : Version, a ≤ b → b ≤ c → a ≤ c) ∧
    (∀ a b : Version, a.alike b = true ↔ a ≤ b ∧ b ≤ a) ∧
    (Equivalence fun a b : Version => a.alike b = true) ∧
    (∀ a b c : Version, a.alike b = true → compare a c = compare b c) := by
  refine ⟨compare_swap, ?_, le_total, fun _ _ _ => le_trans, fun _ _ => alike_iff_le_and_le,
    ⟨alike_refl, alike_symm, alike_trans⟩, fun _ _ c h => compare_congr_left h c⟩
  intro a
  exact alike_iff_compare.1 (alike_refl a)

/-- The versions `1.0_rc`, `1.00_rc0` and `1.0`: the first two are alike, and both are below the
third. -/
theorem compare_total_preorder_spellings :
    ∃ a b c : Version, toString a = "1.0_rc" ∧ toString b = "1.00_rc0" ∧ toString c = "1.0" ∧
      (a.alike b = true ∧ compare a c = compare b c) ∧ a ≤ b ∧ b ≤ c ∧ a ≤ c := by
  let a : Version := ⟨⟨1, []⟩, [⟨0, []⟩], none, [⟨.rc, []⟩], []⟩
  let b : Version := ⟨⟨1, []⟩, [⟨0, [0]⟩], none, [⟨.rc, [0]⟩], []⟩
  let c : Version := ⟨⟨1, []⟩, [⟨0, []⟩], none, [], []⟩
  have hab : a.alike b = true := by decide
  have hle : a ≤ b := by decide
  have hlt : b ≤ c := by decide
  obtain ⟨-, -, -, htrans, -, -, hcongr⟩ := compare_total_preorder
  exact ⟨a, b, c, by decide, by decide, by decide, ⟨hab, hcongr a b c hab⟩, hle, hlt,
    htrans a b c hle hlt⟩

end PackageIndex.Version
