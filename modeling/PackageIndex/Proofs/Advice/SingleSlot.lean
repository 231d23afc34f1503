import Mathlib.Data.List.Find
import PackageIndex.Proofs.Advice.Consistency
import PackageIndex.Proofs.Advice.FirstInstalled
import PackageIndex.Proofs.Advice.Standing

/-!
# Packages with a single slot

In a package whose ebuilds are all in one slot the best stable ebuild of the slot is that of all. So
it makes no difference whether two states of it are compared slot by slot or by their best ebuilds,
nor whether its one installed version is held against its slot or against the best ebuild of all
(`verdicts_of_single_slot`).
-/

namespace PackageIndex.Package

variable {p q : Package} {slot other : String} {unstable onlyInstalled slotCounts : Bool}
  {s : Option InstalledSource} {i : Installed} {e best : Ebuild}

/-- All ebuilds are in the slot. -/
def SingleSlot (p : Package) (slot : String) : Prop :=
  ∀ e ∈ p.ebuilds, e.slot.name = slot

/-! ## Its best ebuilds -/

theorem SingleSlot.bestIn_eq_best (h : p.SingleSlot slot) (unstable : Bool) :
    p.bestIn slot unstable = p.best unstable := by
  rw [bestIn_eq_find?, best_eq_find?]
  refine List.find?_congr fun e he => ?_
  have hslot : e.slot.name = slot := h e (List.mem_reverse.1 he)
  simp [hslot]

theorem SingleSlot.slot_of_best (h : p.SingleSlot slot) (hbest : p.best unstable = some e) :
    e.slot.name = slot :=
  h e (mem_ebuilds_of_best hbest)

theorem SingleSlot.eq_of_bestIn (h : p.SingleSlot slot) (hbest : p.bestIn other unstable = some e) :
    other = slot := by
  rw [← slot_of_bestIn hbest]
  exact h e (mem_ebuilds_of_bestIn hbest)

/-! ## Two states -/

theorem SingleSlot.exists_beats_iff (h : p.SingleSlot slot) :
    (∃ other, p.Beats q other) ↔ p.Beats q slot := by
  constructor
  · rintro ⟨other, hbeats⟩
    have ⟨mine, hmine, _⟩ := hbeats
    rw [← h.eq_of_bestIn hmine]
    exact hbeats
  · intro hbeats
    exact ⟨slot, hbeats⟩

theorem SingleSlot.exists_originDiffers_iff (h : p.SingleSlot slot) :
    (∃ other, p.OriginDiffers q other) ↔ p.OriginDiffers q slot := by
  constructor
  · rintro ⟨other, horigin⟩
    have ⟨mine, _, hmine, _⟩ := horigin
    rw [← h.eq_of_bestIn hmine]
    exact horigin
  · intro horigin
    exact ⟨slot, horigin⟩

theorem Standing.eq_of_iff {a b : Standing} (hbetter : a = .better ↔ b = .better)
    (hnone : a = .noBetter ↔ b = .noBetter) : a = b := by
  cases a <;> cases b <;> simp_all

/-- Going through the slots is to look at the one slot, even if the package has no ebuilds. -/
theorem SingleSlot.standing_slotGroups (h : p.SingleSlot slot) (q : Package) :
    standing p q p.slotGroups = standing p q [⟨slot, []⟩] := by
  refine Standing.eq_of_iff ?_ ?_
  · rw [standing_slotGroups_eq_better_iff, standing_eq_better_iff, h.exists_beats_iff]
    simp
  · rw [standing_slotGroups_eq_noBetter_iff, standing_eq_noBetter_iff, h.exists_beats_iff,
      h.exists_originDiffers_iff]
    simp

theorem compareBest_eq_compareSlots (hp : p.SingleSlot slot) (hq : q.SingleSlot slot)
    (slotCounts : Bool) : p.compareBest q slotCounts = p.compareSlots q := by
  unfold compareBest compareSlots
  rw [hp.standing_slotGroups q, hq.standing_slotGroups p]
  simp only [standing, hp.bestIn_eq_best, hq.bestIn_eq_best]
  cases hmine : p.best false with
  | none => cases q.best false <;> rfl
  | some mine =>
    cases htheirs : q.best false with
    | none => rfl
    | some theirs =>
      have hslot : mine.slot.name = theirs.slot.name :=
        (hp.slot_of_best hmine).trans (hq.slot_of_best htheirs).symm
      have hswap : compare theirs.version mine.version =
          (compare mine.version theirs.version).swap :=
        Version.compare_swap _ _
      dsimp only
      rw [hswap]
      cases compare mine.version theirs.version with
      | lt => rfl
      | gt => rfl
      | eq =>
        by_cases hkey : mine.overlay = theirs.overlay
        · simp [hkey, hslot]
        · simp [hkey, Ne.symm hkey]

/-! ## What is installed -/

/-- An installed version of the slot stands to the best ebuild of all as to that of the slot. -/
theorem checkAgainst_singleton (h : p.SingleSlot slot) (hbest : p.best false = some best)
    (hlies : p.LiesIn s i slot) (slotCounts : Bool) :
    p.checkAgainst s slotCounts best [i] =
      .ofFindings (p.findings s i).1 (p.findings s i).2 := by
  have hsame : p.LiesIn s i best.slot.name := h.slot_of_best hbest ▸ hlies
  obtain ⟨found, hr, rfl⟩ := hlies
  have hin : p.bestIn found.name false = some best := (h.bestIn_eq_best false).trans hbest
  rw [findings_of_best hr hin]
  by_cases hlower : i.version < best.version
  · have hnot : ¬ best.version < i.version := Version.not_lt_of_lt hlower
    rw [checkAgainst_cons_of_lower hlower]
    simp [checkAgainst, Verdict.ofFindings, hlower, hnot]
  · by_cases hhigher : best.version < i.version
    · rw [checkAgainst_cons_of_higher hhigher]
      simp [Verdict.ofFindings, hlower, hhigher]
    · have halike : i.version.alike best.version = true :=
        Version.alike_iff_not_lt.2 ⟨hlower, hhigher⟩
      rcases checkAgainst_cons_of_alike halike with ⟨hequal, -⟩ | ⟨-, -, hnot⟩
      · rw [hequal]
        simp [Verdict.ofFindings, hlower, hhigher]
      · exact absurd hsame hnot

theorem checkBest_eq_checkSlots (h : p.SingleSlot slot) (hone : (p.installedIn s).length ≤ 1)
    (hlies : ∀ i ∈ p.installedIn s, p.LiesIn s i slot) (onlyInstalled slotCounts : Bool) :
    p.checkBest s onlyInstalled slotCounts = p.checkSlots s onlyInstalled := by
  unfold checkBest checkSlots
  cases hinstalled : p.installedIn s with
  | nil => rfl
  | cons i rest =>
    rw [hinstalled] at hone hlies
    have hi : p.LiesIn s i slot := hlies i List.mem_cons_self
    obtain rfl : rest = [] := List.eq_nil_of_length_eq_zero (by simpa using hone)
    cases hbest : p.best false with
    | none =>
      obtain ⟨found, hr, rfl⟩ := hi
      have hin : p.bestIn found.name false = none := (h.bestIn_eq_best false).trans hbest
      simp [findings_of_missing hr hin, Verdict.ofFindings]
    | some best => simp [checkAgainst_singleton h hbest hi]

/-- Let all ebuilds of two packages be in one slot. Then it makes no difference whether the packages
are compared by their best ebuilds or slot by slot, nor whether at most one installed version, which
is known to be in the slot, is checked against the best ebuild or against those of the slots. -/
theorem verdicts_of_single_slot (p q : Package) (slot : String) (hp : p.SingleSlot slot)
    (hq : q.SingleSlot slot) :
    (∀ slotCounts, p.compareBest q slotCounts = p.compareSlots q) ∧
    ∀ s : Option InstalledSource, (p.installedIn s).length ≤ 1 →
      (∀ i ∈ p.installedIn s, p.LiesIn s i slot) →
        ∀ onlyInstalled slotCounts,
          p.checkBest s onlyInstalled slotCounts = p.checkSlots s onlyInstalled := by
  refine ⟨compareBest_eq_compareSlots hp hq, fun s hone hlies onlyInstalled slotCounts => ?_⟩
  exact checkBest_eq_checkSlots hp hone hlies onlyInstalled slotCounts

-- One stable version, from a layer with the given key.
def moss (overlay : OverlayKey) : Package :=
  { category := "dev-libs"
    name := "moss"
    releases := .ofList [{ stableEbuild 2 "0" with overlay }] }

/-- The two states have one version from different layers, and a lower version is installed. -/
theorem verdicts_of_single_slot_moss :
    (moss 0).SingleSlot "0" ∧ (moss 1).SingleSlot "0" ∧
      ((moss 0).installedIn (some ivySource)).length = 1 ∧
      (∀ i ∈ (moss 0).installedIn (some ivySource), (moss 0).LiesIn (some ivySource) i "0") ∧
      (moss 0).compareSlots (moss 1) = .differsInOrigin ∧
      (moss 0).compareBest (moss 1) true = (moss 0).compareSlots (moss 1) ∧
      (moss 0).checkSlots (some ivySource) true = .upgrade ∧
      (moss 0).checkBest (some ivySource) true true =
        (moss 0).checkSlots (some ivySource) true := by
  have hsingle : ∀ key, (moss key).SingleSlot "0" := by
    intro key e he
    obtain rfl := List.mem_singleton.1 he
    rfl
  have hlies : ∀ i ∈ (moss 0).installedIn (some ivySource),
      (moss 0).LiesIn (some ivySource) i "0" := by
    intro i hi
    obtain rfl := List.mem_singleton.1 hi
    exact ⟨⟨"0", none⟩, rfl, rfl⟩
  obtain ⟨hcompare, hcheck⟩ := verdicts_of_single_slot (moss 0) (moss 1) "0" (hsingle 0) (hsingle 1)
  exact ⟨hsingle 0, hsingle 1, rfl, hlies, by decide, hcompare true, by decide,
    hcheck (some ivySource) (Nat.le_refl 1) hlies true true⟩

end PackageIndex.Package
