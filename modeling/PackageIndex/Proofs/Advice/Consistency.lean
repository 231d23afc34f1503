import PackageIndex.Advice.Verdict
import PackageIndex.Proofs.Advice.Upgrade

/-!
# Upgrades and the verdict agree

The upgrades and the verdict on what is installed come from two passes over the installed versions.
The verdict is that all is equal iff every installed version has a known slot and is like the best
stable ebuild in it (`checkSlots_eq_equal_iff`). What is listed beside that verdict is therefore an
unstable ebuild, or one in a slot in which nothing is installed (`unstable_or_other_slot_of_equal`).
Without unstable ebuilds and without moves to other slots the two agree
(`checkSlots_agrees_with_upgrades`).
-/

namespace PackageIndex

namespace Verdict

variable {upgrade downgrade : Bool}

theorem ofFindings_eq_equal_iff :
    ofFindings upgrade downgrade = .equal ↔ upgrade = false ∧ downgrade = false := by
  cases upgrade <;> cases downgrade <;> decide

/-- A finding of an upgrade is in the verdict. -/
theorem ofFindings_of_upgrade (h : upgrade = true) :
    ofFindings upgrade downgrade = .upgrade ∨
      ofFindings upgrade downgrade = .upgradeAndDowngrade := by
  subst h
  cases downgrade with
  | false => exact .inl rfl
  | true => exact .inr rfl

/-- The verdict of findings other than that all is equal names an upgrade or a downgrade. -/
theorem ofFindings_of_ne_equal (h : ofFindings upgrade downgrade ≠ .equal) :
    ofFindings upgrade downgrade = .upgrade ∨ ofFindings upgrade downgrade = .downgrade ∨
      ofFindings upgrade downgrade = .upgradeAndDowngrade := by
  revert h
  cases upgrade <;> cases downgrade <;> decide

end Verdict

namespace Package

variable {p : Package} {s : Option InstalledSource} {source : InstalledSource}
  {policy : SlotPolicy} {unstable onlyInstalled : Bool} {place : Nat} {slot : Slot}
  {i : Installed} {e best : Ebuild}

/-! ## What an installed version asks for -/

theorem findings_of_unresolved (hr : p.resolveSlot? s i = none) :
    p.findings s i = ((p.best false).any fun best => decide (i.version < best.version), true) := by
  unfold findings
  rw [hr]

theorem findings_of_missing (hr : p.resolveSlot? s i = some slot)
    (hb : p.bestIn slot.name false = none) : p.findings s i = (false, true) := by
  unfold findings
  rw [hr]
  dsimp only
  rw [hb]

theorem findings_of_best (hr : p.resolveSlot? s i = some slot)
    (hb : p.bestIn slot.name false = some best) :
    p.findings s i =
      (decide (i.version < best.version), decide (best.version < i.version)) := by
  have hup : (compare best.version i.version == .gt) = decide (i.version < best.version) := by
    rw [Bool.eq_iff_iff, beq_iff_eq, decide_eq_true_iff]
    exact Version.compare_eq_gt_iff
  have hdown : (compare best.version i.version == .lt) = decide (best.version < i.version) := by
    rw [Bool.eq_iff_iff, beq_iff_eq, decide_eq_true_iff]
    exact Version.compare_eq_lt_iff
  unfold findings
  rw [hr]
  dsimp only
  rw [hb]
  dsimp only
  rw [hup, hdown]

/-- An installed version asks for nothing iff it is like the best stable ebuild of its slot. -/
theorem findings_eq_false_iff :
    (p.findings s i).1 = false ∧ (p.findings s i).2 = false ↔
      ∃ slot best, p.resolveSlot? s i = some slot ∧ p.bestIn slot.name false = some best ∧
        best.version.alike i.version = true := by
  cases hr : p.resolveSlot? s i with
  | none => simp [findings_of_unresolved hr]
  | some slot =>
    cases hb : p.bestIn slot.name false with
    | none => simp [findings_of_missing hr hb, hb]
    | some best =>
      rw [findings_of_best hr hb]
      simp [hb, Version.alike_iff_not_lt, and_comm]

/-! ## The verdict -/

theorem checkSlots_of_installed (hne : source.installed p ≠ []) :
    p.checkSlots (some source) onlyInstalled =
      .ofFindings ((source.installed p).any fun i => (p.findings (some source) i).1)
        ((source.installed p).any fun i => (p.findings (some source) i).2) := by
  unfold checkSlots installedIn
  dsimp only
  rw [if_neg (by simpa using hne), List.any_map, List.any_map]
  rfl

/-- Where something is installed, the verdict is that all is equal iff every installed version is
like the best stable ebuild of its slot. -/
theorem checkSlots_eq_equal_iff (hne : source.installed p ≠ []) :
    p.checkSlots (some source) onlyInstalled = .equal ↔
      ∀ i ∈ source.installed p, ∃ slot best, p.resolveSlot? (some source) i = some slot ∧
        p.bestIn slot.name false = some best ∧ best.version.alike i.version = true := by
  rw [checkSlots_of_installed hne, Verdict.ofFindings_eq_equal_iff, List.any_eq_false,
    List.any_eq_false, ← forall₂_and]
  refine forall₂_congr fun i _ => ?_
  rw [← findings_eq_false_iff, Bool.not_eq_true, Bool.not_eq_true]

theorem checkSlots_of_finding (hi : i ∈ source.installed p)
    (hf : (p.findings (some source) i).1 = true) :
    p.checkSlots (some source) onlyInstalled = .upgrade ∨
      p.checkSlots (some source) onlyInstalled = .upgradeAndDowngrade := by
  rw [checkSlots_of_installed (List.ne_nil_of_mem hi)]
  exact Verdict.ofFindings_of_upgrade (List.any_eq_true.2 ⟨i, hi, hf⟩)

/-! ## Candidates beside a verdict -/

/-- An ebuild that is accepted with unstable ones only is unstable. -/
theorem unstable_of_eligible (he : e.eligible unstable = true) (hs : e.eligible false = false) :
    unstable = true ∧ e.stability = .unstable := by
  unfold Ebuild.eligible at he hs
  cases unstable with
  | false =>
    rw [hs] at he
    cases he
  | true =>
    cases hm : e.isMasked with
    | true => simp [hm] at he
    | false =>
      cases ht : e.stability with
      | unstable => exact ⟨rfl, rfl⟩
      | stable => simp [hm, ht] at hs
      | absent => simp [ht] at he

/-- An ebuild that may be selected without unstable ones may be selected with them. -/
theorem eligibleAt_mono {j : Nat} (h : p.eligibleAt false j = true) :
    p.eligibleAt unstable j = true := by
  obtain ⟨u, hu, he⟩ := eligibleAt_iff.1 h
  refine eligibleAt_iff.2 ⟨u, hu, ?_⟩
  unfold Ebuild.eligible at he ⊢
  cases unstable with
  | false => exact he
  | true =>
    simp only [Bool.false_and, Bool.or_false, Bool.and_eq_true, Bool.true_and,
      Bool.or_eq_true] at he ⊢
    exact ⟨he.1, .inl he.2⟩

/-- The best ebuild of a slot is unstable, or it is the best one without unstable ebuilds too. -/
theorem unstable_or_bestIn {name : String} (hb : p.bestPlaceIn name unstable = some place)
    (he : p.ebuilds[place]? = some e) :
    (unstable = true ∧ e.stability = .unstable) ∨ p.bestIn name false = some e := by
  obtain ⟨⟨hslot, helig⟩, hub⟩ := bestPlaceIn_eq_some_iff.1 hb
  cases hs : e.eligible false with
  | false =>
    obtain ⟨u, hu, hue⟩ := eligibleAt_iff.1 helig
    cases he.symm.trans hu
    exact .inl (unstable_of_eligible hue hs)
  | true =>
    have hfalse : p.eligibleAt false place = true := eligibleAt_iff.2 ⟨e, he, hs⟩
    -- What is eligible without unstable ebuilds is among what is eligible with them.
    have hgreatest : p.bestPlaceIn name false = some place :=
      bestPlaceIn_eq_some_iff.2
        ⟨⟨hslot, hfalse⟩, fun j hj => hub ⟨hj.1, eligibleAt_mono hj.2⟩⟩
    exact .inr (bestIn_eq_some_iff.2 ⟨place, hgreatest, he⟩)

/-- What is listed while all is equal is an unstable ebuild, where unstable ones are accepted, or
an ebuild in a slot in which nothing is installed, where the package may move to another slot. -/
theorem unstable_or_other_slot_of_equal
    (hv : p.checkSlots (some source) onlyInstalled = .equal)
    (he : e ∈ p.upgrades source policy unstable) :
    (unstable = true ∧ e.stability = .unstable) ∨
      (policy p = true ∧ ∀ i ∈ source.installed p, ∀ slot,
        p.resolveSlot? (some source) i = some slot → slot.name ≠ e.slot.name) := by
  obtain ⟨place, hplace, he⟩ := mem_upgrades_iff.1 he
  obtain ⟨hc, hne, u, hu, hnot⟩ := mem_upgradePlaces_iff.1 hplace
  cases he.symm.trans hu
  have hequal := (checkSlots_eq_equal_iff hne).1 hv
  -- The best ebuild in the slot of an installed version is installed, unless it is unstable.
  have hslot : ∀ i ∈ source.installed p, ∀ slot, p.resolveSlot? (some source) i = some slot →
      p.bestPlaceIn slot.name unstable = some place → unstable = true ∧ e.stability = .unstable := by
    intro i hi slot hr hb
    rcases unstable_or_bestIn hb he with hun | hbest
    · exact hun
    · obtain ⟨slot', best, hr', hb', ha⟩ := hequal i hi
      cases hr.symm.trans hr'
      cases hbest.symm.trans hb'
      have hcontra := hnot i hi
      rw [Version.alike_symm ha] at hcontra
      cases hcontra
  rcases mem_candidates_iff.1 hc with ⟨i, hi, hup⟩ | ⟨hw, hb⟩
  · obtain ⟨slot, -, hr, hb, -, -⟩ := upgradeFor_eq_some_iff.1 hup
    exact .inl (hslot i hi slot hr hb)
  · by_cases hother : ∀ i ∈ source.installed p, ∀ slot,
        p.resolveSlot? (some source) i = some slot → slot.name ≠ e.slot.name
    · refine .inr ⟨?_, hother⟩
      -- All slots are known, so only the policy asks for the best ebuild of all.
      rcases wantsBest_iff.1 hw with ⟨i, hi, hnone⟩ | hp
      · obtain ⟨slot, -, hr, -⟩ := hequal i hi
        cases hr.symm.trans hnone
      · exact hp
    · push Not at hother
      obtain ⟨i, hi, slot, hr, hname⟩ := hother
      have hin := bestPlaceIn_of_bestPlace hb he
      rw [← hname] at hin
      exact .inl (hslot i hi slot hr hin)

/-- Without unstable ebuilds and moves to other slots nothing is listed while all is equal. -/
theorem upgrades_of_equal (hp : policy p = false)
    (hv : p.checkSlots (some source) onlyInstalled = .equal) :
    p.upgrades source policy false = [] := by
  refine List.eq_nil_iff_forall_not_mem.2 fun e he => ?_
  rcases unstable_or_other_slot_of_equal hv he with ⟨hu, -⟩ | ⟨hpol, -⟩
  · cases hu
  · rw [hp] at hpol
    cases hpol

theorem installed_ne_nil_of_upgrades (h : p.upgrades source policy unstable ≠ []) :
    source.installed p ≠ [] := by
  obtain ⟨e, he⟩ := List.exists_mem_of_ne_nil _ h
  obtain ⟨place, hplace, -⟩ := mem_upgrades_iff.1 he
  exact (mem_upgradePlaces_iff.1 hplace).2.1

/-- An installed version that has led to a candidate asks for an upgrade, if the candidate is above
all that is installed. -/
theorem finding_of_higher_candidate (hp : policy p = false)
    (hc : place ∈ p.candidates source policy false (source.installed p))
    (he : p.ebuilds[place]? = some e)
    (hhigh : ∀ i ∈ source.installed p, i.version < e.version) :
    ∃ i ∈ source.installed p, (p.findings (some source) i).1 = true := by
  rcases mem_candidates_iff.1 hc with ⟨i, hi, hup⟩ | ⟨hw, hb⟩
  · obtain ⟨slot, u, hr, hb, hu, -⟩ := upgradeFor_eq_some_iff.1 hup
    cases he.symm.trans hu
    refine ⟨i, hi, ?_⟩
    rw [findings_of_best hr (bestIn_eq_some_iff.2 ⟨place, hb, he⟩)]
    exact decide_eq_true (hhigh i hi)
  · -- The best ebuild of all is a candidate since the slot of some version cannot be told.
    rcases wantsBest_iff.1 hw with ⟨i, hi, hnone⟩ | hpolicy
    · refine ⟨i, hi, ?_⟩
      rw [findings_of_unresolved hnone, best_eq_some_iff.2 ⟨place, hb, he⟩]
      exact decide_eq_true (hhigh i hi)
    · rw [hp] at hpolicy
      cases hpolicy

/-- For stable versions and a package that is to stay in its slots the upgrades and the verdict
agree: where an upgrade is listed the verdict names an upgrade or a downgrade; where one is above
all that is installed, it names an upgrade; and where it is that all is equal, nothing is listed. -/
theorem checkSlots_agrees_with_upgrades (p : Package) (source : InstalledSource)
    (policy : SlotPolicy) (hp : policy p = false) (onlyInstalled : Bool) :
    (p.upgrades source policy false ≠ [] →
      p.checkSlots (some source) onlyInstalled = .upgrade ∨
        p.checkSlots (some source) onlyInstalled = .downgrade ∨
        p.checkSlots (some source) onlyInstalled = .upgradeAndDowngrade) ∧
    (∀ e ∈ p.upgrades source policy false, (∀ i ∈ source.installed p, i.version < e.version) →
      p.checkSlots (some source) onlyInstalled = .upgrade ∨
        p.checkSlots (some source) onlyInstalled = .upgradeAndDowngrade) ∧
    (p.checkSlots (some source) onlyInstalled = .equal →
      p.upgrades source policy false = []) := by
  refine ⟨fun hup => ?_, fun e he hhigh => ?_, upgrades_of_equal hp⟩
  · have hne : p.checkSlots (some source) onlyInstalled ≠ .equal := fun hv =>
      hup (upgrades_of_equal hp hv)
    rw [checkSlots_of_installed (installed_ne_nil_of_upgrades hup)] at hne ⊢
    exact Verdict.ofFindings_of_ne_equal hne
  · obtain ⟨place, hplace, he⟩ := mem_upgrades_iff.1 he
    obtain ⟨i, hi, hf⟩ :=
      finding_of_higher_candidate hp (mem_upgradePlaces_iff.1 hplace).1 he hhigh
    exact checkSlots_of_finding hi hf

-- Version 1 is installed; in which of the two slots of the package is not recorded.
def straySource : InstalledSource where
  installed _ := [{ version := ⟨⟨1, []⟩, [], none, [], []⟩ }]
  recordedSlot? _ _ := none

/-- The slot of the installed version cannot be told, so the best ebuild of all is listed. -/
theorem checkSlots_agrees_with_upgrades_stray :
    SlotPolicy.always false ivy = false ∧
      ivy.upgrades straySource (.always false) false = [stableEbuild 3 "3"] ∧
      (ivy.checkSlots (some straySource) true = .upgrade ∨
        ivy.checkSlots (some straySource) true = .upgradeAndDowngrade) ∧
      ivy.checkSlots (some straySource) true ≠ .equal := by
  have hup : ivy.upgrades straySource (.always false) false = [stableEbuild 3 "3"] := by decide
  have hhigh : ∀ i ∈ straySource.installed ivy, i.version < (stableEbuild 3 "3").version := by
    decide
  obtain ⟨-, hupgrade, hnone⟩ :=
    checkSlots_agrees_with_upgrades ivy straySource (.always false) rfl true
  have hmem : stableEbuild 3 "3" ∈ ivy.upgrades straySource (.always false) false := by
    rw [hup]
    exact List.mem_singleton_self _
  refine ⟨rfl, hup, hupgrade _ hmem hhigh, fun hv => ?_⟩
  have hnil := hnone hv
  rw [hup] at hnil
  cases hnil

end Package

end PackageIndex
