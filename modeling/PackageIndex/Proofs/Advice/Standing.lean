import PackageIndex.Advice.Verdict
import PackageIndex.Proofs.Advice.SlotBests

/-!
# Two states of a package slot by slot

The comparison of two states of a package goes through the slots of each and stops at the first one
that is better, whatever is found in the slots after it. The verdict is still one on the best stable
ebuilds of the slots alone: it names the states that beat the other one in some slot, and where none
does, it tells whether some best ebuild has moved to another layer (`compareSlots_decided`).
-/

namespace PackageIndex.Package

variable {p q : Package} {slot : String} {g : SlotGroup} {gs : List SlotGroup} {e : Ebuild}

/-! ## One slot -/

/-- The package has a best stable ebuild in the slot, and the other one has none there or a strictly
lower one. -/
def Beats (p q : Package) (slot : String) : Prop :=
  ∃ mine, p.bestIn slot false = some mine ∧
    ∀ theirs, q.bestIn slot false = some theirs → theirs.version < mine.version

/-- The best stable ebuilds in the slot have the same version, and different keys. -/
def OriginDiffers (p q : Package) (slot : String) : Prop :=
  ∃ mine theirs, p.bestIn slot false = some mine ∧ q.bestIn slot false = some theirs ∧
    mine.version.alike theirs.version = true ∧ mine.overlay ≠ theirs.overlay

theorem OriginDiffers.symm (h : p.OriginDiffers q slot) : q.OriginDiffers p slot := by
  obtain ⟨mine, theirs, hmine, htheirs, halike, hkey⟩ := h
  exact ⟨theirs, mine, htheirs, hmine, Version.alike_symm halike, hkey.symm⟩

/-! ## What one slot adds to those after it -/

theorem standing_cons_of_beats (h : p.Beats q g.slot) : standing p q (g :: gs) = .better := by
  obtain ⟨mine, hmine, hlower⟩ := h
  unfold standing
  rw [hmine]
  cases htheirs : q.bestIn g.slot false with
  | none => rfl
  | some theirs =>
    have hgt : compare mine.version theirs.version = .gt :=
      Version.compare_eq_gt_iff.2 (hlower theirs htheirs)
    dsimp only
    rw [hgt]

theorem standing_cons_of_originDiffers (h : p.OriginDiffers q g.slot) :
    standing p q (g :: gs) =
      if standing p q gs = .noBetter then .otherOrigin else standing p q gs := by
  obtain ⟨mine, theirs, hmine, htheirs, halike, hkey⟩ := h
  have heq : compare mine.version theirs.version = .eq := Version.alike_iff_compare.1 halike
  rw [standing, hmine, htheirs]
  dsimp only
  rw [heq]
  cases standing p q gs <;> simp [hkey]

theorem standing_cons_of_neither (hbeats : ¬ p.Beats q g.slot)
    (horigin : ¬ p.OriginDiffers q g.slot) : standing p q (g :: gs) = standing p q gs := by
  rw [standing]
  cases hmine : p.bestIn g.slot false with
  | none => rfl
  | some mine =>
    cases htheirs : q.bestIn g.slot false with
    | none =>
      refine absurd ⟨mine, hmine, fun theirs h => ?_⟩ hbeats
      rw [htheirs] at h
      cases h
    | some theirs =>
      dsimp only
      cases hc : compare mine.version theirs.version with
      | lt => rfl
      | gt =>
        refine absurd ⟨mine, hmine, fun u hu => ?_⟩ hbeats
        cases htheirs.symm.trans hu
        exact Version.compare_eq_gt_iff.1 hc
      | eq =>
        have hkey : mine.overlay = theirs.overlay := by
          by_contra hne
          exact horigin ⟨mine, theirs, hmine, htheirs, Version.alike_iff_compare.2 hc, hne⟩
        dsimp only
        rw [if_pos hkey]
        cases standing p q gs <;> rfl

/-! ## Some slots -/

theorem standing_eq_better_iff : standing p q gs = .better ↔ ∃ g ∈ gs, p.Beats q g.slot := by
  induction gs with
  | nil => simp [standing]
  | cons g gs ih =>
    by_cases hbeats : p.Beats q g.slot
    · simp [standing_cons_of_beats hbeats, hbeats]
    · -- Another layer in this slot does not count beside a better slot after it.
      have hrest : standing p q (g :: gs) = .better ↔ standing p q gs = .better := by
        by_cases horigin : p.OriginDiffers q g.slot
        · rw [standing_cons_of_originDiffers horigin]
          cases standing p q gs <;> simp
        · rw [standing_cons_of_neither hbeats horigin]
      rw [hrest, ih]
      simp [hbeats]

theorem standing_eq_noBetter_iff :
    standing p q gs = .noBetter ↔ ∀ g ∈ gs, ¬ p.Beats q g.slot ∧ ¬ p.OriginDiffers q g.slot := by
  induction gs with
  | nil => simp [standing]
  | cons g gs ih =>
    by_cases hbeats : p.Beats q g.slot
    · simp [standing_cons_of_beats hbeats, hbeats]
    · by_cases horigin : p.OriginDiffers q g.slot
      · rw [standing_cons_of_originDiffers horigin]
        cases standing p q gs <;> simp [horigin]
      · rw [standing_cons_of_neither hbeats horigin, ih]
        simp [hbeats, horigin]

/-! ## All slots of a package -/

/-- A slot that has a best ebuild is gone through. -/
theorem exists_slotGroup_of_bestIn {unstable : Bool} (h : p.bestIn slot unstable = some e) :
    ∃ g ∈ p.slotGroups, g.slot = slot := by
  have hmem : slot ∈ p.slotGroups.map SlotGroup.slot :=
    mem_slots_slotGroups.2 ⟨e, mem_ebuilds_of_bestIn h, slot_of_bestIn h⟩
  exact List.mem_map.1 hmem

theorem Beats.exists_slotGroup (h : p.Beats q slot) : ∃ g ∈ p.slotGroups, g.slot = slot := by
  obtain ⟨mine, hmine, -⟩ := h
  exact exists_slotGroup_of_bestIn hmine

theorem OriginDiffers.exists_slotGroup (h : p.OriginDiffers q slot) :
    ∃ g ∈ p.slotGroups, g.slot = slot := by
  obtain ⟨mine, -, hmine, -⟩ := h
  exact exists_slotGroup_of_bestIn hmine

theorem standing_slotGroups_eq_better_iff :
    standing p q p.slotGroups = .better ↔ ∃ slot, p.Beats q slot := by
  rw [standing_eq_better_iff]
  constructor
  · rintro ⟨g, -, h⟩
    exact ⟨g.slot, h⟩
  · rintro ⟨slot, h⟩
    obtain ⟨g, hg, rfl⟩ := h.exists_slotGroup
    exact ⟨g, hg, h⟩

theorem standing_slotGroups_eq_noBetter_iff :
    standing p q p.slotGroups = .noBetter ↔
      (¬ ∃ slot, p.Beats q slot) ∧ ¬ ∃ slot, p.OriginDiffers q slot := by
  rw [standing_eq_noBetter_iff]
  constructor
  · intro h
    constructor
    · rintro ⟨slot, hbeats⟩
      obtain ⟨g, hg, rfl⟩ := hbeats.exists_slotGroup
      exact (h g hg).1 hbeats
    · rintro ⟨slot, horigin⟩
      obtain ⟨g, hg, rfl⟩ := horigin.exists_slotGroup
      exact (h g hg).2 horigin
  · rintro ⟨hbeats, horigin⟩ g -
    exact ⟨fun h => hbeats ⟨g.slot, h⟩, fun h => horigin ⟨g.slot, h⟩⟩

/-! ## The verdict -/

/-- The verdict is read off the two standings, whichever origins differ beside a better slot. -/
theorem compareSlots_iff_standings (p q : Package) :
    (p.compareSlots q = .upgradeAndDowngrade ↔
      standing p q p.slotGroups = .better ∧ standing q p q.slotGroups = .better) ∧
    (p.compareSlots q = .upgrade ↔
      standing p q p.slotGroups = .better ∧ standing q p q.slotGroups ≠ .better) ∧
    (p.compareSlots q = .downgrade ↔
      standing p q p.slotGroups ≠ .better ∧ standing q p q.slotGroups = .better) ∧
    (p.compareSlots q = .equal ↔
      standing p q p.slotGroups = .noBetter ∧ standing q p q.slotGroups = .noBetter) ∧
    (p.compareSlots q = .differsInOrigin ↔
      standing p q p.slotGroups ≠ .better ∧ standing q p q.slotGroups ≠ .better ∧
        ¬ (standing p q p.slotGroups = .noBetter ∧ standing q p q.slotGroups = .noBetter)) := by
  unfold compareSlots
  cases standing p q p.slotGroups <;> cases standing q p q.slotGroups <;> simp

/-- The verdict on two states of a package is decided by the best stable ebuilds of the slots. It
names an upgrade iff the first beats the second in some slot, and a downgrade iff the second beats
the first in some slot. Where neither does, the states differ in origin iff in some slot the same
version has different keys, and are equal otherwise. -/
theorem compareSlots_decided (p q : Package) :
    (p.compareSlots q = .upgradeAndDowngrade ↔
      (∃ slot, p.Beats q slot) ∧ ∃ slot, q.Beats p slot) ∧
    (p.compareSlots q = .upgrade ↔
      (∃ slot, p.Beats q slot) ∧ ¬ ∃ slot, q.Beats p slot) ∧
    (p.compareSlots q = .downgrade ↔
      (¬ ∃ slot, p.Beats q slot) ∧ ∃ slot, q.Beats p slot) ∧
    (p.compareSlots q = .differsInOrigin ↔
      (¬ ∃ slot, p.Beats q slot) ∧ (¬ ∃ slot, q.Beats p slot) ∧
        ∃ slot, p.OriginDiffers q slot) ∧
    (p.compareSlots q = .equal ↔
      (¬ ∃ slot, p.Beats q slot) ∧ (¬ ∃ slot, q.Beats p slot) ∧
        ¬ ∃ slot, p.OriginDiffers q slot) := by
  have horigin : (∃ slot, q.OriginDiffers p slot) ↔ ∃ slot, p.OriginDiffers q slot :=
    exists_congr fun slot => ⟨OriginDiffers.symm, OriginDiffers.symm⟩
  obtain ⟨hboth, hup, hdown, hequal, hdiffers⟩ := compareSlots_iff_standings p q
  simp only [ne_eq, standing_slotGroups_eq_better_iff, standing_slotGroups_eq_noBetter_iff,
    horigin] at hboth hup hdown hequal hdiffers
  refine ⟨hboth, hup, hdown, ?_, ?_⟩
  · rw [hdiffers]
    constructor
    · rintro ⟨hp, hq, hsome⟩
      refine ⟨hp, hq, ?_⟩
      by_contra hnone
      exact hsome ⟨⟨hp, hnone⟩, hq, hnone⟩
    · rintro ⟨hp, hq, hsome⟩
      exact ⟨hp, hq, fun hnone => hnone.1.2 hsome⟩
  · rw [hequal]
    constructor
    · rintro ⟨⟨hp, hnone⟩, hq, -⟩
      exact ⟨hp, hq, hnone⟩
    · rintro ⟨hp, hq, hnone⟩
      exact ⟨⟨hp, hnone⟩, hq, hnone⟩

end PackageIndex.Package
