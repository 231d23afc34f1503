import PackageIndex.Advice.Upgrade
import PackageIndex.Proofs.Advice.Best
import PackageIndex.Proofs.Version.Preorder

/-!
# Upgrades one by one and together

The places to upgrade to can be listed, and a single place can be asked about. Both go by the best
ebuild in the slot of each installed version and by the best ebuild of all; the list also leaves out
what is installed. So a place is in the list iff the answer about it is yes and no version like that
of its ebuild is installed (`mem_upgradePlaces_iff_isUpgrade`).
-/

namespace PackageIndex.Package

variable {p : Package} {source : InstalledSource} {policy : SlotPolicy} {unstable : Bool}
  {installed : List Installed} {place : Nat} {i : Installed} {e : Ebuild}

/-! ## What an installed version contributes -/

theorem upgradeFor_eq_some_iff :
    p.upgradeFor source unstable i = some place ↔
      ∃ slot e, p.resolveSlot? (some source) i = some slot ∧
        p.bestPlaceIn slot.name unstable = some place ∧ p.ebuilds[place]? = some e ∧
        e.version.alike i.version = false := by
  have hlast : ∀ (e : Ebuild) (n : Nat),
      (if e.version.alike i.version then none else some n) = some place ↔
        e.version.alike i.version = false ∧ n = place := by
    intro e n
    split
    next h => simp [h]
    next h => simp [h]
  simp only [upgradeFor, bind, Option.bind_eq_some_iff, hlast]
  constructor
  · rintro ⟨slot, hs, n, hn, e, he, ha, rfl⟩
    exact ⟨slot, e, hs, hn, he, ha⟩
  · rintro ⟨slot, e, hs, hn, he, ha⟩
    exact ⟨slot, hs, place, hn, e, he, ha, rfl⟩

/-- The best place, if there is one, is the place in question. -/
theorem any_eq_place_iff {best : Option Nat} :
    (best.any fun b => some place == some b) = true ↔ best = some place := by
  rw [Option.any_eq_true]
  constructor
  · rintro ⟨b, rfl, hb⟩
    exact (beq_iff_eq.1 hb).symm
  · intro h
    exact ⟨place, h, beq_self_eq_true _⟩

theorem isUpgradeFor_iff :
    p.isUpgradeFor source unstable (some place) i = true ↔
      ∃ slot, p.resolveSlot? (some source) i = some slot ∧
        p.bestPlaceIn slot.name unstable = some place := by
  rw [isUpgradeFor]
  cases p.resolveSlot? (some source) i with
  | none => simp
  | some slot =>
    dsimp only
    rw [any_eq_place_iff]
    simp

/-! ## The places together -/

theorem wantsBest_iff :
    p.wantsBest source policy installed = true ↔
      (∃ i ∈ installed, p.resolveSlot? (some source) i = none) ∨ policy p = true := by
  unfold wantsBest
  rw [Bool.or_eq_true, List.any_eq_true]
  simp only [Option.isNone_iff_eq_none]

theorem mem_candidates_iff :
    place ∈ p.candidates source policy unstable installed ↔
      (∃ i ∈ installed, p.upgradeFor source unstable i = some place) ∨
        p.wantsBest source policy installed = true ∧ p.bestPlace unstable = some place := by
  rw [candidates, List.mem_append, List.mem_filterMap]
  refine or_congr Iff.rfl ?_
  split
  next h => simp [h]
  next h => simp [h]

theorem installedAt_eq_false_iff (he : p.ebuilds[place]? = some e) :
    p.installedAt installed place = false ↔
      ∀ i ∈ installed, i.version.alike e.version = false := by
  simp [installedAt, he]

/-- The listed places are the candidates with an ebuild whose version is not installed. -/
theorem mem_upgradePlaces_iff :
    place ∈ p.upgradePlaces source policy unstable ↔
      place ∈ p.candidates source policy unstable (source.installed p) ∧
        source.installed p ≠ [] ∧ ∃ e, p.ebuilds[place]? = some e ∧
          ∀ i ∈ source.installed p, i.version.alike e.version = false := by
  have hempty : (source.installed p).isEmpty = true ↔ source.installed p = [] := List.isEmpty_iff
  rw [upgradePlaces]
  dsimp only
  split
  next h => simp [hempty.1 h]
  next h =>
    have hne : source.installed p ≠ [] := fun h' => h (hempty.2 h')
    rw [List.mem_filter, Bool.and_eq_true, List.contains_iff_mem, Bool.not_eq_true', List.mem_range]
    constructor
    · rintro ⟨hlt, hc, hi⟩
      have he := List.getElem?_eq_getElem hlt
      exact ⟨hc, hne, _, he, (installedAt_eq_false_iff he).1 hi⟩
    · rintro ⟨hc, -, e, he, hi⟩
      exact ⟨(List.getElem?_eq_some_iff.1 he).1, hc, (installedAt_eq_false_iff he).2 hi⟩

theorem mem_upgrades_iff :
    e ∈ p.upgrades source policy unstable ↔
      ∃ place ∈ p.upgradePlaces source policy unstable, p.ebuilds[place]? = some e :=
  List.mem_filterMap

/-! ## One place -/

theorem isUpgrade_iff :
    p.isUpgrade true (some place) source policy unstable = true ↔
      (∃ i ∈ source.installed p, ∃ slot, p.resolveSlot? (some source) i = some slot ∧
        p.bestPlaceIn slot.name unstable = some place) ∨
      p.wantsBest source policy (source.installed p) = true ∧
        p.bestPlace unstable = some place := by
  simp only [isUpgrade, if_true, Bool.or_eq_true, Bool.and_eq_true, List.any_eq_true,
    isUpgradeFor_iff, any_eq_place_iff]

/-- A place whose version is not installed is a candidate iff the answer about it is yes. The list of
candidates leaves out the best ebuild of a slot where its version is the installed one; the answer
does not. -/
theorem mem_candidates_iff_isUpgrade (he : p.ebuilds[place]? = some e)
    (hi : ∀ i ∈ source.installed p, i.version.alike e.version = false) :
    place ∈ p.candidates source policy unstable (source.installed p) ↔
      p.isUpgrade true (some place) source policy unstable = true := by
  rw [mem_candidates_iff, isUpgrade_iff]
  refine or_congr ⟨?_, ?_⟩ Iff.rfl
  · rintro ⟨i, hmem, hu⟩
    obtain ⟨slot, -, hs, hb, -, -⟩ := upgradeFor_eq_some_iff.1 hu
    exact ⟨i, hmem, slot, hs, hb⟩
  · rintro ⟨i, hmem, slot, hs, hb⟩
    have hne : e.version.alike i.version = false := by
      by_contra h
      have hsymm := Version.alike_symm (Bool.not_eq_false _ ▸ h)
      rw [hi i hmem] at hsymm
      cases hsymm
    exact ⟨i, hmem, upgradeFor_eq_some_iff.2 ⟨slot, e, hs, hb, he, hne⟩⟩

theorem mem_upgradePlaces_iff_of_ebuild (hne : source.installed p ≠ [])
    (he : p.ebuilds[place]? = some e) :
    place ∈ p.upgradePlaces source policy unstable ↔
      p.isUpgrade true (some place) source policy unstable = true ∧
        ∀ i ∈ source.installed p, i.version.alike e.version = false := by
  rw [mem_upgradePlaces_iff]
  constructor
  · rintro ⟨hc, -, u, hu, hi⟩
    cases he.symm.trans hu
    exact ⟨(mem_candidates_iff_isUpgrade he hi).1 hc, hi⟩
  · rintro ⟨hu, hi⟩
    exact ⟨(mem_candidates_iff_isUpgrade he hi).2 hu, hne, e, he, hi⟩

/-- Where something is installed, the list of upgrades and the answers about single ebuilds agree: a
place is listed iff the answer about it is yes and no version like that of its ebuild is installed.
The ebuilds that are listed are those at such places. -/
theorem mem_upgradePlaces_iff_isUpgrade (p : Package) (source : InstalledSource)
    (policy : SlotPolicy) (unstable : Bool) (hne : source.installed p ≠ []) :
    (∀ place e, p.ebuilds[place]? = some e →
      (place ∈ p.upgradePlaces source policy unstable ↔
        p.isUpgrade true (some place) source policy unstable = true ∧
          ∀ i ∈ source.installed p, i.version.alike e.version = false)) ∧
    ∀ e, e ∈ p.upgrades source policy unstable ↔
      ∃ place, p.ebuilds[place]? = some e ∧
        p.isUpgrade true (some place) source policy unstable = true ∧
          ∀ i ∈ source.installed p, i.version.alike e.version = false := by
  refine ⟨fun place e => mem_upgradePlaces_iff_of_ebuild hne, fun e => ?_⟩
  rw [mem_upgrades_iff]
  constructor
  · rintro ⟨place, hmem, he⟩
    exact ⟨place, he, (mem_upgradePlaces_iff_of_ebuild hne he).1 hmem⟩
  · rintro ⟨place, he, hu⟩
    exact ⟨place, (mem_upgradePlaces_iff_of_ebuild hne he).2 hu, he⟩

-- A stable ebuild with a version of one number.
def stableEbuild (number : Digit) (slot : String) : Ebuild :=
  { version := ⟨⟨number, []⟩, [], none, [], []⟩, slot := ⟨slot, none⟩, stability := .stable }

-- Two copies of one ebuild in a slot, and a higher one in another.
def ivy : Package :=
  { category := "dev-libs"
    name := "ivy"
    releases := .ofList [stableEbuild 2 "0", stableEbuild 2 "0", stableEbuild 3 "3"] }

-- Version 1 is installed in the slot of the copies.
def ivySource : InstalledSource where
  installed _ := [{ version := ⟨⟨1, []⟩, [], none, [], []⟩ }]
  recordedSlot? _ _ := some ⟨"0", none⟩

/-- Of two copies of an ebuild only the later one is an upgrade, and only its place is listed. -/
theorem mem_upgradePlaces_iff_isUpgrade_ivy :
    ivySource.installed ivy ≠ [] ∧ ivy.ebuilds[0]? = ivy.ebuilds[1]? ∧
      0 ∉ ivy.upgradePlaces ivySource (.always false) false ∧
      1 ∈ ivy.upgradePlaces ivySource (.always false) false ∧
      stableEbuild 2 "0" ∈ ivy.upgrades ivySource (.always false) false := by
  have hne : ivySource.installed ivy ≠ [] := List.cons_ne_nil _ _
  have h₀ : ivy.ebuilds[0]? = some (stableEbuild 2 "0") := by decide
  have h₁ : ivy.ebuilds[1]? = some (stableEbuild 2 "0") := by decide
  have hno : ivy.isUpgrade true (some 0) ivySource (.always false) false = false := by decide
  have hyes : ivy.isUpgrade true (some 1) ivySource (.always false) false = true := by decide
  have hi : ∀ i ∈ ivySource.installed ivy,
      i.version.alike (stableEbuild 2 "0").version = false := by decide
  obtain ⟨hplace, hmem⟩ :=
    mem_upgradePlaces_iff_isUpgrade ivy ivySource (.always false) false hne
  refine ⟨hne, h₀.trans h₁.symm, fun h => ?_, (hplace 1 _ h₁).2 ⟨hyes, hi⟩,
    (hmem _).2 ⟨1, h₁, hyes, hi⟩⟩
  have hcontra := ((hplace 0 _ h₀).1 h).1
  rw [hno] at hcontra
  cases hcontra

end PackageIndex.Package
