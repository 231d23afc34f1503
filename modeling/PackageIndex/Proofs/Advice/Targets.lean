import Mathlib.Data.List.Basic
import Mathlib.Data.List.Forall2
import PackageIndex.Proofs.Advice.Upgrade

/-!
# The upgrades are the targets that are not installed

The candidates are gathered version by version, with the best ebuild of all as a late addition, and
are filtered twice by what is installed. What comes out is stated here without the gathering: the
places of the targets, in ascending order, less those whose version is installed
(`upgradePlaces_exact`).
-/

namespace PackageIndex.Package

variable {p : Package} {source : InstalledSource} {policy policy' : SlotPolicy} {unstable : Bool}
  {installed : List Installed} {place : Nat} {e : Ebuild}

/-- The best ebuild in the slot of an installed version is at the place; or the best one of all is,
and the slot of some installed version cannot be told or the package may move to another slot. -/
def IsTarget (p : Package) (source : InstalledSource) (policy : SlotPolicy) (unstable : Bool)
    (place : Nat) : Prop :=
  (∃ i ∈ source.installed p, ∃ slot, p.resolveSlot? (some source) i = some slot ∧
    p.bestPlaceIn slot.name unstable = some place) ∨
  p.bestPlace unstable = some place ∧
    ((∃ i ∈ source.installed p, p.resolveSlot? (some source) i = none) ∨ policy p = true)

/-! ## What is listed -/

theorem isUpgrade_iff_isTarget :
    p.isUpgrade true (some place) source policy unstable = true ↔
      p.IsTarget source policy unstable place := by
  rw [isUpgrade_iff, wantsBest_iff, and_comm (b := p.bestPlace unstable = some place)]
  rfl

theorem mem_upgradePlaces_iff_isTarget (hne : source.installed p ≠ [])
    (he : p.ebuilds[place]? = some e) :
    place ∈ p.upgradePlaces source policy unstable ↔
      (∀ i ∈ source.installed p, i.version.alike e.version = false) ∧
        p.IsTarget source policy unstable place := by
  rw [mem_upgradePlaces_iff_of_ebuild hne he, isUpgrade_iff_isTarget, and_comm]

theorem upgrades_of_nothing (h : source.installed p = []) :
    p.upgrades source policy unstable = [] := by
  unfold upgrades upgradePlaces
  rw [h]
  rfl

theorem pairwise_upgradePlaces : (p.upgradePlaces source policy unstable).Pairwise (· < ·) := by
  unfold upgradePlaces
  dsimp only
  split
  · exact .nil
  · exact List.pairwise_lt_range.filter _

theorem forall₂_filterMap_getElem? {es : List Ebuild} {places : List Nat}
    (h : ∀ place ∈ places, ∃ e, es[place]? = some e) :
    List.Forall₂ (fun place e => es[place]? = some e) places (places.filterMap (es[·]?)) := by
  induction places with
  | nil => exact .nil
  | cons place places ih =>
    obtain ⟨e, he⟩ := h place List.mem_cons_self
    rw [List.filterMap_cons_some he]
    exact .cons he (ih fun other hother => h other (List.mem_cons_of_mem place hother))

/-- The listed ebuilds are those at the listed places, one by one. -/
theorem forall₂_upgrades :
    List.Forall₂ (fun place e => p.ebuilds[place]? = some e)
      (p.upgradePlaces source policy unstable) (p.upgrades source policy unstable) := by
  refine forall₂_filterMap_getElem? fun place h => ?_
  obtain ⟨-, -, e, he, -⟩ := mem_upgradePlaces_iff.1 h
  exact ⟨e, he⟩

/-! ## What follows of the listed ebuilds -/

theorem eligibleAt_of_isTarget (h : p.IsTarget source policy unstable place) :
    p.eligibleAt unstable place = true := by
  rcases h with ⟨i, -, slot, -, hbest⟩ | ⟨hbest, -⟩
  · exact (bestPlaceIn_eq_some_iff.1 hbest).1.2
  · exact (bestPlace_eq_some_iff.1 hbest).1

theorem eligible_of_mem_upgrades (h : e ∈ p.upgrades source policy unstable) :
    e.eligible unstable = true := by
  obtain ⟨place, hplace, he⟩ := mem_upgrades_iff.1 h
  have hne : source.installed p ≠ [] := (mem_upgradePlaces_iff.1 hplace).2.1
  have htarget := ((mem_upgradePlaces_iff_isTarget hne he).1 hplace).2
  obtain ⟨u, hu, helig⟩ := eligibleAt_iff.1 (eligibleAt_of_isTarget htarget)
  cases he.symm.trans hu
  exact helig

theorem mem_candidates_mono (hpolicy : policy p = true → policy' p = true)
    (h : place ∈ p.candidates source policy unstable installed) :
    place ∈ p.candidates source policy' unstable installed := by
  rw [mem_candidates_iff, wantsBest_iff] at h ⊢
  rcases h with hfor | ⟨hwants, hbest⟩
  · exact .inl hfor
  · exact .inr ⟨hwants.imp id hpolicy, hbest⟩

theorem upgradePlaces_sublist (hpolicy : policy p = true → policy' p = true) :
    (p.upgradePlaces source policy unstable).Sublist
      (p.upgradePlaces source policy' unstable) := by
  unfold upgradePlaces
  dsimp only
  split
  · exact .refl _
  · refine List.monotone_filter_right _ fun place h => ?_
    rw [Bool.and_eq_true, List.contains_iff_mem] at h ⊢
    exact ⟨mem_candidates_mono hpolicy h.1, h.2⟩

/-- Nothing is listed where nothing is installed. Otherwise the listed places ascend strictly, the
listed ebuilds are those at them, and a place is listed iff it is that of a target whose version is
not installed. So every listed ebuild may be selected, and a policy that allows more moves to other
slots takes nothing off the list. -/
theorem upgradePlaces_exact (p : Package) (source : InstalledSource) (policy : SlotPolicy)
    (unstable : Bool) :
    (source.installed p = [] → p.upgrades source policy unstable = []) ∧
    (p.upgradePlaces source policy unstable).Pairwise (· < ·) ∧
    List.Forall₂ (fun place e => p.ebuilds[place]? = some e)
      (p.upgradePlaces source policy unstable) (p.upgrades source policy unstable) ∧
    (source.installed p ≠ [] → ∀ place e, p.ebuilds[place]? = some e →
      (place ∈ p.upgradePlaces source policy unstable ↔
        (∀ i ∈ source.installed p, i.version.alike e.version = false) ∧
          p.IsTarget source policy unstable place)) ∧
    (∀ e ∈ p.upgrades source policy unstable, e.eligible unstable = true) ∧
    ∀ policy' : SlotPolicy, (policy p = true → policy' p = true) →
      (p.upgradePlaces source policy unstable).Sublist
        (p.upgradePlaces source policy' unstable) := by
  refine ⟨upgrades_of_nothing, pairwise_upgradePlaces, forall₂_upgrades, ?_, ?_, ?_⟩
  · intro hne place e he
    exact mem_upgradePlaces_iff_isTarget hne he
  · intro e he
    exact eligible_of_mem_upgrades he
  · intro policy' hpolicy
    exact upgradePlaces_sublist hpolicy

/-- Version 1 is installed in the slot of the two copies. The later copy is listed, and the higher
ebuild of the other slot only if the package may move there. -/
theorem upgradePlaces_exact_ivy :
    ivySource.installed ivy ≠ [] ∧ ivy.ebuilds[2]? = some (stableEbuild 3 "3") ∧
      2 ∈ ivy.upgradePlaces ivySource (.always true) false ∧
      2 ∉ ivy.upgradePlaces ivySource (.always false) false ∧
      (ivy.upgradePlaces ivySource (.always false) false).Sublist
        (ivy.upgradePlaces ivySource (.always true) false) := by
  have hne : ivySource.installed ivy ≠ [] := List.cons_ne_nil _ _
  have he : ivy.ebuilds[2]? = some (stableEbuild 3 "3") := by decide
  have hnot : ∀ i ∈ ivySource.installed ivy,
      i.version.alike (stableEbuild 3 "3").version = false := by decide
  have hbest : ivy.bestPlace false = some 2 := by decide
  obtain ⟨-, -, -, hyes, -, -⟩ := upgradePlaces_exact ivy ivySource (.always true) false
  obtain ⟨-, -, -, hno, -, hsub⟩ := upgradePlaces_exact ivy ivySource (.always false) false
  refine ⟨hne, he, (hyes hne 2 _ he).2 ⟨hnot, .inr ⟨hbest, .inr rfl⟩⟩, fun hmem => ?_,
    hsub (.always true) fun _ => rfl⟩
  rcases ((hno hne 2 _ he).1 hmem).2 with ⟨i, hi, slot, hr, hslot⟩ | ⟨-, ⟨i, hi, hr⟩ | hpolicy⟩
  · obtain rfl := List.mem_singleton.1 hi
    cases hr
    revert hslot
    decide
  · obtain rfl := List.mem_singleton.1 hi
    cases hr
  · cases hpolicy

end PackageIndex.Package
