import PackageIndex.Proofs.Advice.Consistency

/-!
# Upgrades come to an end

When all listed upgrades are made, every installed version whose slot has a best ebuild is at that
ebuild, and the best ebuild of all is installed if the package may change its slot. Such a state is
settled: no upgrade is listed for it, and the verdict on it names at most versions whose slots have
no best ebuild any more (`upgrades_reach_fixed_point`).
-/

namespace PackageIndex.Package

variable {p : Package} {source : InstalledSource} {policy : SlotPolicy} {unstable : Bool}
  {installed : List Installed} {i : Installed} {e : Ebuild}

/-! ## What is installed after the upgrades -/

/-- The best ebuild in the known slot of an installed version. -/
def bestFor (p : Package) (unstable : Bool) (i : Installed) : Option Ebuild :=
  i.slot.bind fun slot => p.bestIn slot.name unstable

/-- The installed version after the upgrade to the best ebuild of its slot, if there is one. -/
def upgraded (p : Package) (unstable : Bool) (i : Installed) : Installed :=
  match p.bestFor unstable i with
  | some best => { i with version := best.version }
  | none => i

/-- What is installed after all upgrades: the installed versions, each upgraded in its slot, and the
best ebuild of all in its own slot if the package may move to another slot. -/
def allUpgraded (p : Package) (policy : SlotPolicy) (unstable : Bool)
    (installed : List Installed) : List Installed :=
  installed.map (p.upgraded unstable) ++
    if policy p then
      (p.best unstable).toList.map fun e => ⟨e.version, some e.slot.name, e.slot.sub⟩
    else []

/-- The slot is known, and the best ebuild in it, if there is one, is what is installed. -/
def Settled (p : Package) (unstable : Bool) (i : Installed) : Prop :=
  i.knowsSlot = true ∧ ∀ e, p.bestFor unstable i = some e → e.version.alike i.version = true

theorem settled_upgraded (hk : i.knowsSlot = true) :
    p.Settled unstable (p.upgraded unstable i) := by
  rw [upgraded]
  split
  next best hb =>
    refine ⟨hk, fun e he => ?_⟩
    cases hb.symm.trans he
    exact Version.alike_refl _
  next hb =>
    refine ⟨hk, fun e he => ?_⟩
    cases hb.symm.trans he

theorem settled_best (h : p.best unstable = some e) :
    p.Settled unstable ⟨e.version, some e.slot.name, e.slot.sub⟩ := by
  refine ⟨rfl, fun u hu => ?_⟩
  cases (bestIn_of_best h).symm.trans hu
  exact Version.alike_refl _

theorem settled_of_mem_allUpgraded (hk : ∀ i ∈ installed, i.knowsSlot = true)
    (h : i ∈ p.allUpgraded policy unstable installed) : p.Settled unstable i := by
  rcases List.mem_append.1 h with h | h
  · obtain ⟨j, hj, rfl⟩ := List.mem_map.1 h
    exact settled_upgraded (hk j hj)
  · split at h
    · obtain ⟨e, he, rfl⟩ := List.mem_map.1 h
      exact settled_best (Option.mem_toList.1 he)
    · cases h

theorem mem_allUpgraded_of_best (hp : policy p = true) (h : p.best unstable = some e) :
    ⟨e.version, some e.slot.name, e.slot.sub⟩ ∈ p.allUpgraded policy unstable installed := by
  refine List.mem_append_right _ ?_
  rw [if_pos hp]
  exact List.mem_map.2 ⟨e, Option.mem_toList.2 h, rfl⟩

/-! ## Settled versions ask for nothing -/

theorem upgradeFor_of_settled (h : p.Settled unstable i) :
    p.upgradeFor source unstable i = none := by
  obtain ⟨hk, hbest⟩ := h
  obtain ⟨slot, hs⟩ := Installed.knowsSlot_iff.1 hk
  cases hu : p.upgradeFor source unstable i with
  | none => rfl
  | some place =>
    obtain ⟨s, e, hr, hb, he, ha⟩ := upgradeFor_eq_some_iff.1 hu
    cases (resolveSlot?_of_slot hs _).symm.trans hr
    have hin : p.bestFor unstable i = some e := by
      rw [bestFor, hs]
      exact bestIn_eq_some_iff.2 ⟨place, hb, he⟩
    rw [hbest e hin] at ha
    cases ha

/-- Where all slots are known, only the policy asks for the best ebuild of all. -/
theorem wantsBest_of_settled (h : ∀ i ∈ installed, p.Settled unstable i) :
    p.wantsBest source policy installed = policy p := by
  have hall : installed.any (fun i => (p.resolveSlot? (some source) i).isNone) = false := by
    refine List.any_eq_false.2 fun i hi => ?_
    obtain ⟨slot, hs⟩ := Installed.knowsSlot_iff.1 (h i hi).1
    rw [resolveSlot?_of_slot hs]
    exact Bool.false_ne_true
  rw [wantsBest, hall, Bool.false_or]

/-- Nothing is listed where all versions are settled and the best ebuild that the policy asks for is
installed. -/
theorem upgrades_of_settled (h : ∀ i ∈ source.installed p, p.Settled unstable i)
    (hbest : policy p = true → ∀ e, p.best unstable = some e →
      ∃ i ∈ source.installed p, i.version.alike e.version = true) :
    p.upgrades source policy unstable = [] := by
  refine List.eq_nil_iff_forall_not_mem.2 fun e he => ?_
  obtain ⟨place, hplace, he⟩ := mem_upgrades_iff.1 he
  obtain ⟨hc, -, u, hu, hnot⟩ := mem_upgradePlaces_iff.1 hplace
  cases he.symm.trans hu
  -- No installed version contributes a candidate, and the best ebuild of all is installed.
  rcases mem_candidates_iff.1 hc with ⟨i, hi, hup⟩ | ⟨hw, hb⟩
  · rw [upgradeFor_of_settled (h i hi)] at hup
    cases hup
  · rw [wantsBest_of_settled h] at hw
    obtain ⟨i, hi, ha⟩ := hbest hw e (best_eq_some_iff.2 ⟨place, hb, he⟩)
    rw [hnot i hi] at ha
    cases ha

/-- A settled version asks for a downgrade iff its slot has no best ebuild. -/
theorem findings_of_settled (h : p.Settled false i) :
    p.findings (some source) i = (false, !(p.bestFor false i).isSome) := by
  obtain ⟨hk, hbest⟩ := h
  obtain ⟨slot, hs⟩ := Installed.knowsSlot_iff.1 hk
  have hr : p.resolveSlot? (some source) i = some slot := resolveSlot?_of_slot hs _
  have hb : p.bestFor false i = p.bestIn slot.name false := by rw [bestFor, hs]; rfl
  rw [hb]
  cases hin : p.bestIn slot.name false with
  | none => exact findings_of_missing hr hin
  | some best =>
    obtain ⟨hlower, hhigher⟩ := Version.alike_iff_not_lt.1 (hbest best (hb.trans hin))
    rw [findings_of_best hr hin]
    simp [hlower, hhigher]

theorem checkSlots_of_settled (hne : source.installed p ≠ [])
    (h : ∀ i ∈ source.installed p, p.Settled false i) (onlyInstalled : Bool) :
    p.checkSlots (some source) onlyInstalled =
      if (source.installed p).all (fun i => (p.bestFor false i).isSome) then .equal
      else .downgrade := by
  have hup : (source.installed p).any (fun i => (p.findings (some source) i).1) = false := by
    refine List.any_eq_false.2 fun i hi => ?_
    rw [findings_of_settled (h i hi)]
    exact Bool.false_ne_true
  have hdown : (source.installed p).any (fun i => (p.findings (some source) i).2) =
      !(source.installed p).all fun i => (p.bestFor false i).isSome := by
    rw [List.not_all_eq_any_not, Bool.eq_iff_iff, List.any_eq_true, List.any_eq_true]
    refine exists_congr fun i => and_congr_right fun hi => ?_
    rw [findings_of_settled (h i hi)]
  rw [checkSlots_of_installed hne, hup, hdown]
  cases (source.installed p).all fun i => (p.bestFor false i).isSome with
  | false => rfl
  | true => rfl

/-! ## The fixed point -/

/-- Once all upgrades are made, none is listed any more. The verdict on stable versions is then that
all is equal, except that a version whose slot has no best ebuild asks for a downgrade. -/
theorem upgrades_reach_fixed_point (p : Package) (policy : SlotPolicy) (unstable : Bool)
    (installed : List Installed) (hk : ∀ i ∈ installed, i.knowsSlot = true)
    (source : InstalledSource)
    (hs : source.installed p = p.allUpgraded policy unstable installed) :
    p.upgrades source policy unstable = [] ∧
      (unstable = false → source.installed p ≠ [] → ∀ onlyInstalled,
        p.checkSlots (some source) onlyInstalled =
          if (source.installed p).all (fun i => (p.bestFor false i).isSome) then .equal
          else .downgrade) := by
  have hsettled : ∀ i ∈ source.installed p, p.Settled unstable i := fun i hi =>
    settled_of_mem_allUpgraded hk (hs ▸ hi)
  refine ⟨upgrades_of_settled hsettled fun hp e he => ?_, ?_⟩
  · have hmem : ⟨e.version, some e.slot.name, e.slot.sub⟩ ∈ source.installed p :=
      hs.symm ▸ mem_allUpgraded_of_best hp he
    exact ⟨_, hmem, Version.alike_refl e.version⟩
  · rintro rfl hne onlyInstalled
    exact checkSlots_of_settled hne hsettled onlyInstalled

-- Version 1 in the slot of the two copies, and version 5 in a slot that the package has left.
def ivyInstalled : List Installed :=
  [⟨⟨⟨1, []⟩, [], none, [], []⟩, some "0", none⟩, ⟨⟨⟨5, []⟩, [], none, [], []⟩, some "9", none⟩]

-- The given versions are installed, and no slot is recorded.
def sourceOf (installed : List Installed) : InstalledSource where
  installed _ := installed
  recordedSlot? _ _ := none

/-- There are two upgrades at first, and none after them; version 5 is left to be removed. -/
theorem upgrades_reach_fixed_point_ivy :
    (∀ i ∈ ivyInstalled, i.knowsSlot = true) ∧
      ivy.upgrades (sourceOf ivyInstalled) (.always true) false =
        [stableEbuild 2 "0", stableEbuild 3 "3"] ∧
      ∃ source : InstalledSource,
        source.installed ivy = ivy.allUpgraded (.always true) false ivyInstalled ∧
          ivy.upgrades source (.always true) false = [] ∧
          ivy.checkSlots (some source) true = .downgrade := by
  have hk : ∀ i ∈ ivyInstalled, i.knowsSlot = true := by decide
  have hup : ivy.upgrades (sourceOf ivyInstalled) (.always true) false =
      [stableEbuild 2 "0", stableEbuild 3 "3"] := by decide
  let after := ivy.allUpgraded (.always true) false ivyInstalled
  have hne : after ≠ [] := by decide
  have hno : after.all (fun i => (ivy.bestFor false i).isSome) = false := by decide
  obtain ⟨hnone, hverdict⟩ :=
    upgrades_reach_fixed_point ivy (.always true) false ivyInstalled hk (sourceOf after) rfl
  refine ⟨hk, hup, sourceOf after, rfl, hnone, (hverdict rfl hne true).trans ?_⟩
  exact if_neg (Bool.eq_false_iff.1 hno)

end PackageIndex.Package
