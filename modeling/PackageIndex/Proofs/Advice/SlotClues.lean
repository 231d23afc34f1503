import PackageIndex.Proofs.Advice.Upgrade
import PackageIndex.Proofs.Package.Slots

/-!
# What tells the slot of an installed version

Four clues can tell the slot of an installed version, and they are asked in order: the first that
tells one decides, and the forced slot is taken only where none does (`guessSlot_by_first_clue`). One
of the clues is an ebuild with the version. It is asked only together with a source of installed
versions, although it needs none; so without a source an installed version may be left without the
slot of its own ebuild (`guessSlot_skips_ebuild`).
-/

namespace PackageIndex

/-- What can tell the slot of an installed version. -/
inductive SlotClue where
  /-- The slot is known already. -/
  | known
  /-- The slot was recorded when the version was installed. -/
  | recorded
  /-- There is an ebuild with the version. It tells the slot, and the sub-slot stays as it is. -/
  | available
  /-- All ebuilds of the package are in one slot. -/
  | only
  deriving DecidableEq, Repr

variable {p : Package} {source : Option InstalledSource} {forced : Option String} {i : Installed}
  {slot : Slot} {clue : SlotClue} {clues : List SlotClue}

namespace SlotClue

/-- A clue tells that an installed version is in a slot. -/
def Tells (p : Package) (source : Option InstalledSource) (i : Installed) (slot : Slot) :
    SlotClue → Prop
  | known => i.slot = some slot
  | recorded => ∃ s, source = some s ∧ s.recordedSlot? p i.version = some slot
  | available => slot.sub = i.sub ∧ ∃ before e after, p.ebuilds = before ++ e :: after ∧
      (∀ u ∈ before, u.version.alike i.version = false) ∧ e.version.alike i.version = true ∧
      e.slot.name = slot.name
  | only => p.ebuilds ≠ [] ∧ (∀ e ∈ p.ebuilds, e.slot.name = slot.name) ∧
      ∀ sub, slot.sub = some sub ↔ ∀ e ∈ p.ebuilds, e.slot.sub = some sub

/-- The first of some clues that tells anything tells this slot. -/
def Decides (p : Package) (source : Option InstalledSource) (i : Installed) (clues : List SlotClue)
    (slot : Slot) : Prop :=
  ∃ before clue after, clues = before ++ clue :: after ∧
    (∀ c ∈ before, ∀ s, ¬ c.Tells p source i s) ∧ clue.Tells p source i slot

/-- All clues, the one that counts most first. -/
def order : List SlotClue :=
  [known, recorded, available, only]

/-- The clues that are asked: without a source the ebuilds with the version are passed over. -/
def asked (source : Option InstalledSource) : List SlotClue :=
  if source.isSome then order else order.filter (· ≠ available)

/-- The slot that a clue tells, if it tells one. -/
def slot? (p : Package) (source : Option InstalledSource) (i : Installed) :
    SlotClue → Option Slot
  | known => i.slot
  | recorded => source.bind fun s => s.recordedSlot? p i.version
  | available => (p.slotOfVersion i.version).map fun name => ⟨name, i.sub⟩
  | only => p.onlySlot?

end SlotClue

/-! ## What a package tells -/

namespace Package

theorem slotOfVersion_eq_some_iff {v : Version} {name : String} :
    p.slotOfVersion v = some name ↔ ∃ before e after, p.ebuilds = before ++ e :: after ∧
      (∀ u ∈ before, u.version.alike v = false) ∧ e.version.alike v = true ∧
      e.slot.name = name := by
  unfold slotOfVersion
  simp only [Option.map_eq_some_iff, List.find?_eq_some_iff_append, Bool.not_eq_eq_eq_not,
    Bool.not_true]
  constructor
  · rintro ⟨e, ⟨he, before, after, hes, hbefore⟩, hname⟩
    exact ⟨before, e, after, hes, hbefore, he, hname⟩
  · rintro ⟨before, e, after, hes, hbefore, he, hname⟩
    exact ⟨e, ⟨he, before, after, hes, hbefore⟩, hname⟩

/-- There is one group of a slot iff all ebuilds are in the slot. -/
theorem slots_eq_singleton_iff {name : String} :
    p.slotGroups.map SlotGroup.slot = [name] ↔
      p.ebuilds ≠ [] ∧ ∀ e ∈ p.ebuilds, e.slot.name = name := by
  constructor
  · intro h
    have hmem : ∀ s, s = name ↔ ∃ e ∈ p.ebuilds, e.slot.name = s := by
      intro s
      rw [← mem_slots_slotGroups, h, List.mem_singleton]
    obtain ⟨e, he, -⟩ := (hmem name).1 rfl
    exact ⟨List.ne_nil_of_mem he, fun u hu => (hmem u.slot.name).2 ⟨u, hu, rfl⟩⟩
  · rintro ⟨hne, hall⟩
    have hname : ∀ s ∈ p.slotGroups.map SlotGroup.slot, s = name := by
      intro s hs
      obtain ⟨e, he, rfl⟩ := mem_slots_slotGroups.1 hs
      exact hall e he
    obtain ⟨e, he⟩ := List.exists_mem_of_ne_nil _ hne
    have hmem : name ∈ p.slotGroups.map SlotGroup.slot :=
      mem_slots_slotGroups.2 ⟨e, he, hall e he⟩
    -- The slots are distinct and all the same, so there is one.
    have hlength : (p.slotGroups.map SlotGroup.slot).length = 1 := by
      rw [← List.count_eq_length.2 fun s hs => (hname s hs).symm]
      exact List.count_eq_one_of_mem p.nodup_slots_slotGroups hmem
    obtain ⟨s, hs⟩ := List.length_eq_one_iff.1 hlength
    rw [hs] at hmem ⊢
    rw [List.mem_singleton.1 hmem]

theorem onlySlot?_eq_some_iff :
    p.onlySlot? = some slot ↔ p.ebuilds ≠ [] ∧ (∀ e ∈ p.ebuilds, e.slot.name = slot.name) ∧
      ∀ sub, slot.sub = some sub ↔ ∀ e ∈ p.ebuilds, e.slot.sub = some sub := by
  have honly : p.onlySlot? = some slot ↔
      p.slotGroups.map SlotGroup.slot = [slot.name] ∧ p.commonSubslot = slot.sub := by
    unfold onlySlot?
    split
    next g hg =>
      rw [hg, Option.some_inj, List.map_singleton, List.singleton_inj]
      constructor
      · rintro rfl
        exact ⟨rfl, rfl⟩
      · rintro ⟨hname, hsub⟩
        rw [hname, hsub]
    next hnot =>
      refine iff_of_false nofun fun h => ?_
      obtain ⟨g, hg, -⟩ := List.map_eq_singleton_iff.1 h.1
      exact hnot g hg
  rw [honly, slots_eq_singleton_iff, and_assoc]
  refine and_congr_right fun hne => and_congr_right fun _ => ?_
  have hcommon : ∀ sub, p.commonSubslot = some sub ↔ ∀ e ∈ p.ebuilds, e.slot.sub = some sub := by
    intro sub
    rw [commonSubslot_eq_some_iff]
    exact and_iff_right hne
  constructor
  · intro hsub sub
    rw [← hsub, hcommon]
  · intro hsub
    apply Option.ext
    intro sub
    rw [hcommon, hsub]

end Package

/-! ## What the clues tell -/

namespace SlotClue

theorem tells_iff : clue.Tells p source i slot ↔ clue.slot? p source i = some slot := by
  cases clue with
  | known => rfl
  | recorded => exact Option.bind_eq_some_iff.symm
  | available =>
    unfold Tells slot?
    simp only [Option.map_eq_some_iff, Package.slotOfVersion_eq_some_iff]
    constructor
    · rintro ⟨hsub, h⟩
      exact ⟨slot.name, h, by rw [← hsub]⟩
    · rintro ⟨name, h, rfl⟩
      exact ⟨rfl, h⟩
  | only => exact Package.onlySlot?_eq_some_iff.symm

theorem not_tells_iff : (∀ s, ¬ clue.Tells p source i s) ↔ clue.slot? p source i = none := by
  rw [Option.eq_none_iff_forall_ne_some]
  simp only [tells_iff, ne_eq]

theorem decides_iff :
    Decides p source i clues slot ↔ clues.findSome? (slot? p source i) = some slot := by
  unfold Decides
  simp only [not_tells_iff]
  simp only [tells_iff, List.findSome?_eq_some_iff, and_comm]

theorem findSome?_slot?_cons :
    (clue :: clues).findSome? (slot? p source i) =
      (clue.slot? p source i).or (clues.findSome? (slot? p source i)) := by
  rw [List.findSome?_cons]
  cases clue.slot? p source i with
  | none => rfl
  | some slot => rfl

theorem asked_none : asked none = [known, recorded, only] := by
  decide

theorem findSome?_asked (p : Package) (source : Option InstalledSource) (i : Installed) :
    (asked source).findSome? (slot? p source i) = p.resolveSlot? source i := by
  unfold Package.resolveSlot?
  cases source with
  | none =>
    simp only [asked_none, findSome?_slot?_cons, List.findSome?_nil, Option.or_none]
    cases hi : i.slot with
    | some slot => simp [slot?, hi]
    | none => simp [slot?, hi]
  | some s =>
    have hasked : asked (some s) = [known, recorded, available, only] := rfl
    simp only [hasked, findSome?_slot?_cons, List.findSome?_nil, Option.or_none]
    cases hi : i.slot with
    | some slot => simp [slot?, hi]
    | none =>
      cases hr : s.recordedSlot? p i.version with
      | some slot => simp [slot?, hi, hr]
      | none =>
        cases hv : p.slotOfVersion i.version with
        | some name => simp [slot?, hi, hr, hv]
        | none => simp [slot?, hi, hr, hv]

end SlotClue

namespace Package

open SlotClue

theorem resolveSlot?_eq_some_iff :
    p.resolveSlot? source i = some slot ↔ Decides p source i (asked source) slot := by
  rw [decides_iff, findSome?_asked]

/-! ## The slot that is guessed -/

theorem guessSlot_of_some (h : p.resolveSlot? source i = some slot) :
    p.guessSlot source forced i = (true, i.inSlot slot) := by
  unfold guessSlot
  rw [h]

theorem guessSlot_of_none (h : p.resolveSlot? source i = none) :
    p.guessSlot source forced i = (false, forced.elim i i.withSlot) := by
  unfold guessSlot
  rw [h]
  cases forced with
  | none => rfl
  | some fullSlot => rfl

theorem guessSlot_eq_true_iff :
    p.guessSlot source forced i = (true, i.inSlot slot) ↔
      Decides p source i (asked source) slot := by
  rw [← resolveSlot?_eq_some_iff]
  constructor
  · intro h
    cases hr : p.resolveSlot? source i with
    | none =>
      rw [guessSlot_of_none hr] at h
      cases h
    | some s =>
      rw [guessSlot_of_some hr] at h
      rw [Installed.inSlot_inj.1 (Prod.mk.inj h).2]
  · exact guessSlot_of_some

theorem guessSlot_eq_false_iff :
    p.guessSlot source forced i = (false, forced.elim i i.withSlot) ↔
      ∀ clue ∈ asked source, ∀ slot, ¬ clue.Tells p source i slot := by
  simp only [not_tells_iff]
  rw [← List.findSome?_eq_none_iff, findSome?_asked]
  constructor
  · intro h
    cases hr : p.resolveSlot? source i with
    | none => rfl
    | some s =>
      rw [guessSlot_of_some hr] at h
      cases h
  · exact guessSlot_of_none

/-- The clue that is passed over makes no difference where the slot is known, where there is a source,
and where no ebuild has the version. -/
theorem decides_asked_iff
    (h : source = none → i.slot = none → ∀ e ∈ p.ebuilds, e.version.alike i.version = false) :
    Decides p source i (asked source) slot ↔ Decides p source i order slot := by
  rw [decides_iff, decides_iff]
  cases source with
  | some s => rfl
  | none =>
    rw [asked_none, order]
    simp only [findSome?_slot?_cons, List.findSome?_nil, Option.or_none]
    cases hi : i.slot with
    | some s => simp [slot?, hi]
    | none =>
      have hnone : p.slotOfVersion i.version = none := by
        unfold slotOfVersion
        rw [List.find?_eq_none.2, Option.map_none]
        intro e he
        rw [h rfl hi e he]
        exact Bool.false_ne_true
      simp [slot?, hi, hnone]

/-- The first of the clues that tells a slot decides, and the slot is told then; a known slot is left
as it is. If none tells a slot, the slot is not told, and it is that of the forced SLOT value, or
unknown without one. There is no third case, and the version stays in both. The clues are asked in
their order, all of them unless an ebuild has the version of an installed version of unknown slot and
there is no source. -/
theorem guessSlot_by_first_clue (p : Package) (source : Option InstalledSource)
    (forced : Option String) (i : Installed) :
    (∀ slot, p.guessSlot source forced i = (true, i.inSlot slot) ↔
      Decides p source i (asked source) slot) ∧
    (i.knowsSlot = true → p.guessSlot source forced i = (true, i)) ∧
    (p.guessSlot source forced i = (false, forced.elim i i.withSlot) ↔
      ∀ clue ∈ asked source, ∀ slot, ¬ clue.Tells p source i slot) ∧
    ((∃ slot, Decides p source i (asked source) slot) ∨
      ∀ clue ∈ asked source, ∀ slot, ¬ clue.Tells p source i slot) ∧
    (p.guessSlot source forced i).2.version = i.version ∧
    ((source = none → i.slot = none → ∀ e ∈ p.ebuilds, e.version.alike i.version = false) →
      ∀ slot, Decides p source i (asked source) slot ↔ Decides p source i order slot) := by
  refine ⟨fun slot => guessSlot_eq_true_iff, ?_, guessSlot_eq_false_iff, ?_, ?_,
    fun h slot => decides_asked_iff h⟩
  · intro hk
    obtain ⟨slot, hs⟩ := Installed.knowsSlot_iff.1 hk
    rw [guessSlot_of_some (resolveSlot?_of_slot hs source), Installed.inSlot_of_slot hs]
  · cases hr : p.resolveSlot? source i with
    | some slot => exact .inl ⟨slot, resolveSlot?_eq_some_iff.1 hr⟩
    | none =>
      have hfalse : p.guessSlot source none i = (false, i) := guessSlot_of_none hr
      exact .inr (guessSlot_eq_false_iff.1 hfalse)
  · cases hr : p.resolveSlot? source i with
    | some slot =>
      rw [guessSlot_of_some hr]
      exact i.version_inSlot slot
    | none =>
      rw [guessSlot_of_none hr]
      cases forced with
      | none => rfl
      | some fullSlot => rfl

-- Version 1 in a slot of its own, and version 2 in another.
def alder : Package :=
  { category := "dev-libs"
    name := "alder"
    releases := .ofList [stableEbuild 1 "1", stableEbuild 2 "2"] }

-- Version 1 is installed.
def alderInstalled : Installed where
  version := ⟨⟨1, []⟩, [], none, [], []⟩

-- No slot is recorded.
def alderSource : InstalledSource where
  installed _ := [alderInstalled]
  recordedSlot? _ _ := none

theorem decides_alder {source : Option InstalledSource}
    (h : ∀ s, source = some s → s.recordedSlot? alder alderInstalled.version = none) :
    Decides alder source alderInstalled order ⟨"1", none⟩ := by
  refine ⟨[known, recorded], available, [only], rfl, ?_, rfl, [], stableEbuild 1 "1",
    [stableEbuild 2 "2"], by decide, List.forall_mem_nil _, by decide, rfl⟩
  intro clue hclue slot htells
  rcases List.mem_cons.1 hclue with rfl | hclue
  · cases htells
  · obtain rfl := List.mem_singleton.1 hclue
    obtain ⟨s, hs, hslot⟩ := htells
    rw [h s hs] at hslot
    cases hslot

/-- With a source that has no record, the ebuild with the version decides, before the forced slot. -/
theorem guessSlot_by_first_clue_alder :
    alder.guessSlot (some alderSource) (some "7") alderInstalled =
      (true, alderInstalled.inSlot ⟨"1", none⟩) := by
  have hsource : some alderSource ≠ none := nofun
  obtain ⟨htrue, -, -, -, -, horder⟩ :=
    guessSlot_by_first_clue alder (some alderSource) (some "7") alderInstalled
  have hdecides : Decides alder (some alderSource) alderInstalled order ⟨"1", none⟩ := by
    refine decides_alder ?_
    rintro s ⟨⟩
    rfl
  exact (htrue _).2 ((horder (fun hnone => absurd hnone hsource) _).2 hdecides)

/-- Without a source it does not, although it is the first clue that tells a slot. -/
theorem guessSlot_skips_ebuild :
    Decides alder none alderInstalled order ⟨"1", none⟩ ∧
      alder.guessSlot none none alderInstalled = (false, alderInstalled) :=
  ⟨decides_alder nofun, by decide⟩

end Package

end PackageIndex
