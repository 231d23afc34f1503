import PackageIndex.Proofs.Advice.Optimum
import PackageIndex.Proofs.Package.Slots

/-!
# The best versions of the slots

The best ebuilds of the slots are taken group by group. Since each group holds the places of its
slot, this is the best ebuild of every slot that has one (`mem_bestOfSlots_iff`), and the best place
of all is the greatest among those of the slots (`bestOfSlots_decomposes`).
-/

namespace PackageIndex.Package

variable {p : Package} {slot : String} {unstable : Bool} {e : Ebuild} {i : Nat}

theorem slot_of_bestIn (h : p.bestIn slot unstable = some e) : e.slot.name = slot := by
  rw [bestIn_eq_find?] at h
  have he := List.find?_some h
  exact beq_iff_eq.1 (Bool.and_eq_true_iff.1 he).1

theorem bestIn_eq_none_iff :
    p.bestIn slot unstable = none ↔
      ∀ e ∈ p.ebuilds, e.slot.name = slot → e.eligible unstable = false := by
  rw [bestIn_eq_find?, List.find?_eq_none]
  simp

theorem bestPlace_eq_none_iff :
    p.bestPlace unstable = none ↔ ∀ e ∈ p.ebuilds, e.eligible unstable = false := by
  unfold bestPlace bestAmong
  rw [List.find?_eq_none]
  constructor
  · intro h e he
    obtain ⟨j, hj⟩ := List.mem_iff_getElem?.1 he
    have hlt : j < p.ebuilds.length := (List.getElem?_eq_some_iff.1 hj).1
    have hnot := h j (List.mem_reverse.2 (List.mem_range.2 hlt))
    rw [eligibleAt, hj] at hnot
    exact Bool.eq_false_iff.2 hnot
  · intro h j _ heligible
    obtain ⟨e, he, helig⟩ := eligibleAt_iff.1 heligible
    rw [h e (List.mem_of_getElem? he)] at helig
    cases helig

/-! ## Group by group -/

theorem bestOfSlots_eq_filterMap (p : Package) (unstable : Bool) :
    p.bestOfSlots unstable =
      (p.slotGroups.map SlotGroup.slot).filterMap fun slot => p.bestIn slot unstable := by
  unfold bestOfSlots
  rw [List.filterMap_map]
  refine List.filterMap_congr fun g hg => ?_
  rw [places_of_mem_slotGroups hg, ← bestPlaceIn_eq]
  rfl

theorem mem_bestOfSlots_iff :
    e ∈ p.bestOfSlots unstable ↔ p.bestIn e.slot.name unstable = some e := by
  rw [bestOfSlots_eq_filterMap, List.mem_filterMap]
  constructor
  · rintro ⟨slot, -, h⟩
    rw [slot_of_bestIn h]
    exact h
  · intro h
    exact ⟨_, mem_slots_slotGroups.2 ⟨e, mem_ebuilds_of_bestIn h, rfl⟩, h⟩

theorem mem_slots_bestOfSlots_iff :
    slot ∈ (p.bestOfSlots unstable).map (fun e => e.slot.name) ↔
      ∃ e ∈ p.ebuilds, e.slot.name = slot ∧ e.eligible unstable = true := by
  rw [List.mem_map]
  constructor
  · rintro ⟨e, he, rfl⟩
    obtain ⟨j, hbest, hj⟩ := bestIn_eq_some_iff.1 (mem_bestOfSlots_iff.1 he)
    obtain ⟨u, hu, helig⟩ := eligibleAt_iff.1 (bestPlaceIn_eq_some_iff.1 hbest).1.2
    cases hj.symm.trans hu
    exact ⟨e, List.mem_of_getElem? hj, rfl, helig⟩
  · rintro ⟨e, he, rfl, helig⟩
    cases hbest : p.bestIn e.slot.name unstable with
    | none =>
      rw [bestIn_eq_none_iff.1 hbest e he rfl] at helig
      cases helig
    | some b =>
      have hslot := slot_of_bestIn hbest
      rw [← hslot] at hbest
      exact ⟨b, mem_bestOfSlots_iff.2 hbest, hslot⟩

theorem pairwise_bestOfSlots (p : Package) (unstable : Bool) :
    (p.bestOfSlots unstable).Pairwise fun a b =>
      p.slotNames.idxOf a.slot.name < p.slotNames.idxOf b.slot.name := by
  rw [bestOfSlots_eq_filterMap, List.pairwise_filterMap]
  refine p.ordered_slotGroups.pairwise.imp ?_
  intro s s' hlt a ha b hb
  rwa [slot_of_bestIn ha, slot_of_bestIn hb]

theorem nodup_slots_bestOfSlots (p : Package) (unstable : Bool) :
    ((p.bestOfSlots unstable).map fun e => e.slot.name).Nodup := by
  refine List.pairwise_map.2 ((p.pairwise_bestOfSlots unstable).imp ?_)
  intro a b hlt heq
  rw [heq] at hlt
  exact Nat.lt_irrefl _ hlt

theorem bestOfSlots_eq_nil_iff : p.bestOfSlots unstable = [] ↔ p.bestPlace unstable = none := by
  rw [bestPlace_eq_none_iff, ← List.map_eq_nil_iff (f := fun e : Ebuild => e.slot.name),
    List.eq_nil_iff_forall_not_mem]
  simp only [mem_slots_bestOfSlots_iff]
  constructor
  · intro h e he
    by_contra helig
    exact h e.slot.name ⟨e, he, rfl, by simpa using helig⟩
  · rintro h slot ⟨e, he, -, helig⟩
    rw [h e he] at helig
    cases helig

/-! ## The best place of all -/

theorem isGreatest_bestPlaceIn (h : p.bestPlace unstable = some i) :
    IsGreatest {j | ∃ e ∈ p.ebuilds, p.bestPlaceIn e.slot.name unstable = some j} i := by
  obtain ⟨hi, hub⟩ := bestPlace_eq_some_iff.1 h
  obtain ⟨e, he, -⟩ := eligibleAt_iff.1 hi
  refine ⟨⟨e, List.mem_of_getElem? he, bestPlaceIn_of_bestPlace h he⟩, ?_⟩
  rintro j ⟨u, -, hj⟩
  exact hub (bestPlaceIn_eq_some_iff.1 hj).1.2

theorem bestPlace_eq_some_iff_isGreatest_bestPlaceIn :
    p.bestPlace unstable = some i ↔
      IsGreatest {j | ∃ e ∈ p.ebuilds, p.bestPlaceIn e.slot.name unstable = some j} i := by
  refine ⟨isGreatest_bestPlaceIn, fun h => ?_⟩
  cases hbest : p.bestPlace unstable with
  | none =>
    obtain ⟨e, -, hi⟩ := h.1
    obtain ⟨u, hu, helig⟩ := eligibleAt_iff.1 (bestPlaceIn_eq_some_iff.1 hi).1.2
    rw [bestPlace_eq_none_iff.1 hbest u (List.mem_of_getElem? hu)] at helig
    cases helig
  | some j => rw [(isGreatest_bestPlaceIn hbest).unique h]

/-- The best ebuilds of the slots are one for each slot in which there is an eligible ebuild, in the
order of the first places of the slots, and each is the best one of its slot. The best place of all
is the greatest of the best places in the slots, and there is none only if no slot has one. -/
theorem bestOfSlots_decomposes (p : Package) (unstable : Bool) :
    ((p.bestOfSlots unstable).map fun e => e.slot.name).Nodup ∧
      (∀ slot, slot ∈ (p.bestOfSlots unstable).map (fun e => e.slot.name) ↔
        ∃ e ∈ p.ebuilds, e.slot.name = slot ∧ e.eligible unstable = true) ∧
      ((p.bestOfSlots unstable).Pairwise fun a b =>
        p.slotNames.idxOf a.slot.name < p.slotNames.idxOf b.slot.name) ∧
      (∀ e ∈ p.bestOfSlots unstable, p.bestIn e.slot.name unstable = some e) ∧
      (∀ i, p.bestPlace unstable = some i ↔
        IsGreatest {j | ∃ e ∈ p.ebuilds, p.bestPlaceIn e.slot.name unstable = some j} i) ∧
      (p.bestPlace unstable = none ↔ p.bestOfSlots unstable = []) := by
  refine ⟨p.nodup_slots_bestOfSlots unstable, fun slot => mem_slots_bestOfSlots_iff,
    p.pairwise_bestOfSlots unstable, fun e he => ?_, fun i => ?_, ?_⟩
  · exact mem_bestOfSlots_iff.1 he
  · exact bestPlace_eq_some_iff_isGreatest_bestPlaceIn
  · exact bestOfSlots_eq_nil_iff.symm

end PackageIndex.Package
