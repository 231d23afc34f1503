import Mathlib.Data.List.Sort
import PackageIndex.Package.Slots
import PackageIndex.Proofs.Tree.Named

/-!
# The groups of slots

The grouping goes through the ebuilds once. What it keeps is that the slots it has met are those of
the ebuilds so far, in the order of their first places (`Ordered`). So the slots of the groups are
distinct and are those of all ebuilds, and each group holds exactly the places of its slot
(`places_of_mem_slotGroups`). Together the groups divide the places of the package (`Divided`).
-/

namespace PackageIndex

/-! ## The places of a slot -/

namespace SlotGroup

variable {slot : String} {i j : Nat} {es : List Ebuild}

theorem mem_placesFrom :
    j ∈ placesFrom slot i es ↔ ∃ n e, es[n]? = some e ∧ e.slot.name = slot ∧ j = i + n := by
  induction es generalizing i with
  | nil => simp [placesFrom]
  | cons e es ih =>
    have hrest : j ∈ placesFrom slot (i + 1) es ↔
        ∃ n u, (e :: es)[n + 1]? = some u ∧ u.slot.name = slot ∧ j = i + (n + 1) := by
      rw [ih]
      simp only [List.getElem?_cons_succ, Nat.add_assoc, Nat.add_comm 1]
    have hall : j ∈ placesFrom slot i (e :: es) ↔
        (e.slot.name = slot ∧ j = i) ∨ j ∈ placesFrom slot (i + 1) es := by
      rw [placesFrom]
      split
      next h => simp [h]
      next h => simp [h]
    rw [hall, hrest]
    constructor
    · rintro (⟨he, rfl⟩ | ⟨n, u, hu, hs, rfl⟩)
      · exact ⟨0, e, rfl, he, rfl⟩
      · exact ⟨n + 1, u, hu, hs, rfl⟩
    · rintro ⟨n, u, hu, hs, rfl⟩
      cases n with
      | zero =>
        cases hu
        exact .inl ⟨hs, rfl⟩
      | succ n => exact .inr ⟨n, u, hu, hs, rfl⟩

theorem pairwise_placesFrom : (placesFrom slot i es).Pairwise (· < ·) := by
  induction es generalizing i with
  | nil => exact .nil
  | cons e es ih =>
    rw [placesFrom]
    split
    · refine .cons (fun j hj => ?_) ih
      obtain ⟨n, u, -, -, rfl⟩ := mem_placesFrom.1 hj
      omega
    · exact ih

end SlotGroup

/-! ## The order of the slots -/

namespace SlotGroup

variable {slots : List String} {n : Nat} {s : String} {gs : List SlotGroup}

/-- The groups are of the first `n` of the slots of a list, in the order of their first places. -/
structure Ordered (slots : List String) (n : Nat) (gs : List SlotGroup) : Prop where
  mem_iff : ∀ s, s ∈ gs.map slot ↔ s ∈ slots.take n
  pairwise : (gs.map slot).Pairwise fun a b => slots.idxOf a < slots.idxOf b

theorem map_slot_enter (s : String) (i : Nat) (gs : List SlotGroup) :
    (enter s i gs).map slot = if s ∈ gs.map slot then gs.map slot else gs.map slot ++ [s] := by
  induction gs with
  | nil => rfl
  | cons g gs ih =>
    rw [enter]
    by_cases hg : g.slot = s
    · rw [if_pos hg]
      simp [hg]
    · have hne : s ≠ g.slot := Ne.symm hg
      rw [if_neg hg, List.map_cons, ih]
      by_cases hs : s ∈ gs.map slot
      · simp [hs]
      · simp [hs, hne]

/-- The next slot of the list is entered. -/
theorem Ordered.enter (h : Ordered slots n gs) (hs : slots[n]? = some s) (i : Nat) :
    Ordered slots (n + 1) (enter s i gs) := by
  have htake : slots.take (n + 1) = slots.take n ++ [s] := by
    rw [List.take_add_one, hs]
    rfl
  by_cases hmem : s ∈ gs.map slot
  · refine ⟨fun a => ?_, ?_⟩
    · rw [map_slot_enter, if_pos hmem, htake, List.mem_append, h.mem_iff a]
      refine ⟨.inl, fun ha => ha.elim id fun ha => ?_⟩
      rw [List.mem_singleton.1 ha]
      exact (h.mem_iff s).1 hmem
    · rw [map_slot_enter, if_pos hmem]
      exact h.pairwise
  · have hnot : s ∉ slots.take n := fun hs => hmem ((h.mem_iff s).2 hs)
    have hlt : n < slots.length := (List.getElem?_eq_some_iff.1 hs).1
    have hlength : (slots.take n).length = n := List.length_take_of_le (Nat.le_of_lt hlt)
    refine ⟨fun a => ?_, ?_⟩
    · rw [map_slot_enter, if_neg hmem, htake, List.mem_append, List.mem_append, h.mem_iff a]
    · rw [map_slot_enter, if_neg hmem]
      refine List.pairwise_append.2 ⟨h.pairwise, List.pairwise_singleton _ _, ?_⟩
      intro a ha b hb
      -- The slots so far occur among the first `n`, and this one does not.
      obtain rfl := List.mem_singleton.1 hb
      have ha := (h.mem_iff a).1 ha
      rw [← List.take_append_drop n slots, List.idxOf_append_of_mem ha,
        List.idxOf_append_of_notMem hnot]
      have hbefore := List.idxOf_lt_length_iff.2 ha
      omega

/-- All further slots of the list are entered. -/
theorem Ordered.collect {es : List Ebuild} (h : Ordered slots n gs)
    (hes : slots.drop n = es.map fun e => e.slot.name) (i : Nat) :
    Ordered slots slots.length (collect gs i es) := by
  induction es generalizing n gs i with
  | nil =>
    have hle : slots.length ≤ n := List.drop_eq_nil_iff.1 hes
    refine ⟨fun s => ?_, h.pairwise⟩
    rw [SlotGroup.collect, h.mem_iff s, List.take_of_length_le hle, List.take_length]
  | cons e es ih =>
    have hs : slots[n]? = some e.slot.name := by
      rw [← List.head?_drop, hes]
      rfl
    have hrest : slots.drop (n + 1) = es.map fun e => e.slot.name := by
      rw [← List.tail_drop, hes]
      rfl
    exact ih (h.enter hs i) hrest (i + 1)

end SlotGroup

namespace Package

variable {p : Package} {slot sub : String} {i : Nat} {g : SlotGroup}

/-- The slots of the ebuilds, place by place. -/
def slotNames (p : Package) : List String :=
  p.ebuilds.map fun e => e.slot.name

theorem ordered_slotGroups (p : Package) :
    SlotGroup.Ordered p.slotNames p.slotNames.length p.slotGroups := by
  have hstart : SlotGroup.Ordered p.slotNames 0 [] := ⟨fun _ => Iff.rfl, .nil⟩
  exact hstart.collect rfl 0

theorem mem_slots_slotGroups :
    slot ∈ p.slotGroups.map SlotGroup.slot ↔ ∃ e ∈ p.ebuilds, e.slot.name = slot := by
  rw [p.ordered_slotGroups.mem_iff, List.take_length]
  exact List.mem_map

theorem nodup_slots_slotGroups (p : Package) : (p.slotGroups.map SlotGroup.slot).Nodup := by
  refine p.ordered_slotGroups.pairwise.imp ?_
  rintro a b hlt rfl
  exact Nat.lt_irrefl _ hlt

theorem places_of_mem_slotGroups (hg : g ∈ p.slotGroups) :
    g.places = SlotGroup.placesFrom g.slot 0 p.ebuilds := by
  have hfind : p.slotGroups.find? (fun o => o.slot == g.slot) = some g :=
    (Named.find?_eq_some_iff p.nodup_slots_slotGroups).2 ⟨hg, rfl⟩
  have hplaces : p.placesIn? g.slot = some g.places := by
    rw [placesIn?_eq_placesOf?, SlotGroup.placesOf?, hfind]
    rfl
  unfold placesIn? at hplaces
  split at hplaces
  · cases hplaces
  · exact (Option.some.inj hplaces).symm

/-! ## The division into slots -/

/-- The groups divide the places of the ebuilds among their slots: the slots are distinct and stand
in the order in which they first occur, the places of a group ascend, every place of the package is
in exactly one group, and the group of a slot has the places of all ebuilds in it. -/
structure Divided (p : Package) (gs : List SlotGroup) : Prop where
  nodup : (gs.map SlotGroup.slot).Nodup
  mem_slots : ∀ slot, slot ∈ gs.map SlotGroup.slot ↔ slot ∈ p.slotNames
  first_seen : (gs.map SlotGroup.slot).Pairwise fun a b =>
    p.slotNames.idxOf a < p.slotNames.idxOf b
  ascending : ∀ g ∈ gs, g.places.Pairwise (· < ·)
  perm : (gs.flatMap SlotGroup.places).Perm (List.range p.ebuilds.length)
  placesOf? : ∀ slot, SlotGroup.placesOf? slot gs =
    if slot ∈ p.slotNames then
      some ((List.range p.ebuilds.length).filter fun i => p.slotAt i == some slot)
    else none

theorem slotAt_eq_some_iff :
    p.slotAt i = some slot ↔ ∃ e, p.ebuilds[i]? = some e ∧ e.slot.name = slot :=
  Option.map_eq_some_iff

theorem mem_placesFrom_iff_slotAt :
    i ∈ SlotGroup.placesFrom slot 0 p.ebuilds ↔ p.slotAt i = some slot := by
  rw [SlotGroup.mem_placesFrom, slotAt_eq_some_iff]
  constructor
  · rintro ⟨n, e, he, hs, hi⟩
    rw [Nat.zero_add] at hi
    exact ⟨e, hi ▸ he, hs⟩
  · rintro ⟨e, he, hs⟩
    exact ⟨i, e, he, hs, (Nat.zero_add i).symm⟩

theorem lt_length_of_slotAt (h : p.slotAt i = some slot) : i < p.ebuilds.length := by
  obtain ⟨e, he, -⟩ := slotAt_eq_some_iff.1 h
  exact (List.getElem?_eq_some_iff.1 he).1

theorem placesFrom_eq_filter (p : Package) (slot : String) :
    SlotGroup.placesFrom slot 0 p.ebuilds =
      (List.range p.ebuilds.length).filter fun i => p.slotAt i == some slot := by
  refine SlotGroup.pairwise_placesFrom.eq_of_mem_iff (List.pairwise_lt_range.filter _) fun i => ?_
  rw [mem_placesFrom_iff_slotAt, List.mem_filter, List.mem_range, beq_iff_eq]
  exact ⟨fun h => ⟨lt_length_of_slotAt h, h⟩, And.right⟩

theorem mem_places_iff (hg : g ∈ p.slotGroups) : i ∈ g.places ↔ p.slotAt i = some g.slot := by
  rw [places_of_mem_slotGroups hg, mem_placesFrom_iff_slotAt]

theorem nodup_flatMap_places (p : Package) : (p.slotGroups.flatMap SlotGroup.places).Nodup := by
  refine List.nodup_flatMap.2 ⟨fun g hg => ?_, ?_⟩
  · rw [places_of_mem_slotGroups hg]
    exact SlotGroup.pairwise_placesFrom.imp Nat.ne_of_lt
  · -- A place that two groups share has the slot of both.
    have hne := List.pairwise_map.1 p.nodup_slots_slotGroups
    refine hne.imp_of_mem fun {g o} hg ho hslots i hi hj => hslots ?_
    have hg := (mem_places_iff hg).1 hi
    have ho := (mem_places_iff ho).1 hj
    exact Option.some.inj (hg.symm.trans ho)

theorem mem_flatMap_places :
    i ∈ p.slotGroups.flatMap SlotGroup.places ↔ i < p.ebuilds.length := by
  rw [List.mem_flatMap]
  constructor
  · rintro ⟨g, hg, hi⟩
    exact lt_length_of_slotAt ((mem_places_iff hg).1 hi)
  · intro hi
    have he : p.ebuilds[i]? = some p.ebuilds[i] := List.getElem?_eq_getElem hi
    have hslot := mem_slots_slotGroups.2 ⟨p.ebuilds[i], List.getElem_mem hi, rfl⟩
    obtain ⟨g, hg, hname⟩ := List.mem_map.1 hslot
    exact ⟨g, hg, (mem_places_iff hg).2 (slotAt_eq_some_iff.2 ⟨_, he, hname.symm⟩)⟩

theorem mem_slots_iff_slotNames :
    slot ∈ p.slotGroups.map SlotGroup.slot ↔ slot ∈ p.slotNames :=
  mem_slots_slotGroups.trans List.mem_map.symm

theorem placesOf?_slotGroups (p : Package) (slot : String) :
    SlotGroup.placesOf? slot p.slotGroups =
      if slot ∈ p.slotNames then
        some ((List.range p.ebuilds.length).filter fun i => p.slotAt i == some slot)
      else none := by
  by_cases hslot : slot ∈ p.slotNames
  · have hmem := mem_slots_iff_slotNames.2 hslot
    obtain ⟨g, hg, rfl⟩ := List.mem_map.1 hmem
    have hfind : p.slotGroups.find? (fun o => o.slot == g.slot) = some g :=
      (Named.find?_eq_some_iff p.nodup_slots_slotGroups).2 ⟨hg, rfl⟩
    rw [if_pos hslot, SlotGroup.placesOf?, hfind, ← placesFrom_eq_filter,
      ← places_of_mem_slotGroups hg]
    rfl
  · rw [if_neg hslot, SlotGroup.placesOf?, List.find?_eq_none.2, Option.map_none]
    intro g hg hname
    exact hslot (mem_slots_iff_slotNames.1 (List.mem_map.2 ⟨g, hg, eq_of_beq hname⟩))

theorem divided_slotGroups (p : Package) : p.Divided p.slotGroups where
  nodup := p.nodup_slots_slotGroups
  mem_slots _ := mem_slots_iff_slotNames
  first_seen := p.ordered_slotGroups.pairwise
  ascending g hg := by
    rw [places_of_mem_slotGroups hg]
    exact SlotGroup.pairwise_placesFrom
  perm := by
    refine (List.perm_ext_iff_of_nodup p.nodup_flatMap_places List.nodup_range).2 fun i => ?_
    rw [mem_flatMap_places, List.mem_range]
  placesOf? := p.placesOf?_slotGroups

theorem commonSubslot_eq_some_iff :
    p.commonSubslot = some sub ↔ p.ebuilds ≠ [] ∧ ∀ e ∈ p.ebuilds, e.slot.sub = some sub := by
  unfold commonSubslot
  cases p.ebuilds with
  | nil => simp
  | cons e es =>
    have hall : (es.all fun o => o.slot.sub == e.slot.sub) = true ↔
        ∀ o ∈ es, o.slot.sub = e.slot.sub := by
      simp
    simp only [hall, ne_eq, reduceCtorEq, not_false_eq_true, true_and, List.forall_mem_cons]
    split
    next h => exact ⟨fun he => ⟨he, fun o ho => (h o ho).trans he⟩, And.left⟩
    next h => exact ⟨nofun, fun ⟨he, hes⟩ => absurd (fun o ho => (hes o ho).trans he.symm) h⟩

end Package

end PackageIndex
