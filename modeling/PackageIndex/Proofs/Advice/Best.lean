import Mathlib.Order.Bounds.Basic
import PackageIndex.Advice.Best
import PackageIndex.Proofs.Package.Slots

/-!
# The best place is the greatest eligible one

Places ascend with the versions, so the last eligible place of a package is the greatest one, and so
is that of a slot among the places of the slot. It follows that the best ebuild of all is the best
one of its own slot.
-/

namespace PackageIndex

namespace Package

variable {p : Package} {unstable : Bool} {slot : String} {i : Nat} {e : Ebuild}

theorem eligibleAt_iff :
    p.eligibleAt unstable i = true ↔ ∃ e, p.ebuilds[i]? = some e ∧ e.eligible unstable = true :=
  Option.any_eq_true _ _

/-! ## The last eligible place -/

/-- Of ascending places the last eligible one is the greatest. -/
theorem isGreatest_of_bestAmong {places : List Nat} (hp : places.Pairwise (· < ·))
    (h : p.bestAmong unstable places = some i) :
    IsGreatest {j | j ∈ places ∧ p.eligibleAt unstable j = true} i := by
  obtain ⟨hi, as, bs, hs, has⟩ := List.find?_eq_some_iff_append.1 h
  have hmem : ∀ j, j ∈ places ↔ j ∈ as ++ i :: bs := fun j => by
    rw [← hs, List.mem_reverse]
  -- What was not looked at any more stands below the place that was found.
  have hbs : ∀ j ∈ bs, j < i := by
    have hr : (as ++ i :: bs).Pairwise fun a b => b < a := hs ▸ List.pairwise_reverse.2 hp
    exact (List.pairwise_cons.1 (List.pairwise_append.1 hr).2.1).1
  refine ⟨⟨(hmem i).2 (by simp), hi⟩, fun j hj => ?_⟩
  rcases List.mem_append.1 ((hmem j).1 hj.1) with ha | hb
  · have hne := has j ha
    simp [hj.2] at hne
  · rcases List.mem_cons.1 hb with rfl | hb
    · exact Nat.le_refl j
    · exact Nat.le_of_lt (hbs j hb)

theorem bestAmong_eq_some_iff {places : List Nat} (hp : places.Pairwise (· < ·)) :
    p.bestAmong unstable places = some i ↔
      IsGreatest {j | j ∈ places ∧ p.eligibleAt unstable j = true} i := by
  refine ⟨isGreatest_of_bestAmong hp, fun h => ?_⟩
  cases hb : p.bestAmong unstable places with
  | none =>
    have hnot := List.find?_eq_none.1 hb i (List.mem_reverse.2 h.1.1)
    exact absurd h.1.2 hnot
  | some j => rw [(isGreatest_of_bestAmong hp hb).unique h]

theorem bestPlace_eq_some_iff :
    p.bestPlace unstable = some i ↔ IsGreatest {j | p.eligibleAt unstable j = true} i := by
  have hset : {j | j ∈ List.range p.ebuilds.length ∧ p.eligibleAt unstable j = true} =
      {j | p.eligibleAt unstable j = true} := by
    ext j
    refine ⟨And.right, fun h => ⟨?_, h⟩⟩
    obtain ⟨e, he, -⟩ := eligibleAt_iff.1 h
    exact List.mem_range.2 (List.getElem?_eq_some_iff.1 he).1
  rw [bestPlace, bestAmong_eq_some_iff List.pairwise_lt_range, hset]

theorem bestPlaceIn_eq (p : Package) (slot : String) (unstable : Bool) :
    p.bestPlaceIn slot unstable =
      p.bestAmong unstable (SlotGroup.placesFrom slot 0 p.ebuilds) := by
  rw [bestPlaceIn, placesIn?]
  split
  next h => rw [h]; rfl
  next => rfl

theorem bestPlaceIn_eq_some_iff :
    p.bestPlaceIn slot unstable = some i ↔
      IsGreatest {j | p.slotAt j = some slot ∧ p.eligibleAt unstable j = true} i := by
  have hset : {j | j ∈ SlotGroup.placesFrom slot 0 p.ebuilds ∧ p.eligibleAt unstable j = true} =
      {j | p.slotAt j = some slot ∧ p.eligibleAt unstable j = true} := by
    ext j
    simp only [mem_placesFrom_iff_slotAt]
  rw [bestPlaceIn_eq, bestAmong_eq_some_iff SlotGroup.pairwise_placesFrom, hset]

/-! ## The best ebuild -/

theorem best_eq_some_iff :
    p.best unstable = some e ↔ ∃ i, p.bestPlace unstable = some i ∧ p.ebuilds[i]? = some e :=
  Option.bind_eq_some_iff

theorem bestIn_eq_some_iff :
    p.bestIn slot unstable = some e ↔
      ∃ i, p.bestPlaceIn slot unstable = some i ∧ p.ebuilds[i]? = some e :=
  Option.bind_eq_some_iff

theorem mem_ebuilds_of_best (h : p.best unstable = some e) : e ∈ p.ebuilds := by
  obtain ⟨i, -, he⟩ := best_eq_some_iff.1 h
  exact List.mem_of_getElem? he

theorem mem_ebuilds_of_bestIn (h : p.bestIn slot unstable = some e) : e ∈ p.ebuilds := by
  obtain ⟨i, -, he⟩ := bestIn_eq_some_iff.1 h
  exact List.mem_of_getElem? he

/-- The best place of all is the best one in the slot of its ebuild. -/
theorem bestPlaceIn_of_bestPlace (h : p.bestPlace unstable = some i)
    (he : p.ebuilds[i]? = some e) : p.bestPlaceIn e.slot.name unstable = some i := by
  obtain ⟨hi, hub⟩ := bestPlace_eq_some_iff.1 h
  refine bestPlaceIn_eq_some_iff.2 ⟨⟨?_, hi⟩, fun j hj => hub hj.2⟩
  exact slotAt_eq_some_iff.2 ⟨e, he, rfl⟩

/-- The best ebuild of all is the best one in its slot. -/
theorem bestIn_of_best (h : p.best unstable = some e) : p.bestIn e.slot.name unstable = some e := by
  obtain ⟨i, hi, he⟩ := best_eq_some_iff.1 h
  exact bestIn_eq_some_iff.2 ⟨i, bestPlaceIn_of_bestPlace hi he, he⟩

end Package

end PackageIndex
