import Mathlib.Data.List.Basic
import Mathlib.Data.List.Induction
import PackageIndex.Proofs.Advice.Best
import PackageIndex.Proofs.Package.Releases

/-!
# The best version and the order of arrival

The best ebuild is found as the last one that may be selected (`best_eq_find?`, `bestIn_eq_find?`).
Releases ascend, and those that are alike stay in the order of their arrival, so it is the highest
of all that may be selected, and of several such ebuilds the one that was added last, whatever the
order in which the ebuilds were added (`best_optimal`).
-/

namespace PackageIndex

namespace Ebuild

variable {unstable : Bool} {e : Ebuild}

theorem slot_name_normalize (e : Ebuild) : e.normalize.slot.name = e.slot.name := by
  show e.slot.normalize.name = e.slot.name
  unfold Slot.normalize
  split
  · rfl
  · rfl

/-- No mask flag is set, and the ebuild is stable, or unstable where that is accepted. -/
def Selectable (unstable : Bool) (e : Ebuild) : Prop :=
  e.mask.bits = 0 ∧ (e.stability = .stable ∨ unstable = true ∧ e.stability = .unstable)

theorem eligible_iff_selectable : e.eligible unstable = true ↔ e.Selectable unstable := by
  simp [eligible, isMasked, FlagSet.isEmpty, Selectable]

theorem eligible_in_slot_iff {slot : String} :
    (e.slot.name == slot && e.eligible unstable) = true ↔
      e.slot.name = slot ∧ e.Selectable unstable := by
  rw [Bool.and_eq_true, beq_iff_eq, eligible_iff_selectable]

theorem eligible_in_slot_normalize {slot : String} :
    (e.normalize.slot.name == slot && e.normalize.eligible unstable) =
      (e.slot.name == slot && e.eligible unstable) := by
  rw [slot_name_normalize]
  rfl

theorem Selectable.accepting_unstable (h : e.Selectable false) : e.Selectable true := by
  obtain ⟨hmask, hstability⟩ := h
  rcases hstability with hstable | ⟨hfalse, -⟩
  · exact ⟨hmask, .inl hstable⟩
  · cases hfalse

/-- Of the ebuilds of a list that meet a condition none is higher, and of those that are alike none
comes later. -/
structure LastHighest (Q : Ebuild → Prop) (es : List Ebuild) (e : Ebuild) : Prop where
  meets : Q e
  highest : ∀ u ∈ es, Q u → u.version ≤ e.version
  last : ∃ before after, es = before ++ e :: after ∧
    ∀ u ∈ after, Q u → u.version.alike e.version = false

theorem LastHighest.mem {Q : Ebuild → Prop} {es : List Ebuild} (h : LastHighest Q es e) :
    e ∈ es := by
  obtain ⟨before, after, rfl, -⟩ := h.last
  exact List.mem_append_right before List.mem_cons_self

end Ebuild

/-! ## The last one that may be selected -/

/-- The ebuilds at the places of a slot are those in the slot. -/
theorem SlotGroup.filterMap_placesFrom (slot : String) (es : List Ebuild) : ∀ before : List Ebuild,
    (placesFrom slot before.length es).filterMap ((before ++ es)[·]?) =
      es.filter fun e => e.slot.name == slot := by
  induction es with
  | nil => exact fun before => rfl
  | cons e es ih =>
    intro before
    have hrest := ih (before ++ [e])
    rw [List.append_assoc, List.length_append] at hrest
    have hat : (before ++ e :: es)[before.length]? = some e := by simp
    rw [placesFrom]
    by_cases h : e.slot.name = slot
    · have hcons : (e :: es).filter (fun e => e.slot.name == slot) =
          e :: es.filter (fun e => e.slot.name == slot) :=
        List.filter_cons_of_pos (beq_iff_eq.2 h)
      rw [if_pos h, List.filterMap_cons_some hat, hcons]
      exact congrArg (e :: ·) hrest
    · rw [if_neg h, List.filter_cons_of_neg (by simpa using h)]
      exact hrest

theorem filterMap_range_getElem? (es : List Ebuild) :
    (List.range es.length).filterMap (es[·]?) = es := by
  induction es using List.reverseRecOn with
  | nil => rfl
  | append_singleton es e ih =>
    have hbefore : (List.range es.length).filterMap ((es ++ [e])[·]?) =
        (List.range es.length).filterMap (es[·]?) :=
      List.filterMap_congr fun i hi => List.getElem?_append_left (List.mem_range.1 hi)
    rw [List.length_append, List.length_singleton, List.range_succ, List.filterMap_append, hbefore,
      ih]
    simp

namespace Package

variable {p : Package} {slot : String} {unstable : Bool}

theorem bind_bestAmong (p : Package) (unstable : Bool) (places : List Nat) :
    ((p.bestAmong unstable places).bind fun i => p.ebuilds[i]?) =
      (places.filterMap (p.ebuilds[·]?)).reverse.find? (Ebuild.eligible unstable) := by
  rw [← List.filterMap_reverse, List.find?_filterMap]
  rfl

theorem best_eq_find? (p : Package) (unstable : Bool) :
    p.best unstable = p.ebuilds.reverse.find? (Ebuild.eligible unstable) := by
  unfold best bestPlace
  rw [bind_bestAmong, filterMap_range_getElem?]

theorem bestIn_eq_find? (p : Package) (slot : String) (unstable : Bool) :
    p.bestIn slot unstable =
      p.ebuilds.reverse.find? fun e => e.slot.name == slot && e.eligible unstable := by
  have hslot : (SlotGroup.placesFrom slot 0 p.ebuilds).filterMap (p.ebuilds[·]?) =
      p.ebuilds.filter fun e => e.slot.name == slot :=
    SlotGroup.filterMap_placesFrom slot p.ebuilds []
  unfold bestIn
  rw [bestPlaceIn_eq, bind_bestAmong, hslot, ← List.filter_reverse, List.find?_filter]
  simp only [Bool.decide_and, Bool.decide_eq_true]

end Package

/-! ## Ebuilds that were added one by one -/

namespace Releases

variable {q : Ebuild → Bool} {Q : Ebuild → Prop} {es os : List Ebuild} {b u : Ebuild}

theorem le_of_find?_reverse (hos : os.Pairwise fun a b => a.version ≤ b.version)
    (h : os.reverse.find? q = some b) (hu : u ∈ os) (hq : q u = true) : u.version ≤ b.version := by
  obtain ⟨-, later, earlier, hsplit, hlater⟩ := List.find?_eq_some_iff_append.1 h
  have hdescending : (later ++ b :: earlier).Pairwise fun a b => b.version ≤ a.version :=
    hsplit ▸ List.pairwise_reverse.2 hos
  have hmem : u ∈ later ++ b :: earlier := by
    rw [← hsplit]
    exact List.mem_reverse.2 hu
  rcases List.mem_append.1 hmem with hu | hu
  · have hnot := hlater u hu
    rw [hq] at hnot
    cases hnot
  · rcases List.mem_cons.1 hu with rfl | hu
    · exact Version.le_refl u.version
    · have hfrom := (List.pairwise_append.1 hdescending).2.1
      exact (List.pairwise_cons.1 hfrom).1 u hu

/-- The last ebuild that meets a condition is the last one among those that are alike to it. -/
theorem find?_reverse_alikeTo (h : os.reverse.find? q = some b) :
    (alikeTo b.version os).reverse.find? q = some b := by
  obtain ⟨hb, later, earlier, hsplit, hlater⟩ := List.find?_eq_some_iff_append.1 h
  unfold alikeTo
  rw [← List.filter_reverse, hsplit, List.find?_filter]
  refine List.find?_eq_some_iff_append.2 ⟨?_, later, earlier, rfl, fun u hu => ?_⟩
  · exact decide_eq_true ⟨Version.alike_refl b.version, hb⟩
  · have hnot : q u = false := by simpa using hlater u hu
    simp [hnot]

theorem exists_arrival_of_find? (hnormal : ∀ e, q e.normalize = q e)
    (h : (ofList es).toList.reverse.find? q = some b) :
    ∃ before e after, es = before ++ e :: after ∧ b = e.normalize ∧
      ∀ u ∈ after, q u = true → u.version.alike e.version = false := by
  have halike := find?_reverse_alikeTo h
  have harrival : alikeTo b.version (ofList es).toList =
      alikeTo b.version (es.map Ebuild.normalize) :=
    alikeTo_insertAll b.version es empty
  rw [harrival, alikeTo, ← List.filter_reverse, ← List.map_reverse, List.find?_filter,
    List.find?_map] at halike
  obtain ⟨e, hfind, rfl⟩ := Option.map_eq_some_iff.1 halike
  obtain ⟨-, later, earlier, hes, hlater⟩ := List.find?_eq_some_iff_append.1 hfind
  refine ⟨earlier.reverse, e, later.reverse, ?_, rfl, fun u hu hq => ?_⟩
  · simpa using congrArg List.reverse hes
  · have hnot := hlater u (List.mem_reverse.1 hu)
    simpa [hnormal, hq] using hnot

/-- Of ebuilds that were added one by one the last one that meets a condition is the highest that
does, and of those that are alike the one that was added last. -/
theorem lastHighest_of_find? (hq : ∀ e, q e = true ↔ Q e) (hnormal : ∀ e, q e.normalize = q e)
    (h : (ofList es).toList.reverse.find? q = some b) :
    ∃ e, Ebuild.LastHighest Q es e ∧ b = e.normalize := by
  obtain ⟨before, e, after, hes, rfl, hafter⟩ := exists_arrival_of_find? hnormal h
  refine ⟨e, ⟨?_, fun u hu hQ => ?_, before, after, hes, fun u hu hQ => ?_⟩, rfl⟩
  · exact (hq e).1 ((hnormal e).symm.trans (List.find?_some h))
  · have hmem : u.normalize ∈ (ofList es).toList := mem_ofList.2 ⟨u, hu, rfl⟩
    have hqu : q u.normalize = true := (hnormal u).trans ((hq u).2 hQ)
    have hle : u.normalize.version ≤ e.normalize.version :=
      le_of_find?_reverse (ofList es).ascending h hmem hqu
    exact hle
  · exact hafter u hu ((hq u).2 hQ)

theorem find?_eq_none_iff (hq : ∀ e, q e = true ↔ Q e) (hnormal : ∀ e, q e.normalize = q e) :
    (ofList es).toList.reverse.find? q = none ↔ ∀ e ∈ es, ¬ Q e := by
  rw [List.find?_eq_none]
  constructor
  · intro h e he hQ
    have hmem : e.normalize ∈ (ofList es).toList.reverse :=
      List.mem_reverse.2 (mem_ofList.2 ⟨e, he, rfl⟩)
    exact h e.normalize hmem ((hnormal e).trans ((hq e).2 hQ))
  · intro h u hu hqu
    obtain ⟨e, he, rfl⟩ := mem_ofList.1 (List.mem_reverse.1 hu)
    exact h e he ((hq e).1 ((hnormal e).symm.trans hqu))

end Releases

namespace Package

variable {p : Package} {es : List Ebuild} {slot : String} {unstable : Bool} {b : Ebuild}

/-- The package without any ebuilds. -/
def withoutReleases (p : Package) : Package :=
  { p with releases := .empty }

theorem ebuilds_foldl_add (p : Package) (es : List Ebuild) :
    (es.foldl add p.withoutReleases).ebuilds = (Releases.ofList es).toList :=
  congrArg Releases.toList (releases_foldl_add es p.withoutReleases)

theorem best_foldl_add (p : Package) (es : List Ebuild) (unstable : Bool) :
    (es.foldl add p.withoutReleases).best unstable =
      (Releases.ofList es).toList.reverse.find? (Ebuild.eligible unstable) := by
  rw [best_eq_find?, ebuilds_foldl_add]

theorem bestIn_foldl_add (p : Package) (es : List Ebuild) (slot : String) (unstable : Bool) :
    (es.foldl add p.withoutReleases).bestIn slot unstable =
      (Releases.ofList es).toList.reverse.find?
        fun e => e.slot.name == slot && e.eligible unstable := by
  rw [bestIn_eq_find?, ebuilds_foldl_add]

theorem lastHighest_of_best (h : (es.foldl add p.withoutReleases).best unstable = some b) :
    ∃ e, Ebuild.LastHighest (Ebuild.Selectable unstable) es e ∧ b = e.normalize := by
  rw [best_foldl_add] at h
  exact Releases.lastHighest_of_find? (fun _ => Ebuild.eligible_iff_selectable) (fun _ => rfl) h

theorem best_foldl_add_eq_none_iff :
    (es.foldl add p.withoutReleases).best unstable = none ↔ ∀ e ∈ es, ¬ e.Selectable unstable := by
  rw [best_foldl_add]
  exact Releases.find?_eq_none_iff (fun _ => Ebuild.eligible_iff_selectable) fun _ => rfl

/-- What may be selected without unstable ebuilds may be selected with them. -/
theorem exists_best_of_best_stable (h : (es.foldl add p.withoutReleases).best false = some b) :
    ∃ b', (es.foldl add p.withoutReleases).best true = some b' ∧ b.version ≤ b'.version := by
  obtain ⟨e, he, rfl⟩ := lastHighest_of_best h
  have hselectable : e.Selectable true := he.meets.accepting_unstable
  cases hbest : (es.foldl add p.withoutReleases).best true with
  | none => exact absurd hselectable (best_foldl_add_eq_none_iff.1 hbest e he.mem)
  | some b' =>
    obtain ⟨u, hu, rfl⟩ := lastHighest_of_best hbest
    exact ⟨u.normalize, rfl, hu.highest e he.mem hselectable⟩

theorem mask_eq_zero_of_best (h : p.best unstable = some b) : b.mask.bits = 0 := by
  rw [best_eq_find?] at h
  exact (Ebuild.eligible_iff_selectable.1 (List.find?_some h)).1

theorem mask_eq_zero_of_bestIn (h : p.bestIn slot unstable = some b) : b.mask.bits = 0 := by
  rw [bestIn_eq_find?] at h
  have hb := List.find?_some h
  exact (Ebuild.eligible_iff_selectable.1 (Bool.and_eq_true_iff.1 hb).2).1

theorem mask_eq_zero_of_mem_bestOfSlots (h : b ∈ p.bestOfSlots unstable) : b.mask.bits = 0 := by
  obtain ⟨g, -, hg⟩ := List.mem_filterMap.1 h
  rw [bind_bestAmong] at hg
  exact (Ebuild.eligible_iff_selectable.1 (List.find?_some hg)).1

/-- Let ebuilds be added to a package in any order. The best one, of all or in a slot, is missing
only if none may be selected; else it is the highest of those that may be selected, and of several
that are alike the one added last. It is not masked, and with unstable ebuilds it is not lower. -/
theorem best_optimal (p : Package) (es : List Ebuild) (slot : String) (unstable : Bool) :
    let built := es.foldl add p.withoutReleases
    (built.best unstable = none ↔ ∀ e ∈ es, ¬ e.Selectable unstable) ∧
      (∀ b, built.best unstable = some b →
        ∃ e, Ebuild.LastHighest (Ebuild.Selectable unstable) es e ∧ b = e.normalize) ∧
      (built.bestIn slot unstable = none ↔
        ∀ e ∈ es, ¬ (e.slot.name = slot ∧ e.Selectable unstable)) ∧
      (∀ b, built.bestIn slot unstable = some b →
        ∃ e, Ebuild.LastHighest (fun e => e.slot.name = slot ∧ e.Selectable unstable) es e ∧
          b = e.normalize) ∧
      (∀ b, built.best unstable = some b ∨ built.bestIn slot unstable = some b ∨
        b ∈ built.bestOfSlots unstable → b.mask.bits = 0) ∧
      ∀ a, built.best false = some a → ∃ b, built.best true = some b ∧ a.version ≤ b.version := by
  intro built
  have hin := p.bestIn_foldl_add es slot unstable
  refine ⟨best_foldl_add_eq_none_iff, fun b hb => lastHighest_of_best hb, ?_, fun b hb => ?_,
    fun b hb => ?_, fun a ha => exists_best_of_best_stable ha⟩
  · rw [hin]
    exact Releases.find?_eq_none_iff (fun _ => Ebuild.eligible_in_slot_iff)
      fun _ => Ebuild.eligible_in_slot_normalize
  · rw [hin] at hb
    exact Releases.lastHighest_of_find? (fun _ => Ebuild.eligible_in_slot_iff)
      (fun _ => Ebuild.eligible_in_slot_normalize) hb
  · rcases hb with hb | hb | hb
    · exact mask_eq_zero_of_best hb
    · exact mask_eq_zero_of_bestIn hb
    · exact mask_eq_zero_of_mem_bestOfSlots hb

end Package

end PackageIndex
