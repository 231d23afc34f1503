import Mathlib.Data.List.Sort
import PackageIndex.Package.Basic
import PackageIndex.Proofs.Package.Releases

/-!
# The releases are the stable sort of what was added

Ebuilds that come in one by one, in any order, end up in ascending order, and those whose versions
are alike keep the order of their arrival (`add_sorts_stably`). The place of a new ebuild can be
found by halving (`toList_insert_eq_insertIdx`), since the releases are in order whenever one comes
in. Which of two ebuilds with versions that are not alike comes in first makes no difference, and
that is all that makes none (`toList_ofList_eq_iff_exchanges`).
-/

namespace PackageIndex

/-! ## The search for the place -/

section Search

variable {α : Type} {test : α → Bool} {as : List α} {k base size : Nat}

/-- The first place at which a test fails, if it passes at all before. The place is one of the
`size` places from `base` on, or the one behind them, and they are halved until none is left. -/
def firstFailingFrom (test : α → Bool) (as : List α) (base size : Nat) : Nat :=
  if size = 0 then base
  else
    let half := size / 2
    if as[base + half]?.any test then firstFailingFrom test as (base + half + 1) (size - half - 1)
    else firstFailingFrom test as base half
termination_by size

/-- The first place at which a test fails, found by halving. -/
def firstFailing (test : α → Bool) (as : List α) : Nat :=
  firstFailingFrom test as 0 as.length

/-- The test passes at the places before `k` and at none behind. -/
structure SplitsAt (test : α → Bool) (as : List α) (k : Nat) : Prop where
  le_length : k ≤ as.length
  passes : ∀ i, i < k → as[i]?.any test = true
  fails : ∀ i, k ≤ i → as[i]?.any test = false

theorem firstFailingFrom_eq (h : SplitsAt test as k) (hbase : base ≤ k) (hsize : k ≤ base + size) :
    firstFailingFrom test as base size = k := by
  induction size using Nat.strongRecOn generalizing base with
  | ind size ih =>
    unfold firstFailingFrom
    by_cases hz : size = 0
    · rw [if_pos hz]
      omega
    · rw [if_neg hz]
      dsimp only
      by_cases hk : base + size / 2 < k
      · rw [if_pos (h.passes _ hk)]
        exact ih _ (by omega) (by omega) (by omega)
      · have hfails := h.fails (base + size / 2) (by omega)
        rw [if_neg (by simp [hfails])]
        exact ih _ (by omega) hbase (by omega)

theorem firstFailing_eq (h : SplitsAt test as k) : firstFailing test as = k := by
  have hle := h.le_length
  exact firstFailingFrom_eq h (Nat.zero_le k) (by omega)

end Search

namespace Releases

variable {e u : Ebuild} {es us os : List Ebuild}

/-- Whether an ebuild goes in front of one with the version. -/
def precedes (v : Version) (o : Ebuild) : Bool :=
  decide (o.version ≤ v)

theorem exists_place_eq_insertIdx (e : Ebuild)
    (h : os.Pairwise fun a b => a.version ≤ b.version) :
    ∃ k, place e os = os.insertIdx k e ∧ SplitsAt (precedes e.version) os k := by
  induction os with
  | nil => exact ⟨0, rfl, Nat.le_refl 0, nofun, fun _ _ => rfl⟩
  | cons o os ih =>
    obtain ⟨ho, hos⟩ := List.pairwise_cons.1 h
    by_cases hle : o.version ≤ e.version
    · obtain ⟨k, hplace, hk, hpasses, hfails⟩ := ih hos
      refine ⟨k + 1, ?_, Nat.succ_le_succ hk, ?_, ?_⟩
      · rw [place, if_pos hle, hplace, List.insertIdx_succ_cons]
      · intro i hi
        cases i with
        | zero => simpa [precedes] using hle
        | succ i => exact hpasses i (by omega)
      · intro i hi
        cases i with
        | zero => omega
        | succ i => exact hfails i (by omega)
    · refine ⟨0, ?_, Nat.zero_le _, nofun, ?_⟩
      · rw [place, if_neg hle, List.insertIdx_zero]
      · intro i _
        -- All from here on are at least as high as `o`, which is too high already.
        have hhigher : ∀ u ∈ o :: os, precedes e.version u = false := by
          intro u hu
          have hou : o.version ≤ u.version := by
            rcases List.mem_cons.1 hu with rfl | hu
            · exact Version.le_refl _
            · exact ho u hu
          exact decide_eq_false fun hue => hle (Version.le_trans hou hue)
        cases hget : (o :: os)[i]? with
        | none => rfl
        | some u => exact hhigher u (List.mem_of_getElem? hget)

/-- A new ebuild is put where the search by halving ends. -/
theorem toList_insert_eq_insertIdx (r : Releases) (e : Ebuild) :
    (r.insert e).toList =
      r.toList.insertIdx (firstFailing (precedes e.version) r.toList) e.normalize := by
  obtain ⟨k, hplace, hk⟩ := exists_place_eq_insertIdx e.normalize r.ascending
  have hsearch : firstFailing (precedes e.version) r.toList = k := firstFailing_eq hk
  rw [hsearch]
  exact hplace

/-! ## The order is determined -/

/-- Lists in ascending order are the same if those of their ebuilds whose versions are alike are. -/
theorem eq_of_alikeTo_eq (hes : es.Pairwise fun a b => a.version ≤ b.version)
    (hus : us.Pairwise fun a b => a.version ≤ b.version)
    (h : ∀ v, alikeTo v es = alikeTo v us) : es = us := by
  induction es generalizing us with
  | nil =>
    cases us with
    | nil => rfl
    | cons u us =>
      have hu := h u.version
      rw [alikeTo_cons_of_alike (Version.alike_refl _)] at hu
      cases hu
  | cons e es ih =>
    cases us with
    | nil =>
      have he := h e.version
      rw [alikeTo_cons_of_alike (Version.alike_refl _)] at he
      cases he
    | cons u us =>
      obtain ⟨hle, hes⟩ := List.pairwise_cons.1 hes
      obtain ⟨hle', hus⟩ := List.pairwise_cons.1 hus
      -- Each of the first ebuilds occurs in the other list, so neither is below the other.
      have hue : u.version ≤ e.version := by
        have he : e ∈ alikeTo e.version (e :: es) :=
          mem_alikeTo.2 ⟨List.mem_cons_self, Version.alike_refl _⟩
        rw [h e.version] at he
        rcases List.mem_cons.1 (mem_alikeTo.1 he).1 with rfl | hmem
        · exact Version.le_refl _
        · exact hle' e hmem
      have heu : e.version ≤ u.version := by
        have hu : u ∈ alikeTo u.version (u :: us) :=
          mem_alikeTo.2 ⟨List.mem_cons_self, Version.alike_refl _⟩
        rw [← h u.version] at hu
        rcases List.mem_cons.1 (mem_alikeTo.1 hu).1 with rfl | hmem
        · exact Version.le_refl _
        · exact hle u hmem
      have halike : u.version.alike e.version = true := Version.alike_iff_le_and_le.2 ⟨hue, heu⟩
      have hheads := h e.version
      rw [alikeTo_cons_of_alike (Version.alike_refl _), alikeTo_cons_of_alike halike] at hheads
      have heq : e = u := (List.cons.inj hheads).1
      have hrest : ∀ v, alikeTo v es = alikeTo v us := by
        intro v
        have hv := h v
        rw [← heq] at hv
        by_cases hev : e.version.alike v = true
        · rw [alikeTo_cons_of_alike hev, alikeTo_cons_of_alike hev] at hv
          exact (List.cons.inj hv).2
        · rwa [alikeTo_cons_of_not_alike hev, alikeTo_cons_of_not_alike hev] at hv
      rw [heq, ih hes hus hrest]

theorem alikeTo_ofList (v : Version) (es : List Ebuild) :
    alikeTo v (ofList es).toList = alikeTo v (es.map Ebuild.normalize) :=
  alikeTo_insertAll v es .empty

/-- Ebuilds that stand in ascending order, and in the order of arrival where they are alike, are
the releases. -/
theorem toList_ofList_eq (hus : us.Pairwise fun a b => a.version ≤ b.version)
    (h : ∀ v, alikeTo v us = alikeTo v (es.map Ebuild.normalize)) : (ofList es).toList = us := by
  refine eq_of_alikeTo_eq (ofList es).ascending hus fun v => ?_
  rw [alikeTo_ofList, h v]

/-- The stable sort of the library. -/
theorem toList_ofList_eq_mergeSort (es : List Ebuild) :
    (ofList es).toList =
      (es.map Ebuild.normalize).mergeSort fun a b => decide (a.version ≤ b.version) := by
  generalize hle : (fun a b : Ebuild => decide (a.version ≤ b.version)) = le
  have htrans : ∀ a b c : Ebuild, le a b = true → le b c = true → le a c = true := by
    intro a b c hab hbc
    subst hle
    exact decide_eq_true (Version.le_trans (of_decide_eq_true hab) (of_decide_eq_true hbc))
  have htotal : ∀ a b : Ebuild, (le a b || le b a) = true := by
    intro a b
    subst hle
    simpa using Version.le_total a.version b.version
  refine toList_ofList_eq ?_ fun v => ?_
  · refine (List.pairwise_mergeSort htrans htotal _).imp ?_
    intro a b hab
    subst hle
    exact of_decide_eq_true hab
  · -- Ebuilds that are alike are in order as they come, so they stay a sublist.
    have hordered : (alikeTo v (es.map Ebuild.normalize)).Pairwise fun a b => le a b = true := by
      refine List.pairwise_of_forall_mem_list fun a ha b hb => ?_
      have halike := Version.alike_trans (mem_alikeTo.1 ha).2
        (Version.alike_symm (mem_alikeTo.1 hb).2)
      subst hle
      exact decide_eq_true (Version.alike_iff_le_and_le.1 halike).1
    have hsublist := (List.sublist_mergeSort htrans htotal hordered List.filter_sublist).filter
      fun e => e.version.alike v
    have hself : (alikeTo v (es.map Ebuild.normalize)).filter (fun e => e.version.alike v) =
        alikeTo v (es.map Ebuild.normalize) := by
      simp [alikeTo]
    have hperm := (List.mergeSort_perm (es.map Ebuild.normalize) le).filter
      fun e => e.version.alike v
    rw [hself] at hsublist
    exact (hsublist.eq_of_length hperm.length_eq.symm).symm

/-! ## What makes no difference -/

/-- One order of ebuilds comes from another by exchanges of neighbours whose versions are not
alike. -/
inductive Exchanges : List Ebuild → List Ebuild → Prop
  | refl (es : List Ebuild) : Exchanges es es
  | swap {e u : Ebuild} (h : e.version.alike u.version = false) (es : List Ebuild) :
      Exchanges (e :: u :: es) (u :: e :: es)
  | cons (e : Ebuild) {es us : List Ebuild} (h : Exchanges es us) : Exchanges (e :: es) (e :: us)
  | trans {es us os : List Ebuild} (h : Exchanges es us) (h' : Exchanges us os) : Exchanges es os

namespace Exchanges

theorem symm (h : Exchanges es us) : Exchanges us es := by
  induction h with
  | refl es => exact .refl es
  | @swap e u hne es =>
    refine .swap ?_ es
    cases halike : u.version.alike e.version with
    | false => rfl
    | true =>
      rw [Version.alike_symm halike] at hne
      cases hne
  | cons e _ ih => exact .cons e ih
  | trans _ _ ih ih' => exact ih'.trans ih

theorem alikeTo_eq (h : Exchanges es us) (v : Version) : alikeTo v es = alikeTo v us := by
  induction h with
  | refl es => rfl
  | @swap e u hne es =>
    -- At most one of the two neighbours is alike to `v`.
    by_cases he : e.version.alike v = true
    · have hu : ¬ u.version.alike v = true := by
        intro hu
        rw [Version.alike_trans he (Version.alike_symm hu)] at hne
        cases hne
      rw [alikeTo_cons_of_alike he, alikeTo_cons_of_not_alike hu, alikeTo_cons_of_not_alike hu,
        alikeTo_cons_of_alike he]
    · by_cases hu : u.version.alike v = true
      · rw [alikeTo_cons_of_not_alike he, alikeTo_cons_of_alike hu, alikeTo_cons_of_alike hu,
          alikeTo_cons_of_not_alike he]
      · rw [alikeTo_cons_of_not_alike he, alikeTo_cons_of_not_alike hu,
          alikeTo_cons_of_not_alike hu, alikeTo_cons_of_not_alike he]
  | cons e _ ih =>
    unfold alikeTo at ih ⊢
    rw [List.filter_cons, List.filter_cons, ih]
  | trans _ _ ih ih' => exact ih.trans ih'

theorem map_normalize (h : Exchanges es us) :
    Exchanges (es.map Ebuild.normalize) (us.map Ebuild.normalize) := by
  induction h with
  | refl es => exact .refl _
  | @swap e u hne es =>
    have hnormal : e.normalize.version.alike u.normalize.version = false := hne
    exact .swap hnormal _
  | cons e _ ih => exact .cons _ ih
  | trans _ _ ih ih' => exact ih.trans ih'

theorem append_right (h : Exchanges es us) (os : List Ebuild) :
    Exchanges (es ++ os) (us ++ os) := by
  induction h with
  | refl es => exact .refl _
  | swap hne es => exact .swap hne _
  | cons e _ ih => exact .cons e ih
  | trans _ _ ih ih' => exact ih.trans ih'

/-- An ebuild moves to the front through ebuilds that are not alike to it. -/
theorem toFront (h : ∀ o ∈ os, o.version.alike e.version = false) :
    Exchanges (os ++ [e]) (e :: os) := by
  induction os with
  | nil => exact .refl _
  | cons o os ih =>
    have hrest := ih fun u hu => h u (List.mem_cons_of_mem o hu)
    exact (hrest.cons o).trans (.swap (h o List.mem_cons_self) os)

theorem place (e : Ebuild) (h : os.Pairwise fun a b => a.version ≤ b.version) :
    Exchanges (os ++ [e]) (place e os) := by
  induction os with
  | nil => exact .refl _
  | cons o os ih =>
    obtain ⟨ho, hos⟩ := List.pairwise_cons.1 h
    rw [Releases.place]
    by_cases hle : o.version ≤ e.version
    · rw [if_pos hle]
      exact (ih hos).cons o
    · rw [if_neg hle]
      refine toFront fun u hu => ?_
      have hou : o.version ≤ u.version := by
        rcases List.mem_cons.1 hu with rfl | hu
        · exact Version.le_refl _
        · exact ho u hu
      cases halike : u.version.alike e.version with
      | false => rfl
      | true =>
        have hue := (Version.alike_iff_le_and_le.1 halike).1
        exact absurd (Version.le_trans hou hue) hle

/-- The releases come from the arrivals by exchanges. -/
theorem insertAll (es : List Ebuild) : ∀ r : Releases,
    Exchanges (r.toList ++ es.map Ebuild.normalize) (r.insertAll es).toList := by
  induction es with
  | nil =>
    intro r
    rw [List.map_nil, List.append_nil]
    exact .refl _
  | cons e es ih =>
    intro r
    have hfirst := (Exchanges.place e.normalize r.ascending).append_right (es.map Ebuild.normalize)
    rw [List.append_assoc] at hfirst
    exact hfirst.trans (ih (r.insert e))

end Exchanges

/-- Two orders of arrival lead to the same releases iff one comes from the other by exchanges of
neighbours that are not alike. -/
theorem toList_ofList_eq_iff_exchanges :
    (ofList es).toList = (ofList us).toList ↔
      Exchanges (es.map Ebuild.normalize) (us.map Ebuild.normalize) := by
  constructor
  · intro h
    have hes := Exchanges.insertAll es .empty
    have hus := Exchanges.insertAll us .empty
    have hsame : (empty.insertAll es).toList = (empty.insertAll us).toList := h
    rw [hsame] at hes
    exact hes.trans hus.symm
  · intro h
    refine toList_ofList_eq (ofList us).ascending fun v => ?_
    rw [alikeTo_ofList, h.alikeTo_eq v]

end Releases

/-! ## Packages -/

/-- Nothing in the form in which a package keeps ebuilds is empty where it can be absent, and the
words of the dependencies have single spaces between them. -/
theorem Ebuild.normal_fields {e : Ebuild} (h : e.normalize = e) :
    e.slot.sub ≠ some "" ∧ ∀ d, e.depend = some d → d.isEmpty = false ∧ d.collapse = d := by
  have hslot : e.slot.normalize = e.slot := congrArg Ebuild.slot h
  have hdepend : Dependencies.normalize e.depend = e.depend := congrArg Ebuild.depend h
  constructor
  · intro hsub
    unfold Slot.normalize at hslot
    rw [if_pos hsub] at hslot
    rw [← hslot] at hsub
    cases hsub
  · intro d hd
    rw [hd, Dependencies.normalize, Option.bind_some, Dependencies.nonempty?] at hdepend
    by_cases hempty : d.collapse.isEmpty = true
    · rw [if_pos hempty] at hdepend
      cases hdepend
    · rw [if_neg hempty] at hdepend
      have hcollapse : d.collapse = d := Option.some.inj hdepend
      rw [hcollapse] at hempty
      exact ⟨Bool.eq_false_iff.2 hempty, hcollapse⟩

namespace Package

open Releases (alikeTo precedes Exchanges)

/-- A new package that has got ebuilds one by one. -/
def filled (category name : String) (es : List Ebuild) : Package :=
  es.foldl add { category, name }

theorem ebuilds_filled (category name : String) (es : List Ebuild) :
    (filled category name es).ebuilds = (Releases.ofList es).toList :=
  congrArg Releases.toList (releases_foldl_add es { category, name })

theorem ebuilds_filled_eq_insertIdx (category name : String) (es : List Ebuild) :
    (filled category name es).ebuilds = es.foldl
      (fun os e => os.insertIdx (firstFailing (precedes e.version) os) e.normalize) [] := by
  have hsearch : ∀ r : Releases, (r.insertAll es).toList = es.foldl
      (fun os e => os.insertIdx (firstFailing (precedes e.version) os) e.normalize) r.toList := by
    induction es with
    | nil => exact fun r => rfl
    | cons e es ih =>
      intro r
      rw [List.foldl_cons, ← Releases.toList_insert_eq_insertIdx]
      exact ih (r.insert e)
  rw [ebuilds_filled]
  exact hsearch .empty

/-- The ebuilds of a new package, after some have been added one by one, are the stable sort of
these in their normal form. Each goes where the search by halving ends; none is lost or merged, and
those with versions that are alike keep their order. Another order of arrival leads to the same
ebuilds if only neighbours that are not alike have been exchanged, and, up to the normal form, only
then. -/
theorem add_sorts_stably (category name : String) (es : List Ebuild) :
    let sorted := (filled category name es).ebuilds
    let added := es.map Ebuild.normalize
    sorted = es.foldl
      (fun os e => os.insertIdx (firstFailing (precedes e.version) os) e.normalize) [] ∧
    sorted = added.mergeSort (fun a b => decide (a.version ≤ b.version)) ∧
    sorted.Perm added ∧
    sorted.Pairwise (fun a b => a.version ≤ b.version) ∧
    (∀ v, alikeTo v sorted = alikeTo v added) ∧
    (∀ e ∈ sorted,
      e.slot.sub ≠ some "" ∧ ∀ d, e.depend = some d → d.isEmpty = false ∧ d.collapse = d) ∧
    (∀ us, Exchanges us es → (filled category name us).ebuilds = sorted) ∧
    ∀ us, (filled category name us).ebuilds = sorted ↔
      Exchanges (us.map Ebuild.normalize) added := by
  intro sorted added
  have hsorted : sorted = (Releases.ofList es).toList := ebuilds_filled category name es
  have hiff : ∀ us, (filled category name us).ebuilds = sorted ↔
      Exchanges (us.map Ebuild.normalize) added := by
    intro us
    rw [ebuilds_filled, hsorted]
    exact Releases.toList_ofList_eq_iff_exchanges
  refine ⟨ebuilds_filled_eq_insertIdx category name es, ?_, ?_, ?_, ?_, ?_,
    fun us h => (hiff us).2 h.map_normalize, hiff⟩
  · rw [hsorted]
    exact Releases.toList_ofList_eq_mergeSort es
  · have hperm := Releases.perm_insertAll es .empty
    have hempty : Releases.empty.toList = [] := rfl
    rw [hempty, List.append_nil] at hperm
    rw [hsorted]
    exact hperm
  · rw [hsorted]
    exact (Releases.ofList es).ascending
  · intro v
    rw [hsorted]
    exact Releases.alikeTo_ofList v es
  · intro e he
    rw [hsorted] at he
    exact Ebuild.normal_fields ((Releases.ofList es).normal e he)

-- Two spellings of one version, and a higher version with nothing but blanks in its fields.
def birchPlain : Ebuild := { version := ⟨⟨1, []⟩, [⟨0, []⟩], none, [], []⟩, overlay := 2 }

def birchPadded : Ebuild := { version := ⟨⟨1, []⟩, [⟨0, [0]⟩], none, [], []⟩, overlay := 1 }

def birchNew : Ebuild where
  version := ⟨⟨2, []⟩, [], none, [], []⟩
  slot := ⟨"2", some ""⟩
  depend := some ⟨" ", "", "", ""⟩

/-- Of the two spellings the one that came first stays first, whenever the third ebuild comes. -/
theorem add_sorts_stably_birch :
    (filled "a" "birch" [birchNew, birchPlain, birchPadded]).ebuilds =
        [birchPlain, birchPadded, birchNew.normalize] ∧
      (filled "a" "birch" [birchPlain, birchNew, birchPadded]).ebuilds =
        (filled "a" "birch" [birchNew, birchPlain, birchPadded]).ebuilds ∧
      birchNew.normalize.slot.sub ≠ some "" ∧
      (filled "a" "birch" [birchNew, birchPadded, birchPlain]).ebuilds ≠
        (filled "a" "birch" [birchNew, birchPlain, birchPadded]).ebuilds := by
  have hsorted : (filled "a" "birch" [birchNew, birchPlain, birchPadded]).ebuilds =
      [birchPlain, birchPadded, birchNew.normalize] := by
    decide +kernel
  have hexchange : Exchanges [birchPlain, birchNew, birchPadded]
      [birchNew, birchPlain, birchPadded] :=
    .swap (by decide) [birchPadded]
  obtain ⟨-, -, -, -, -, hnormal, hsame, -⟩ :=
    add_sorts_stably "a" "birch" [birchNew, birchPlain, birchPadded]
  rw [hsorted] at hnormal
  refine ⟨hsorted, hsame _ hexchange, (hnormal birchNew.normalize ?_).1, by decide +kernel⟩
  exact List.mem_cons_of_mem _ (List.mem_cons_of_mem _ List.mem_cons_self)

end Package

end PackageIndex
