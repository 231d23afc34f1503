import PackageIndex.Package.Basic
import PackageIndex.Proofs.Version.Preorder

/-!
# Ebuilds that are added one by one

Ebuilds that are added one after the other come to a stable merge: the releases are those from
before and the new ones in their normal form (`perm_insertAll`), in ascending order by their type,
and those whose versions are alike stand in the order of their arrival (`alikeTo_insertAll`).
-/

namespace PackageIndex

namespace Releases

theorem eq_of_toList {r r' : Releases} (h : r.toList = r'.toList) : r = r' := by
  cases r
  cases r'
  cases h
  rfl

theorem insertAll_append (r : Releases) (es us : List Ebuild) :
    r.insertAll (es ++ us) = (r.insertAll es).insertAll us :=
  List.foldl_append

theorem ofList_concat (es : List Ebuild) (e : Ebuild) :
    ofList (es ++ [e]) = (ofList es).insert e :=
  insertAll_append empty es [e]

/-- What is kept by the addition of each of the ebuilds is kept by that of all. -/
theorem insertAll_induction {P : Releases → Prop} {es : List Ebuild} :
    ∀ {r : Releases}, (∀ r, ∀ e ∈ es, P r → P (r.insert e)) → P r → P (r.insertAll es) := by
  induction es with
  | nil => exact fun _ hr => hr
  | cons e es ih =>
    intro r hinsert hr
    have hrest : ∀ r, ∀ u ∈ es, P r → P (r.insert u) :=
      fun r u hu => hinsert r u (List.mem_cons_of_mem e hu)
    exact ih hrest (hinsert r e List.mem_cons_self hr)

/-! ## What is there -/

theorem perm_insertAll (es : List Ebuild) :
    ∀ r : Releases, (r.insertAll es).toList.Perm (es.map Ebuild.normalize ++ r.toList) := by
  induction es with
  | nil => exact fun r => .refl _
  | cons e es ih =>
    intro r
    have hrest := (ih (r.insert e)).trans ((perm_place e.normalize r.toList).append_left _)
    exact hrest.trans List.perm_middle

theorem mem_insertAll {r : Releases} {es : List Ebuild} {u : Ebuild} :
    u ∈ (r.insertAll es).toList ↔ u ∈ r.toList ∨ ∃ e ∈ es, u = e.normalize := by
  rw [(perm_insertAll es r).mem_iff, List.mem_append, List.mem_map, or_comm]
  simp only [eq_comm]

theorem mem_ofList {es : List Ebuild} {u : Ebuild} :
    u ∈ (ofList es).toList ↔ ∃ e ∈ es, u = e.normalize := by
  rw [ofList, mem_insertAll]
  simp [empty]

theorem insertAll_ne_nil {r : Releases} {es : List Ebuild} (h : r.toList ≠ [] ∨ es ≠ []) :
    (r.insertAll es).toList ≠ [] := by
  intro hnil
  have hperm := perm_insertAll es r
  rw [hnil] at hperm
  obtain ⟨hes, hr⟩ := List.append_eq_nil_iff.1 hperm.nil_eq.symm
  exact h.elim (· hr) (· (List.map_eq_nil_iff.1 hes))

/-! ## In which order -/

theorem sublist_place (e : Ebuild) (os : List Ebuild) : os.Sublist (place e os) := by
  induction os with
  | nil => exact List.nil_sublist _
  | cons o os ih =>
    rw [place]
    split
    · exact ih.cons_cons o
    · exact List.sublist_cons_self e _

theorem sublist_insertAll (es : List Ebuild) (r : Releases) :
    r.toList.Sublist (r.insertAll es).toList := by
  refine insertAll_induction (P := fun r' => r.toList.Sublist r'.toList) ?_ (.refl _)
  intro r' e _ h
  exact h.trans (sublist_place e.normalize r'.toList)

theorem place_of_le {e : Ebuild} {os : List Ebuild} (h : ∀ o ∈ os, o.version ≤ e.version) :
    place e os = os ++ [e] := by
  induction os with
  | nil => rfl
  | cons o os ih =>
    rw [place, if_pos (h o List.mem_cons_self), ih fun u hu => h u (List.mem_cons_of_mem o hu)]
    rfl

theorem toList_insertAll_of_ascending {r : Releases} {es : List Ebuild}
    (h : (r.toList ++ es).Pairwise fun a b => a.version ≤ b.version)
    (hn : ∀ e ∈ es, e.normalize = e) : (r.insertAll es).toList = r.toList ++ es := by
  induction es generalizing r with
  | nil => exact (List.append_nil r.toList).symm
  | cons e es ih =>
    have he : ∀ o ∈ r.toList, o.version ≤ e.version := fun o ho =>
      (List.pairwise_append.1 h).2.2 o ho e List.mem_cons_self
    have hp : (r.insert e).toList = r.toList ++ [e] := by
      show place e.normalize r.toList = _
      rw [hn e List.mem_cons_self, place_of_le he]
    have hi : (r.insert e).toList ++ es = r.toList ++ e :: es := by
      rw [hp, List.append_assoc, List.singleton_append]
    exact (ih (hi ▸ h) fun u hu => hn u (List.mem_cons_of_mem e hu)).trans hi

/-- Ebuilds in ascending order and normal form stay where and what they are. -/
theorem toList_ofList {es : List Ebuild} (h : es.Pairwise fun a b => a.version ≤ b.version)
    (hn : ∀ e ∈ es, e.normalize = e) : (ofList es).toList = es :=
  toList_insertAll_of_ascending h hn

theorem ofList_toList (r : Releases) : ofList r.toList = r :=
  eq_of_toList (toList_ofList r.ascending r.normal)

/-! ## Versions that are alike -/

/-- The ebuilds of a list whose versions are alike to a version. -/
def alikeTo (v : Version) (es : List Ebuild) : List Ebuild :=
  es.filter fun e => e.version.alike v

theorem mem_alikeTo {v : Version} {e : Ebuild} {es : List Ebuild} :
    e ∈ alikeTo v es ↔ e ∈ es ∧ e.version.alike v = true :=
  List.mem_filter

theorem alikeTo_cons_of_alike {v : Version} {e : Ebuild} (h : e.version.alike v = true)
    (es : List Ebuild) : alikeTo v (e :: es) = e :: alikeTo v es :=
  List.filter_cons_of_pos h

theorem alikeTo_cons_of_not_alike {v : Version} {e : Ebuild} (h : ¬ e.version.alike v = true)
    (es : List Ebuild) : alikeTo v (e :: es) = alikeTo v es :=
  List.filter_cons_of_neg h

/-- An ebuild is placed behind all whose versions are alike to its own. -/
theorem alikeTo_place (v : Version) (e : Ebuild) {os : List Ebuild}
    (h : os.Pairwise fun a b => a.version ≤ b.version) :
    alikeTo v (place e os) = alikeTo v os ++ alikeTo v [e] := by
  induction os with
  | nil => rfl
  | cons o os ih =>
    obtain ⟨ho, hos⟩ := List.pairwise_cons.1 h
    rw [place]
    split
    next =>
      have hrest := ih hos
      unfold alikeTo at hrest ⊢
      rw [List.filter_cons, List.filter_cons, hrest]
      split
      · rfl
      · rfl
    next hgt =>
      by_cases he : e.version.alike v = true
      · -- All that follow are above `e`, so they are not alike to `v`.
        have hnil : alikeTo v (o :: os) = [] := by
          refine List.filter_eq_nil_iff.2 fun u hu hv => hgt ?_
          have hou : o.version ≤ u.version := by
            rcases List.mem_cons.1 hu with rfl | hu
            · exact Version.le_refl _
            · exact ho u hu
          have halike := Version.alike_trans hv (Version.alike_symm he)
          exact Version.le_trans hou (Version.alike_iff_le_and_le.1 halike).1
        rw [alikeTo_cons_of_alike he, alikeTo_cons_of_alike he, hnil]
        rfl
      · rw [alikeTo_cons_of_not_alike he, alikeTo_cons_of_not_alike he]
        exact (List.append_nil _).symm

/-- Of ebuilds whose versions are alike the new ones follow the old ones, in their order. -/
theorem alikeTo_insertAll (v : Version) (es : List Ebuild) : ∀ r : Releases,
    alikeTo v (r.insertAll es).toList =
      alikeTo v r.toList ++ alikeTo v (es.map Ebuild.normalize) := by
  induction es with
  | nil => exact fun r => (List.append_nil _).symm
  | cons e es ih =>
    intro r
    have hplace : alikeTo v (r.insert e).toList = alikeTo v r.toList ++ alikeTo v [e.normalize] :=
      alikeTo_place v e.normalize r.ascending
    have hcons : alikeTo v (e.normalize :: es.map Ebuild.normalize) =
        alikeTo v [e.normalize] ++ alikeTo v (es.map Ebuild.normalize) :=
      List.filter_append [e.normalize] _
    have hrest := ih (r.insert e)
    rw [hplace, List.append_assoc, ← hcons] at hrest
    exact hrest

end Releases

/-- A package that gets ebuilds one by one adds them to its releases. -/
theorem Package.foldl_add (es : List Ebuild) : ∀ p : Package,
    es.foldl add p = { p with releases := p.releases.insertAll es } := by
  induction es with
  | nil => exact fun p => rfl
  | cons e es ih => exact fun p => ih (p.add e)

theorem Package.releases_foldl_add (es : List Ebuild) (p : Package) :
    (es.foldl add p).releases = p.releases.insertAll es := by
  rw [foldl_add]

end PackageIndex
