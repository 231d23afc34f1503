import PackageIndex.Ebuild

/-!
# The releases of a package

The ebuilds of a package in ascending version order. Ebuilds whose versions are alike, such as one
version from two layers, stay side by side in the order of their arrival. Every ebuild is kept in
its normal form. Both facts are part of the type.
-/

namespace PackageIndex

/-- The ebuilds of a package, ascending and in normal form. -/
structure Releases where
  /-- The ebuilds in order. -/
  toList : List Ebuild
  /-- No version stands before a lower one. -/
  ascending : toList.Pairwise fun a b => a.version ≤ b.version
  /-- Every ebuild is in its normal form. -/
  normal : ∀ e ∈ toList, e.normalize = e
  deriving DecidableEq

namespace Releases

/-- No ebuilds. -/
def empty : Releases := ⟨[], .nil, nofun⟩

instance : Inhabited Releases := ⟨empty⟩

/-- Puts an ebuild behind all whose versions are not higher. -/
def place (e : Ebuild) : List Ebuild → List Ebuild
  | [] => [e]
  | o :: os => if o.version ≤ e.version then o :: place e os else e :: o :: os

theorem mem_place {e u : Ebuild} {os : List Ebuild} : u ∈ place e os ↔ u = e ∨ u ∈ os := by
  induction os with
  | nil => simp [place]
  | cons o os ih =>
    rw [place]
    split
    · simp only [List.mem_cons, ih]; grind
    · simp

theorem perm_place (e : Ebuild) (os : List Ebuild) : (place e os).Perm (e :: os) := by
  induction os with
  | nil => exact .refl _
  | cons o os ih =>
    rw [place]
    split
    · exact (ih.cons o).trans (.swap e o os)
    · exact .refl _

theorem pairwise_place {e : Ebuild} {os : List Ebuild}
    (h : os.Pairwise fun a b => a.version ≤ b.version) :
    (place e os).Pairwise fun a b => a.version ≤ b.version := by
  induction os with
  | nil => simp [place]
  | cons o os ih =>
    have ⟨ho, hos⟩ := List.pairwise_cons.1 h
    rw [place]
    split
    next hle =>
      refine List.pairwise_cons.2 ⟨fun u hu => ?_, ih hos⟩
      rcases mem_place.1 hu with rfl | hu
      · exact hle
      · exact ho u hu
    next hgt =>
      have hge := Version.le_of_not_le hgt
      refine List.pairwise_cons.2 ⟨fun u hu => ?_, h⟩
      rcases List.mem_cons.1 hu with rfl | hu
      · exact hge
      · exact Version.le_trans hge (ho u hu)

/-- The releases with one more ebuild. -/
def insert (r : Releases) (e : Ebuild) : Releases where
  toList := place e.normalize r.toList
  ascending := pairwise_place r.ascending
  normal := by
    intro u hu
    rcases mem_place.1 hu with rfl | hu
    · exact e.normalize_normalize
    · exact r.normal u hu

/-- The releases with the ebuilds of a list added one by one. -/
def insertAll (r : Releases) (es : List Ebuild) : Releases :=
  es.foldl insert r

/-- The releases that come from adding the ebuilds of a list one by one. -/
def ofList (es : List Ebuild) : Releases :=
  empty.insertAll es

end Releases

end PackageIndex
