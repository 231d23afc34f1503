import PackageIndex.Package.Basic
import PackageIndex.Proofs.Package.Releases

/-!
# The latest ebuild

The latest ebuild of a package is the last of those with the highest version. A version is the newest
if it is not below that of the latest ebuild, and then it is below none (`isNewest_iff`). An ebuild
that is added becomes the latest exactly if its version is the newest (`latest_add_of_isNewest`,
`latest_add_of_not_isNewest`).
-/

namespace PackageIndex

theorem Releases.getLast?_place_of_not_le {e o : Ebuild} {os : List Ebuild}
    (hlast : os.getLast? = some o) (h : ¬ o.version ≤ e.version) :
    (place e os).getLast? = some o := by
  induction os with
  | nil => cases hlast
  | cons a os ih =>
    rw [place]
    by_cases hle : a.version ≤ e.version
    · rw [if_pos hle]
      cases os with
      | nil =>
        -- The last ebuild would stand below the new one.
        obtain rfl := Option.some_inj.1 hlast
        exact absurd hle h
      | cons b os =>
        have hrest : (place e (b :: os)).getLast? = some o := ih hlast
        rw [List.getLast?_cons, hrest]
        rfl
    · rw [if_neg hle]
      exact hlast

namespace Package

variable {p : Package} {v : Version} {e : Ebuild}

@[simp] theorem isNewest_addUseFlags (p : Package) (flags : List String) (v : Version) :
    (p.addUseFlags flags).isNewest v = p.isNewest v :=
  rfl

theorem isNewest_iff_of_latest (h : p.latest = some e) : p.isNewest v = true ↔ e.version ≤ v := by
  unfold isNewest
  rw [h]
  exact decide_eq_true_iff

theorem isNewest_of_forall_le (h : ∀ e ∈ p.ebuilds, e.version ≤ v) : p.isNewest v = true := by
  cases hlast : p.latest with
  | none =>
    unfold isNewest
    rw [hlast]
    rfl
  | some e =>
    have he : e ∈ p.ebuilds := List.mem_of_getLast? hlast
    exact (isNewest_iff_of_latest hlast).2 (h e he)

theorem isNewest_iff : p.isNewest v = true ↔ ∀ e ∈ p.ebuilds, e.version ≤ v := by
  refine ⟨fun h e he => ?_, isNewest_of_forall_le⟩
  cases hlast : p.latest with
  | none =>
    have hempty : p.ebuilds = [] := List.getLast?_eq_none_iff.1 hlast
    rw [hempty] at he
    cases he
  | some o =>
    have ho : o.version ≤ v := (isNewest_iff_of_latest hlast).1 h
    obtain ⟨before, hebuilds⟩ := List.getLast?_eq_some_iff.1 hlast
    rw [hebuilds] at he
    rcases List.mem_append.1 he with hbefore | hself
    · -- The ebuilds ascend, so none is above the last.
      have hascending := p.releases.ascending
      rw [show p.releases.toList = before ++ [o] from hebuilds] at hascending
      have hle := (List.pairwise_append.1 hascending).2.2 e hbefore o (List.mem_singleton_self o)
      exact Version.le_trans hle ho
    · rw [List.mem_singleton.1 hself]
      exact ho

theorem latest_add_of_isNewest (h : p.isNewest e.version = true) :
    (p.add e).latest = some e.normalize := by
  have hle : ∀ o ∈ p.ebuilds, o.version ≤ e.normalize.version := isNewest_iff.1 h
  show (Releases.place e.normalize p.ebuilds).getLast? = _
  rw [Releases.place_of_le hle]
  exact List.getLast?_concat

theorem latest_add_of_not_isNewest (h : ¬ p.isNewest e.version = true) :
    (p.add e).latest = p.latest := by
  cases hlast : p.latest with
  | none =>
    unfold isNewest at h
    rw [hlast] at h
    exact absurd rfl h
  | some o =>
    have hnot : ¬ o.version ≤ e.normalize.version := by
      rw [isNewest_iff_of_latest hlast] at h
      exact h
    exact Releases.getLast?_place_of_not_le hlast hnot

end Package

end PackageIndex
