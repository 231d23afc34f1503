import PackageIndex.Proofs.Advice.Upgrade
import PackageIndex.Advice.Verdict

/-!
# The verdict of the first version that is not below the best one

The best stable ebuild is held against the installed versions in their order, and the first of them
that is not below it decides. As the installed versions ascend, this tells how all of them stand to
it: they are all below it, or one is like it, or none is and some is above it
(`checkBest_of_ascending`).
-/

namespace PackageIndex.Package

variable {p : Package} {s : Option InstalledSource} {source : InstalledSource}
  {onlyInstalled slotCounts : Bool} {best : Ebuild} {i first : Installed}
  {installed before : List Installed}

/-- The slot of an installed version can be told, and has the name. -/
def LiesIn (p : Package) (s : Option InstalledSource) (i : Installed) (name : String) : Prop :=
  ∃ slot, p.resolveSlot? s i = some slot ∧ slot.name = name

/-- The verdict on an installed version that is like the best ebuild: all is equal, unless slots
count and the installed version is not known to lie in the slot of the best ebuild. -/
def DecidedByAlike (p : Package) (s : Option InstalledSource) (slotCounts : Bool) (best : Ebuild)
    (i : Installed) (verdict : Verdict) : Prop :=
  (verdict = .equal ∧ (slotCounts = true → p.LiesIn s i best.slot.name)) ∨
    (verdict = .differsInOrigin ∧ slotCounts = true ∧ ¬ p.LiesIn s i best.slot.name)

/-! ## One installed version -/

theorem checkAgainst_cons_of_lower (h : i.version < best.version) :
    p.checkAgainst s slotCounts best (i :: installed) =
      p.checkAgainst s slotCounts best installed := by
  have hgt : compare best.version i.version = .gt := Version.compare_eq_gt_iff.2 h
  rw [checkAgainst, hgt]

theorem checkAgainst_cons_of_higher (h : best.version < i.version) :
    p.checkAgainst s slotCounts best (i :: installed) = .downgrade := by
  have hlt : compare best.version i.version = .lt := h
  rw [checkAgainst, hlt]

theorem checkAgainst_cons_of_alike (h : i.version.alike best.version = true) :
    p.DecidedByAlike s slotCounts best i
      (p.checkAgainst s slotCounts best (i :: installed)) := by
  have heq : compare best.version i.version = .eq :=
    Version.alike_iff_compare.1 (Version.alike_symm h)
  rw [checkAgainst, heq]
  cases slotCounts with
  | false => exact .inl ⟨rfl, nofun⟩
  | true =>
    unfold DecidedByAlike LiesIn
    cases p.resolveSlot? s i with
    | none => exact .inr ⟨rfl, rfl, by simp⟩
    | some slot =>
      by_cases hname : slot.name = best.slot.name
      · simp [hname]
      · simp [hname]

/-! ## The installed versions in their order -/

theorem checkAgainst_append_of_lower (h : ∀ i ∈ before, i.version < best.version) :
    p.checkAgainst s slotCounts best (before ++ installed) =
      p.checkAgainst s slotCounts best installed := by
  induction before with
  | nil => rfl
  | cons i before ih =>
    rw [List.cons_append, checkAgainst_cons_of_lower (h i List.mem_cons_self)]
    exact ih fun j hj => h j (List.mem_cons_of_mem i hj)

theorem checkAgainst_of_all_lower (h : ∀ i ∈ installed, i.version < best.version) :
    p.checkAgainst s slotCounts best installed = .upgrade := by
  have hall : p.checkAgainst s slotCounts best (installed ++ []) =
      p.checkAgainst s slotCounts best [] :=
    checkAgainst_append_of_lower h
  rw [List.append_nil] at hall
  exact hall

/-- Where none of the versions is like the best one, one above it decides. -/
theorem checkAgainst_of_some_higher
    (hnone : ∀ i ∈ installed, i.version.alike best.version = false)
    (hsome : ∃ i ∈ installed, best.version < i.version) :
    p.checkAgainst s slotCounts best installed = .downgrade := by
  induction installed with
  | nil =>
    obtain ⟨i, hi, -⟩ := hsome
    cases hi
  | cons i installed ih =>
    by_cases hhigher : best.version < i.version
    · exact checkAgainst_cons_of_higher hhigher
    · have hle : i.version ≤ best.version := Version.le_iff_not_lt.2 hhigher
      have hlower := Version.lt_of_le_of_alike_eq_false hle (hnone i List.mem_cons_self)
      rw [checkAgainst_cons_of_lower hlower]
      refine ih (fun j hj => hnone j (List.mem_cons_of_mem i hj)) ?_
      obtain ⟨j, hj, hjhigher⟩ := hsome
      rcases List.mem_cons.1 hj with rfl | hj
      · exact absurd hjhigher hhigher
      · exact ⟨j, hj, hjhigher⟩

/-- In ascending order the first version that is like the best one comes after lower ones only. -/
theorem lower_before_first (hasc : installed.Pairwise fun a b => a.version ≤ b.version)
    (hfirst : installed.find? (fun i => i.version.alike best.version) = some first) :
    ∃ before after, installed = before ++ first :: after ∧
      ∀ i ∈ before, i.version < best.version := by
  obtain ⟨halike, before, after, rfl, hbefore⟩ := List.find?_eq_some_iff_append.1 hfirst
  refine ⟨before, after, rfl, fun i hi => ?_⟩
  have hle : i.version ≤ first.version :=
    (List.pairwise_append.1 hasc).2.2 i hi first List.mem_cons_self
  have hbest : i.version ≤ best.version :=
    Version.le_trans hle (Version.alike_iff_le_and_le.1 halike).1
  have hne : i.version.alike best.version = false := by simpa using hbefore i hi
  exact Version.lt_of_le_of_alike_eq_false hbest hne

theorem checkAgainst_of_first (hasc : installed.Pairwise fun a b => a.version ≤ b.version)
    (hfirst : installed.find? (fun i => i.version.alike best.version) = some first) :
    p.DecidedByAlike s slotCounts best first (p.checkAgainst s slotCounts best installed) := by
  obtain ⟨before, after, rfl, hbefore⟩ := lower_before_first hasc hfirst
  have halike := List.find?_some hfirst
  rw [checkAgainst_append_of_lower hbefore]
  exact checkAgainst_cons_of_alike halike

/-- How ascending versions can stand to the best one, and what each case comes to. -/
theorem checkAgainst_cases (p : Package) (s : Option InstalledSource) (slotCounts : Bool)
    (best : Ebuild) (hasc : installed.Pairwise fun a b => a.version ≤ b.version) :
    ((∀ i ∈ installed, i.version < best.version) ∧
      p.checkAgainst s slotCounts best installed = .upgrade) ∨
    ((∀ i ∈ installed, i.version.alike best.version = false) ∧
      (∃ i ∈ installed, best.version < i.version) ∧
      p.checkAgainst s slotCounts best installed = .downgrade) ∨
    ∃ first, installed.find? (fun i => i.version.alike best.version) = some first ∧
      p.DecidedByAlike s slotCounts best first
        (p.checkAgainst s slotCounts best installed) := by
  cases hfind : installed.find? (fun i => i.version.alike best.version) with
  | some first => exact .inr (.inr ⟨first, rfl, checkAgainst_of_first hasc hfind⟩)
  | none =>
    have hnone : ∀ i ∈ installed, i.version.alike best.version = false := by
      simpa using hfind
    by_cases hsome : ∃ i ∈ installed, best.version < i.version
    · exact .inr (.inl ⟨hnone, hsome, checkAgainst_of_some_higher hnone hsome⟩)
    · have hlower : ∀ i ∈ installed, i.version < best.version := by
        intro i hi
        have hle : i.version ≤ best.version :=
          Version.le_iff_not_lt.2 fun hlt => hsome ⟨i, hi, hlt⟩
        exact Version.lt_of_le_of_alike_eq_false hle (hnone i hi)
      exact .inl ⟨hlower, checkAgainst_of_all_lower hlower⟩

theorem checkAgainst_eq_upgrade_iff (hasc : installed.Pairwise fun a b => a.version ≤ b.version) :
    p.checkAgainst s slotCounts best installed = .upgrade ↔
      ∀ i ∈ installed, i.version < best.version := by
  refine ⟨fun h => ?_, checkAgainst_of_all_lower⟩
  rcases checkAgainst_cases p s slotCounts best hasc with
    ⟨hlower, -⟩ | ⟨-, -, hv⟩ | ⟨first, -, ⟨hv, -⟩ | ⟨hv, -⟩⟩
  · exact hlower
  all_goals
    rw [h] at hv
    cases hv

theorem checkAgainst_eq_downgrade_iff
    (hasc : installed.Pairwise fun a b => a.version ≤ b.version) :
    p.checkAgainst s slotCounts best installed = .downgrade ↔
      (∀ i ∈ installed, i.version.alike best.version = false) ∧
        ∃ i ∈ installed, best.version < i.version := by
  refine ⟨fun h => ?_, fun ⟨hnone, hsome⟩ => checkAgainst_of_some_higher hnone hsome⟩
  rcases checkAgainst_cases p s slotCounts best hasc with
    ⟨-, hv⟩ | ⟨hnone, hsome, -⟩ | ⟨first, -, ⟨hv, -⟩ | ⟨hv, -⟩⟩
  case inr.inl => exact ⟨hnone, hsome⟩
  all_goals
    rw [h] at hv
    cases hv

/-! ## The verdict -/

theorem checkBest_of_installed (hne : source.installed p ≠ []) :
    p.checkBest (some source) onlyInstalled slotCounts =
      match p.best false with
      | none => .downgrade
      | some best => p.checkAgainst (some source) slotCounts best (source.installed p) := by
  unfold checkBest installedIn
  exact if_neg (by simpa using hne)

/-- Let versions be installed, in ascending order. The verdict is a downgrade iff there is no best
stable ebuild, or no installed version is like it and some is above it; it is an upgrade iff the
best one is above all that is installed. Otherwise the best version is installed: all is equal,
unless slots count and the first such version is not known to lie in the slot of the best one. -/
theorem checkBest_of_ascending (p : Package) (source : InstalledSource)
    (hne : source.installed p ≠ [])
    (hasc : (source.installed p).Pairwise fun a b => a.version ≤ b.version)
    (onlyInstalled slotCounts : Bool) :
    let verdict := p.checkBest (some source) onlyInstalled slotCounts
    (verdict = .downgrade ↔
      p.best false = none ∨ ∃ best, p.best false = some best ∧
        (∀ i ∈ source.installed p, i.version.alike best.version = false) ∧
          ∃ i ∈ source.installed p, best.version < i.version) ∧
    (verdict = .upgrade ↔
      ∃ best, p.best false = some best ∧ ∀ i ∈ source.installed p, i.version < best.version) ∧
    (verdict ≠ .downgrade → verdict ≠ .upgrade →
      ∃ best first, p.best false = some best ∧
        (source.installed p).find? (fun i => i.version.alike best.version) = some first ∧
        (slotCounts = false → verdict = .equal) ∧
        (slotCounts = true →
          (verdict = .equal ↔ p.LiesIn (some source) first best.slot.name) ∧
          (verdict = .differsInOrigin ↔ ¬ p.LiesIn (some source) first best.slot.name))) := by
  intro verdict
  have hverdict : verdict = _ := checkBest_of_installed hne
  cases hbest : p.best false with
  | none =>
    rw [hbest] at hverdict
    simp [hverdict]
  | some best =>
    rw [hbest] at hverdict
    dsimp only at hverdict
    simp only [Option.some_inj, exists_eq_left', reduceCtorEq, false_or]
    rw [hverdict]
    refine ⟨checkAgainst_eq_downgrade_iff hasc, checkAgainst_eq_upgrade_iff hasc, ?_⟩
    intro hnotdown hnotup
    rcases checkAgainst_cases p (some source) slotCounts best hasc with
      ⟨-, hv⟩ | ⟨-, -, hv⟩ | ⟨first, hfirst, hv⟩
    · exact absurd hv hnotup
    · exact absurd hv hnotdown
    · refine ⟨best, first, rfl, hfirst, ?_⟩
      rcases hv with ⟨hv, hlies⟩ | ⟨hv, rfl, hnot⟩
      · rw [hv]
        refine ⟨fun _ => rfl, fun hcounts => ?_⟩
        simp [hlies hcounts]
      · rw [hv]
        refine ⟨fun hfalse => ?_, fun _ => ?_⟩
        · cases hfalse
        · simp [hnot]

-- Version 1, version 3 in another slot than the one it is offered in, and version 5.
def strandedSource : InstalledSource where
  installed _ :=
    [⟨⟨⟨1, []⟩, [], none, [], []⟩, some "0", none⟩,
      ⟨⟨⟨3, []⟩, [], none, [], []⟩, some "0", none⟩,
      ⟨⟨⟨5, []⟩, [], none, [], []⟩, some "3", none⟩]
  recordedSlot? _ _ := none

/-- The best version is installed in another slot. That version 5 is above it does not count. -/
theorem checkBest_of_ascending_ivy :
    strandedSource.installed ivy ≠ [] ∧
      (strandedSource.installed ivy).Pairwise (fun a b => a.version ≤ b.version) ∧
      ivy.best false = some (stableEbuild 3 "3") ∧
      ivy.checkBest (some strandedSource) true false = .equal ∧
      ivy.checkBest (some strandedSource) true true = .differsInOrigin := by
  have hne : strandedSource.installed ivy ≠ [] := List.cons_ne_nil _ _
  have hasc : (strandedSource.installed ivy).Pairwise fun a b => a.version ≤ b.version := by
    decide
  have hbest : ivy.best false = some (stableEbuild 3 "3") := by decide
  obtain ⟨-, -, hplain⟩ := checkBest_of_ascending ivy strandedSource hne hasc true false
  obtain ⟨-, -, hslots⟩ := checkBest_of_ascending ivy strandedSource hne hasc true true
  obtain ⟨-, -, -, -, hequal, -⟩ := hplain (by decide) (by decide)
  obtain ⟨best, first, hbest', hfirst, -, hslot⟩ := hslots (by decide) (by decide)
  cases hbest.symm.trans hbest'
  cases hfirst
  have hnot : ¬ ivy.LiesIn (some strandedSource)
      ⟨⟨⟨3, []⟩, [], none, [], []⟩, some "0", none⟩ "3" := by
    rintro ⟨slot, hr, hname⟩
    cases hr
    revert hname
    decide
  exact ⟨hne, hasc, hbest, hequal rfl, (hslot rfl).2.2 hnot⟩

end PackageIndex.Package
