import PackageIndex.Advice.Upgrade

/-!
# Verdicts

The outcome of comparing a package with another state of it, or with what is installed. A strictly
higher version always decides. Versions that are alike and differ in their layer, or in their slot
where that is asked for, only differ in origin.
-/

namespace PackageIndex

/-- The outcome of a comparison. -/
inductive Verdict where
  /-- There is nothing to do. -/
  | equal
  /-- A higher version is available. -/
  | upgrade
  /-- An installed version is too high or no longer available. -/
  | downgrade
  /-- There are upgrades and downgrades. -/
  | upgradeAndDowngrade
  /-- The same version comes from another layer or slot. -/
  | differsInOrigin
  /-- Nothing is installed, and something can be. -/
  | installable
  deriving DecidableEq, Repr

namespace Verdict

/-- The number of a verdict. -/
def code : Verdict → Int
  | equal => 0
  | upgrade => 1
  | downgrade => -1
  | upgradeAndDowngrade => 2
  | differsInOrigin => 3
  | installable => 4

/-- The text of a verdict. -/
def label : Verdict → String
  | equal => "equal"
  | upgrade => "upgrade"
  | downgrade => "downgrade"
  | upgradeAndDowngrade => "upgrade+downgrade"
  | differsInOrigin => "differs in origin"
  | installable => "installable"

/-- The identifier of a verdict in reports that programs read. -/
def identifier : Verdict → String
  | equal => "equal"
  | upgrade => "upgrade"
  | downgrade => "downgrade"
  | upgradeAndDowngrade => "upgrade_and_downgrade"
  | differsInOrigin => "differs_in_origin"
  | installable => "installable"

/-- The verdict of two independent findings. -/
def ofFindings (upgrade downgrade : Bool) : Verdict :=
  match upgrade, downgrade with
  | true, true => .upgradeAndDowngrade
  | true, false => .upgrade
  | false, true => .downgrade
  | false, false => .equal

end Verdict

namespace Package

/-! ## Two states of a package -/

/-- How the best ebuilds of some slots of one package stand to those of another package. -/
inductive Standing where
  /-- Some slot is better, or is missing in the other package. -/
  | better
  /-- No slot is better, and some has the same version from another layer. -/
  | otherOrigin
  /-- Neither. -/
  | noBetter
  deriving DecidableEq, Repr

/-- How the best ebuilds of the given slots stand to those of another package. -/
def standing (p q : Package) : List SlotGroup → Standing
  | [] => .noBetter
  | g :: gs =>
    match p.bestIn g.slot false with
    | none => standing p q gs
    | some mine =>
      match q.bestIn g.slot false with
      | none => .better
      | some theirs =>
        match compare mine.version theirs.version with
        | .gt => .better
        | .lt => standing p q gs
        | .eq =>
          match standing p q gs with
          | .noBetter => if mine.overlay = theirs.overlay then .noBetter else .otherOrigin
          | other => other

/-- Compares the best ebuilds of the slots with those of another state of the package. -/
def compareSlots (p q : Package) : Verdict :=
  match standing p q p.slotGroups, standing q p q.slotGroups with
  | .better, .better => .upgradeAndDowngrade
  | .better, _ => .upgrade
  | _, .better => .downgrade
  | .noBetter, .noBetter => .equal
  | _, _ => .differsInOrigin

/-- Compares the best ebuild with that of another state of the package; a missing one counts as
lower than any. -/
def compareBest (p q : Package) (slotCounts : Bool) : Verdict :=
  match p.best false, q.best false with
  | some mine, some theirs =>
    match compare mine.version theirs.version with
    | .gt => .upgrade
    | .lt => .downgrade
    | .eq =>
      if mine.overlay ≠ theirs.overlay ∨ (slotCounts ∧ mine.slot.name ≠ theirs.slot.name) then
        .differsInOrigin
      else .equal
  | some _, none => .upgrade
  | none, some _ => .downgrade
  | none, none => .equal

/-! ## A package and what is installed -/

/-- The installed versions of the package; none without a source. -/
def installedIn (p : Package) (source : Option InstalledSource) : List Installed :=
  match source with
  | none => []
  | some source => source.installed p

/-- The verdict where nothing is installed. -/
def verdictOnNothing (p : Package) (onlyInstalled : Bool) : Verdict :=
  if !onlyInstalled && (p.best false).isSome then .installable else .equal

/-- Whether an installed version asks for an upgrade, and whether for a downgrade. -/
def findings (p : Package) (source : Option InstalledSource) (i : Installed) : Bool × Bool :=
  match p.resolveSlot? source i with
  | none => ((p.best false).any fun best => decide (i.version < best.version), true)
  | some slot =>
    match p.bestIn slot.name false with
    | none => (false, true)
    | some best =>
      (compare best.version i.version == .gt, compare best.version i.version == .lt)

/-- Compares the best ebuilds of the slots with what is installed. -/
def checkSlots (p : Package) (source : Option InstalledSource) (onlyInstalled : Bool) : Verdict :=
  let installed := p.installedIn source
  if installed.isEmpty then p.verdictOnNothing onlyInstalled
  else
    let found := installed.map (p.findings source)
    .ofFindings (found.any Prod.fst) (found.any Prod.snd)

/-- The verdict of the first installed version that is not below the best ebuild. -/
def checkAgainst (p : Package) (source : Option InstalledSource) (slotCounts : Bool)
    (best : Ebuild) : List Installed → Verdict
  | [] => .upgrade
  | i :: is =>
    match compare best.version i.version with
    | .gt => checkAgainst p source slotCounts best is
    | .lt => .downgrade
    | .eq =>
      if !slotCounts then .equal
      else match p.resolveSlot? source i with
        | some slot => if slot.name = best.slot.name then .equal else .differsInOrigin
        | none => .differsInOrigin

/-- Compares the best ebuild with what is installed. -/
def checkBest (p : Package) (source : Option InstalledSource) (onlyInstalled slotCounts : Bool) :
    Verdict :=
  let installed := p.installedIn source
  if installed.isEmpty then p.verdictOnNothing onlyInstalled
  else match p.best false with
    | none => .downgrade
    | some best => p.checkAgainst source slotCounts best installed

end Package

end PackageIndex
