import PackageIndex.CommandLine.Run
import PackageIndex.Proofs.Advice.Standing
import PackageIndex.Proofs.Files.Listing
import PackageIndex.Proofs.Tree.Renumber

/-!
# Changes and the keys of layers

Two states of a package are told apart by their versions first; their keys only count where versions
are alike, and the verdict is then that they differ in origin, or that they are equal. So the layers
of a database can get other keys without any effect on the changes from another database, except on
those that are differences in origin (`diff_of_renumbered`). These go by the keys themselves, which
have a meaning within one database only, so they can come and go where every ebuild stays in its
layer (`diff_of_renumbered_swap`).
-/

namespace PackageIndex

variable {f g : OverlayKey → OverlayKey}

/-- The verdict with differences in origin left out. -/
def Verdict.apartFromOrigin : Verdict → Verdict
  | .differsInOrigin => .equal
  | verdict => verdict

namespace Package

variable {p q : Package} {gs : List SlotGroup}

/-! ## Verdicts on two states of a package -/

/-- Whether the new keys of two packages are the same exactly where the old ones are. -/
def KeysMatch (f g : OverlayKey → OverlayKey) (p q : Package) : Prop :=
  ∀ a ∈ p.ebuilds, ∀ b ∈ q.ebuilds, f a.overlay = g b.overlay ↔ a.overlay = b.overlay

theorem KeysMatch.symm (h : KeysMatch f g p q) : KeysMatch g f q p := by
  intro b hb a ha
  rw [eq_comm, h a ha b hb, eq_comm]

theorem beats_renumber {slot : String} :
    (p.renumber f).Beats (q.renumber g) slot ↔ p.Beats q slot := by
  unfold Beats
  simp only [bestIn_renumber, Option.map_eq_some_iff, forall_exists_index, and_imp,
    forall_apply_eq_imp_iff₂, exists_exists_and_eq_and]
  rfl

theorem standing_renumber_beq_better :
    (standing (p.renumber f) (q.renumber g) gs == .better) = (standing p q gs == .better) := by
  rw [Bool.eq_iff_iff, beq_iff_eq, beq_iff_eq]
  simp only [standing_eq_better_iff, beats_renumber]

/-- Keys count in a standing only as far as they are the same or not. -/
theorem standing_renumber (h : KeysMatch f g p q) :
    standing (p.renumber f) (q.renumber g) gs = standing p q gs := by
  induction gs with
  | nil => rfl
  | cons group gs ih =>
    rw [standing, standing, bestIn_renumber, bestIn_renumber, ih]
    cases hp : p.bestIn group.slot false with
    | none => rfl
    | some mine =>
      cases hq : q.bestIn group.slot false with
      | none => rfl
      | some theirs =>
        have hkeys := h mine (mem_ebuilds_of_bestIn hp) theirs (mem_ebuilds_of_bestIn hq)
        simp only [Option.map_some, Ebuild.renumber, hkeys]

/-- Apart from origins the verdict tells which of the two states is better in some slot. -/
theorem apartFromOrigin_compareSlots (p q : Package) :
    (p.compareSlots q).apartFromOrigin =
      .ofFindings (standing p q p.slotGroups == .better)
        (standing q p q.slotGroups == .better) := by
  unfold compareSlots
  cases standing p q p.slotGroups with
  | better => cases standing q p q.slotGroups <;> rfl
  | otherOrigin => cases standing q p q.slotGroups <;> rfl
  | noBetter => cases standing q p q.slotGroups <;> rfl

theorem apartFromOrigin_compareSlots_renumber (p q : Package) :
    ((p.renumber f).compareSlots (q.renumber g)).apartFromOrigin =
      (p.compareSlots q).apartFromOrigin := by
  rw [apartFromOrigin_compareSlots, apartFromOrigin_compareSlots, slotGroups_renumber,
    slotGroups_renumber, standing_renumber_beq_better, standing_renumber_beq_better]

theorem compareSlots_renumber (h : KeysMatch f g p q) :
    (p.renumber f).compareSlots (q.renumber g) = p.compareSlots q := by
  unfold compareSlots
  rw [slotGroups_renumber, slotGroups_renumber, standing_renumber h, standing_renumber h.symm]

end Package

/-- The verdict of two versions; a missing one counts as lower than any. -/
def Verdict.ofVersions : Option Version → Option Version → Verdict
  | some mine, some theirs =>
    match compare mine theirs with
    | .gt => .upgrade
    | .lt => .downgrade
    | .eq => .equal
  | some _, none => .upgrade
  | none, some _ => .downgrade
  | none, none => .equal

namespace Package

variable {p q : Package}

/-- Apart from origins the verdict is that of the best versions. -/
theorem apartFromOrigin_compareBest (p q : Package) (slotCounts : Bool) :
    (p.compareBest q slotCounts).apartFromOrigin = .ofVersions p.bestVersion q.bestVersion := by
  unfold compareBest bestVersion
  cases p.best false with
  | none => cases q.best false <;> rfl
  | some mine =>
    cases q.best false with
    | none => rfl
    | some theirs =>
      dsimp only [Option.map_some, Verdict.ofVersions]
      cases compare mine.version theirs.version with
      | lt => rfl
      | gt => rfl
      | eq =>
        dsimp only
        split
        · rfl
        · rfl

theorem compareBest_renumber (slotCounts : Bool) (h : KeysMatch f g p q) :
    (p.renumber f).compareBest (q.renumber g) slotCounts = p.compareBest q slotCounts := by
  unfold compareBest
  rw [best_renumber, best_renumber]
  cases hp : p.best false with
  | none => cases q.best false <;> rfl
  | some mine =>
    cases hq : q.best false with
    | none => rfl
    | some theirs =>
      have hkeys := h mine (mem_ebuilds_of_best hp) theirs (mem_ebuilds_of_best hq)
      simp only [Option.map_some, Ebuild.renumber, ne_eq, hkeys]

end Package

/-! ## Changes between trees -/

namespace Change

/-- Whether the change is more than a difference in origin. -/
def isDecided (c : Change) : Bool :=
  c.kind != .compared .differsInOrigin

/-- The change of a package that compares as stated, if that is one. -/
def ofVerdict? (name : String) (verdict : Verdict) (old new : Option Version) : Option Change :=
  if verdict = .equal then none else some ⟨name, .compared verdict, old, new⟩

theorem filter_ofVerdict? {name : String} {old new : Option Version} (verdict : Verdict) :
    (ofVerdict? name verdict old new).filter isDecided =
      ofVerdict? name verdict.apartFromOrigin old new := by
  cases verdict <;> rfl

variable {t : Tree} {p : Package} {slots : Bool}

theorem ofNew?_renumber_eq (t : Tree) (slots : Bool) (p : Package) :
    ofNew? (t.renumber g) slots (p.renumber f) =
      match t.find? p.category p.name with
      | none => some ⟨p.fullName, .added, none, p.bestVersion⟩
      | some before =>
        ofVerdict? p.fullName
          (if slots then (p.renumber f).compareSlots (before.renumber g)
            else (p.renumber f).compareBest (before.renumber g) false)
          before.bestVersion p.bestVersion := by
  unfold ofNew?
  rw [show (p.renumber f).category = p.category from rfl,
    show (p.renumber f).name = p.name from rfl, Tree.find?_renumber, Package.bestVersion_renumber]
  cases t.find? p.category p.name with
  | none => rfl
  | some before =>
    dsimp only [Option.map_some]
    rw [Package.bestVersion_renumber]
    rfl

theorem ofNew?_renumber (h : ∀ before ∈ t.packages, Package.KeysMatch f g p before) :
    ofNew? (t.renumber g) slots (p.renumber f) = ofNew? t slots p := by
  rw [ofNew?_renumber_eq, ofNew?]
  cases hfind : t.find? p.category p.name with
  | none => rfl
  | some before =>
    have hkeys := h before (Tree.mem_packages_of_find? hfind)
    dsimp only
    rw [Package.compareSlots_renumber hkeys, Package.compareBest_renumber false hkeys]
    rfl

theorem filter_ofNew?_renumber (t : Tree) (slots : Bool) (p : Package) :
    (ofNew? (t.renumber g) slots (p.renumber f)).filter isDecided =
      (ofNew? t slots p).filter isDecided := by
  rw [ofNew?_renumber_eq, ofNew?]
  cases t.find? p.category p.name with
  | none => rfl
  | some before =>
    refine (filter_ofVerdict? _).trans (Eq.trans ?_ (filter_ofVerdict? _).symm)
    cases slots with
    | true => exact congrArg (ofVerdict? _ · _ _) (p.apartFromOrigin_compareSlots_renumber before)
    | false =>
      rw [if_neg Bool.false_ne_true, if_neg Bool.false_ne_true,
        Package.apartFromOrigin_compareBest, Package.apartFromOrigin_compareBest,
        Package.bestVersion_renumber, Package.bestVersion_renumber]

theorem ofOld?_renumber (t : Tree) (p : Package) :
    ofOld? (t.renumber f) (p.renumber g) = ofOld? t p := by
  unfold ofOld?
  rw [show (p.renumber g).category = p.category from rfl,
    show (p.renumber g).name = p.name from rfl, Tree.find?_renumber, Package.bestVersion_renumber]
  cases t.find? p.category p.name <;> rfl

end Change

namespace Tree

variable {old new : Tree} {slots : Bool}

/-- Keys count in changes only as far as they are the same in both trees or not. -/
theorem changes_renumber (h : ∀ a ∈ old.keys, ∀ b ∈ new.keys, g a = f b ↔ a = b) :
    (old.renumber g).changes (new.renumber f) slots = old.changes new slots := by
  have hnew : ∀ p ∈ new.packages,
      Change.ofNew? (old.renumber g) slots (p.renumber f) = Change.ofNew? old slots p := by
    intro p hp
    refine Change.ofNew?_renumber fun before hbefore a ha b hb => ?_
    rw [eq_comm, h _ (mem_keys hbefore hb) _ (mem_keys hp ha), eq_comm]
  unfold changes
  rw [packages_renumber, packages_renumber, List.filterMap_map, List.filterMap_map]
  refine congrArg₂ (· ++ ·) (List.filterMap_congr hnew) (List.filterMap_congr fun p _ => ?_)
  exact Change.ofOld?_renumber new p

/-- Keys do not count in the changes that are more than differences in origin. -/
theorem filter_changes_renumber (old new : Tree) (slots : Bool) :
    ((old.renumber g).changes (new.renumber f) slots).filter Change.isDecided =
      (old.changes new slots).filter Change.isDecided := by
  unfold changes
  rw [packages_renumber, packages_renumber, List.filterMap_map, List.filterMap_map,
    List.filter_append, List.filter_append, List.filter_filterMap, List.filter_filterMap,
    List.filter_filterMap, List.filter_filterMap]
  refine congrArg₂ (· ++ ·) (List.filterMap_congr fun p _ => ?_)
    (List.filterMap_congr fun p _ => ?_)
  · exact Change.filter_ofNew?_renumber old slots p
  · exact congrArg (Option.filter Change.isDecided) (Change.ofOld?_renumber new p)

end Tree

/-! ## Databases -/

/-- The path of the layer that a key stands for. -/
def Header.pathOf? (h : Header) (key : OverlayKey) : Option String :=
  (h.overlay? key).map Overlay.path

/-- Whether the keys of two databases are the same exactly where their layers are. -/
def KeysTellLayers (h h' : Header) (t t' : Tree) : Prop :=
  ∀ a ∈ t.keys, ∀ b ∈ t'.keys, a = b ↔ h.pathOf? a = h'.pathOf? b

namespace Command

variable {fs : FileSystem} {old new : String} {h h' : Header} {t t' : Tree}

theorem run_diff_of_load (hold : Database.load fs old = .ok (h, t))
    (hnew : Database.load fs new = .ok (h', t')) (now : Int) (slots json : Bool) :
    (Command.diff old new slots json).run fs now =
      (fs, Change.respond json (t.changes t' slots)) := by
  have hread : readBoth fs old new = .ok (t, t') := by
    unfold readBoth readBoth.readOne
    rw [hold, hnew]
    rfl
  unfold run
  dsimp only
  rw [hread]

/-- Let the layers of the newer database get other keys, and every ebuild stay in its layer. Then
the changes stay that are more than differences in origin; and if the keys of both databases tell
layers apart, before and after, the whole answer stays. -/
theorem diff_of_renumbered (fs : FileSystem) (now : Int) (old new new' : String)
    (h₁ h₂ h₂' : Header) (t₁ t₂ : Tree) (f : OverlayKey → OverlayKey)
    (hold : Database.load fs old = .ok (h₁, t₁)) (hnew : Database.load fs new = .ok (h₂, t₂))
    (hnew' : Database.load fs new' = .ok (h₂', t₂.renumber f))
    (hlayer : ∀ key ∈ t₂.keys, h₂'.pathOf? (f key) = h₂.pathOf? key) (slots : Bool) :
    (t₁.changes (t₂.renumber f) slots).filter Change.isDecided =
        (t₁.changes t₂ slots).filter Change.isDecided ∧
      (KeysTellLayers h₁ h₂ t₁ t₂ → KeysTellLayers h₁ h₂' t₁ (t₂.renumber f) → ∀ json,
        (Command.diff old new' slots json).run fs now =
          (Command.diff old new slots json).run fs now) := by
  refine ⟨?_, fun htell htell' json => ?_⟩
  · have hdecided := Tree.filter_changes_renumber (f := f) (g := id) t₁ t₂ slots
    rw [Tree.renumber_id] at hdecided
    exact hdecided
  · have hkeys : ∀ a ∈ t₁.keys, ∀ b ∈ t₂.keys, id a = f b ↔ a = b := by
      intro a ha b hb
      have hb' : f b ∈ (t₂.renumber f).keys := by
        rw [Tree.keys_renumber]
        exact List.mem_map_of_mem hb
      rw [htell a ha b hb, ← hlayer b hb]
      exact htell' a ha (f b) hb'
    have hchanges : (t₁.renumber id).changes (t₂.renumber f) slots = t₁.changes t₂ slots :=
      Tree.changes_renumber hkeys
    rw [Tree.renumber_id] at hchanges
    rw [run_diff_of_load hold hnew', run_diff_of_load hold hnew, hchanges]

-- A version of one package, and where it is told to, a second package.
def oakTree (version : Digit) (key : OverlayKey) (elm : Option OverlayKey) : Tree :=
  let releases (n : Digit) (overlay : OverlayKey) : Releases := .ofList
    [{ version := ⟨⟨n, []⟩, [], none, [], []⟩, stability := .stable, overlay }]
  ⟨[⟨"a", { category := "a", name := "oak", releases := releases version key } ::
    elm.toList.map fun key => { category := "a", name := "elm", releases := releases 1 key }⟩]⟩

def oakHeader (layers : List String) (t : Tree) : Header :=
  Header.prepare { Header.new with overlays := layers.map (⟨·, ""⟩) } t

def databaseOf (layers : List String) (t : Tree) : List UInt8 :=
  (Database.encode (oakHeader layers t) t).toOption.getD []

-- A database, a newer one with one more layer, and both with two layers of the table swapped.
def oakFiles : FileSystem :=
  let files := FileSystem.withFile default "old" (databaseOf ["/a", "/b"] (oakTree 1 0 none))
  let files := files.withFile "swapped" (databaseOf ["/b", "/a"] (oakTree 1 1 none))
  let files := files.withFile "new" (databaseOf ["/a", "/b", "/c"] (oakTree 2 0 (some 1)))
  files.withFile "moved" (databaseOf ["/a", "/c", "/b"] (oakTree 2 0 (some 2)))

theorem load_oakFiles_old : Database.load oakFiles "old" =
    .ok (oakHeader ["/a", "/b"] (oakTree 1 0 none), oakTree 1 0 none) := by
  decide +kernel

theorem load_oakFiles_swapped : Database.load oakFiles "swapped" =
    .ok (oakHeader ["/b", "/a"] (oakTree 1 1 none), oakTree 1 1 none) := by
  decide +kernel

theorem load_oakFiles_new : Database.load oakFiles "new" =
    .ok (oakHeader ["/a", "/b", "/c"] (oakTree 2 0 (some 1)), oakTree 2 0 (some 1)) := by
  decide +kernel

theorem load_oakFiles_moved : Database.load oakFiles "moved" =
    .ok (oakHeader ["/a", "/c", "/b"] (oakTree 2 0 (some 2)), oakTree 2 0 (some 2)) := by
  decide +kernel

theorem keys_oakTree (version : Digit) (key : OverlayKey) (elm : Option OverlayKey) :
    (oakTree version key elm).keys = key :: elm.toList := by
  cases elm <;> rfl

theorem pathOf?_oakHeader (layers : List String) (t : Tree) (key : OverlayKey) :
    (oakHeader layers t).pathOf? key = layers[key.toNat]? := by
  have hoverlays : (oakHeader layers t).overlays = layers.map (⟨·, ""⟩) := rfl
  unfold Header.pathOf? Header.overlay?
  rw [hoverlays, List.getElem?_map, Option.map_map]
  exact Option.map_id'

/-- Where the first layer of both tables is the same, the keys of trees that have one package of the
first layer, and one of another, tell the layers apart. -/
theorem keysTellLayers_oak (layers layers' : List String) (version : Digit) (key : OverlayKey)
    (hne : key ≠ 0) (hfirst : layers[0]? = layers'[0]?)
    (hother : layers[0]? ≠ layers'[key.toNat]?) :
    KeysTellLayers (oakHeader layers (oakTree 1 0 none))
      (oakHeader layers' (oakTree version 0 (some key))) (oakTree 1 0 none)
      (oakTree version 0 (some key)) := by
  intro a ha b hb
  rw [keys_oakTree] at ha hb
  rw [pathOf?_oakHeader, pathOf?_oakHeader]
  obtain rfl : a = 0 := by simpa using ha
  have hcases : b = 0 ∨ b = key := by simpa using hb
  rcases hcases with rfl | rfl
  · exact iff_of_true rfl hfirst
  · exact iff_of_false (Ne.symm hne) hother

-- The key that a layer of the newer database has after the swap.
def swapLast (key : OverlayKey) : OverlayKey :=
  if key = 1 then 2 else key

/-- The swap of two layers that only the newer database uses leaves the answer as it is. -/
theorem diff_of_renumbered_moved :
    ((oakTree 1 0 none).changes (oakTree 2 0 (some 2)) true).length = 2 ∧ ∀ json,
      (Command.diff "old" "moved" true json).run oakFiles 0 =
        (Command.diff "old" "new" true json).run oakFiles 0 := by
  have hmoved : oakTree 2 0 (some 2) = (oakTree 2 0 (some 1)).renumber swapLast := by decide
  have hload := load_oakFiles_moved
  have htell := keysTellLayers_oak ["/a", "/b"] ["/a", "/b", "/c"] 2 1 (by decide) rfl (by decide)
  have htell' := keysTellLayers_oak ["/a", "/b"] ["/a", "/c", "/b"] 2 2 (by decide) rfl (by decide)
  rw [hmoved] at hload htell'
  have hlayer : ∀ key ∈ (oakTree 2 0 (some 1)).keys,
      (oakHeader ["/a", "/c", "/b"] ((oakTree 2 0 (some 1)).renumber swapLast)).pathOf?
          (swapLast key) =
        (oakHeader ["/a", "/b", "/c"] (oakTree 2 0 (some 1))).pathOf? key := by
    intro key hkey
    rw [keys_oakTree] at hkey
    rw [pathOf?_oakHeader, pathOf?_oakHeader]
    have hcases : key = 0 ∨ key = 1 := by simpa using hkey
    rcases hcases with rfl | rfl
    · rfl
    · rfl
  obtain ⟨-, hsame⟩ :=
    diff_of_renumbered oakFiles 0 "old" "new" "moved" _ _ _ _ _ swapLast load_oakFiles_old
      load_oakFiles_new hload hlayer true
  exact ⟨by decide, hsame htell htell'⟩

/-- One package in one layer is a difference in origin to itself, once the keys of two layers are
swapped. -/
theorem diff_of_renumbered_swap :
    (oakHeader ["/b", "/a"] (oakTree 1 1 none)).pathOf? 1 =
        (oakHeader ["/a", "/b"] (oakTree 1 0 none)).pathOf? 0 ∧
      ∀ slots,
        ((Command.diff "old" "old" slots false).run oakFiles 0).2.output =
            "\nTotal: 0 change(s)\n" ∧
          ((Command.diff "old" "swapped" slots false).run oakFiles 0).2.output =
            "differs in origin a/oak: 1 -> 1\n\nTotal: 1 change(s)\n" := by
  refine ⟨rfl, fun slots => ⟨?_, ?_⟩⟩
  · rw [run_diff_of_load load_oakFiles_old load_oakFiles_old]
    cases slots <;> decide +kernel
  · rw [run_diff_of_load load_oakFiles_old load_oakFiles_swapped]
    cases slots <;> decide +kernel

end Command

end PackageIndex
