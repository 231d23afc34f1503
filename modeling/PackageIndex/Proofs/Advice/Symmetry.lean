import PackageIndex.Proofs.Advice.Renumbering
import PackageIndex.Proofs.Tree.Addresses

/-!
# Changes in both directions

The verdict on two states of a package is reversed if the states are exchanged, although the slots
are then gone through in another order and up to another one (`compareSlots_swap`,
`compareBest_swap`). So is the change of what stands under an address (`changeAt?_swap`), and the
changes between two trees are those under the addresses of either tree, each taken once
(`changes_eq_filterMap`).
-/

namespace PackageIndex

/-! ## Exchanged sides -/

/-- The verdict with exchanged sides. -/
def Verdict.dual : Verdict → Verdict
  | .upgrade => .downgrade
  | .downgrade => .upgrade
  | verdict => verdict

@[simp]
theorem Verdict.dual_dual (verdict : Verdict) : verdict.dual.dual = verdict := by
  cases verdict <;> rfl

/-- What has happened in the other direction. -/
def ChangeKind.dual : ChangeKind → ChangeKind
  | .added => .removed
  | .removed => .added
  | .compared verdict => .compared verdict.dual

@[simp]
theorem ChangeKind.dual_dual (kind : ChangeKind) : kind.dual.dual = kind := by
  cases kind <;> simp [dual]

/-- The change in the other direction. -/
def Change.dual (c : Change) : Change :=
  ⟨c.name, c.kind.dual, c.new, c.old⟩

@[simp]
theorem Change.dual_dual (c : Change) : c.dual.dual = c := by
  simp [dual]

theorem Change.dual_injective : Function.Injective Change.dual :=
  Function.LeftInverse.injective Change.dual_dual

namespace Package

variable {p : Package} {gs : List SlotGroup}

/-! ## Two states of a package -/

theorem compareSlots_swap (p q : Package) : p.compareSlots q = (q.compareSlots p).dual := by
  unfold compareSlots
  cases standing p q p.slotGroups with
  | better => cases standing q p q.slotGroups <;> rfl
  | otherOrigin => cases standing q p q.slotGroups <;> rfl
  | noBetter => cases standing q p q.slotGroups <;> rfl

theorem standing_self : standing p p gs = .noBetter := by
  induction gs with
  | nil => rfl
  | cons g gs ih =>
    rw [standing, ih]
    cases p.bestIn g.slot false with
    | none => rfl
    | some mine => simp

theorem compareSlots_self (p : Package) : p.compareSlots p = .equal := by
  unfold compareSlots
  rw [standing_self]

theorem compareBest_swap (p q : Package) (slotCounts : Bool) :
    p.compareBest q slotCounts = (q.compareBest p slotCounts).dual := by
  unfold compareBest
  cases p.best false with
  | none => cases q.best false <;> rfl
  | some mine =>
    cases q.best false with
    | none => rfl
    | some theirs =>
      have hswap : compare mine.version theirs.version =
          (compare theirs.version mine.version).swap :=
        Version.compare_swap _ _
      dsimp only
      rw [hswap]
      cases compare theirs.version mine.version with
      | lt => rfl
      | gt => rfl
      | eq =>
        -- To differ in layer or slot is symmetric, and so is the verdict on it.
        simp only [Ordering.swap, ne_comm]
        split
        · rfl
        · rfl

theorem compareBest_self (p : Package) : p.compareBest p false = .equal := by
  unfold compareBest
  cases p.best false with
  | none => rfl
  | some mine => simp

/-- The verdict on a package against a state before; with slots, the best versions are compared slot
by slot. -/
def verdictOver (p before : Package) (slots : Bool) : Verdict :=
  if slots then p.compareSlots before else p.compareBest before false

theorem verdictOver_swap (p q : Package) (slots : Bool) :
    p.verdictOver q slots = (q.verdictOver p slots).dual := by
  cases slots with
  | true => exact p.compareSlots_swap q
  | false => exact p.compareBest_swap q false

theorem verdictOver_self (p : Package) (slots : Bool) : p.verdictOver p slots = .equal := by
  cases slots with
  | true => exact p.compareSlots_self
  | false => exact p.compareBest_self

end Package

/-! ## The change under an address -/

namespace Change

variable {slots : Bool} {name : String} {before after : Option Package} {c : Change}

/-- The change of what stands under one address, if there is one. -/
def between? (slots : Bool) (name : String) : Option Package → Option Package → Option Change
  | none, none => none
  | none, some p => some ⟨name, .added, none, p.bestVersion⟩
  | some before, none => some ⟨name, .removed, before.bestVersion, none⟩
  | some before, some p =>
    ofVerdict? name (p.verdictOver before slots) before.bestVersion p.bestVersion

theorem dual_ofVerdict? {old new : Option Version} (verdict : Verdict) :
    (ofVerdict? name verdict old new).map dual = ofVerdict? name verdict.dual new old := by
  cases verdict <;> rfl

theorem between?_swap (slots : Bool) (name : String) (before after : Option Package) :
    between? slots name after before = (between? slots name before after).map dual := by
  cases before with
  | none => cases after <;> rfl
  | some b =>
    cases after with
    | none => rfl
    | some a =>
      unfold between?
      rw [dual_ofVerdict?, ← Package.verdictOver_swap]

theorem between?_self (slots : Bool) (name : String) (p : Option Package) :
    between? slots name p p = none := by
  cases p with
  | none => rfl
  | some p =>
    have hequal := p.verdictOver_self slots
    unfold between?
    dsimp only
    rw [hequal]
    rfl

theorem name_of_between? (h : between? slots name before after = some c) : c.name = name := by
  cases before with
  | none =>
    cases after with
    | none => cases h
    | some a => cases h; rfl
  | some b =>
    cases after with
    | none => cases h; rfl
    | some a =>
      have hverdict :
          ofVerdict? name (a.verdictOver b slots) b.bestVersion a.bestVersion = some c := h
      unfold ofVerdict? at hverdict
      split at hverdict
      · cases hverdict
      · cases hverdict
        rfl

theorem ofNew?_eq_between? (old : Tree) (slots : Bool) (p : Package) :
    ofNew? old slots p = between? slots p.fullName (old.find? p.category p.name) (some p) := by
  unfold ofNew?
  cases old.find? p.category p.name <;> rfl

theorem ofOld?_eq_between? {new : Tree} {p : Package}
    (h : new.find? p.category p.name = none) (slots : Bool) :
    ofOld? new p = between? slots p.fullName (some p) none := by
  unfold ofOld?
  rw [h]
  rfl

end Change

/-! ## The changes between two trees -/

namespace Tree

variable {old new t : Tree} {slots : Bool} {address : String × String} {c : Change}

/-- The change of what stands under an address in an older and a newer tree. -/
def changeAt? (old new : Tree) (slots : Bool) (address : String × String) : Option Change :=
  Change.between? slots (address.1 ++ "/" ++ address.2) (old.find? address.1 address.2)
    (new.find? address.1 address.2)

/-- The addresses of a newer tree, and those that only the older one has. -/
def jointAddresses (old new : Tree) : List (String × String) :=
  new.addresses ++ old.addresses.filter fun address => address ∉ new.addresses

theorem changeAt?_swap (old new : Tree) (slots : Bool) (address : String × String) :
    new.changeAt? old slots address = (old.changeAt? new slots address).map Change.dual :=
  Change.between?_swap _ _ _ _

theorem mem_jointAddresses :
    address ∈ old.jointAddresses new ↔ address ∈ old.addresses ∨ address ∈ new.addresses := by
  unfold jointAddresses
  by_cases h : address ∈ new.addresses
  · simp [h]
  · simp [h]

theorem nodup_jointAddresses (hold : old.Addressed) (hnew : new.Addressed) :
    (old.jointAddresses new).Nodup := by
  refine (nodup_addresses hnew).append ((nodup_addresses hold).filter _) ?_
  intro address hmem hfilter
  exact absurd hmem (of_decide_eq_true (List.mem_filter.1 hfilter).2)

theorem changeAt?_of_notMem (hold : old.Addressed) (hnew : new.Addressed)
    (h : address ∉ old.jointAddresses new) : old.changeAt? new slots address = none := by
  rw [mem_jointAddresses, not_or] at h
  unfold changeAt?
  rw [(find?_eq_none_iff hold).2 h.1, (find?_eq_none_iff hnew).2 h.2]
  rfl

/-- The changes are those under the addresses of either tree, each taken once. -/
theorem changes_eq_filterMap (hold : old.Addressed) (hnew : new.Addressed) (slots : Bool) :
    old.changes new slots =
      (old.jointAddresses new).filterMap (old.changeAt? new slots) := by
  have haddresses (t : Tree) (f : String × String → Option Change) :
      t.addresses.filterMap f = t.packages.filterMap (f ∘ Package.address) :=
    List.filterMap_map
  unfold changes jointAddresses
  rw [List.filterMap_append, List.filterMap_filter, haddresses, haddresses]
  refine congrArg₂ (· ++ ·) (List.filterMap_congr fun p hp => ?_)
    (List.filterMap_congr fun p hp => ?_)
  · have hfind : new.find? p.address.1 p.address.2 = some p := find?_of_mem_packages hnew hp
    rw [Change.ofNew?_eq_between?, Function.comp_apply, changeAt?, hfind]
    rfl
  · have hfind : old.find? p.address.1 p.address.2 = some p := find?_of_mem_packages hold hp
    dsimp only [Function.comp_apply]
    by_cases hmem : p.address ∈ new.addresses
    · obtain ⟨q, hq⟩ : ∃ q, new.find? p.category p.name = some q :=
        Option.ne_none_iff_exists'.1 fun hnone => (find?_eq_none_iff hnew).1 hnone hmem
      rw [if_neg (by simpa using hmem)]
      unfold Change.ofOld?
      rw [hq]
    · have hnone : new.find? p.category p.name = none := (find?_eq_none_iff hnew).2 hmem
      rw [if_pos (decide_eq_true hmem), Change.ofOld?_eq_between? hnone slots, changeAt?, hfind]
      exact congrArg _ hnone.symm

theorem mem_changes_iff (hold : old.Addressed) (hnew : new.Addressed) :
    c ∈ old.changes new slots ↔ ∃ address, old.changeAt? new slots address = some c := by
  rw [changes_eq_filterMap hold hnew, List.mem_filterMap]
  constructor
  · rintro ⟨address, -, h⟩
    exact ⟨address, h⟩
  · rintro ⟨address, h⟩
    refine ⟨address, ?_, h⟩
    by_contra hnot
    rw [changeAt?_of_notMem hold hnew hnot] at h
    cases h

theorem mem_changes_iff_dual (hold : old.Addressed) (hnew : new.Addressed) :
    c ∈ old.changes new slots ↔ c.dual ∈ new.changes old slots := by
  rw [mem_changes_iff hold hnew, mem_changes_iff hnew hold]
  refine exists_congr fun address => ?_
  rw [changeAt?_swap old new, Option.map_eq_some_iff]
  constructor
  · intro h
    exact ⟨c, h, rfl⟩
  · rintro ⟨d, hd, hdual⟩
    rw [hd, Change.dual_injective hdual]

theorem changes_self (ht : t.Addressed) (slots : Bool) : t.changes t slots = [] := by
  refine List.eq_nil_iff_forall_not_mem.2 fun c hc => ?_
  obtain ⟨address, h⟩ := (mem_changes_iff ht ht).1 hc
  unfold changeAt? at h
  rw [Change.between?_self] at h
  cases h

/-- Full names tell addresses apart whose categories have no slash. -/
theorem eq_of_fullName_eq {a b : String × String} (ha : '/' ∉ a.1.toList) (hb : '/' ∉ b.1.toList)
    (h : a.1 ++ "/" ++ a.2 = b.1 ++ "/" ++ b.2) : a = b := by
  have hlist : a.1.toList ++ '/' :: a.2.toList = b.1.toList ++ '/' :: b.2.toList := by
    simpa using congrArg String.toList h
  -- The category is what stands before the first slash.
  have hbefore : ∀ cs ds : List Char, '/' ∉ cs → (cs ++ '/' :: ds).takeWhile (· != '/') = cs := by
    intro cs ds hcs
    rw [List.takeWhile_append_of_pos, List.takeWhile_cons_of_neg, List.append_nil]
    · decide
    · intro c hc
      exact bne_iff_ne.2 fun h => hcs (h ▸ hc)
  have hcategory : a.1.toList = b.1.toList := by
    rw [← hbefore a.1.toList a.2.toList ha, hlist, hbefore b.1.toList b.2.toList hb]
  rw [hcategory] at hlist
  have hname := (List.cons_eq_cons.1 (List.append_cancel_left hlist)).2
  exact Prod.ext (String.toList_injective hcategory) (String.toList_injective hname)

theorem name_of_changeAt? (h : old.changeAt? new slots address = some c) :
    c.name = address.1 ++ "/" ++ address.2 :=
  Change.name_of_between? h

theorem nodup_names_changes (hold : old.Addressed) (hnew : new.Addressed)
    (hslash : ∀ c ∈ old.categories ++ new.categories, '/' ∉ c.name.toList) (slots : Bool) :
    ((old.changes new slots).map Change.name).Nodup := by
  have hcategory : ∀ address ∈ old.jointAddresses new, '/' ∉ address.1.toList := by
    intro address h
    rcases mem_jointAddresses.1 h with h | h
    · obtain ⟨c, hc, heq⟩ := exists_category_of_mem_addresses hold h
      exact heq ▸ hslash c (List.mem_append_left _ hc)
    · obtain ⟨c, hc, heq⟩ := exists_category_of_mem_addresses hnew h
      exact heq ▸ hslash c (List.mem_append_right _ hc)
  rw [changes_eq_filterMap hold hnew]
  unfold List.Nodup
  rw [List.pairwise_map, List.pairwise_filterMap]
  refine (nodup_jointAddresses hold hnew).imp_of_mem ?_
  intro a b ha hb hne c hc d hd hname
  rw [name_of_changeAt? hc, name_of_changeAt? hd] at hname
  exact hne (eq_of_fullName_eq (hcategory a ha) (hcategory b hb) hname)

/-- No tree has changes from itself. The changes between two trees are one at most for each address,
so no full name occurs twice, unless a category with a slash in its name makes the full names of two
addresses the same. The changes in the other direction are the same ones with exchanged sides. -/
theorem changes_symmetric (hold : old.Addressed) (hnew : new.Addressed) (slots : Bool) :
    old.changes old slots = [] ∧
      ((old.jointAddresses new).Nodup ∧
        old.changes new slots = (old.jointAddresses new).filterMap (old.changeAt? new slots)) ∧
      ((∀ c ∈ old.categories ++ new.categories, '/' ∉ c.name.toList) →
        ((old.changes new slots).map Change.name).Nodup) ∧
      ∀ c, c ∈ old.changes new slots ↔ c.dual ∈ new.changes old slots := by
  refine ⟨changes_self hold slots, ⟨nodup_jointAddresses hold hnew,
    changes_eq_filterMap hold hnew slots⟩, fun hslash => ?_, fun c => ?_⟩
  · exact nodup_names_changes hold hnew hslash slots
  · exact mem_changes_iff_dual hold hnew

open Command (oakTree)

theorem addressed_oakTree (version : Digit) (key : OverlayKey) (elm : Option OverlayKey) :
    (oakTree version key elm).Addressed where
  categories := List.nodup_singleton _
  packages := by
    intro c hc
    obtain rfl := List.mem_singleton.1 hc
    cases elm <;> simp
  category_eq := by
    intro c hc p hp
    obtain rfl := List.mem_singleton.1 hc
    cases elm with
    | none => simp_all
    | some key =>
      rcases List.mem_cons.1 hp with rfl | hp
      · rfl
      · obtain rfl := List.mem_singleton.1 hp
        rfl

/-- From one tree to the other a package is raised to another version and one is added; on the way
back the one is lowered and the other removed. -/
theorem changes_symmetric_oak :
    let one : Version := ⟨⟨1, []⟩, [], none, [], []⟩
    let two : Version := ⟨⟨2, []⟩, [], none, [], []⟩
    let old := oakTree 1 0 none
    let new := oakTree 2 0 (some 1)
    (old.Addressed ∧ new.Addressed) ∧ old.changes old true = [] ∧
      old.changes new true =
        [⟨"a/oak", .compared .upgrade, some one, some two⟩, ⟨"a/elm", .added, none, some one⟩] ∧
      ((old.changes new true).map Change.name).Nodup ∧
      ⟨"a/oak", .compared .downgrade, some two, some one⟩ ∈ new.changes old true ∧
      ⟨"a/elm", .removed, some one, none⟩ ∈ new.changes old true := by
  intro one two old new
  have hold : old.Addressed := addressed_oakTree 1 0 none
  have hnew : new.Addressed := addressed_oakTree 2 0 (some 1)
  have hchanges : old.changes new true =
      [⟨"a/oak", .compared .upgrade, some one, some two⟩, ⟨"a/elm", .added, none, some one⟩] := by
    decide
  obtain ⟨hself, -, hnames, hdual⟩ := changes_symmetric hold hnew true
  refine ⟨⟨hold, hnew⟩, hself, hchanges, hnames (by decide), ?_, ?_⟩
  · refine (hdual ⟨"a/oak", .compared .upgrade, some one, some two⟩).1 ?_
    rw [hchanges]
    exact List.mem_cons_self
  · refine (hdual ⟨"a/elm", .added, none, some one⟩).1 ?_
    rw [hchanges]
    exact List.mem_cons_of_mem _ List.mem_cons_self

end Tree

end PackageIndex
