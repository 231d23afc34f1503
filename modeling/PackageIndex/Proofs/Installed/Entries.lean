import Mathlib.Data.List.Sort
import PackageIndex.InstalledDatabase
import PackageIndex.Proofs.Files.Entries
import PackageIndex.Proofs.Version.Names
import PackageIndex.Proofs.Version.Preorder

/-!
# Entries of the installed database

Every entry of a category's directory is the entry of one package and one version, or of none: the two
can be told from its name. So the installed versions of a package are those of its own entries, each
of them once, and the path that is put together again from a version leads back to the entry that the
version was found by (`ofDirectory_exact`).
-/

namespace PackageIndex

/-- An entry of a category's directory is that of a package in a version. -/
structure IsInstalledEntry (fs : FileSystem) (root : String) (p : Package) (v : Version)
    (dir : Location) (entry : EntryName) : Prop where
  /-- The directory is that of the category. -/
  locate : fs.locate (Path.join root p.category) = .ok dir
  /-- It can be listed. -/
  listed : fs.IsDirectoryAt dir
  /-- It has the entry. -/
  mem : entry ∈ fs.childrenOf dir
  /-- The entry is named after the package and the version. -/
  text : entry.text = p.name ++ "-" ++ toString v

/-- The name of the file that records a slot. -/
def slotName : EntryName := ⟨"SLOT", by decide⟩

variable {fs : FileSystem} {root : String} {p q : Package} {v w : Version} {dir dir' : Location}
  {entry : EntryName}

theorem installedVersion?_eq_some_iff {packageName text : String} :
    installedVersion? packageName text = some v ↔ text = packageName ++ "-" ++ toString v := by
  unfold installedVersion?
  constructor
  · intro h
    split at h
    next name version hsplit =>
      split at h
      next hname =>
        rw [eq_of_splitNameVersion hsplit, hname, Version.ofString?_eq_some_iff.1 h]
      next => cases h
    next => cases h
  · rintro rfl
    rw [splitNameVersion_toString]
    dsimp only
    rw [if_pos rfl]
    exact Version.ofString?_eq_some_iff.2 rfl

namespace InstalledSource

/-- The versions of a package that a directory has, in the order in which they are listed. -/
theorem mem_filterMap_installedVersion? :
    v ∈ ((fs.childrenOf dir).map EntryName.text).filterMap (installedVersion? p.name) ↔
      ∃ entry ∈ fs.childrenOf dir, entry.text = p.name ++ "-" ++ toString v := by
  simp only [List.mem_filterMap, List.mem_map, installedVersion?_eq_some_iff]
  constructor
  · rintro ⟨_, ⟨entry, hentry, rfl⟩, htext⟩
    exact ⟨entry, hentry, htext⟩
  · rintro ⟨entry, hentry, htext⟩
    exact ⟨_, ⟨entry, hentry, rfl⟩, htext⟩

theorem nodup_filterMap_installedVersion? :
    (((fs.childrenOf dir).map EntryName.text).filterMap (installedVersion? p.name)).Nodup := by
  refine (FileSystem.nodup_childrenOf.map EntryName.text_injective).filterMap ?_
  intro text text' v h h'
  rw [installedVersion?_eq_some_iff.1 h, installedVersion?_eq_some_iff.1 h']

theorem installed_cases (fs : FileSystem) (root : String) (p : Package) :
    ((ofDirectory fs root).installed p = [] ∧
      ∀ v dir entry, ¬ IsInstalledEntry fs root p v dir entry) ∨
    ∃ versions : List Version, versions.Nodup ∧
      (∀ v, v ∈ versions ↔ ∃ dir entry, IsInstalledEntry fs root p v dir entry) ∧
      (ofDirectory fs root).installed p =
        (versions.mergeSort fun a b => decide (a ≤ b)).map fun version => { version } := by
  unfold ofDirectory
  dsimp only
  cases hlist : fs.list (Path.join root p.category) with
  | error fault =>
    refine .inl ⟨rfl, fun v dir entry h => ?_⟩
    exact FileSystem.not_isDirectoryAt_of_list hlist h.locate h.listed
  | ok names =>
    obtain ⟨dir, hlocate, hdir, rfl⟩ := FileSystem.list_eq_ok_iff.1 hlist
    refine .inr ⟨_, nodup_filterMap_installedVersion?, fun v => ?_, rfl⟩
    rw [mem_filterMap_installedVersion?]
    constructor
    · rintro ⟨entry, hentry, htext⟩
      exact ⟨dir, entry, hlocate, hdir, hentry, htext⟩
    · rintro ⟨dir', entry, h⟩
      obtain rfl : dir = dir' := Except.ok.inj (hlocate.symm.trans h.locate)
      exact ⟨entry, h.mem, h.text⟩

theorem pairwise_installed (fs : FileSystem) (root : String) (p : Package) :
    ((ofDirectory fs root).installed p).Pairwise fun i j => i.version ≤ j.version := by
  rcases installed_cases fs root p with ⟨hnil, -⟩ | ⟨versions, -, -, hsorted⟩
  · rw [hnil]
    exact List.Pairwise.nil
  · have htotal : Std.Total fun a b : Version => a ≤ b := ⟨Version.le_total⟩
    have htrans : IsTrans Version fun a b => a ≤ b := ⟨fun _ _ _ => Version.le_trans⟩
    rw [hsorted]
    exact List.pairwise_map.2 (List.pairwise_mergeSort' _ versions)

theorem nodup_installed (fs : FileSystem) (root : String) (p : Package) :
    ((ofDirectory fs root).installed p).Nodup := by
  rcases installed_cases fs root p with ⟨hnil, -⟩ | ⟨versions, hnodup, -, hsorted⟩
  · rw [hnil]
    exact List.nodup_nil
  · rw [hsorted]
    refine ((List.mergeSort_perm versions _).nodup_iff.2 hnodup).map ?_
    intro v w h
    exact congrArg Installed.version h

theorem mem_installed_iff {i : Installed} :
    i ∈ (ofDirectory fs root).installed p ↔
      i.slotName = none ∧ i.sub = none ∧
        ∃ dir entry, IsInstalledEntry fs root p i.version dir entry := by
  rcases installed_cases fs root p with ⟨hnil, hnone⟩ | ⟨versions, -, hmem, hsorted⟩
  · rw [hnil]
    exact iff_of_false List.not_mem_nil fun ⟨_, _, dir, entry, h⟩ => hnone i.version dir entry h
  · rw [hsorted, List.mem_map, ← hmem]
    constructor
    · rintro ⟨v, hv, rfl⟩
      exact ⟨rfl, rfl, List.mem_mergeSort.1 hv⟩
    · rintro ⟨hname, hsub, hv⟩
      obtain ⟨version, name, sub⟩ := i
      obtain rfl : name = none := hname
      obtain rfl : sub = none := hsub
      exact ⟨version, List.mem_mergeSort.2 hv, rfl⟩

/-- The SLOT file of a version is that of the entry that the version was found by. -/
theorem text_slotFile_eq_ok_iff {content : String} (h : IsInstalledEntry fs root p v dir entry) :
    fs.text (slotFile root p v) = .ok content ↔
      (Path.fault? (slotFile root p v) = none ∧ entry.isTooLong = false) ∧
        fs.textIn? (dir.child entry) slotName = some content := by
  have hpath : slotFile root p v =
      Path.join (Path.join (Path.join root p.category) entry.text) slotName.text := by
    rw [h.text]
    rfl
  have hwalk := (FileSystem.locate_eq_ok_iff.1 h.locate).2
  have hslot : slotName.isTooLong = false := by decide
  rw [hpath, FileSystem.text_join_eq_ok_iff, and_assoc]
  refine and_congr_right fun _ => ?_
  simp only [FileSystem.walk_join_eq_ok_iff]
  constructor
  · rintro ⟨-, _, ⟨dir', hdir', -, hlong, rfl⟩, htext⟩
    obtain rfl : dir = dir' := Except.ok.inj (hwalk.symm.trans hdir')
    exact ⟨hlong, htext⟩
  · rintro ⟨hlong, htext⟩
    exact ⟨hslot, _, ⟨dir, hwalk, h.listed, hlong, rfl⟩, htext⟩

theorem recordedSlot?_ofDirectory (h : IsInstalledEntry fs root p v dir entry) :
    (ofDirectory fs root).recordedSlot? p v =
      if Path.fault? (slotFile root p v) = none ∧ entry.isTooLong = false then
        (fs.textIn? (dir.child entry) slotName).map Slot.parse
      else none := by
  unfold ofDirectory
  dsimp only
  cases htext : fs.text (slotFile root p v) with
  | ok content =>
    obtain ⟨hreach, hfile⟩ := (text_slotFile_eq_ok_iff h).1 htext
    rw [if_pos hreach, hfile]
    rfl
  | error fault =>
    dsimp only
    split
    next hreach =>
      cases hfile : fs.textIn? (dir.child entry) slotName with
      | none => rfl
      | some content =>
        rw [(text_slotFile_eq_ok_iff h).2 ⟨hreach, hfile⟩] at htext
        cases htext
    next => rfl

/-- The installed versions of a package are in ascending order and of unknown slot, and they are those
of its entries, each of them once. The slot that is recorded for a version is that of the SLOT file in
the entry itself, if the system can read the file. An entry is that of one package and one version
only. -/
theorem ofDirectory_exact (fs : FileSystem) (root : String) :
    (∀ p, ((ofDirectory fs root).installed p).Pairwise fun i j => i.version ≤ j.version) ∧
    (∀ p, ((ofDirectory fs root).installed p).Nodup) ∧
    (∀ p i, i ∈ (ofDirectory fs root).installed p ↔
      i.slotName = none ∧ i.sub = none ∧
        ∃ dir entry, IsInstalledEntry fs root p i.version dir entry) ∧
    (∀ p v dir entry, IsInstalledEntry fs root p v dir entry →
      (ofDirectory fs root).recordedSlot? p v =
        if Path.fault? (slotFile root p v) = none ∧ entry.isTooLong = false then
          (fs.textIn? (dir.child entry) slotName).map Slot.parse
        else none) ∧
    ∀ p q v w dir dir' entry, IsInstalledEntry fs root p v dir entry →
      IsInstalledEntry fs root q w dir' entry → p.name = q.name ∧ v = w :=
  ⟨pairwise_installed fs root, nodup_installed fs root, fun _ _ => mem_installed_iff,
    fun _ _ _ _ => recordedSlot?_ofDirectory,
    fun _ _ _ _ _ _ _ h h' => name_version_inj.1 (h.text.symm.trans h'.text)⟩

def elm : Package where
  category := "dev"
  name := "elm"

def elmDirectory : Location :=
  (Location.here.child ⟨"db", by decide⟩).child ⟨"dev", by decide⟩

-- An installed version with its slot.
def elmEntry (name : EntryName) (slot : String) : List (Location × Node) :=
  [(elmDirectory.child name, .directory 0),
    ((elmDirectory.child name).child slotName, .file (Utf8.encode slot) 0)]

-- One version in two spellings, and a package whose name goes on with a number.
def elmFiles : FileSystem where
  entries := [(elmDirectory.parent, .directory 0), (elmDirectory, .directory 0)] ++
    elmEntry ⟨"elm-1.0", by decide⟩ "0\n" ++ elmEntry ⟨"elm-01.0", by decide⟩ "2/5\n" ++
    elmEntry ⟨"elm-1-1.0", by decide⟩ "7\n"
  distinct := by decide +kernel

def elmVersion : Version := ⟨⟨0, [1]⟩, [⟨0, []⟩], none, [], []⟩

theorem isInstalledEntry_elm :
    IsInstalledEntry elmFiles "db" elm elmVersion elmDirectory ⟨"elm-01.0", by decide⟩ where
  locate := by decide +kernel
  listed := ⟨0, by decide +kernel⟩
  mem := by decide +kernel
  text := by decide +kernel

/-- The slot is that of the spelling, and the entry is that of no other package. -/
theorem ofDirectory_exact_elm :
    { version := elmVersion } ∈ (ofDirectory elmFiles "db").installed elm ∧
      (ofDirectory elmFiles "db").recordedSlot? elm elmVersion = some ⟨"2", some "5"⟩ ∧
      ∀ q w dir, IsInstalledEntry elmFiles "db" q w dir ⟨"elm-01.0", by decide⟩ →
        elm.name = q.name ∧ elmVersion = w := by
  obtain ⟨-, -, hmem, hslot, hone⟩ := ofDirectory_exact elmFiles "db"
  refine ⟨(hmem _ _).2 ⟨rfl, rfl, _, _, isInstalledEntry_elm⟩, ?_, ?_⟩
  · rw [hslot _ _ _ _ isInstalledEntry_elm]
    decide +kernel
  · intro q w dir hq
    exact hone _ _ _ _ _ _ _ isInstalledEntry_elm hq

end InstalledSource

end PackageIndex
