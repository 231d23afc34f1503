import PackageIndex.CommandLine.Query
import PackageIndex.Proofs.Advice.Consistency
import PackageIndex.Proofs.Database.Reading
import PackageIndex.Proofs.Files.Listing

/-!
# The status beside reported upgrades

A report on a package lists its upgrades as the options ask for them, and states the verdict on what
is installed, which goes by stable ebuilds and by slots whatever the options are. So a report can
list upgrades beside the verdict that all is equal (`status_equal_with_unstable`), but only ones
that an option has brought in: unstable ebuilds, or ebuilds in other slots
(`status_equal_needs_option`).
-/

namespace PackageIndex

/-! ## Queries on a database that can be read as a whole -/

theorem Database.openCursor_of_load {fs : FileSystem} {path : String} {h : Header} {t : Tree}
    (hl : load fs path = .ok (h, t)) :
    ∃ c, openCursor fs path .full = .ok c ∧ c.header = h ∧ c.packages = .ok t.packages := by
  obtain ⟨c, hc, hh, hi⟩ := (holds_of_load hl).openCursor .full
  exact ⟨c, hc, hh, Cursor.packages_of_items hi⟩

namespace UpgradeReport

variable {fs : FileSystem} {atom : Option String} {database installed : String}
  {unstable slots : Bool} {reports : List UpgradeReport} {r : UpgradeReport}
  {overlays : List String} {source : InstalledSource} {policy : SlotPolicy} {p : Package}

theorem query_of_load {h : Header} {t : Tree} (hl : Database.load fs database = .ok (h, t)) :
    query fs atom database installed unstable slots =
      .ok ((t.packages.filter fun p => atom.all p.isNamedBy).filterMap
        (ofPackage? h.overlayNames (.ofDirectory fs installed) (.withExceptions slots [])
          unstable)) := by
  obtain ⟨c, hc, hh, hp⟩ := Database.openCursor_of_load hl
  unfold query
  rw [hc]
  dsimp only [bind, Except.bind]
  rw [hp, hh]
  rfl

/-! ## Reports -/

theorem ofPackage?_eq_some_iff :
    ofPackage? overlays source policy unstable p = some r ↔
      p.upgrades source policy unstable ≠ [] ∧
        r = ⟨p.fullName, p.checkSlots (some source) true,
          (p.upgrades source policy unstable).map (.ofEbuild overlays)⟩ := by
  unfold ofPackage?
  dsimp only
  by_cases h : p.upgrades source policy unstable = []
  · simp [h]
  · rw [if_neg (by simpa using h), Option.some_inj]
    exact ⟨fun hr => ⟨h, hr.symm⟩, fun hr => hr.2.symm⟩

/-- Every report of a query is that of a package of the database. -/
theorem exists_of_mem_query (h : query fs atom database installed unstable slots = .ok reports)
    (hr : r ∈ reports) :
    ∃ c ps, Database.openCursor fs database .full = .ok c ∧ c.packages = .ok ps ∧ ∃ p ∈ ps,
      ofPackage? c.header.overlayNames (.ofDirectory fs installed) (.withExceptions slots [])
        unstable p = some r := by
  obtain ⟨c, hc, h⟩ := Decoder.bind_eq_ok h
  obtain ⟨ps, hp, h⟩ := Decoder.bind_eq_ok h
  cases h
  obtain ⟨p, hmem, hr⟩ := List.mem_filterMap.1 hr
  exact ⟨c, ps, hc, hp, p, (List.mem_filter.1 hmem).1, hr⟩

/-- Where no option is given, no report has upgrades beside the verdict that all is equal. In
general every upgrade beside that verdict needs an option: it is unstable, and unstable ebuilds are
accepted, or it is in a slot in which nothing is installed, and moves to other slots are allowed. -/
theorem status_equal_needs_option (fs : FileSystem) (atom : Option String)
    (database installed : String) (unstable slots : Bool) (reports : List UpgradeReport)
    (h : query fs atom database installed unstable slots = .ok reports) :
    (unstable = false → slots = false → ∀ r ∈ reports, r.status ≠ .equal) ∧
    ∀ r ∈ reports, r.candidates ≠ [] ∧
      ∃ c ps, Database.openCursor fs database .full = .ok c ∧ c.packages = .ok ps ∧ ∃ p ∈ ps,
        let source := InstalledSource.ofDirectory fs installed
        let upgrades := p.upgrades source (.withExceptions slots []) unstable
        r = ⟨p.fullName, p.checkSlots (some source) true,
          upgrades.map (.ofEbuild c.header.overlayNames)⟩ ∧
        (r.status = .equal → ∀ e ∈ upgrades,
          (unstable = true ∧ e.stability = .unstable) ∨
            (slots = true ∧ ∀ i ∈ source.installed p, ∀ slot,
              p.resolveSlot? (some source) i = some slot → slot.name ≠ e.slot.name)) := by
  have hpolicy : ∀ p : Package, SlotPolicy.withExceptions slots [] p = slots := by
    intro p
    cases slots <;> rfl
  -- The second part has the first as its case in which no option is given.
  refine (and_iff_right_of_imp fun hall hunstable hslots r hr hequal => ?_).2 fun r hr => ?_
  · obtain ⟨hne, c, ps, -, -, p, -, hreport, hoption⟩ := hall r hr
    obtain ⟨candidate, hcandidate⟩ := List.exists_mem_of_ne_nil _ hne
    rw [hreport] at hcandidate
    obtain ⟨e, he, -⟩ := List.mem_map.1 hcandidate
    rcases hoption hequal e he with ⟨hu, -⟩ | ⟨hs, -⟩
    · rw [hunstable] at hu
      cases hu
    · rw [hslots] at hs
      cases hs
  · obtain ⟨c, ps, hc, hps, p, hp, hr⟩ := exists_of_mem_query h hr
    obtain ⟨hne, rfl⟩ := ofPackage?_eq_some_iff.1 hr
    refine ⟨fun hnil => hne (List.map_eq_nil_iff.1 hnil), c, ps, hc, hps, p, hp, rfl, ?_⟩
    intro hequal e he
    have hoption := Package.unstable_or_other_slot_of_equal hequal he
    rw [hpolicy p] at hoption
    exact hoption

/-! ## A report that contradicts itself -/

-- Version 2 is unstable, and version 3 is in a slot of its own.
def fern : Package where
  category := "a"
  name := "fern"
  releases := .ofList [
    { version := ⟨⟨1, []⟩, [], none, [], []⟩, eapi := "0", stability := .stable },
    { version := ⟨⟨2, []⟩, [], none, [], []⟩, eapi := "0", stability := .unstable },
    { version := ⟨⟨3, []⟩, [], none, [], []⟩, eapi := "0", stability := .stable,
      slot := ⟨"3", none⟩ }]

def fernTree : Tree := ⟨[⟨"a", [fern]⟩]⟩

def fernHeader : Header :=
  Header.prepare { Header.new with overlays := [⟨"repo", "main"⟩] } fernTree

-- A database that holds the package, and two machines, one with version 1 of it and one with
-- version 0.
def fernFiles : FileSystem :=
  let bytes := (Database.encode fernHeader fernTree).toOption.getD []
  let files := FileSystem.withFile default "index.db" bytes
  let files := files.withFile "current/a/fern-1/SLOT" (Utf8.encode "0")
  files.withFile "behind/a/fern-0/SLOT" (Utf8.encode "0")

theorem load_fernFiles : Database.load fernFiles "index.db" = .ok (fernHeader, fernTree) := by
  decide +kernel

theorem query_fernFiles
    (hr : ofPackage? fernHeader.overlayNames (.ofDirectory fernFiles installed)
      (.withExceptions slots []) unstable fern = some r) :
    query fernFiles none "index.db" installed unstable slots = .ok [r] := by
  have hall : fernTree.packages.filter (fun p => Option.all p.isNamedBy none) = [fern] := rfl
  rw [query_of_load load_fernFiles, hall, List.filterMap_cons_some hr, List.filterMap_nil]

/-- On the machine that is behind, the stable version 1 is reported as an upgrade. -/
theorem status_equal_needs_option_fern :
    query fernFiles none "index.db" "behind" false false =
        .ok [⟨"a/fern", .upgrade, [⟨"1", "0", "main"⟩]⟩] ∧
      ∀ r ∈ [UpgradeReport.mk "a/fern" .upgrade [⟨"1", "0", "main"⟩]], r.status ≠ .equal := by
  have hq : query fernFiles none "index.db" "behind" false false =
      .ok [⟨"a/fern", .upgrade, [⟨"1", "0", "main"⟩]⟩] :=
    query_fernFiles (by decide +kernel)
  exact ⟨hq, (status_equal_needs_option _ _ _ _ _ _ _ hq).1 rfl rfl⟩

/-- On the machine that has version 1, the report states that all is equal, and lists version 2
where unstable ebuilds are accepted, or version 3 where moves to other slots are allowed. -/
theorem status_equal_with_unstable :
    query fernFiles none "index.db" "current" true false =
        .ok [⟨"a/fern", .equal, [⟨"2", "0", "main"⟩]⟩] ∧
      query fernFiles none "index.db" "current" false true =
        .ok [⟨"a/fern", .equal, [⟨"3", "3", "main"⟩]⟩] := by
  constructor
  · exact query_fernFiles (by decide +kernel)
  · exact query_fernFiles (by decide +kernel)

end UpgradeReport

end PackageIndex
