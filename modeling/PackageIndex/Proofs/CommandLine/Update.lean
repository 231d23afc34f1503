import PackageIndex.CommandLine.Run
import PackageIndex.Proofs.Files.Replacement
import PackageIndex.Proofs.Repository.WellFormed

/-!
# Updates are all or nothing

A build reads files and changes none, so what it reads, be it the database that is to be replaced,
is as it was before the update. Writing makes directories, and the file takes its place last
(`Database.store_spec`); a temporary file on the way leaves no trace, whichever step is refused
(`storeThrough_eq_store`). So an update that fails leaves what there was, and one that succeeds
changes one file only (`update_all_or_nothing`).
-/

namespace PackageIndex

open FileSystem (Kept parents)

namespace Database

variable {fs : FileSystem} {path : String} {now : Int} {h : Header} {t : Tree} {bytes : List UInt8}
  {refusal : Option Refusal}

theorem kept_makeDirectory (fs : FileSystem) (path : String) (refusal : Option Refusal)
    (l : Location) :
    Kept (parents path) fs (makeDirectory fs (Path.directoryOf path) refusal).2 l := by
  unfold makeDirectory
  split
  next taken fault => exact FileSystem.kept_makeFirst fs (Path.directoryOf path) taken l
  next => exact FileSystem.kept_makeDirectories fs (Path.directoryOf path) l

/-- What has been written in full was not refused. -/
theorem writeOut_eq_ok (hw : writeOut h t refusal = .ok bytes) (fault : FileFault) :
    refusal ≠ some (.write fault) ∧ refusal ≠ some (.flush fault) ∧
      refusal ≠ some (.sync fault) := by
  unfold writeOut at hw
  cases hbytes : encodePrepared h t with
  | error e =>
    rw [hbytes] at hw
    cases hw
  | ok written =>
    rw [hbytes] at hw
    dsimp only [bind, Except.bind] at hw
    split at hw
    · cases hw
    · cases hw
    · cases hw
    next hwrite hflush hsync => exact ⟨hwrite fault, hflush fault, hsync fault⟩

/-- Where every step succeeded nothing was refused. -/
theorem eq_none_of_steps {dir : String} {made files : FileSystem}
    {moved : Except FileFault FileSystem} (hmade : makeDirectory fs dir refusal = (.ok (), made))
    (htemporary : makeTemporary refusal = .ok ()) (hbytes : writeOut h t refusal = .ok bytes)
    (hplace : takePlace moved refusal = .ok files) : refusal = none := by
  cases refusal with
  | none => rfl
  | some r =>
    cases r with
    | directory taken fault => cases hmade
    | temporary fault => cases htemporary
    | write fault => exact absurd rfl (writeOut_eq_ok hbytes fault).1
    | flush fault => exact absurd rfl (writeOut_eq_ok hbytes fault).2.1
    | sync fault => exact absurd rfl (writeOut_eq_ok hbytes fault).2.2
    | move fault => cases hplace

/-- Either there is an error and no more has changed than the directories, or nothing was refused,
every step succeeded and the file is there. -/
theorem store_cases (fs : FileSystem) (path : String) (now : Int) (h : Header) (t : Tree)
    (refusal : Option Refusal) :
    (∃ header e, store fs path now h t refusal =
      ⟨(makeDirectory fs (Path.directoryOf path) refusal).2, header, .error e⟩) ∨
    (refusal = none ∧ ∃ made bytes files,
      fs.makeDirectories (Path.directoryOf path) = (.ok (), made) ∧
      encode h t = .ok bytes ∧ made.replaceFile path bytes now = .ok files ∧
      store fs path now h t refusal = ⟨files, h.prepare t, .ok bytes⟩) := by
  unfold store
  dsimp only
  rcases hmade : makeDirectory fs (Path.directoryOf path) refusal with ⟨fault | ⟨⟩, made⟩
  · exact .inl ⟨h, _, rfl⟩
  dsimp only
  cases htemporary : makeTemporary refusal with
  | error fault => exact .inl ⟨h, _, rfl⟩
  | ok =>
    cases hbytes : writeOut (h.prepare t) t refusal with
    | error e => exact .inl ⟨h.prepare t, e, rfl⟩
    | ok bytes =>
      dsimp only
      cases hplace : takePlace (made.replaceFile path bytes now) refusal with
      | error fault => exact .inl ⟨h.prepare t, _, rfl⟩
      | ok files =>
        obtain rfl := eq_none_of_steps hmade htemporary hbytes hplace
        rw [writeOut_none] at hbytes
        exact .inr ⟨rfl, made, bytes, files, hmade, hbytes, hplace, rfl⟩

/-- A file is written in full and everything else is kept, or nothing is written. -/
theorem store_spec (fs : FileSystem) (path : String) (now : Int) (h : Header) (t : Tree)
    (refusal : Option Refusal) :
    (∃ e, (store fs path now h t refusal).outcome = .error e ∧
      ∀ l, Kept (parents path) fs (store fs path now h t refusal).files l) ∨
    ∃ bytes target, (store fs path now h t refusal).outcome = .ok bytes ∧
      encode h t = .ok bytes ∧
      (store fs path now h t refusal).files.locate path = .ok target ∧
      (store fs path now h t refusal).files.content path = .ok bytes ∧
      ∀ l, l ≠ target → Kept (parents path) fs (store fs path now h t refusal).files l := by
  have hkept := kept_makeDirectory fs path refusal
  rcases store_cases fs path now h t refusal with
    ⟨header, e, hstore⟩ | ⟨rfl, made, bytes, files, hmade, hbytes, hreplace, hstore⟩
  · rw [hstore]
    exact .inl ⟨e, rfl, hkept⟩
  · obtain ⟨target, hlocate, hcontent, hother⟩ := FileSystem.content_of_replaceFile hreplace
    rw [makeDirectory_none, hmade] at hkept
    rw [hstore]
    refine .inr ⟨bytes, target, rfl, hbytes, hlocate, hcontent, fun l hl => ?_⟩
    exact (hkept l).trans (.inl (hother l hl))

theorem store_of_steps {made files : FileSystem}
    (hmade : fs.makeDirectories (Path.directoryOf path) = (.ok (), made))
    (hbytes : encode h t = .ok bytes) (hreplace : made.replaceFile path bytes now = .ok files) :
    store fs path now h t = ⟨files, h.prepare t, .ok bytes⟩ := by
  unfold encode at hbytes
  unfold store
  simp only [makeDirectory_none, hmade, makeTemporary_none, writeOut_none, hbytes, takePlace_none,
    hreplace]

/-- The file is written iff nothing is refused, its directory is there or can be made, the tree can
be written, and the file can take its place. -/
theorem isOk_store_iff :
    (store fs path now h t refusal).outcome.isOk = true ↔
      refusal = none ∧ (fs.makeDirectories (Path.directoryOf path)).1.isOk = true ∧
      ∃ bytes, encode h t = .ok bytes ∧
        ((fs.makeDirectories (Path.directoryOf path)).2.replaceFile path bytes now).isOk =
          true := by
  constructor
  · intro hok
    rcases store_cases fs path now h t refusal with
      ⟨header, e, hstore⟩ | ⟨hnone, made, bytes, files, hmade, hbytes, hreplace, -⟩
    · rw [hstore] at hok
      cases hok
    · rw [hmade]
      refine ⟨hnone, rfl, bytes, hbytes, ?_⟩
      dsimp only
      rw [hreplace]
      rfl
  · rintro ⟨rfl, hdir, bytes, hbytes, hplace⟩
    rcases hmade : fs.makeDirectories (Path.directoryOf path) with ⟨fault | ⟨⟩, made⟩
    · rw [hmade] at hdir
      cases hdir
    · rw [hmade] at hplace
      cases hreplace : made.replaceFile path bytes now with
      | error fault =>
        dsimp only at hplace
        rw [hreplace] at hplace
        cases hplace
      | ok files =>
        rw [store_of_steps hmade hbytes hreplace]
        rfl

/-! ## What is told of a refusal -/

/-- The error for a refusal. -/
def Refusal.error (path : String) : Refusal → Error
  | .directory _ fault => .createDirectory (Path.directoryOf path) fault
  | .temporary fault => .createTemporary (Path.directoryOf path) fault
  | .write fault => .file fault
  | .flush fault => .flush fault
  | .sync fault => .sync fault
  | .move fault => .replace path fault

/-- If the file could be written otherwise, the error is that of the refusal. -/
theorem outcome_store_of_refusal (hok : (store fs path now h t).outcome.isOk = true)
    (r : Refusal) : (store fs path now h t (some r)).outcome = .error (r.error path) := by
  rcases store_cases fs path now h t none with
    ⟨header, e, hstore⟩ | ⟨-, made, bytes, files, hmade, hbytes, -, -⟩
  · rw [hstore] at hok
    cases hok
  · have hencoded : encodePrepared (h.prepare t) t = .ok bytes := hbytes
    unfold store
    cases r with
    | directory taken fault => rfl
    | temporary fault => simp only [makeDirectory, hmade, makeTemporary, Refusal.error]
    | write fault | flush fault | sync fault =>
      simp only [makeDirectory, hmade, makeTemporary, writeOut, hencoded, Refusal.error, bind,
        Except.bind]
    | move fault =>
      simp only [makeDirectory, hmade, makeTemporary, writeOut, hencoded, takePlace, Refusal.error,
        bind, Except.bind]

/-! ## By way of a temporary file -/

/-- Writes a database file in full at a location of its own and then moves it to its place. What is
at that location is removed if the tree cannot be written, if its bytes are refused, or if the move
fails. -/
def storeThrough (temporary : Location) (refusal : Option Refusal) (fs : FileSystem)
    (path : String) (now : Int) (h : Header) (t : Tree) : Written :=
  let dir := Path.directoryOf path
  match makeDirectory fs dir refusal with
  | (.error fault, fs) => ⟨fs, h, .error (.createDirectory dir fault)⟩
  | (.ok (), fs) =>
    match makeTemporary refusal with
    | .error fault => ⟨fs, h, .error (.createTemporary dir fault)⟩
    | .ok _ =>
      let begun := fs.setNode temporary (.file [] now)
      let prepared := h.prepare t
      match writeOut prepared t refusal with
      | .error e => ⟨begun.remove temporary, prepared, .error e⟩
      | .ok bytes =>
        let written := begun.setNode temporary (.file bytes now)
        match takePlace (written.rename temporary path) refusal with
        | .error fault => ⟨written.remove temporary, prepared, .error (.replace path fault)⟩
        | .ok fs => ⟨fs, prepared, .ok bytes⟩

/-- The location for the temporary file is free once the directory of the database is there. -/
def IsFree (temporary : Location) (fs : FileSystem) (path : String) : Prop :=
  (fs.makeDirectories (Path.directoryOf path)).2.nodeAt? temporary = none

/-- The way does not show afterwards, whatever is refused on it. -/
theorem storeThrough_eq_store {temporary : Location} (hfree : IsFree temporary fs path)
    (now : Int) (h : Header) (t : Tree) (refusal : Option Refusal) :
    storeThrough temporary refusal fs path now h t = store fs path now h t refusal := by
  unfold storeThrough store
  dsimp only
  rcases hmade : makeDirectory fs (Path.directoryOf path) refusal with ⟨fault | ⟨⟩, made⟩
  · rfl
  -- The directories are all there, so the location is free in what has been made.
  have hnode : made.nodeAt? temporary = none := by
    unfold makeDirectory at hmade
    split at hmade
    · cases hmade
    · unfold IsFree at hfree
      rwa [hmade] at hfree
  dsimp only
  cases makeTemporary refusal with
  | error fault => rfl
  | ok =>
    cases writeOut (h.prepare t) t refusal with
    | error e =>
      dsimp only
      rw [FileSystem.remove_setNode hnode]
    | ok bytes =>
      have hrename := FileSystem.rename_setNode hnode (.file [] now) path bytes now
      dsimp only
      rw [hrename]
      cases takePlace (made.replaceFile path bytes now) refusal with
      | error fault =>
        dsimp only
        rw [FileSystem.remove_setNode_setNode hnode]
      | ok files => rfl

/-- Whatever is refused, the temporary file leaves no trace. -/
theorem kept_storeThrough {temporary : Location} (hfree : IsFree temporary fs path) (now : Int)
    (h : Header) (t : Tree) (hrefused : refusal ≠ none) (l : Location) :
    Kept (parents path) fs (storeThrough temporary refusal fs path now h t).files l := by
  rw [storeThrough_eq_store hfree]
  rcases store_cases fs path now h t refusal with ⟨header, e, hstore⟩ | ⟨hnone, -⟩
  · rw [hstore]
    exact kept_makeDirectory fs path refusal l
  · exact absurd hnone hrefused

end Database

namespace Command

variable {fs : FileSystem} {now : Int} {database : String} {config : BuildConfig} {t : Tree}
  {h : Header} {refusal : Option Database.Refusal}

theorem run_update_of_error {e : Error} (hbuild : config.build fs = .error e) :
    (Command.update database config).run fs now refusal = (fs, .failure e.chain) := by
  unfold run runUpdate
  dsimp only
  rw [hbuild]

theorem run_update_of_build (hbuild : config.build fs = .ok (t, h)) :
    (Command.update database config).run fs now refusal =
      ((Database.store fs database now h t refusal).files,
        .ofResult ["Failed to write " ++ database]
          (Database.store fs database now h t refusal).outcome
          fun _ => .lines ["Database updated: " ++
            toString (Database.store fs database now h t refusal).header.categoryCount ++
            " categories, " ++
            toString (Database.store fs database now h t refusal).header.packageCount ++
            " packages in " ++ database]) := by
  unfold run runUpdate
  dsimp only
  rw [hbuild]

theorem exit_run_update_of_build (hbuild : config.build fs = .ok (t, h)) (now : Int)
    (database : String) (refusal : Option Database.Refusal) :
    ((Command.update database config).run fs now refusal).2.exit =
      if (Database.store fs database now h t refusal).outcome.isOk then 0 else 1 := by
  rw [run_update_of_build hbuild]
  cases (Database.store fs database now h t refusal).outcome with
  | error e => rfl
  | ok bytes => rfl

theorem exit_run_update_eq_zero_iff :
    ((Command.update database config).run fs now refusal).2.exit = 0 ↔
      refusal = none ∧ ∃ t h bytes, config.build fs = .ok (t, h) ∧
        (fs.makeDirectories (Path.directoryOf database)).1.isOk = true ∧
        Database.encode h t = .ok bytes ∧
        ((fs.makeDirectories (Path.directoryOf database)).2.replaceFile database bytes now).isOk =
          true := by
  cases hbuild : config.build fs with
  | error e =>
    rw [run_update_of_error hbuild]
    refine ⟨nofun, ?_⟩
    rintro ⟨-, t, h, bytes, hbuilt, -⟩
    cases hbuilt
  | ok built =>
    obtain ⟨t, h⟩ := built
    rw [exit_run_update_of_build hbuild]
    constructor
    · intro hexit
      split at hexit
      next hstored =>
        obtain ⟨hnone, hdir, bytes, hbytes, hreplace⟩ := Database.isOk_store_iff.1 hstored
        exact ⟨hnone, t, h, bytes, rfl, hdir, hbytes, hreplace⟩
      next => cases hexit
    · rintro ⟨hnone, t', h', bytes, hbuilt, hdir, hbytes, hreplace⟩
      cases hbuilt
      exact if_pos (Database.isOk_store_iff.2 ⟨hnone, hdir, bytes, hbytes, hreplace⟩)

/-- If an update would succeed otherwise, it reports what is refused. -/
theorem run_update_of_refusal
    (hexit : ((Command.update database config).run fs now).2.exit = 0) (r : Database.Refusal) :
    ((Command.update database config).run fs now (some r)).2 =
      .failure (("Failed to write " ++ database) :: (r.error database).chain) := by
  obtain ⟨-, t, h, bytes, hbuild, hdir, hbytes, hreplace⟩ := exit_run_update_eq_zero_iff.1 hexit
  have hok : (Database.store fs database now h t).outcome.isOk = true :=
    Database.isOk_store_iff.2 ⟨rfl, hdir, bytes, hbytes, hreplace⟩
  rw [run_update_of_build hbuild, Database.outcome_store_of_refusal hok]
  rfl

/-- An update succeeds iff the operating system refuses nothing, the tree is built and its database
can take its place. One that fails leaves every file as it was, and no new one; only directories on
the way to the database may have been made. After one that succeeds the database has exactly the
bytes of the tree that is built from the files as they were before, and everything else is kept in
the same way. A refusal that alone makes an update fail is what it reports. To write the database by
way of a temporary file, at any free location, comes to the same, whatever is refused, and then
everything is kept. -/
theorem update_all_or_nothing (fs : FileSystem) (now : Int) (database : String)
    (config : BuildConfig) (refusal : Option Database.Refusal) :
    (∃ files response, (Command.update database config).run fs now refusal = (files, response) ∧
      (response.exit = 0 ↔ refusal = none ∧ ∃ t h bytes, config.build fs = .ok (t, h) ∧
        (fs.makeDirectories (Path.directoryOf database)).1.isOk = true ∧
        Database.encode h t = .ok bytes ∧
        ((fs.makeDirectories (Path.directoryOf database)).2.replaceFile database bytes now).isOk =
          true) ∧
      (response.exit ≠ 0 → ∀ l, Kept (parents database) fs files l) ∧
      (response.exit = 0 → ∃ t h bytes target, config.build fs = .ok (t, h) ∧
        Database.encode h t = .ok bytes ∧ files.locate database = .ok target ∧
        files.content database = .ok bytes ∧
        ∀ l, l ≠ target → Kept (parents database) fs files l) ∧
      ∀ r, refusal = some r → ((Command.update database config).run fs now).2.exit = 0 →
        response = .failure (("Failed to write " ++ database) :: (r.error database).chain)) ∧
    ∀ temporary, Database.IsFree temporary fs database → ∀ h t,
      Database.storeThrough temporary refusal fs database now h t =
          Database.store fs database now h t refusal ∧
        (refusal ≠ none → ∀ l, Kept (parents database) fs
          (Database.storeThrough temporary refusal fs database now h t).files l) := by
  refine ⟨?_, fun temporary hfree h t => ⟨?_, fun hrefused l => ?_⟩⟩
  · refine ⟨((Command.update database config).run fs now refusal).1,
      ((Command.update database config).run fs now refusal).2, rfl, exit_run_update_eq_zero_iff,
      ?_, ?_, ?_⟩
    · cases hbuild : config.build fs with
      | error e =>
        rw [run_update_of_error hbuild]
        exact fun _ _ => .refl
      | ok built =>
        obtain ⟨t, h⟩ := built
        rw [run_update_of_build hbuild]
        rcases Database.store_spec fs database now h t refusal with
          ⟨e, -, hkept⟩ | ⟨bytes, target, houtcome, -⟩
        · exact fun _ => hkept
        · rw [houtcome]
          exact fun hne => absurd rfl hne
    · intro hexit
      obtain ⟨rfl, t, h, bytes, hbuild, hdir, hbytes, hreplace⟩ :=
        exit_run_update_eq_zero_iff.1 hexit
      rw [run_update_of_build hbuild]
      rcases Database.store_spec fs database now h t none with
        ⟨e, houtcome, -⟩ | ⟨written, target, -, hwritten, hlocate, hcontent, hkept⟩
      · have hok : (Database.store fs database now h t).outcome.isOk = true :=
          Database.isOk_store_iff.2 ⟨rfl, hdir, bytes, hbytes, hreplace⟩
        rw [houtcome] at hok
        cases hok
      · exact ⟨t, h, written, target, hbuild, hwritten, hlocate, hcontent, hkept⟩
    · rintro r rfl hexit
      exact run_update_of_refusal hexit r
  · exact Database.storeThrough_eq_store hfree now h t refusal
  · exact Database.kept_storeThrough hfree now h t hrefused l

open DatabaseImport (stockTree)
open BuildConfig (mixedFiles mixedConfig mixedHeader build_mixedFiles)

-- A name beside those of the files.
def temporary : Location :=
  Location.here.child ⟨".tmp", by decide⟩

def fullDisk : Database.Refusal :=
  .sync (.other "No space left on device (os error 28)")

/-- The database that is replaced can be the one to import from, and then has the bytes of what was
built from it. A directory is not replaced, and a full disk leaves the database as it is. -/
theorem update_all_or_nothing_import :
    (∃ files response,
      (Command.update "stock.db" mixedConfig).run mixedFiles 7 = (files, response) ∧
        response.exit = 0 ∧ ∃ bytes,
          Database.encode mixedHeader (stockTree [0, 1] [1]) = .ok bytes ∧
            files.content "stock.db" = .ok bytes) ∧
    (∃ files response,
      (Command.update "r" mixedConfig).run mixedFiles 7 = (files, response) ∧
        response.exit = 1 ∧ ∀ l, Kept (parents "r") mixedFiles files l) ∧
    (∃ files response,
      (Command.update "stock.db" mixedConfig).run mixedFiles 7 (some fullDisk) =
          (files, response) ∧
        response = .failure ["Failed to write stock.db",
          "I/O error: Failed to sync database: No space left on device (os error 28)"] ∧
        ∀ l, Kept (parents "stock.db") mixedFiles files l) ∧
    Database.IsFree temporary mixedFiles "stock.db" ∧
      Database.storeThrough temporary none mixedFiles "stock.db" 7 mixedHeader
          (stockTree [0, 1] [1]) =
        Database.store mixedFiles "stock.db" 7 mixedHeader (stockTree [0, 1] [1]) := by
  have hfree : Database.IsFree temporary mixedFiles "stock.db" := by
    unfold Database.IsFree
    decide +kernel
  have hstored : (Database.store mixedFiles "stock.db" 7 mixedHeader
      (stockTree [0, 1] [1])).outcome.isOk = true := by
    decide +kernel
  have hexit : ((Command.update "stock.db" mixedConfig).run mixedFiles 7).2.exit = 0 := by
    rw [exit_run_update_of_build build_mixedFiles, hstored]
    rfl
  refine ⟨?_, ?_, ?_, hfree, ?_⟩
  · obtain ⟨⟨files, response, hrun, -, -, hsuccess, -⟩, -⟩ :=
      update_all_or_nothing mixedFiles 7 "stock.db" mixedConfig none
    rw [hrun] at hexit
    obtain ⟨t, h, bytes, target, hbuild, hbytes, -, hcontent, -⟩ := hsuccess hexit
    obtain ⟨rfl, rfl⟩ := Prod.mk.inj (Except.ok.inj (hbuild.symm.trans build_mixedFiles))
    exact ⟨files, response, hrun, hexit, bytes, hbytes, hcontent⟩
  · obtain ⟨⟨files, response, hrun, -, hfailure, -⟩, -⟩ :=
      update_all_or_nothing mixedFiles 7 "r" mixedConfig none
    have hnotStored : (Database.store mixedFiles "r" 7 mixedHeader
        (stockTree [0, 1] [1])).outcome.isOk = false := by
      decide +kernel
    have hexitOne : response.exit = 1 := by
      have hcode := exit_run_update_of_build build_mixedFiles 7 "r" none
      rw [hrun, hnotStored] at hcode
      exact hcode
    have hne : response.exit ≠ 0 := by
      rw [hexitOne]
      exact Nat.one_ne_zero
    exact ⟨files, response, hrun, hexitOne, hfailure hne⟩
  · obtain ⟨⟨files, response, hrun, -, hfailure, -, hrefused⟩, -⟩ :=
      update_all_or_nothing mixedFiles 7 "stock.db" mixedConfig (some fullDisk)
    have hresponse := hrefused fullDisk rfl hexit
    have hne : response.exit ≠ 0 := by
      rw [hresponse]
      exact Nat.one_ne_zero
    exact ⟨files, response, hrun, hresponse, hfailure hne⟩
  · exact ((update_all_or_nothing mixedFiles 7 "stock.db" mixedConfig none).2
      temporary hfree _ _).1

end Command

end PackageIndex
