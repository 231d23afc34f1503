import PackageIndex.Proofs.Files.Listing
import PackageIndex.Proofs.Text.Words

/-!
# Files by their directories

A path that was put together from the path of a directory and a name leads to what has the name in
that directory (`walk_join_eq_ok_iff`), whether or not the first part ends in a slash. So what is
listed can be read under the path that is put together from its name (`text_join_eq_ok_iff`), unless
it is a path or a name that the operating system does not take.
-/

namespace PackageIndex

/-! ## Paths put together -/

namespace Path

variable {base rel : String}

theorem isAbsolute_append (hbase : base ≠ "") (s : String) :
    isAbsolute (base ++ s) = isAbsolute base := by
  have hne : base.toList ≠ [] := fun h => hbase (String.toList_eq_nil_iff.1 h)
  unfold isAbsolute
  rw [String.toList_append, List.head?_append_of_ne_nil _ hne]

theorem isAbsolute_join (hrel : isAbsolute rel = false) :
    isAbsolute (join base rel) = isAbsolute base := by
  unfold join
  rw [hrel, Bool.false_or]
  by_cases hempty : base = ""
  · subst hempty
    exact hrel
  · rw [if_neg (by simpa using hempty)]
    split
    · exact isAbsolute_append hempty rel
    · rw [String.append_assoc, isAbsolute_append hempty]

theorem endsInSlash_append (hrel : rel ≠ "") (s : String) :
    endsInSlash (s ++ rel) = endsInSlash rel := by
  have hne : rel.toList ≠ [] := fun h => hrel (String.toList_eq_nil_iff.1 h)
  unfold endsInSlash
  rw [String.toList_append, List.getLast?_append_of_ne_nil _ hne]

theorem endsInSlash_join (hrel : rel ≠ "") : endsInSlash (join base rel) = endsInSlash rel := by
  unfold join
  split_ifs
  · rfl
  · exact endsInSlash_append hrel base
  · exact endsInSlash_append hrel (base ++ "/")

theorem join_ne_empty (hrel : rel ≠ "") : join base rel ≠ "" := by
  have happend : ∀ s : String, s ++ rel ≠ "" := by
    intro s h
    exact hrel (String.append_eq_empty_iff.1 h).2
  unfold join
  split_ifs
  · exact hrel
  · exact happend base
  · exact happend (base ++ "/")

theorem join_eq_append (hbase : base ≠ "") (hslash : endsInSlash base = false)
    (hrel : isAbsolute rel = false) : join base rel = base ++ "/" ++ rel := by
  unfold join
  rw [hrel, Bool.false_or, if_neg (by simpa using hbase), hslash, if_neg Bool.false_ne_true]

/-- The steps of the first part come before those of the second. A slash at the end of the first part
is not doubled; then the first part on its own has one step more, which leads nowhere else. -/
theorem steps_join (hrel : isAbsolute rel = false) :
    steps (join base rel) = steps base ++ steps rel ∨
      ∃ before, steps base = before ++ [.stay] ∧ steps (join base rel) = before ++ steps rel := by
  have hpieces : ∀ as bs : List Char, Text.pieces (· == '/') (as ++ '/' :: bs) =
      Text.pieces (· == '/') as ++ Text.pieces (· == '/') bs :=
    Text.pieces_append_cons (beq_self_eq_true '/')
  unfold join
  rw [hrel, Bool.false_or]
  by_cases hempty : base = ""
  · subst hempty
    exact .inr ⟨[], by decide, by simp⟩
  · rw [if_neg (by simpa using hempty)]
    by_cases hend : endsInSlash base = true
    · rw [if_pos hend]
      obtain ⟨as, has⟩ := List.getLast?_eq_some_iff.1 (beq_iff_eq.1 hend)
      refine .inr ⟨(Text.pieces (· == '/') as).map stepOf, ?_, ?_⟩
      · unfold steps pieces
        rw [has, hpieces, List.map_append]
        rfl
      · unfold steps pieces
        rw [String.toList_append, has, List.append_assoc, List.singleton_append, hpieces,
          List.map_append]
    · rw [if_neg hend]
      refine .inl ?_
      unfold steps pieces
      have hchars : (base ++ "/" ++ rel).toList = base.toList ++ '/' :: rel.toList := by
        rw [String.toList_append, String.toList_append, List.append_assoc]
        rfl
      rw [hchars, hpieces, List.map_append]

end Path

namespace EntryName

theorem isAbsolute_text (name : EntryName) : Path.isAbsolute name.text = false := by
  refine beq_eq_false_iff_ne.2 fun h => name.valid.2.2.2 ?_
  exact List.mem_of_mem_head? h

theorem steps_text (name : EntryName) : Path.steps name.text = [.into name] := by
  obtain ⟨hne, hdot, hdots, hslash⟩ := name.valid
  have hpieces : Path.pieces name.text = [name.text.toList] := by
    refine Text.pieces_of_none fun c hc => beq_eq_false_iff_ne.2 ?_
    rintro rfl
    exact hslash hc
  have hup : name.text.toList ≠ ['.', '.'] := by
    intro h
    exact hdots (String.toList_inj.1 h)
  rw [Path.steps, hpieces, List.map_singleton, Path.stepOf, if_neg hup]
  simp only [String.ofList_toList, dif_pos name.valid]

end EntryName

namespace FileSystem

variable {fs : FileSystem} {base rel path content : String} {name : EntryName} {dir loc : Location}

/-! ## Where they lead -/

/-- Where a path leads, unless something is wrong with it as a whole. -/
def walk (fs : FileSystem) (path : String) : Except FileFault Location :=
  (Path.steps path).foldlM fs.follow (startOf path)

theorem locate_eq_ok_iff :
    fs.locate path = .ok loc ↔ Path.fault? path = none ∧ fs.walk path = .ok loc := by
  unfold locate
  cases Path.fault? path with
  | none => exact (and_iff_right rfl).symm
  | some fault => exact iff_of_false nofun nofun

/-- There is a directory at a location. -/
def IsDirectoryAt (fs : FileSystem) (loc : Location) : Prop :=
  ∃ modified, fs.nodeAt? loc = some (.directory modified)

theorem follow_eq_ok_iff {step : PathStep} :
    fs.follow dir step = .ok loc ↔ fs.IsDirectoryAt dir ∧ match step with
      | .stay => loc = dir
      | .up => loc = dir.parent
      | .into name => name.isTooLong = false ∧ loc = dir.child name := by
  unfold follow IsDirectoryAt
  cases hnode : fs.nodeAt? dir with
  | none => simp
  | some node =>
    cases node with
    | file bytes modified => simp
    | directory modified =>
      cases step with
      | stay => simp [eq_comm]
      | up => simp [eq_comm]
      | into name =>
        by_cases hlong : name.isTooLong = true
        · simp [hlong]
        · simp [hlong, eq_comm]

/-- A step that leads nowhere else asks for what the next step asks for anyway. -/
theorem follow_stay_bind (step : PathStep) (steps : List PathStep) :
    (fs.follow loc .stay >>= fun dir => (step :: steps).foldlM fs.follow dir) =
      (step :: steps).foldlM fs.follow loc := by
  have hfault : ∀ fault : FileFault, (∀ s, fs.follow loc s = .error fault) →
      (fs.follow loc .stay >>= fun dir => (step :: steps).foldlM fs.follow dir) =
        (step :: steps).foldlM fs.follow loc := by
    intro fault h
    rw [List.foldlM_cons, h, h]
    rfl
  cases hnode : fs.nodeAt? loc with
  | none =>
    refine hfault .notFound fun s => ?_
    unfold follow
    rw [hnode]
  | some node =>
    cases node with
    | file bytes modified =>
      refine hfault .notDirectory fun s => ?_
      unfold follow
      rw [hnode]
    | directory modified =>
      have hstay : fs.follow loc .stay = .ok loc := by rw [follow, hnode]
      rw [hstay]
      rfl

theorem walk_join (hrel : Path.isAbsolute rel = false) :
    fs.walk (Path.join base rel) =
      fs.walk base >>= fun dir => (Path.steps rel).foldlM fs.follow dir := by
  have hstart : startOf (Path.join base rel) = startOf base := by
    unfold startOf
    rw [Path.isAbsolute_join hrel]
  unfold walk
  rw [hstart]
  rcases @Path.steps_join base rel hrel with h | ⟨before, hbase, h⟩
  · rw [h, List.foldlM_append]
  · rw [h, hbase, List.foldlM_append, List.foldlM_append, bind_assoc]
    refine bind_congr fun l => ?_
    obtain ⟨step, steps, hsteps⟩ : ∃ step steps, Path.steps rel = step :: steps := by
      refine List.exists_cons_of_ne_nil ?_
      unfold Path.steps
      exact mt List.map_eq_nil_iff.1 (Text.pieces_ne_nil _ _)
    rw [hsteps, ← follow_stay_bind]
    simp

theorem walk_join_eq_ok_iff :
    fs.walk (Path.join base name.text) = .ok loc ↔
      ∃ dir, fs.walk base = .ok dir ∧ fs.IsDirectoryAt dir ∧ name.isTooLong = false ∧
        loc = dir.child name := by
  rw [walk_join name.isAbsolute_text, name.steps_text]
  cases hwalk : fs.walk base with
  | error fault =>
    exact iff_of_false nofun fun ⟨dir, hdir, _⟩ => by cases hdir
  | ok dir =>
    have hfollow : ([PathStep.into name].foldlM fs.follow dir = .ok loc) ↔
        fs.follow dir (.into name) = .ok loc := by
      simp
    refine hfollow.trans (follow_eq_ok_iff.trans ?_)
    constructor
    · exact fun h => ⟨dir, rfl, h⟩
    · rintro ⟨_, hdir, h⟩
      cases hdir
      exact h

/-! ## What is listed -/

theorem mem_childrenOf : name ∈ fs.childrenOf dir ↔ (fs.nodeAt? (dir.child name)).isSome := by
  unfold childrenOf nodeAt?
  rw [Location.isOrigin_child, if_neg Bool.false_ne_true, List.mem_filterMap]
  constructor
  · rintro ⟨⟨l, node⟩, he, hname⟩
    obtain rfl := Location.nameIn?_eq_some_iff.1 hname
    rw [List.lookup_isSome_iff]
    exact ⟨_, he, beq_self_eq_true _⟩
  · intro h
    obtain ⟨e, he, hl⟩ := List.lookup_isSome_iff.1 h
    exact ⟨e, he, Location.nameIn?_eq_some_iff.2 (beq_iff_eq.1 hl).symm⟩

theorem list_eq_ok_iff {names : List String} :
    fs.list path = .ok names ↔
      ∃ dir, fs.locate path = .ok dir ∧ fs.IsDirectoryAt dir ∧
        names = (fs.childrenOf dir).map EntryName.text := by
  unfold list IsDirectoryAt
  cases hlocate : fs.locate path with
  | error fault => exact iff_of_false nofun fun ⟨dir, hdir, _⟩ => by cases hdir
  | ok dir =>
    simp only [bind, Except.bind]
    cases hnode : fs.nodeAt? dir with
    | none => simp [hnode]
    | some node =>
      cases node with
      | file bytes modified => simp [hnode]
      | directory modified => simp [hnode, eq_comm]

theorem not_isDirectoryAt_of_list {fault : FileFault} (h : fs.list path = .error fault)
    (hlocate : fs.locate path = .ok dir) : ¬ fs.IsDirectoryAt dir := by
  intro hdir
  rw [list_eq_ok_iff.2 ⟨dir, hlocate, hdir, rfl⟩] at h
  cases h

/-! ## What is read -/

/-- The text of a file of a directory, if there is such a file and its content is a text. -/
def textIn? (fs : FileSystem) (dir : Location) (name : EntryName) : Option String :=
  match fs.nodeAt? dir, fs.nodeAt? (dir.child name) with
  | some (.directory _), some (.file bytes _) => (Utf8.decode bytes).toOption
  | _, _ => none

theorem textIn?_eq_some_iff :
    fs.textIn? dir name = some content ↔ fs.IsDirectoryAt dir ∧
      ∃ bytes modified, fs.nodeAt? (dir.child name) = some (.file bytes modified) ∧
        Utf8.decode bytes = .ok content := by
  unfold textIn? IsDirectoryAt
  constructor
  · intro h
    split at h
    next modified bytes modified' hdir hfile =>
      cases hdecode : Utf8.decode bytes with
      | error fault =>
        rw [hdecode] at h
        cases h
      | ok text =>
        rw [hdecode] at h
        cases h
        exact ⟨⟨modified, hdir⟩, bytes, modified', hfile, hdecode⟩
    next => cases h
  · rintro ⟨⟨modified, hdir⟩, bytes, modified', hfile, hdecode⟩
    rw [hdir, hfile]
    dsimp only
    rw [hdecode]
    rfl

theorem node_eq_ok_iff {node : Node} :
    fs.node path = .ok node ↔ ∃ loc, fs.locate path = .ok loc ∧ fs.nodeAt? loc = some node := by
  unfold FileSystem.node
  cases fs.locate path with
  | error fault => exact iff_of_false nofun fun ⟨loc, hloc, _⟩ => by cases hloc
  | ok loc =>
    simp only [bind, Except.bind]
    cases hnode : fs.nodeAt? loc with
    | none => simp [hnode]
    | some node => simp [hnode]

theorem content_eq_ok_iff {bytes : List UInt8} :
    fs.content path = .ok bytes ↔ ∃ modified, fs.node path = .ok (.file bytes modified) := by
  unfold FileSystem.content
  cases fs.node path with
  | error fault => exact iff_of_false nofun fun ⟨_, hnode⟩ => by cases hnode
  | ok node =>
    cases node with
    | file bytes' modified => simp [bind, Except.bind]
    | directory modified => simp [bind, Except.bind]

theorem text_eq_ok_iff :
    fs.text path = .ok content ↔
      ∃ bytes, fs.content path = .ok bytes ∧ Utf8.decode bytes = .ok content := by
  unfold text
  cases fs.content path with
  | error fault => exact iff_of_false nofun fun ⟨_, hbytes, _⟩ => by cases hbytes
  | ok bytes =>
    simp only [bind, Except.bind]
    cases hdecode : Utf8.decode bytes with
    | error fault => simp [hdecode]
    | ok text => simp [hdecode]

/-- What is read under a path that was put together is the file of the directory. -/
theorem text_join_eq_ok_iff :
    fs.text (Path.join base name.text) = .ok content ↔
      Path.fault? (Path.join base name.text) = none ∧ name.isTooLong = false ∧
        ∃ dir, fs.walk base = .ok dir ∧ fs.textIn? dir name = some content := by
  simp only [text_eq_ok_iff, content_eq_ok_iff, node_eq_ok_iff, locate_eq_ok_iff,
    walk_join_eq_ok_iff, textIn?_eq_some_iff]
  constructor
  · rintro ⟨bytes, ⟨modified, _, ⟨hfault, dir, hwalk, hdir, hlong, rfl⟩, hfile⟩, hdecode⟩
    exact ⟨hfault, hlong, dir, hwalk, hdir, bytes, modified, hfile, hdecode⟩
  · rintro ⟨hfault, hlong, dir, hwalk, hdir, bytes, modified, hfile, hdecode⟩
    exact ⟨bytes, ⟨modified, _, ⟨hfault, dir, hwalk, hdir, hlong, rfl⟩, hfile⟩, hdecode⟩

end FileSystem

end PackageIndex
