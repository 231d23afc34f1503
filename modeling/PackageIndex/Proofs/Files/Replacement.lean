import Mathlib.Data.List.Basic
import Mathlib.Data.Set.Basic
import PackageIndex.Files.Basic

/-!
# What changes on the way to a new file

The directories that lead to a file are made as far as they are missing, and the file takes its
place. At all other places there is what was there (`kept_makeDirectories`, `replaceFile_spec`), and
the content that is found under the path afterwards is the new one (`content_of_replaceFile`).
-/

namespace PackageIndex

namespace Location

/-- Where a step leads if there is something that it can go through. -/
def step (loc : Location) : PathStep → Location
  | .stay => loc
  | .up => loc.parent
  | .into name => loc.child name

/-- Where steps lead. -/
def along (loc : Location) (steps : List PathStep) : Location :=
  steps.foldl step loc

end Location

/-! ## The end of a path -/

theorem Text.endsInSeparator_of_getLast?_pieces {sep : Char → Bool} {cs : List Char}
    (h : (pieces sep cs).getLast? = some []) :
    cs = [] ∨ ∃ c, cs.getLast? = some c ∧ sep c = true := by
  induction cs with
  | nil => exact .inl rfl
  | cons c cs ih =>
    have hlast : ∀ d, cs.getLast? = some d → (c :: cs).getLast? = some d := by
      intro d hd
      rw [List.getLast?_cons, hd]
      rfl
    refine .inr ?_
    cases hp : pieces sep cs with
    | nil => exact absurd hp (pieces_ne_nil sep cs)
    | cons p ps =>
      by_cases hc : sep c = true
      · rw [pieces, if_pos hc, hp, List.getLast?_cons_cons, ← hp] at h
        rcases ih h with rfl | ⟨d, hd, hsep⟩
        · exact ⟨c, rfl, hc⟩
        · exact ⟨d, hlast d hd, hsep⟩
      · rw [pieces, if_neg hc, hp] at h
        cases ps with
        | nil => simp at h
        | cons q ps =>
          rw [List.getLast?_cons_cons] at h
          rw [hp, List.getLast?_cons_cons] at ih
          rcases ih h with rfl | ⟨d, hd, hsep⟩
          · cases hp
          · exact ⟨d, hlast d hd, hsep⟩

/-- A path that does not end in a slash has no slashes to be left out at its end. -/
theorem Path.stepsBeforeSlashes_eq_steps {path : String} (hne : path ≠ "")
    (hslash : endsInSlash path = false) : stepsBeforeSlashes path = steps path := by
  unfold stepsBeforeSlashes steps
  rcases List.eq_nil_or_concat' (pieces path) with hnil | ⟨ps, p, hp⟩
  · exact absurd hnil (Text.pieces_ne_nil _ _)
  · have hpne : p ≠ [] := by
      rintro rfl
      have hlast : (pieces path).getLast? = some [] := by
        rw [hp]
        exact List.getLast?_concat
      rcases Text.endsInSeparator_of_getLast?_pieces hlast with hempty | ⟨c, hc, hsep⟩
      · exact hne (String.toList_eq_nil_iff.1 hempty)
      · rw [beq_iff_eq] at hsep
        subst hsep
        rw [endsInSlash, hc] at hslash
        cases hslash
    have hkeep : ¬ p.isEmpty = true := by simpa using hpne
    rw [hp, List.reverse_append, List.reverse_singleton, List.singleton_append,
      List.dropWhile_cons_of_neg hkeep]
    simp

namespace FileSystem

variable {fs fs' fs'' : FileSystem} {loc l : Location} {node : Node} {dirs dirs' : Set Location}
  {path : String} {bytes : List UInt8} {now : Int}

/-! ## One location -/

theorem lookup_put (loc l : Location) (node : Node) (es : List (Location × Node)) :
    (put loc node es).lookup l = if l = loc then some node else es.lookup l := by
  induction es with
  | nil =>
    by_cases h : l = loc
    · simp [put, h]
    · simp [put, List.lookup_cons, beq_eq_false_iff_ne.2 h, h]
  | cons e es ih =>
    obtain ⟨loc', node'⟩ := e
    rw [put]
    by_cases he : loc' = loc
    · subst he
      rw [if_pos rfl]
      by_cases h : l = loc'
      · simp [h]
      · simp [List.lookup_cons, beq_eq_false_iff_ne.2 h, h]
    · rw [if_neg he, List.lookup_cons, List.lookup_cons, ih]
      by_cases h : l = loc'
      · have hne : l ≠ loc := fun hl => he (h.symm.trans hl)
        simp [h, he]
      · simp [beq_eq_false_iff_ne.2 h]

theorem nodeAt?_setNode_self (h : loc.isOrigin = false) :
    (fs.setNode loc node).nodeAt? loc = some node := by
  rw [nodeAt?, h, if_neg Bool.false_ne_true, setNode, lookup_put, if_pos rfl]

theorem nodeAt?_setNode_of_ne (h : l ≠ loc) : (fs.setNode loc node).nodeAt? l = fs.nodeAt? l := by
  unfold nodeAt? setNode
  rw [lookup_put, if_neg h]

/-! ## Directories that are made -/

/-- At a location there is what was there, or, if it is one of the given locations, a directory
where nothing was. -/
def Kept (dirs : Set Location) (fs fs' : FileSystem) (l : Location) : Prop :=
  fs'.nodeAt? l = fs.nodeAt? l ∨
    l ∈ dirs ∧ fs.nodeAt? l = none ∧ ∃ time, fs'.nodeAt? l = some (.directory time)

theorem Kept.refl : Kept dirs fs fs l :=
  .inl rfl

theorem Kept.trans (h : Kept dirs fs fs' l) (h' : Kept dirs fs' fs'' l) : Kept dirs fs fs'' l := by
  rcases h with h | ⟨hl, hnone, time, hdir⟩
  · rcases h' with h' | ⟨hl, hnone, hdir⟩
    · exact .inl (h'.trans h)
    · exact .inr ⟨hl, h.symm.trans hnone, hdir⟩
  · rcases h' with h' | ⟨-, hnone', -⟩
    · exact .inr ⟨hl, hnone, time, h'.trans hdir⟩
    · rw [hdir] at hnone'
      cases hnone'

theorem Kept.mono (hsub : dirs ⊆ dirs') (h : Kept dirs fs fs' l) : Kept dirs' fs fs' l :=
  h.imp_right fun ⟨hl, hrest⟩ => ⟨hsub hl, hrest⟩

/-- The locations that steps lead through. -/
def passed (loc : Location) (steps : List PathStep) : Set Location :=
  {l | ∃ taken, taken <+: steps ∧ l = loc.along taken}

theorem passed_step_subset (loc : Location) (step : PathStep) (steps : List PathStep) :
    passed (loc.step step) steps ⊆ passed loc (step :: steps) := by
  rintro l ⟨taken, hprefix, rfl⟩
  exact ⟨step :: taken, List.cons_prefix_cons.2 ⟨rfl, hprefix⟩, rfl⟩

theorem kept_makeAlong (steps : List PathStep) : ∀ (fs : FileSystem) (loc : Location) (made : Bool),
    Kept (passed loc steps) fs (fs.makeAlong loc made steps).2 l := by
  induction steps with
  | nil => exact fun fs loc made => .refl
  | cons step steps ih =>
    intro fs loc made
    cases step with
    | stay => exact (ih fs loc made).mono (passed_step_subset loc .stay steps)
    | up => exact (ih fs loc.parent made).mono (passed_step_subset loc .up steps)
    | into name =>
      have hsub := passed_step_subset loc (.into name) steps
      rw [makeAlong]
      split
      · exact .refl
      · split
        · exact (ih fs (loc.child name) made).mono hsub
        · exact .refl
        next hnone =>
          refine Kept.trans ?_ ((ih _ (loc.child name) true).mono hsub)
          by_cases hl : l = loc.child name
          · subst hl
            refine .inr ⟨⟨[.into name], by simp, rfl⟩, hnone, 0, ?_⟩
            exact nodeAt?_setNode_self rfl
          · exact .inl (nodeAt?_setNode_of_ne hl)

theorem passed_take_subset (loc : Location) (steps : List PathStep) (count : Nat) :
    passed loc (steps.take count) ⊆ passed loc steps := by
  rintro l ⟨taken, hprefix, rfl⟩
  exact ⟨taken, hprefix.trans (List.take_prefix count steps), rfl⟩

/-- The directories that lead to the place of a file, as its path has them. -/
def parents (path : String) : Set Location :=
  passed (startOf (Path.directoryOf path)) (Path.stepsBeforeSlashes (Path.directoryOf path))

theorem kept_makeDirectories (fs : FileSystem) (dir : String) (l : Location) :
    Kept (passed (startOf dir) (Path.stepsBeforeSlashes dir)) fs (fs.makeDirectories dir).2 l := by
  unfold makeDirectories
  split
  · exact .refl
  · split
    · exact .refl
    · exact kept_makeAlong _ fs (startOf dir) false

theorem kept_makeFirst (fs : FileSystem) (dir : String) (taken : Nat) (l : Location) :
    Kept (passed (startOf dir) (Path.stepsBeforeSlashes dir)) fs (fs.makeFirst dir taken) l :=
  (kept_makeAlong _ fs (startOf dir) false).mono (passed_take_subset _ _ taken)

/-! ## A file that takes its place -/

/-- What is put in place of a file or of nothing is no step on the way to anything. -/
theorem follow_setNode (hnode : ∀ time, fs.nodeAt? loc ≠ some (.directory time)) {a b : Location}
    {step : PathStep} (h : fs.follow a step = .ok b) :
    (fs.setNode loc node).follow a step = .ok b := by
  by_cases ha : a = loc
  · subst ha
    unfold follow at h
    split at h
    · cases h
    · cases h
    next time hdir => exact absurd hdir (hnode time)
  · unfold follow at h ⊢
    rwa [nodeAt?_setNode_of_ne ha]

theorem foldlM_follow_of_follow
    (hfollow : ∀ {a b : Location} {step : PathStep}, fs.follow a step = .ok b →
      fs'.follow a step = .ok b)
    {steps : List PathStep} : ∀ {start : Location}, steps.foldlM fs.follow start = .ok l →
      steps.foldlM fs'.follow start = .ok l := by
  induction steps with
  | nil => exact fun h => h
  | cons step steps ih =>
    intro start h
    rw [List.foldlM_cons] at h ⊢
    cases hstep : fs.follow start step with
    | error fault =>
      rw [hstep] at h
      cases h
    | ok next =>
      rw [hstep] at h
      rw [hfollow hstep]
      exact ih h

theorem locate_setNode (hnode : ∀ time, fs.nodeAt? loc ≠ some (.directory time))
    (h : fs.locate path = .ok l) : (fs.setNode loc node).locate path = .ok l := by
  unfold locate at h ⊢
  split at h
  · cases h
  · exact foldlM_follow_of_follow (follow_setNode hnode) h

/-- A file that takes its place is put where the path leads, in place of a file or of nothing. -/
theorem replaceFile_spec (h : fs.replaceFile path bytes now = .ok fs') :
    ∃ target, fs.locate path = .ok target ∧
      (∀ time, fs.nodeAt? target ≠ some (.directory time)) ∧
      fs' = fs.setNode target (.file bytes now) := by
  unfold replaceFile at h
  split at h
  · cases h
  next hreplace =>
    have hfault : Path.fault? path = none := Option.map_eq_none_iff.1 hreplace
    have hne : path ≠ "" := by
      rintro rfl
      cases hfault
    dsimp only at h
    cases hsteps : (Path.stepsBeforeSlashes path).foldlM fs.follow (startOf path) with
    | error fault =>
      rw [hsteps] at h
      cases h
    | ok target =>
      rw [hsteps] at h
      dsimp only [bind, Except.bind] at h
      split at h
      · split at h
        · cases h
        next hslash =>
          split at h
          · cases h
          next hdir =>
            cases h
            refine ⟨target, ?_, hdir, rfl⟩
            unfold locate
            rw [hfault, ← Path.stepsBeforeSlashes_eq_steps hne (Bool.eq_false_iff.2 hslash)]
            exact hsteps
      · cases h

theorem content_of_file {modified : Int} (hlocate : fs.locate path = .ok l)
    (hfile : fs.nodeAt? l = some (.file bytes modified)) : fs.content path = .ok bytes := by
  unfold content node
  rw [hlocate]
  dsimp only [bind, Except.bind]
  rw [hfile]

/-- After a file has taken its place its path leads to it, it has the new content, and elsewhere
nothing has changed. -/
theorem content_of_replaceFile (h : fs.replaceFile path bytes now = .ok fs') :
    ∃ target, fs'.locate path = .ok target ∧ fs'.content path = .ok bytes ∧
      ∀ l, l ≠ target → fs'.nodeAt? l = fs.nodeAt? l := by
  obtain ⟨target, hlocate, hdir, rfl⟩ := replaceFile_spec h
  have hlocate' : (fs.setNode target (.file bytes now)).locate path = .ok target :=
    locate_setNode hdir hlocate
  have horigin : target.isOrigin = false := by
    by_contra horigin
    refine hdir 0 ?_
    unfold nodeAt?
    rw [if_pos (by simpa using horigin)]
  exact ⟨target, hlocate', content_of_file hlocate' (nodeAt?_setNode_self horigin),
    fun l hl => nodeAt?_setNode_of_ne hl⟩

/-! ## By way of a temporary file -/

/-- The files without what is at a location. -/
def remove (fs : FileSystem) (loc : Location) : FileSystem :=
  ⟨fs.entries.filter fun e => e.1 ≠ loc, fs.distinct.sublist (List.filter_sublist.map Prod.fst)⟩

/-- Moves the file at a location to where a path leads, in place of the file that may be there. -/
def rename (fs : FileSystem) (loc : Location) (path : String) : Except FileFault FileSystem :=
  match fs.nodeAt? loc with
  | some (.file content modified) => (fs.remove loc).replaceFile path content modified
  | some (.directory _) => .error .isDirectory
  | none => .error .notFound

theorem put_of_notMem {es : List (Location × Node)} (h : ∀ e ∈ es, e.1 ≠ loc) :
    put loc node es = es ++ [(loc, node)] := by
  induction es with
  | nil => rfl
  | cons e es ih =>
    rw [put, if_neg (h e List.mem_cons_self), ih fun e he => h e (List.mem_cons_of_mem _ he)]
    rfl

theorem put_put (loc : Location) (n node : Node) (es : List (Location × Node)) :
    put loc node (put loc n es) = put loc node es := by
  induction es with
  | nil => simp [put]
  | cons e es ih =>
    by_cases h : e.1 = loc
    · simp [put, h]
    · simp [put, h, ih]

/-- A temporary file that is removed leaves no trace, whatever has been written to it. -/
theorem remove_setNode (h : fs.nodeAt? loc = none) (node : Node) :
    (fs.setNode loc node).remove loc = fs := by
  have hne : ∀ e ∈ fs.entries, e.1 ≠ loc := by
    unfold nodeAt? at h
    split at h
    · cases h
    · intro e he
      have hneq := List.lookup_eq_none_iff.1 h e he
      exact Ne.symm (bne_iff_ne.1 hneq)
  have hentries : (put loc node fs.entries).filter (fun e => e.1 ≠ loc) = fs.entries := by
    have hself : fs.entries.filter (fun e => e.1 ≠ loc) = fs.entries :=
      List.filter_eq_self.2 fun e he => decide_eq_true (hne e he)
    rw [put_of_notMem hne, List.filter_append, hself]
    simp
  obtain ⟨entries, distinct⟩ := fs
  unfold remove setNode
  congr 1

theorem remove_setNode_setNode (h : fs.nodeAt? loc = none) (n node : Node) :
    ((fs.setNode loc n).setNode loc node).remove loc = fs := by
  have hput : (fs.setNode loc n).setNode loc node = fs.setNode loc node := by
    unfold setNode
    congr 1
    exact put_put loc n node fs.entries
  rw [hput, remove_setNode h]

/-- To write a file in full at a free location and to move it then is to replace a file in one
step. -/
theorem rename_setNode (h : fs.nodeAt? loc = none) (n : Node) (path : String) (bytes : List UInt8)
    (now : Int) :
    ((fs.setNode loc n).setNode loc (.file bytes now)).rename loc path =
      fs.replaceFile path bytes now := by
  have horigin : loc.isOrigin = false := by
    by_contra horigin
    unfold nodeAt? at h
    rw [if_pos (by simpa using horigin)] at h
    cases h
  unfold rename
  rw [nodeAt?_setNode_self horigin, remove_setNode_setNode h]

end FileSystem

end PackageIndex
