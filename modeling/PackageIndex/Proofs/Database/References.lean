import Mathlib.Data.List.Induction
import PackageIndex.Proofs.Database.Outline

/-!
# What refers to the dictionaries

The preparation of a header and the writing of the records go through a tree separately. Both come by
the same texts in the same order: those that the records refer to (`get_prepare`, `texts_ofTree`). So
every text is there when it is written, and the indices of each dictionary are first written in the
order of the numbers (`references_in_order`).
-/

namespace PackageIndex

/-! ## Dictionaries that are made of texts -/

namespace Dictionary

/-- The texts that a dictionary is made of first have its indices in the order of the numbers. -/
theorem eraseDups_map_index (ss : List String) :
    (ss.map (ofList ss).index).eraseDups = List.range (ofList ss).size := by
  induction ss using List.reverseRecOn with
  | nil => rfl
  | append_singleton ss s ih =>
    rw [ofList_concat, List.map_append, List.map_singleton, eraseDups_concat]
    by_cases hs : s ∈ (ofList ss).entries
    · have hsame : (ofList ss).insert s = ofList ss := eq_of_entries (entries_insert_of_mem hs)
      rw [hsame, if_pos (List.mem_map_of_mem (mem_ofList.1 hs)), ih]
    · have hentries := entries_insert_of_notMem hs
      have hold : ss.map ((ofList ss).insert s).index = ss.map (ofList ss).index := by
        refine List.map_congr_left fun u hu => ?_
        unfold index
        rw [hentries, List.idxOf_append_of_mem (mem_ofList.2 hu)]
      have hnew : ((ofList ss).insert s).index s = (ofList ss).size := by
        unfold index
        rw [hentries, List.idxOf_append_of_notMem hs, List.idxOf_cons_self]
        rfl
      have hsize : ((ofList ss).insert s).size = (ofList ss).size + 1 := by
        unfold size
        rw [hentries, List.length_append, List.length_singleton]
      have hfresh : (ofList ss).size ∉ ss.map (ofList ss).index := by
        intro hmem
        obtain ⟨u, hu, hindex⟩ := List.mem_map.1 hmem
        have hlt : (ofList ss).index u < (ofList ss).size :=
          List.idxOf_lt_length_iff.2 (mem_ofList.2 hu)
        omega
      rw [hold, hnew, hsize, if_neg hfresh, ih, List.range_succ]

end Dictionary

/-! ## Texts of records -/

/-- The texts that the record of an ebuild refers to in a dictionary, in order. -/
def Ebuild.texts (dependencies : Bool) (part : Dictionaries.Part) (e : Ebuild) : List String :=
  match part with
  | .eapi => [e.eapi]
  | .license => []
  | .slot => [e.slot.name, e.slot.subText]
  | .iuse => e.iuse
  | .depend =>
    if dependencies then (e.depend.getD .none).fields.flatMap Text.words else []

/-- The texts that the record of a package refers to in a dictionary, in order. -/
def Package.texts (dependencies : Bool) (part : Dictionaries.Part) (p : Package) : List String :=
  (match part with
    | .license => [p.license]
    | .iuse => p.useFlags.toList
    | _ => []) ++ p.ebuilds.flatMap (Ebuild.texts dependencies part)

/-- The texts that the records of a tree refer to in a dictionary, in order. -/
def Tree.texts (dependencies : Bool) (part : Dictionaries.Part) (t : Tree) : List String :=
  t.packages.flatMap (Package.texts dependencies part)

/-! ## What preparation comes by -/

namespace Dictionaries

variable {dependencies : Bool} {part : Part}

theorem get_foldl {α : Type} {step : Dictionaries → α → Dictionaries} {texts : α → List String}
    (h : ∀ d a, (step d a).get part = (d.get part).insertAll (texts a)) (as : List α) :
    ∀ d : Dictionaries, (as.foldl step d).get part = (d.get part).insertAll (as.flatMap texts) := by
  induction as with
  | nil => exact fun d => rfl
  | cons a as ih =>
    intro d
    rw [List.foldl_cons, ih, h, List.flatMap_cons, Dictionary.insertAll_append]

theorem get_addEbuild (d : Dictionaries) (e : Ebuild) :
    (d.addEbuild dependencies e).get part =
      (d.get part).insertAll (e.texts dependencies part) := by
  cases part with
  | depend =>
    show (if dependencies then _ else _) = Dictionary.insertAll _ (if dependencies then _ else _)
    cases dependencies with
    | false => rfl
    | true => exact Dictionary.foldl_insertWords _ _
  | _ => rfl

theorem get_addPackage (d : Dictionaries) (p : Package) :
    (d.addPackage dependencies p).get part =
      (d.get part).insertAll (p.texts dependencies part) := by
  unfold addPackage Package.texts
  rw [get_foldl (fun d e => get_addEbuild d e), Dictionary.insertAll_append]
  cases part with
  | _ => rfl

end Dictionaries

theorem Header.get_prepare (h : Header) (t : Tree) (part : Dictionaries.Part) :
    (h.prepare t).dictionaries.get part = .ofList (t.texts h.storesDependencies part) := by
  have hstep : ∀ (d : Dictionaries) p, (d.addPackage h.storesDependencies p).get part =
      (d.get part).insertAll (p.texts h.storesDependencies part) := Dictionaries.get_addPackage
  have hfold := Dictionaries.get_foldl hstep t.packages {}
  refine hfold.trans ?_
  cases part with
  | _ => rfl

/-! ## What writing comes by -/

namespace Outline

variable {part : Dictionaries.Part}

theorem texts_append (o o' : Outline) : texts part (o ++ o') = texts part o ++ texts part o' :=
  List.filterMap_append

theorem texts_plain (bytes : List UInt8) (o : Outline) :
    texts part (.plain bytes :: o) = texts part o :=
  List.filterMap_cons_none rfl

theorem texts_flatMap {α : Type} {f : α → Outline} {g : α → List String}
    (h : ∀ a, texts part (f a) = g a) (as : List α) :
    texts part (as.flatMap f) = as.flatMap g := by
  unfold texts
  rw [List.filterMap_flatMap]
  exact List.flatMap_congr fun a _ => h a

theorem texts_nil (part : Dictionaries.Part) : texts part [] = [] :=
  rfl

theorem texts_entry (other : Dictionaries.Part) (s : String) (o : Outline) :
    texts part (.entry other s :: o) = (if other = part then [s] else []) ++ texts part o := by
  by_cases h : other = part
  · rw [if_pos h]
    exact List.filterMap_cons_some (if_pos h)
  · rw [if_neg h]
    exact List.filterMap_cons_none (if_neg h)

theorem texts_measured (d : Dictionaries) (o : Outline) :
    texts part (measured d o) = texts part o :=
  texts_plain _ o

theorem texts_ofEntries (other : Dictionaries.Part) (ss : List String) :
    texts part (ofEntries other ss) = if other = part then ss else [] := by
  unfold ofEntries
  rw [texts_plain]
  induction ss with
  | nil =>
    split
    · rfl
    · rfl
  | cons s ss ih =>
    rw [List.map_cons, texts_entry, ih]
    split
    · rfl
    · rfl

theorem texts_ofDependencies (d : Dictionaries) (depend : Dependencies) :
    texts part (ofDependencies d depend) =
      if .depend = part then depend.fields.flatMap Text.words else [] := by
  unfold ofDependencies
  rw [texts_measured, texts_flatMap fun f => texts_ofEntries .depend (Text.words f)]
  split
  · rfl
  · exact List.flatMap_eq_nil_iff.2 fun _ _ => rfl

theorem texts_ofEbuild (h : Header) (e : Ebuild) :
    texts part (ofEbuild h e) = e.texts h.storesDependencies part := by
  have hdepend : texts part (if h.storesDependencies then
      ofDependencies h.dictionaries (e.depend.getD .none) else []) =
        if h.storesDependencies ∧ .depend = part then
          (e.depend.getD .none).fields.flatMap Text.words else [] := by
    cases h.storesDependencies with
    | false => rfl
    | true =>
      refine (texts_ofDependencies _ _).trans ?_
      simp
  unfold ofEbuild
  simp only [texts_append, texts_plain, texts_entry, texts_nil, texts_ofEntries, hdepend]
  cases part with
  | _ => simp [Ebuild.texts]

theorem texts_ofPackage (h : Header) (p : Package) :
    texts part (ofPackage h p) = p.texts h.storesDependencies part := by
  unfold ofPackage ofPackageFields
  rw [texts_measured]
  simp only [texts_append, texts_plain, texts_entry, texts_nil, texts_ofEntries,
    texts_flatMap (texts_ofEbuild h)]
  cases part with
  | _ => simp [Package.texts]

theorem texts_ofTree (h : Header) (t : Tree) :
    texts part (ofTree h t) = t.texts h.storesDependencies part := by
  have hcategory : ∀ c : Category, texts part (ofCategory h c) =
      c.packages.flatMap (Package.texts h.storesDependencies part) := by
    intro c
    unfold ofCategory
    rw [texts_plain, texts_flatMap (texts_ofPackage h)]
  unfold ofTree Tree.texts Tree.packages
  rw [texts_plain, texts_flatMap hcategory, List.flatMap_assoc]

/-- The indices of a dictionary that are written, in order. -/
def references (d : Dictionaries) (part : Dictionaries.Part) (o : Outline) : List Nat :=
  (o.texts part).map (d.get part).index

end Outline

/-! ## What is written under a prepared header -/

theorem Tree.texts_depend_eq_nil (t : Tree) : t.texts false .depend = [] := by
  have hebuild : ∀ e : Ebuild, e.texts false .depend = [] := fun _ => rfl
  have hpackage : ∀ p : Package, p.texts false .depend = [] := fun p =>
    List.flatMap_eq_nil_iff.2 fun e _ => hebuild e
  exact List.flatMap_eq_nil_iff.2 fun p _ => hpackage p

/-- **Preparation and writing meet the same texts in the same order.** To write a tree under a header is
to write the parts of its outline. Whatever the dictionaries of a header were, every tree is written
under it once it is prepared, since no text is missing. Each dictionary has no text twice, and has
those that the records refer to. Each reference is the index of the text that the record has there,
and without their repetitions the references to a dictionary are the numbers 0, 1, 2 and so on up to
its last index. If no dependencies are stored, their dictionary is empty, and nothing refers to it. -/
theorem Database.references_in_order (h : Header) (t : Tree) :
    let d := (h.prepare t).dictionaries
    let o := Outline.ofTree (h.prepare t) t
    (∀ g : Header, encodePrepared g t = (Outline.ofTree g t).encode g.dictionaries) ∧
      encode h t = .ok (o.bytes d) ∧
      (∀ part, (d.get part).entries.Nodup ∧
        (∀ s, s ∈ (d.get part).entries ↔ ∃ p ∈ t.packages, s ∈ p.texts h.storesDependencies part) ∧
        (o.references d part).map (d.get part).get? =
          (t.texts h.storesDependencies part).map some ∧
        (o.references d part).eraseDups = List.range (d.get part).size) ∧
      (h.storesDependencies = false → d.depend.entries = [] ∧ o.references d .depend = []) := by
  intro d o
  have hget : ∀ part, d.get part = .ofList (t.texts h.storesDependencies part) := h.get_prepare t
  have htexts : ∀ part, o.texts part = t.texts h.storesDependencies part := fun part =>
    Outline.texts_ofTree (h.prepare t) t
  have hpresent : ∀ part, ∀ s ∈ o.texts part, s ∈ (d.get part).entries := by
    intro part s hs
    rw [hget, Dictionary.mem_ofList, ← htexts]
    exact hs
  refine ⟨fun g => Outline.encodePrepared_eq g t, ?_, fun part => ?_, fun hnot => ?_⟩
  · exact (Outline.encodePrepared_eq (h.prepare t) t).trans (Outline.encode_eq hpresent)
  · refine ⟨(d.get part).nodup, fun s => ?_, ?_, ?_⟩
    · rw [hget, Dictionary.mem_ofList]
      exact List.mem_flatMap
    · unfold Outline.references
      rw [List.map_map, htexts]
      refine List.map_congr_left fun s hs => ?_
      have hmem : s ∈ (d.get part).entries := hpresent part s (htexts part ▸ hs)
      exact Dictionary.indexOf?_eq_some_iff.1 (Dictionary.indexOf?_of_mem hmem)
    · unfold Outline.references
      rw [htexts, hget]
      exact Dictionary.eraseDups_map_index _
  · have hnone : t.texts h.storesDependencies .depend = [] := by
      rw [hnot]
      exact t.texts_depend_eq_nil
    constructor
    · have hdepend : d.depend = .ofList (t.texts h.storesDependencies .depend) := hget .depend
      rw [hdepend, hnone]
      rfl
    · unfold Outline.references
      rw [htexts, hnone]
      rfl

end PackageIndex
