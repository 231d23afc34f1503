import PackageIndex.Proofs.Database.CompleteRead
import PackageIndex.Proofs.Database.Records

/-!
# Databases are read back

Every tree whose packages carry the name of their category can be written under every header of the
current format, and reading gives the prepared header and the tree (`tree_round_trip`). The one demand
on the sizes is that the database as a whole has less than 2^64 bytes, since lengths, counts and
offsets are numbers of 64 bits.
-/

namespace PackageIndex

open Decoder (ReadsAt Reads)
open PackageIndex.Field (Kept)

/-! ## Headers -/

namespace Header

/-- The written form of what follows the magic bytes of a header. -/
def encodeFields (h : Header) : List UInt8 :=
  Number.encode h.version ++ (Number.encode h.categoryCount ++ (Number.encode h.packageCount ++
    (Field.encodeNat h.overlays.length ++ h.overlays.flatMap encodeOverlay ++
      (Number.encode h.options ++ (Field.encodeDictionary h.dictionaries.eapi ++
        (Field.encodeDictionary h.dictionaries.license ++
          (Field.encodeDictionary h.dictionaries.slot ++
            (Field.encodeDictionary h.dictionaries.iuse ++
              Field.encodeDictionary h.dictionaries.depend))))))))

theorem encode_eq (h : Header) : h.encode = magic ++ h.encodeFields := by
  simp only [encode, encodeFields, List.append_assoc]

/-- Reads what follows the magic bytes of a header. -/
def readFields (name : String) : Decoder Header := do
  let version ← readVersion name
  let categoryCount ← Number.read
  let packageCount ← Number.read
  let overlays ← Decoder.counted readOverlay
  let options ← Number.read
  let dictionaries ← readDictionaries
  return {
    version, categoryCount, packageCount
    storesDependencies := options &&& 1 != 0
    overlays, dictionaries }

theorem read_eq (name : String) : read name = readMagic name >>= fun _ => readFields name := by
  simp only [read, readFields, Decoder.counted, bind_assoc]

theorem run_readMagic (name : String) (rest : List UInt8) :
    (readMagic name).run ⟨0, magic ++ rest⟩ = .ok ((), ⟨magic.length, rest⟩) := by
  refine (Decoder.run_bind_of_ok (Decoder.run_upTo_append 0 magic rest)).trans ?_
  rw [if_pos rfl, Nat.zero_add]
  rfl

theorem reads_version (name : String) :
    (readVersion name).Reads (Number.encode currentVersion) currentVersion := by
  refine (Number.reads_encode _).andThen ?_
  rw [if_neg (by decide), if_neg (by decide)]
  exact Reads.pure _

theorem reads_encodeOverlay (o : Overlay) : readOverlay.Reads (encodeOverlay o) o :=
  (Field.reads_encodeText o.path).bind ((Field.reads_encodeText o.label).andThen (Reads.pure o))

theorem storesDependencies_options (h : Header) :
    (h.options &&& 1 != 0) = h.storesDependencies := by
  unfold options
  cases h.storesDependencies <;> decide

theorem reads_dictionaries (d : Dictionaries) :
    readDictionaries.Reads (Field.encodeDictionary d.eapi ++ (Field.encodeDictionary d.license ++
      (Field.encodeDictionary d.slot ++ (Field.encodeDictionary d.iuse ++
        Field.encodeDictionary d.depend)))) d := by
  have hd := Field.reads_encodeDictionary
  refine (hd d.eapi).bind ((hd d.license).bind ((hd d.slot).bind ((hd d.iuse).bind ?_)))
  exact (hd d.depend).andThen (Reads.pure d)

theorem reads_encodeFields {h : Header} (hv : h.version = currentVersion) (name : String) :
    (readFields name).Reads h.encodeFields h := by
  have ho : List.Forall₂ readOverlay.Reads (h.overlays.map encodeOverlay) h.overlays := by
    rw [List.forall₂_map_left_iff, List.forall₂_same]
    exact fun o _ => reads_encodeOverlay o
  have he : readOverlay.run ⟨0, []⟩ = .error (.truncated .endOfInput) := rfl
  rw [encodeFields, List.flatMap_def, hv]
  refine (reads_version name).bind ((Number.reads_encode _).bind ((Number.reads_encode _).bind ?_))
  refine (Reads.counted ho he).bind ((Number.reads_encode _).bind ?_)
  refine (reads_dictionaries h.dictionaries).andThen ?_
  rw [storesDependencies_options, ← hv]
  exact Reads.pure h

/-- A dictionary has no more texts than its written form has bytes. -/
theorem size_le_length_encodeDictionary (d : Dictionary) :
    d.size ≤ (Field.encodeDictionary d).length := by
  have ht : List.Forall₂ Field.readText.Reads (d.entries.map Field.encodeText) d.entries := by
    rw [List.forall₂_map_left_iff, List.forall₂_same]
    exact fun s _ => Field.reads_encodeText s
  have hle := Reads.length_le_flatten ht (e := .truncated .endOfInput) rfl
  rw [Field.encodeDictionary, List.length_append, List.flatMap_def, Dictionary.size]
  omega

theorem sized_of_length {h : Header} (hl : h.encodeFields.length < UInt64.size) :
    h.dictionaries.Sized := by
  simp only [encodeFields, List.length_append] at hl
  have hs := fun d => size_le_length_encodeDictionary d
  have := hs h.dictionaries.eapi
  have := hs h.dictionaries.license
  have := hs h.dictionaries.slot
  have := hs h.dictionaries.iuse
  have := hs h.dictionaries.depend
  constructor <;> omega

end Header

/-! ## Trees -/

namespace Database

variable {h : Header}

/-- A category has no more packages than its written form has bytes. -/
theorem length_packages_le {form : List UInt8} {c : Category}
    (hr : (Record.readCategory h).Reads form c) (hl : form.length < UInt64.size) :
    c.packages.length ≤ form.length := by
  have hw := (hr 0 (by omega)).whole []
  have hle := (Record.offset_of_readCategory hw).1
  dsimp only at hle
  omega

theorem length_flatMap_packages_le {forms : List (List UInt8)} {cs : List Category}
    (hr : List.Forall₂ (Record.readCategory h).Reads forms cs)
    (hl : forms.flatten.length < UInt64.size) :
    (cs.flatMap Category.packages).length ≤ forms.flatten.length := by
  induction hr with
  | nil => exact Nat.le_refl 0
  | cons hc _ ih =>
    rw [List.flatten_cons, List.length_append] at hl ⊢
    have hle := length_packages_le hc (by omega)
    have hrest := ih (by omega)
    rw [List.flatMap_cons, List.length_append]
    omega

/-- Categories are read one after the other, and their packages are counted. -/
theorem reads_categories {forms : List (List UInt8)} {cs : List Category}
    (hr : List.Forall₂ (Record.readCategory h).Reads forms cs) {found offset : Nat}
    (hf : found ≤ offset) (hlt : offset + forms.flatten.length < UInt64.size) :
    (readCategories h found cs.length).ReadsAt offset forms.flatten
      (cs, found + (cs.flatMap Category.packages).length) := by
  induction hr generalizing found offset with
  | nil => exact ReadsAt.pure _
  | @cons form c forms cs hc _ ih =>
    rw [List.flatten_cons, List.length_append] at hlt
    have hle := length_packages_le hc (by omega)
    refine (hc offset (by omega)).bind ?_
    dsimp only
    rw [if_pos (by omega), List.flatMap_cons, List.length_append, ← Nat.add_assoc]
    exact (ih (by omega) (by omega)).andThen (ReadsAt.pure _)

/-- A tree is written as its prepared header and its categories, each of which can be read to the
detail. -/
theorem kept_layout (h : Header) {t : Tree}
    (hn : ∀ c ∈ t.categories, ∀ p ∈ c.packages, p.category = c.name) (d : Detail) :
    ∃ forms, encode h t = .ok ((h.prepare t).encode ++ forms.flatten) ∧
      ((h.prepare t).dictionaries.Sized → List.Forall₂ (Record.HoldsCategory (h.prepare t) d) forms
        (t.asStored h.storesDependencies).categories) := by
  have hk : ∀ c ∈ t.categories, ∃ form, Record.encodeCategory (h.prepare t) c = .ok form ∧
      ((h.prepare t).dictionaries.Sized →
        Record.HoldsCategory (h.prepare t) d form (c.asStored h.storesDependencies)) :=
    fun c hc => Record.holdsCategory_encode (hn c hc)
      (fun p hp => h.covers_prepare (List.mem_flatMap.2 ⟨c, hc, hp⟩)) d
  obtain ⟨forms, hf, hr⟩ := Field.exists_mapM hk
  refine ⟨forms, ?_, fun hP => ?_⟩
  · rw [encode, encodePrepared, hf]
    rfl
  · rw [Tree.categories_asStored]
    exact hr hP

/-- Under its prepared header, a tree is written and read back. -/
theorem kept_tree (h : Header) {t : Tree}
    (hn : ∀ c ∈ t.categories, ∀ p ∈ c.packages, p.category = c.name) (name : String) :
    ∃ body, encode h t = .ok ((h.prepare t).encode ++ body) ∧
      ((h.prepare t).dictionaries.Sized →
        (readContent name (h.prepare t)).Reads body
          (h.prepare t, t.asStored h.storesDependencies)) := by
  have he : (Record.readCategory (h.prepare t)).run ⟨0, []⟩ = .error (.truncated .endOfInput) :=
    rfl
  obtain ⟨forms, hf, hr⟩ := kept_layout h hn .full
  refine ⟨forms.flatten, hf, fun hP offset hlt => ?_⟩
  have hcategories : List.Forall₂ (Record.readCategory (h.prepare t)).Reads forms
      (t.asStored h.storesDependencies).categories :=
    (hr hP).imp fun _ _ => Record.HoldsCategory.reads
  have hc := Reads.length_le_flatten hcategories he
  have hs := length_flatMap_packages_le hcategories (by omega)
  have hread := reads_categories hcategories (Nat.zero_le offset) hlt
  have hl : ((t.asStored h.storesDependencies).categories.flatMap Category.packages).length =
      t.packageCount := by
    rw [Tree.packageCount_eq]
    exact (congrArg List.length (Tree.packages_asStored _ t)).trans (List.length_map _)
  have hn : (t.asStored h.storesDependencies).categories.length = t.categories.length := by
    rw [Tree.categories_asStored, List.length_map]
  rw [hl] at hs hread
  rw [hn] at hc hread
  have hcount : (h.prepare t).categoryCount.toNat = t.categories.length :=
    Number.toNat_toUInt64 (by omega)
  have hpackages : (h.prepare t).packageCount.toNat = t.packageCount :=
    Number.toNat_toUInt64 (by omega)
  rw [readContent, hcount]
  refine hread.andThen ?_
  dsimp only
  rw [if_pos (by omega)]
  exact ReadsAt.pure _

/-- Reads what follows the magic bytes of a database. -/
def readBody (name : String) : Decoder (Header × Tree) :=
  Header.readFields name >>= readContent name

theorem run_read (name : String) (rest : List UInt8) :
    (read name).run (.ofBytes (Header.magic ++ rest)) =
      (readBody name).run ⟨Header.magic.length, rest⟩ := by
  rw [read_eq, Header.read_eq, bind_assoc, Input.ofBytes]
  exact Decoder.run_bind_of_ok (Header.run_readMagic name rest)

/-- A tree is written behind the magic bytes, and what is there is read back. -/
theorem kept_body (h : Header) {t : Tree} (hv : h.version = Header.currentVersion)
    (hn : ∀ c ∈ t.categories, ∀ p ∈ c.packages, p.category = c.name) (name : String) :
    ∃ form, encode h t = .ok (Header.magic ++ form) ∧
      (Header.magic.length + form.length < UInt64.size →
        (readBody name).ReadsAt Header.magic.length form
          (h.prepare t, t.asStored h.storesDependencies)) := by
  obtain ⟨body, hw, hr⟩ := kept_tree h hn name
  refine ⟨(h.prepare t).encodeFields ++ body, ?_, fun hlt => ?_⟩
  · rw [hw, Header.encode_eq, List.append_assoc]
  · rw [List.length_append] at hlt
    have hfields := Header.reads_encodeFields (h := h.prepare t) hv name
    exact (hfields _ (by omega)).bind (hr (Header.sized_of_length (by omega)) _ (by omega))

/-- Writing succeeds, and reading gives the prepared header and the tree: every category, package
and release in its place with all that it holds, the spelling of its version included, except that
dependencies are dropped if the header does not store them. -/
theorem tree_round_trip (h : Header) (t : Tree) (name : String)
    (hv : h.version = Header.currentVersion)
    (hn : ∀ c ∈ t.categories, ∀ p ∈ c.packages, p.category = c.name) :
    ∃ bytes, encode h t = .ok bytes ∧
      (bytes.length < UInt64.size →
        decode name bytes = .ok (h.prepare t, t.asStored h.storesDependencies)) := by
  obtain ⟨body, hw, hr⟩ := kept_tree h hn name
  refine ⟨_, hw, fun hlt => ?_⟩
  rw [Header.encode_eq, List.append_assoc] at hlt ⊢
  have hl : (Header.magic ++ ((h.prepare t).encodeFields ++ body)).length =
      Header.magic.length + ((h.prepare t).encodeFields.length + body.length) := by
    simp only [List.length_append]
  have hfields := Header.reads_encodeFields (h := h.prepare t) hv name Header.magic.length (by omega)
  have hbody := hr (Header.sized_of_length (by omega))
    (Header.magic.length + (h.prepare t).encodeFields.length) (by omega)
  have hread : (read name).run (.ofBytes (Header.magic ++ ((h.prepare t).encodeFields ++ body))) =
      .ok ((h.prepare t, t.asStored h.storesDependencies),
        ⟨Header.magic.length + (h.prepare t).encodeFields.length + body.length, []⟩) := by
    rw [read_eq, Header.read_eq, bind_assoc, Input.ofBytes]
    rw [Decoder.run_bind_of_ok (Header.run_readMagic name _)]
    rw [Decoder.run_bind_of_ok (hfields.whole body), ← hbody.whole [], List.append_nil]
  exact congrArg (Except.map Prod.fst) hread

-- A header whose counts and dictionaries are those of another tree.
def staleHeader : Header :=
  { Header.new with
    categoryCount := 7
    packageCount := 1
    storesDependencies := true
    overlays := [⟨"/var/db/repos/main", "main"⟩]
    dictionaries := { eapi := .ofList ["5", "8"] } }

-- An empty category, and a package with two releases that are alike but spelled differently.
def hollyTree : Tree :=
  let old : Ebuild := { version := ⟨⟨1, []⟩, [⟨0, []⟩], none, [], []⟩, eapi := "8", overlay := 1 }
  let new : Ebuild :=
    { version := ⟨⟨1, []⟩, [⟨0, [0]⟩], none, [], []⟩
      iuse := ["ssl", "gtk", "ssl"]
      depend := some ⟨"dev-libs/ivy  x11-libs/gtk", "", "", ""⟩ }
  { categories := [
      { name := "app-misc" },
      { name := "dev-libs"
        packages := [
          { category := "dev-libs", name := "holly", license := "MIT"
            releases := .ofList [old, new] }] }] }

theorem tree_round_trip_holly :
    ∃ bytes, encode staleHeader hollyTree = .ok bytes ∧ bytes.length < UInt64.size ∧
      decode "index" bytes = .ok (staleHeader.prepare hollyTree, hollyTree) := by
  have hn : ∀ c ∈ hollyTree.categories, ∀ p ∈ c.packages, p.category = c.name := by decide
  have hl : (encode staleHeader hollyTree).toOption.all (fun b => b.length < UInt64.size) = true := by
    decide +kernel
  obtain ⟨bytes, hw, hr⟩ := tree_round_trip staleHeader hollyTree "index" rfl hn
  rw [hw] at hl
  have hlt : bytes.length < UInt64.size := of_decide_eq_true hl
  exact ⟨bytes, hw, hlt, hr hlt⟩

end Database

end PackageIndex
