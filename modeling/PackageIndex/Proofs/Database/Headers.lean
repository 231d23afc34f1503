import PackageIndex.Proofs.Database.RoundTrip

/-!
# Headers are read back

The written form of a header is read back as the header, whatever follows it, if the header has the
current format; if it has another one, the reader says so before it looks at anything behind the
format version (`header_round_trip`). A dictionary is read as the list of its texts and refused if one
of them is repeated, so in every header that is read, whoever wrote it, indices and texts determine
each other.
-/

namespace PackageIndex

/-- Reading a dictionary is reading the list of its texts, none of which is repeated. -/
theorem Field.run_readDictionary_eq_ok_iff {i i' : Input} {d : Dictionary} :
    readDictionary.run i = .ok (d, i') ↔
      (Decoder.counted readText).run i = .ok (d.entries, i') := by
  rw [readDictionary, ← bind_assoc, ← Decoder.counted]
  constructor
  · intro hr
    obtain ⟨texts, i₁, ht, hr⟩ := Decoder.run_bind_eq_ok hr
    dsimp only at hr
    split at hr
    next hs =>
      cases hr
      rw [ht, Dictionary.entries_ofList_of_size hs]
    next => cases hr
  · intro ht
    rw [Decoder.run_bind_of_ok ht, Dictionary.ofList_entries]
    exact congrFun (if_pos rfl) i'

/-- The five dictionaries, in the order in which they are stored. -/
def Dictionaries.toList (d : Dictionaries) : List Dictionary :=
  [d.eapi, d.license, d.slot, d.iuse, d.depend]

namespace Header

variable {h : Header}

/-! ## Dictionaries -/

/-- Reads the texts of the five dictionaries. -/
def readTexts : Decoder (List (List String)) :=
  Decoder.repeated (Decoder.counted Field.readText) 5

/-- The five dictionaries have the texts that are stored, in their order. -/
theorem run_readTexts_of_readDictionaries {i i' : Input} {d : Dictionaries}
    (hr : readDictionaries.run i = .ok (d, i')) :
    readTexts.run i = .ok (d.toList.map Dictionary.entries, i') := by
  obtain ⟨eapi, i₁, h₁, hr⟩ := Decoder.run_bind_eq_ok hr
  obtain ⟨license, i₂, h₂, hr⟩ := Decoder.run_bind_eq_ok hr
  obtain ⟨slot, i₃, h₃, hr⟩ := Decoder.run_bind_eq_ok hr
  obtain ⟨iuse, i₄, h₄, hr⟩ := Decoder.run_bind_eq_ok hr
  obtain ⟨depend, i₅, h₅, hr⟩ := Decoder.run_bind_eq_ok hr
  cases hr
  rw [Field.run_readDictionary_eq_ok_iff] at h₁ h₂ h₃ h₄ h₅
  have hlast : (Decoder.repeated (Decoder.counted Field.readText) 1).run i₄ =
      .ok ([depend.entries], i') := Decoder.run_repeated_succ h₅ rfl
  have hall := Decoder.run_repeated_succ h₂ (Decoder.run_repeated_succ h₃
    (Decoder.run_repeated_succ h₄ hlast))
  exact Decoder.run_repeated_succ h₁ hall

/-- The dictionaries of a header are read behind its other fields. -/
theorem exists_readDictionaries {name : String} {bytes : List UInt8} {i : Input}
    (hr : (read name).run (.ofBytes bytes) = .ok (h, i)) :
    ∃ i₀ : Input, i₀.IsPlaceIn bytes ∧ readDictionaries.run i₀ = .ok (h.dictionaries, i) := by
  have hn := Number.advances_read
  have hplace := Input.isPlaceIn_ofBytes bytes
  obtain ⟨_, i₁, h₁, hr⟩ := Decoder.run_bind_eq_ok hr
  obtain ⟨version, i₂, h₂, hr⟩ := Decoder.run_bind_eq_ok hr
  obtain ⟨categoryCount, i₃, h₃, hr⟩ := Decoder.run_bind_eq_ok hr
  obtain ⟨packageCount, i₄, h₄, hr⟩ := Decoder.run_bind_eq_ok hr
  obtain ⟨overlayCount, i₅, h₅, hr⟩ := Decoder.run_bind_eq_ok hr
  obtain ⟨overlays, i₆, h₆, hr⟩ := Decoder.run_bind_eq_ok hr
  obtain ⟨options, i₇, h₇, hr⟩ := Decoder.run_bind_eq_ok hr
  obtain ⟨dictionaries, i₈, h₈, hr⟩ := Decoder.run_bind_eq_ok hr
  cases hr
  have hplace := (advances_readMagic name).isPlaceIn h₁ hplace
  have hplace := (advances_readVersion name).isPlaceIn h₂ hplace
  have hplace := hn.isPlaceIn h₅ (hn.isPlaceIn h₄ (hn.isPlaceIn h₃ hplace))
  have hplace := (advances_readOverlay.repeated _).isPlaceIn h₆ hplace
  exact ⟨i₇, hn.isPlaceIn h₇ hplace, h₈⟩

/-! ## Versions -/

/-- The format version is read and compared with the current one. -/
theorem run_readVersion (name : String) (offset : Nat) (version : UInt64) (rest : List UInt8) :
    (readVersion name).run ⟨offset, Number.encode version ++ rest⟩ =
      if version < currentVersion then .error (.obsoleteFormat name version currentVersion)
      else if currentVersion < version then .error (.newerFormat name version currentVersion)
      else .ok (version, ⟨offset + (Number.encode version).length, rest⟩) := by
  rw [readVersion, Decoder.run_bind_of_ok (Number.read_encode_append offset version rest)]
  split
  · rfl
  · split
    · rfl
    · rfl

theorem run_read_encode_append (name : String) (h : Header) (rest : List UInt8) :
    (read name).run (.ofBytes (h.encode ++ rest)) =
      (readFields name).run ⟨magic.length, h.encodeFields ++ rest⟩ := by
  rw [encode_eq, List.append_assoc, read_eq, Input.ofBytes]
  exact Decoder.run_bind_of_ok (run_readMagic name _)

/-- A version that is refused is refused whatever follows it. -/
theorem run_read_of_version {name : String} {e : Error} (rest : List UInt8)
    (he : ∀ rest', (readVersion name).run ⟨magic.length, Number.encode h.version ++ rest'⟩ =
      .error e) :
    (read name).run (.ofBytes (h.encode ++ rest)) = .error e := by
  rw [run_read_encode_append, encodeFields, List.append_assoc]
  exact Decoder.run_bind_of_error (he _)

/-- A header of the current format is read back from its written form, and what follows it is left;
a header of another format is refused, whatever follows it. A header that is read, whoever wrote it,
has dictionaries of the texts that are stored in the bytes, in their order; the index of a text and
the text with an index are inverse to each other. -/
theorem header_round_trip (name : String) (h : Header) (rest : List UInt8) :
    (h.version = currentVersion → h.encode.length < UInt64.size →
      (read name).run (.ofBytes (h.encode ++ rest)) = .ok (h, ⟨h.encode.length, rest⟩)) ∧
    (h.version < currentVersion → (read name).run (.ofBytes (h.encode ++ rest)) =
      .error (.obsoleteFormat name h.version currentVersion)) ∧
    (currentVersion < h.version → (read name).run (.ofBytes (h.encode ++ rest)) =
      .error (.newerFormat name h.version currentVersion)) ∧
    ∀ bytes h' i, (read name).run (.ofBytes bytes) = .ok (h', i) →
      (∃ i₀ : Input, i₀.IsPlaceIn bytes ∧
        readTexts.run i₀ = .ok (h'.dictionaries.toList.map Dictionary.entries, i)) ∧
      ∀ d ∈ h'.dictionaries.toList, ∀ s k, d.indexOf? s = some k ↔ d.get? k = some s := by
  refine ⟨fun hv hl => ?_, fun hv => ?_, fun hv => ?_, fun bytes h' i hr => ⟨?_, ?_⟩⟩
  · have hlt : magic.length + h.encodeFields.length < UInt64.size := by
      rwa [encode_eq, List.length_append] at hl
    rw [run_read_encode_append, (reads_encodeFields hv name _ hlt).whole rest, encode_eq,
      List.length_append]
  · refine run_read_of_version rest fun rest' => ?_
    rw [run_readVersion, if_pos hv]
  · refine run_read_of_version rest fun rest' => ?_
    rw [run_readVersion, if_neg (UInt64.lt_asymm hv), if_pos hv]
  · obtain ⟨i₀, hplace, hd⟩ := exists_readDictionaries hr
    exact ⟨i₀, hplace, run_readTexts_of_readDictionaries hd⟩
  · intro d hd s k
    exact Dictionary.indexOf?_eq_some_iff

/-- Two layers and dictionaries with the empty text, under counts that are written with escape
bytes. -/
def layered (version : UInt64) : Header where
  version
  categoryCount := 0xFF00
  packageCount := 0xFFFFFFFFFFFFFFFF
  storesDependencies := true
  overlays := [⟨"/var/db/repos/gentoo", "gentoo"⟩, ⟨"/srv/über", ""⟩]
  dictionaries :=
    { eapi := .ofList ["8", "7"]
      license := .ofList ["", "GPL-2"]
      slot := .ofList ["0", ""]
      iuse := .ofList ["ssl"]
      depend := .ofList [">=dev-libs/openssl-3", "naïve"] }

theorem header_round_trip_layered :
    (read "index").run (.ofBytes ((layered 39).encode ++ [1, 0xFF])) =
      .ok (layered 39, ⟨(layered 39).encode.length, [1, 0xFF]⟩) ∧
    (read "index").run (.ofBytes ((layered 38).encode ++ [1, 0xFF])) =
      .error (.obsoleteFormat "index" 38 39) ∧
    (read "index").run (.ofBytes ((layered 255).encode ++ [1, 0xFF])) =
      .error (.newerFormat "index" 255 39) ∧
    ∀ d ∈ (layered 39).dictionaries.toList, ∀ s k, d.indexOf? s = some k ↔ d.get? k = some s := by
  have hsize : (layered 39).encode.length < UInt64.size := by decide +kernel
  obtain ⟨hcurrent, -, -, haccepted⟩ := header_round_trip "index" (layered 39) [1, 0xFF]
  obtain ⟨-, hobsolete, -⟩ := header_round_trip "index" (layered 38) [1, 0xFF]
  obtain ⟨-, -, hnewer, -⟩ := header_round_trip "index" (layered 255) [1, 0xFF]
  have hread := hcurrent rfl hsize
  exact ⟨hread, hobsolete (by decide), hnewer (by decide), (haccepted _ _ _ hread).2⟩

end Header

end PackageIndex
