import PackageIndex.Database.Record
import PackageIndex.Proofs.Database.Fields

/-!
# Readers move forward

Every reader of a header, field or record that succeeds has moved forward over bytes of its input, so
the offsets of what it read ascend and it stays at places of the bytes that it began with. A package
that is read in full ends where its record says, at an offset of 64 bits, and takes at least one byte;
so there are never more packages than bytes.
-/

namespace PackageIndex

open Decoder (Advances)

/-- The input is what is left of the bytes behind its offset. -/
def Input.IsPlaceIn (i : Input) (bytes : List UInt8) : Prop :=
  ∃ before, before ++ i.bytes = bytes ∧ before.length = i.offset

theorem Input.isPlaceIn_ofBytes (bytes : List UInt8) : (ofBytes bytes).IsPlaceIn bytes :=
  ⟨[], rfl, rfl⟩

theorem Decoder.Advances.isPlaceIn {α : Type} {d : Decoder α} (hd : d.Advances) {i i' : Input}
    {a : α} (h : d.run i = .ok (a, i')) {bytes : List UInt8} (hi : i.IsPlaceIn bytes) :
    i'.IsPlaceIn bytes := by
  obtain ⟨before, hbefore, hlength⟩ := hi
  obtain ⟨taken, htaken, hoffset⟩ := hd i a i' h
  refine ⟨before ++ taken, ?_, ?_⟩
  · rw [List.append_assoc, ← htaken, hbefore]
  · rw [List.length_append, hlength, hoffset]

theorem Number.advances_read : Number.read.Advances := by
  intro i n i' h
  obtain ⟨hb, ho⟩ := Number.read_eq_ok_iff.1 h
  exact ⟨Number.encode n, hb, ho⟩

theorem Number.length_encode_pos (n : UInt64) : 1 ≤ (Number.encode n).length := by
  have he : Number.read.run ⟨0, []⟩ = .error (.truncated .endOfInput) := rfl
  exact (Number.reads_encode n).length_pos he

namespace Field

theorem advances_readText : readText.Advances := by
  refine Number.advances_read.bind fun _ => (Advances.upTo _).bind fun bytes => ?_
  refine Advances.ite (Advances.throw _) ?_
  split
  · exact Advances.pure _
  · exact Advances.throw _

theorem advances_readEntry (d : Dictionary) : (readEntry d).Advances :=
  Number.advances_read.bind fun _ => Advances.require _ _

theorem advances_readEntries (d : Dictionary) : (readEntries d).Advances :=
  Number.advances_read.bind fun _ => (advances_readEntry d).repeated _

theorem advances_readDictionary : readDictionary.Advances :=
  Number.advances_read.bind fun _ => (advances_readText.repeated _).bind fun _ =>
    (Advances.pure _).ite (Advances.throw _)

end Field

namespace Header

theorem advances_readMagic (name : String) : (readMagic name).Advances :=
  (Advances.upTo _).bind fun _ => (Advances.pure _).ite (Advances.throw _)

theorem advances_readVersion (name : String) : (readVersion name).Advances :=
  Number.advances_read.bind fun _ =>
    (Advances.throw _).ite ((Advances.throw _).ite (Advances.pure _))

theorem advances_readOverlay : readOverlay.Advances :=
  Field.advances_readText.bind fun _ => Field.advances_readText.bind fun _ => Advances.pure _

theorem advances_readDictionaries : readDictionaries.Advances := by
  have hd := Field.advances_readDictionary
  exact hd.bind fun _ => hd.bind fun _ => hd.bind fun _ => hd.bind fun _ => hd.bind fun _ =>
    Advances.pure _

theorem advances_read (name : String) : (read name).Advances := by
  have hn := Number.advances_read
  refine (advances_readMagic name).bind fun _ => (advances_readVersion name).bind fun _ => ?_
  refine hn.bind fun _ => hn.bind fun _ => hn.bind fun _ => ?_
  refine (advances_readOverlay.repeated _).bind fun _ => hn.bind fun _ => ?_
  exact advances_readDictionaries.bind fun _ => Advances.pure _

end Header

namespace Record

variable (h : Header)

theorem advances_readDependency : (readDependency h).Advances := by
  rw [readDependency, map_eq_pure_bind]
  exact (Field.advances_readEntries _).bind fun _ => Advances.pure _

theorem advances_readDependencies : (readDependencies h).Advances := by
  have hd := advances_readDependency h
  refine Number.advances_read.bind fun _ => Advances.position.bind fun _ => ?_
  refine hd.bind fun _ => hd.bind fun _ => hd.bind fun _ => hd.bind fun _ => ?_
  exact Advances.position.bind fun _ => (Advances.pure _).ite (Advances.throw _)

theorem advances_readVersion : readVersion.Advances :=
  Field.advances_readText.bind fun _ => Advances.require _ _

theorem advances_readStability : readStability.Advances :=
  Number.advances_read.bind fun _ => Advances.require _ _

theorem advances_readOverlayKey : readOverlayKey.Advances :=
  Number.advances_read.bind fun _ => (Advances.pure _).ite (Advances.throw _)

theorem advances_readEbuild : (readEbuild h).Advances := by
  have hn := Number.advances_read
  have he := Field.advances_readEntry
  refine advances_readVersion.bind fun _ => (he _).bind fun _ => ?_
  refine advances_readStability.bind fun _ => ?_
  refine hn.bind fun _ => hn.bind fun _ => hn.bind fun _ => (he _).bind fun _ => ?_
  refine (he _).bind fun _ => (Field.advances_readEntries _).bind fun _ => ?_
  refine advances_readOverlayKey.bind fun _ => ?_
  refine Advances.ite ?_ ?_
  · exact (advances_readDependencies h).bind fun _ => Advances.pure _
  · exact (Advances.pure _).bind fun _ => Advances.pure _

theorem advances_readMetadata (p : Package) : (readMetadata h p).Advances := by
  have ht := Field.advances_readText
  refine ht.bind fun _ => ht.bind fun _ => (Field.advances_readEntry _).bind fun _ => ?_
  exact ht.bind fun _ => (Field.advances_readEntries _).bind fun _ => Advances.pure _

theorem advances_readReleases (p : Package) : (readReleases h p).Advances :=
  Number.advances_read.bind fun _ =>
    ((advances_readEbuild h).repeated _).bind fun _ => Advances.pure _

theorem advances_readStop : readStop.Advances :=
  Number.advances_read.bind fun _ => Advances.position.bind fun _ =>
    (Advances.pure _).ite (Advances.throw _)

/-- In every detail, a package is read by going on from the length of its record. -/
theorem exists_readPackage_eq (category : String) (detail : Detail) :
    ∃ f : Nat → Decoder Package, readPackage h category detail = readStop >>= f ∧
      ∀ stop, (f stop).Advances := by
  refine ⟨_, rfl, fun stop => Field.advances_readText.bind fun name => ?_⟩
  have hs := Advances.skipTo stop
  cases detail with
  | names => exact hs.bind fun _ => Advances.pure _
  | metadata => exact (advances_readMetadata h _).bind fun _ => hs.bind fun _ => Advances.pure _
  | full =>
    refine (advances_readMetadata h _).bind fun _ => (advances_readReleases h _).bind fun _ => ?_
    exact Advances.position.bind fun _ => (Advances.pure _).ite (Advances.throw _)

theorem advances_readPackage (category : String) (detail : Detail) :
    (readPackage h category detail).Advances := by
  obtain ⟨f, hf, hadvances⟩ := exists_readPackage_eq h category detail
  rw [hf]
  exact advances_readStop.bind hadvances

theorem advances_readCategoryHeader : readCategoryHeader.Advances :=
  Field.advances_readText.bind fun _ => Number.advances_read.bind fun _ => Advances.pure _

variable {h}

/-- The length of a record takes at least one byte, and the record ends behind it at an offset of 64
bits. -/
theorem readStop_eq_ok {i i' : Input} {stop : Nat} (hr : readStop.run i = .ok (stop, i')) :
    i.offset + 1 ≤ i'.offset ∧ i'.offset ≤ stop ∧ stop < UInt64.size := by
  obtain ⟨n, i₁, h₁, hr⟩ := Decoder.run_bind_eq_ok hr
  obtain ⟨start, i₂, h₂, hr⟩ := Decoder.run_bind_eq_ok hr
  obtain ⟨-, ho⟩ := Number.read_eq_ok_iff.1 h₁
  have hpos := Number.length_encode_pos n
  cases h₂
  split at hr
  next hlt =>
    cases hr
    exact ⟨by omega, by omega, hlt⟩
  next => cases hr

/-- What was read of a package that was read in full. -/
theorem readPackage_full_eq_ok {category : String} {i i' : Input} {p : Package}
    (hr : (readPackage h category .full).run i = .ok (p, i')) :
    ∃ stop i₁ name i₂ q i₃, readStop.run i = .ok (stop, i₁) ∧
      Field.readText.run i₁ = .ok (name, i₂) ∧
      (readMetadata h { category, name }).run i₂ = .ok (q, i₃) ∧
      (readReleases h q).run i₃ = .ok (p, i') ∧ i'.offset = stop := by
  obtain ⟨stop, i₁, h₁, hr⟩ := Decoder.run_bind_eq_ok hr
  obtain ⟨name, i₂, h₂, hr⟩ := Decoder.run_bind_eq_ok hr
  obtain ⟨q, i₃, h₃, hr⟩ := Decoder.run_bind_eq_ok hr
  obtain ⟨r, i₄, h₄, hr⟩ := Decoder.run_bind_eq_ok hr
  obtain ⟨position, i₅, h₅, hr⟩ := Decoder.run_bind_eq_ok hr
  cases h₅
  split at hr
  next hs =>
    cases hr
    exact ⟨stop, i₁, name, i₂, q, i₃, h₁, h₂, h₃, h₄, hs⟩
  next => cases hr

theorem offset_lt_of_readPackage_full {category : String} {i i' : Input} {p : Package}
    (hr : (readPackage h category .full).run i = .ok (p, i')) :
    i.offset + 1 ≤ i'.offset ∧ i'.offset < UInt64.size := by
  obtain ⟨stop, i₁, name, i₂, q, i₃, h₁, h₂, h₃, h₄, rfl⟩ := readPackage_full_eq_ok hr
  obtain ⟨hlt, hle, hsize⟩ := readStop_eq_ok h₁
  exact ⟨by omega, hsize⟩

/-- Packages that are read in full are no more than the bytes that they take, and the last of them
ends at an offset of 64 bits. -/
theorem offset_of_repeated_readPackage {category : String} {count : Nat} {i i' : Input}
    {ps : List Package}
    (hr : (Decoder.repeated (readPackage h category .full) count).run i = .ok (ps, i')) :
    ps.length = count ∧ i.offset + count ≤ i'.offset ∧ (count = 0 ∨ i'.offset < UInt64.size) := by
  induction count generalizing i ps with
  | zero =>
    cases hr
    exact ⟨rfl, Nat.le_refl _, .inl rfl⟩
  | succ count ih =>
    obtain ⟨p, i₁, h₁, hr⟩ := Decoder.run_bind_eq_ok hr
    obtain ⟨qs, i₂, h₂, hr⟩ := Decoder.run_bind_eq_ok hr
    cases hr
    obtain ⟨hlt, hsize⟩ := offset_lt_of_readPackage_full h₁
    obtain ⟨hl, hle, hend⟩ := ih h₂
    refine ⟨congrArg Nat.succ hl, by omega, .inr ?_⟩
    rcases hend with rfl | hend
    · cases h₂
      exact hsize
    · exact hend

theorem offset_of_readCategory {i i' : Input} {c : Category}
    (hr : (readCategory h).run i = .ok (c, i')) :
    i.offset + c.packages.length ≤ i'.offset ∧
      (c.packages.length = 0 ∨ i'.offset < UInt64.size) := by
  obtain ⟨⟨name, count⟩, i₁, h₁, hr⟩ := Decoder.run_bind_eq_ok hr
  obtain ⟨ps, i₂, h₂, hr⟩ := Decoder.run_bind_eq_ok hr
  cases hr
  have hle := advances_readCategoryHeader.le h₁
  obtain ⟨hl, hps, hend⟩ := offset_of_repeated_readPackage h₂
  dsimp only
  rw [hl]
  exact ⟨by omega, hend⟩

end Record

end PackageIndex
