import PackageIndex.Database.Field
import PackageIndex.Proofs.Database.Dictionary
import PackageIndex.Proofs.Database.NumberCode

/-!
# Fields are read back

Each kind of field is read back from its written form: texts, references to a dictionary, lists with
their count in front, and dictionaries themselves. References are written only if the dictionary has
the text, and read back only if its indices fit 64 bits; `Kept` states both halves at once, so that
records can be put together from their fields.
-/

namespace PackageIndex

open Decoder (Reads)

variable {α β : Type}

/-! ## Counts -/

namespace Decoder

/-- A decoder that finds nothing on the empty input has taken at least one byte. -/
theorem Reads.length_pos {d : Decoder α} {form : List UInt8} {a : α} {e : Error}
    (h : d.Reads form a) (he : d.run ⟨0, []⟩ = .error e) : 1 ≤ form.length := by
  cases form with
  | nil =>
    have hw := (h 0 (by decide)).whole []
    rw [List.nil_append, he] at hw
    cases hw
  | cons => simp

/-- Items that take at least one byte each are no more than their bytes. -/
theorem Reads.length_le_flatten {item : Decoder α} {forms : List (List UInt8)} {values : List α}
    {e : Error} (h : List.Forall₂ item.Reads forms values) (he : item.run ⟨0, []⟩ = .error e) :
    values.length ≤ forms.flatten.length := by
  induction h with
  | nil => exact Nat.le_refl 0
  | cons hitem _ ih =>
    have := hitem.length_pos he
    rw [List.flatten_cons, List.length_append, List.length_cons]
    omega

/-- Reads a count and then as many items. -/
def counted (item : Decoder α) : Decoder (List α) := do
  let count ← Number.read
  Decoder.repeated item count.toNat

/-- Items that take at least one byte each are read back behind their count. -/
theorem Reads.counted {item : Decoder α} {forms : List (List UInt8)} {values : List α} {e : Error}
    (h : List.Forall₂ item.Reads forms values) (he : item.run ⟨0, []⟩ = .error e) :
    (counted item).Reads (Field.encodeNat values.length ++ forms.flatten) values := by
  have hle := Reads.length_le_flatten h he
  intro offset hlt
  have hn : values.length.toUInt64.toNat = values.length :=
    Number.toNat_toUInt64 (by rw [List.length_append] at hlt; omega)
  have hr : (Decoder.repeated item values.length.toUInt64.toNat).Reads forms.flatten values := by
    rw [hn]
    exact Reads.repeated h
  exact (Number.reads_encode values.length.toUInt64).bind hr offset hlt

end Decoder

/-! ## Texts -/

namespace Field

theorem reads_encodeText (s : String) : readText.Reads (encodeText s) s := by
  intro offset hlt
  have hn : (Utf8.encode s).length.toUInt64.toNat = (Utf8.encode s).length :=
    Number.toNat_toUInt64 (by rw [encodeText, List.length_append] at hlt; omega)
  rw [encodeText, List.length_append] at hlt
  refine Decoder.ReadsAt.bind (Number.reads_encode _ offset (by rw [encodeNat] at hlt; omega)) ?_
  rw [hn]
  constructor
  · intro rest
    refine (Decoder.run_bind_of_ok (Decoder.run_upTo_append _ _ rest)).trans ?_
    rw [if_neg (Nat.lt_irrefl _), Utf8.decode_encode]
    rfl
  · intro part hp hne
    have hpart : part.length < (Utf8.encode s).length :=
      lt_of_le_of_ne hp.length_le fun h => hne (hp.eq_of_length h)
    refine ⟨.text (Utf8.encode s).length part.length,
      (Decoder.run_bind_of_ok (Decoder.run_upTo_of_length_le hpart.le _)).trans ?_⟩
    rw [if_pos hpart]
    rfl

/-! ## References to a dictionary -/

/-- There is a written form; if `P` holds, the decoder reads it back as the value. -/
def Kept (P : Prop) (written : Except Error (List UInt8)) (d : Decoder α) (a : α) : Prop :=
  ∃ form, written = .ok form ∧ (P → d.Reads form a)

/-- If each of the values has a written form, with a relation to it if `P` holds, so have all of
them. -/
theorem exists_mapM {P : Prop} {write : α → Except Error (List UInt8)} {R : List UInt8 → β → Prop}
    {g : α → β} {as : List α} (h : ∀ a ∈ as, ∃ form, write a = .ok form ∧ (P → R form (g a))) :
    ∃ forms, as.mapM write = .ok forms ∧ (P → List.Forall₂ R forms (as.map g)) := by
  induction as with
  | nil => exact ⟨[], rfl, fun _ => .nil⟩
  | cons a as ih =>
    obtain ⟨form, hf, hr⟩ := h a List.mem_cons_self
    obtain ⟨forms, hfs, hrs⟩ := ih fun b hb => h b (List.mem_cons_of_mem a hb)
    refine ⟨form :: forms, ?_, fun hP => .cons (hr hP) (hrs hP)⟩
    rw [List.mapM_cons, hf, hfs]
    rfl

/-- If each of the values is kept, so are all of them. -/
theorem Kept.mapM {P : Prop} {write : α → Except Error (List UInt8)} {item : Decoder β} {g : α → β}
    {as : List α} (h : ∀ a ∈ as, Kept P (write a) item (g a)) :
    ∃ forms, as.mapM write = .ok forms ∧ (P → List.Forall₂ item.Reads forms (as.map g)) :=
  exists_mapM h

variable {d : Dictionary}

theorem kept_entry {s : String} (hs : s ∈ d.entries) :
    Kept (d.size < UInt64.size) (encodeEntry d s) (readEntry d) s := by
  obtain ⟨i, hi⟩ := Option.isSome_iff_exists.1 (List.isSome_idxOf?.2 hs)
  obtain ⟨hlt, hget, -⟩ := List.idxOf?_eq_some_iff.1 hi
  refine ⟨encodeNat i, by rw [encodeEntry, Dictionary.indexOf?, hi], fun hP => ?_⟩
  refine (Number.reads_encode i.toUInt64).andThen (Reads.require ?_)
  rw [Number.toNat_toUInt64 (hlt.trans hP), Dictionary.get?, List.getElem?_eq_getElem hlt, hget]

theorem kept_entries {ss : List String} (hs : ∀ s ∈ ss, s ∈ d.entries) :
    Kept (d.size < UInt64.size) (encodeEntries d ss) (readEntries d) ss := by
  have hk : ∀ s ∈ ss, Kept (d.size < UInt64.size) (encodeEntry d s) (readEntry d) (id s) :=
    fun s h => kept_entry (hs s h)
  obtain ⟨forms, hf, hr⟩ := Kept.mapM hk
  refine ⟨encodeNat ss.length ++ forms.flatten, by rw [encodeEntries, hf]; rfl, fun hP => ?_⟩
  have he : (readEntry d).run ⟨0, []⟩ = .error (.truncated .endOfInput) := rfl
  exact Reads.counted (List.map_id ss ▸ hr hP) he

/-! ## Dictionaries -/

theorem reads_encodeDictionary (d : Dictionary) :
    readDictionary.Reads (encodeDictionary d) d := by
  have he : readText.run ⟨0, []⟩ = .error (.truncated .endOfInput) := rfl
  have ht : List.Forall₂ readText.Reads (d.entries.map encodeText) d.entries := by
    rw [List.forall₂_map_left_iff, List.forall₂_same]
    exact fun s _ => reads_encodeText s
  rw [readDictionary, ← bind_assoc, encodeDictionary, List.flatMap_def]
  refine (Reads.counted ht he).andThen ?_
  simp only [Dictionary.ofList_entries]
  rw [if_pos (show d.size = d.entries.length from rfl)]
  exact Reads.pure d

end Field

end PackageIndex
