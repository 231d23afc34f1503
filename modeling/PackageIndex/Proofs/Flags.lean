import Mathlib.Data.Nat.Bitwise
import PackageIndex.Flags
import PackageIndex.Proofs.Text.Words

/-!
# Flags as sets of words

A flag is in the set that a text names iff its word is among the words of the text (`has_ofWords`),
and it is written iff it is in the set (`mem_toWords`). So the order of the words, their repetitions
and the conditions around them do not matter, and what is written and read again is the set without
the flags that have no word (`flags_as_words`).
-/

namespace PackageIndex.FlagSet

/-! ## Flags by their places -/

/-- The flag with a place is in the set. -/
def Has (s : FlagSet) (place : Nat) : Prop :=
  s.bits.toNat.testBit place = true

variable {s t : FlagSet} {place i : Nat}

/-- Sets with the same flags are equal. -/
theorem eq_of_has (h : ∀ i, s.Has i ↔ t.Has i) : s = t := by
  obtain ⟨a⟩ := s
  obtain ⟨b⟩ := t
  have hbits : a.toNat = b.toNat := Nat.eq_of_testBit_eq fun i => Bool.eq_iff_iff.2 (h i)
  rw [UInt64.toNat_inj.1 hbits]

theorem not_has_empty (i : Nat) : ¬ empty.Has i := by
  simp [Has, empty]

theorem has_union : (s.union t).Has i ↔ s.Has i ∨ t.Has i := by
  simp [Has, union]

theorem bits_single (h : place < 64) : (single place).bits.toNat = 2 ^ place := by
  have hplace : place.toUInt64.toNat = place := UInt64.toNat_ofNat_of_lt' (h.trans (by decide))
  have hlt : 2 ^ place < 2 ^ 64 := Nat.pow_lt_pow_right (by decide) h
  rw [single, UInt64.toNat_shiftLeft, hplace, Nat.mod_eq_of_lt h]
  simpa [Nat.shiftLeft_eq] using hlt

theorem has_single (h : place < 64) : (single place).Has i ↔ place = i := by
  rw [Has, bits_single h, Nat.testBit_two_pow, decide_eq_true_iff]

theorem contains_single (h : place < 64) : s.contains (single place) = true ↔ s.Has place := by
  rw [contains, beq_iff_eq, ← UInt64.toNat_inj, UInt64.toNat_and, bits_single h, Nat.and_two_pow,
    Has]
  cases s.bits.toNat.testBit place with
  | true => simp
  | false => simp [(Nat.two_pow_pos place).ne]

/-! ## Vocabularies -/

/-- Each flag has a word of its own and a bit, and no word is taken for a condition or for a
parenthesis. -/
structure IsVocabulary (v : List String) : Prop where
  nodup : v.Nodup
  length_le : v.length ≤ 64
  isWord : ∀ w ∈ v, Text.IsWord w.toList
  plain : ∀ w ∈ v, w.toList.getLast? ≠ some '?' ∧ w ≠ "(" ∧ w ≠ ")"

theorem isVocabulary_restrict : IsVocabulary restrictVocabulary where
  nodup := by decide
  length_le := by decide
  isWord := by decide
  plain := by decide

theorem isVocabulary_properties : IsVocabulary propertiesVocabulary where
  nodup := by decide
  length_le := by decide
  isWord := by decide
  plain := by decide

section

variable {v : List String} {w : String} {text : String}

/-! ## Reading words -/

theorem IsVocabulary.mem_flagWords (hv : IsVocabulary v) (hw : w ∈ v) :
    w ∈ flagWords text ↔ w ∈ Text.words text := by
  obtain ⟨hcondition, hopen, hclose⟩ := hv.plain w hw
  simp [flagWords, hcondition, hopen, hclose]

theorem IsVocabulary.has_ofWord (hv : IsVocabulary v) :
    (ofWord v w).Has i ↔ v[i]? = some w := by
  unfold ofWord
  cases hplace : v.idxOf? w with
  | none =>
    refine iff_of_false (not_has_empty i) fun hi => ?_
    exact List.idxOf?_eq_none_iff.1 hplace (List.mem_of_getElem? hi)
  | some place =>
    obtain ⟨hlt, hword, -⟩ := List.idxOf?_eq_some_iff.1 hplace
    have hget : v[place]? = some w := List.getElem?_eq_some_iff.2 ⟨hlt, hword⟩
    rw [has_single (hlt.trans_le hv.length_le), ← hget]
    exact ⟨fun h => h ▸ rfl, fun h => (List.getElem?_inj hlt hv.nodup).1 h.symm⟩

/-- The flags that a text names are those whose words are among its words. -/
theorem IsVocabulary.has_ofWords (hv : IsVocabulary v) :
    (ofWords v text).Has i ↔ ∃ w, v[i]? = some w ∧ w ∈ Text.words text := by
  have hstep : ∀ (s : FlagSet) (w : String),
      (s.union (ofWord v w)).Has i ↔ s.Has i ∨ (ofWord v w).Has i := fun _ _ => has_union
  have hfold := Text.foldl_iff (fun s => s.Has i) hstep (flagWords text) empty
  rw [ofWords, hfold, or_iff_right (not_has_empty i)]
  constructor
  · rintro ⟨w, hw, hi⟩
    have hplace := hv.has_ofWord.1 hi
    exact ⟨w, hplace, (hv.mem_flagWords (List.mem_of_getElem? hplace)).1 hw⟩
  · rintro ⟨w, hplace, hw⟩
    exact ⟨w, (hv.mem_flagWords (List.mem_of_getElem? hplace)).2 hw, hv.has_ofWord.2 hplace⟩

/-! ## Writing words -/

theorem IsVocabulary.mem_toWords (hv : IsVocabulary v) (hi : v[i]? = some w) :
    w ∈ s.toWords v ↔ s.Has i := by
  obtain ⟨hlt, -⟩ := List.getElem?_eq_some_iff.1 hi
  have hcontains : s.contains (single i) = true ↔ s.Has i :=
    contains_single (hlt.trans_le hv.length_le)
  rw [toWords, List.mem_map]
  constructor
  · rintro ⟨⟨u, j⟩, hmem, rfl⟩
    obtain ⟨hzip, hj⟩ := List.mem_filter.1 hmem
    have hplace : v[j]? = v[i]? := (List.mem_zipIdx_iff_getElem?.1 hzip).trans hi.symm
    obtain rfl : i = j := (List.getElem?_inj hlt hv.nodup).1 hplace.symm
    exact hcontains.1 hj
  · intro hs
    have hzip : (w, i) ∈ v.zipIdx := List.mem_zipIdx_iff_getElem?.2 hi
    exact ⟨(w, i), List.mem_filter.2 ⟨hzip, hcontains.2 hs⟩, rfl⟩

theorem toWords_sublist (v : List String) (s : FlagSet) : (s.toWords v).Sublist v := by
  have h : (s.toWords v).Sublist (v.zipIdx.map Prod.fst) := List.filter_sublist.map Prod.fst
  rwa [List.zipIdx_map_fst] at h

theorem IsVocabulary.words_render (hv : IsVocabulary v) (s : FlagSet) :
    Text.words (s.render v) = s.toWords v :=
  Text.words_unwords fun w hw => hv.isWord w ((toWords_sublist v s).mem hw)

end

/-! ## Conditions -/

/-- The words of a text in a group that a condition opens. -/
def group (condition text : String) : String :=
  condition ++ "?" ++ " " ++ "(" ++ " " ++ text ++ " " ++ ")"

theorem words_group {condition : String} (h : ∀ c ∈ condition.toList, Text.isBlank c = false)
    (text : String) :
    Text.words (group condition text) = [condition ++ "?", "("] ++ Text.words text ++ [")"] := by
  have hcondition : Text.words (condition ++ "?") = [condition ++ "?"] := by
    refine Text.words_of_isWord ⟨by simp, fun c hc => ?_⟩
    rw [String.toList_append, List.mem_append] at hc
    rcases hc with hc | hc
    · exact h c hc
    · obtain rfl := List.mem_singleton.1 hc
      rfl
  have hopen : Text.words "(" = ["("] := by decide +kernel
  have hclose : Text.words ")" = [")"] := by decide +kernel
  rw [group, Text.words_append_space, Text.words_append_space, Text.words_append_space, hcondition,
    hopen, hclose]
  rfl

/-- **Words for flags form a set.** In both vocabularies, a text that is put together names the flags
of its parts. Texts with the same words of the vocabulary name the same flags, in whatever order and
however often they come; nor does it matter which words a condition holds together. A set of flags
is written as the words of its flags, each once, in the order of the vocabulary and with single
spaces between them. Reading what is written gives the flags of the set that have a word, and no
others. -/
theorem flags_as_words (v : List String) (h : v = restrictVocabulary ∨ v = propertiesVocabulary) :
    (∀ a b, ofWords v (a ++ " " ++ b) = (ofWords v a).union (ofWords v b)) ∧
      (∀ a b, (∀ w ∈ v, w ∈ Text.words a ↔ w ∈ Text.words b) → ofWords v a = ofWords v b) ∧
      (∀ before condition text after, (∀ c ∈ condition.toList, Text.isBlank c = false) →
        ofWords v (before ++ " " ++ group condition text ++ " " ++ after) =
          ofWords v (before ++ " " ++ text ++ " " ++ after)) ∧
      (∀ s, render v s = " ".intercalate (s.toWords v) ∧ (s.toWords v).Sublist v ∧ v.Nodup ∧
        ∀ i w, v[i]? = some w → (w ∈ s.toWords v ↔ s.Has i)) ∧
      ∀ s i, (ofWords v (render v s)).Has i ↔ i < v.length ∧ s.Has i := by
  have hv : IsVocabulary v := by
    rcases h with rfl | rfl
    · exact isVocabulary_restrict
    · exact isVocabulary_properties
  have hsame : ∀ a b, (∀ w ∈ v, w ∈ Text.words a ↔ w ∈ Text.words b) →
      ofWords v a = ofWords v b := by
    intro a b hab
    refine eq_of_has fun i => ?_
    rw [hv.has_ofWords, hv.has_ofWords]
    exact exists_congr fun w => and_congr_right fun hi => hab w (List.mem_of_getElem? hi)
  refine ⟨fun a b => ?_, hsame, fun before condition text after hcondition => ?_, fun s => ?_,
    fun s i => ?_⟩
  · refine eq_of_has fun i => ?_
    rw [has_union, hv.has_ofWords, hv.has_ofWords, hv.has_ofWords, Text.words_append_space]
    simp only [List.mem_append, and_or_left, exists_or]
  · refine hsame _ _ fun w hw => ?_
    obtain ⟨hlast, hopen, hclose⟩ := hv.plain w hw
    have hne : w ≠ condition ++ "?" := by
      rintro rfl
      simp at hlast
    simp only [Text.words_append_space, words_group hcondition]
    simp [hne, hopen, hclose]
  · exact ⟨Text.unwords_eq_intercalate _, toWords_sublist v s, hv.nodup,
      fun i w hi => hv.mem_toWords hi⟩
  · rw [hv.has_ofWords, hv.words_render]
    constructor
    · rintro ⟨w, hi, hw⟩
      obtain ⟨hlt, -⟩ := List.getElem?_eq_some_iff.1 hi
      exact ⟨hlt, (hv.mem_toWords hi).1 hw⟩
    · rintro ⟨hlt, hs⟩
      have hi : v[i]? = some v[i] := List.getElem?_eq_getElem hlt
      exact ⟨v[i], hi, (hv.mem_toWords hi).2 hs⟩

/-- The bit behind the last word of the vocabulary has no word. -/
theorem flags_as_words_restrict :
    let v := restrictVocabulary
    (∀ w ∈ v, w ∈ Text.words "strip test" ↔ w ∈ Text.words "test bogus  strip test") ∧
      ofWords v "strip test" = ofWords v "test bogus  strip test" ∧
      ofWords v ("test" ++ " " ++ group "!fetch" "strip" ++ " " ++ "mirror") =
        ofWords v ("test" ++ " " ++ "strip" ++ " " ++ "mirror") ∧
      render v ⟨0x1006⟩ = "strip test" ∧
      ∀ i, (ofWords v (render v ⟨0x1006⟩)).Has i ↔ i < 12 ∧ Has ⟨0x1006⟩ i := by
  intro v
  obtain ⟨-, hsame, hgroup, -, hread⟩ := flags_as_words restrictVocabulary (.inl rfl)
  have hwords : ∀ w ∈ v, w ∈ Text.words "strip test" ↔ w ∈ Text.words "test bogus  strip test" := by
    decide +kernel
  have hcondition : Text.IsWord "!fetch".toList := by decide +kernel
  exact ⟨hwords, hsame _ _ hwords, hgroup "test" "!fetch" "strip" "mirror" hcondition.2,
    by decide +kernel, hread ⟨0x1006⟩⟩

end PackageIndex.FlagSet
