import Mathlib.Data.List.Induction
import PackageIndex.Database.Dictionary

/-!
# Growing dictionaries

Inserting texts adds exactly these texts, and what was there before stays in front with its indices.
Texts are numbered in the order in which they come first (`entries_ofList`); a repetition is told by
the size. Looking up an index and looking up a text undo each other.
-/

namespace PackageIndex.Dictionary

variable {d : Dictionary} {s w : String} {ss : List String}

theorem eq_of_entries {d d' : Dictionary} (h : d.entries = d'.entries) : d = d' := by
  cases d
  cases d'
  cases h
  rfl

theorem entries_insert_of_mem (h : s ∈ d.entries) : (d.insert s).entries = d.entries := by
  rw [insert, dif_pos h]

theorem entries_insert_of_notMem (h : s ∉ d.entries) :
    (d.insert s).entries = d.entries ++ [s] := by
  rw [insert, dif_neg h]

theorem mem_insert : w ∈ (d.insert s).entries ↔ w = s ∨ w ∈ d.entries := by
  by_cases h : s ∈ d.entries
  · rw [entries_insert_of_mem h]
    constructor
    · exact .inr
    · rintro (rfl | hw)
      · exact h
      · exact hw
  · rw [entries_insert_of_notMem h, List.mem_append, List.mem_singleton, or_comm]

theorem entries_prefix_insert (d : Dictionary) (s : String) :
    d.entries <+: (d.insert s).entries := by
  by_cases h : s ∈ d.entries
  · exact (entries_insert_of_mem h).symm ▸ List.prefix_rfl
  · rw [entries_insert_of_notMem h]
    exact List.prefix_append _ _

theorem insertAll_cons (d : Dictionary) (s : String) (ss : List String) :
    d.insertAll (s :: ss) = (d.insert s).insertAll ss :=
  rfl

theorem mem_insertAll : w ∈ (d.insertAll ss).entries ↔ w ∈ d.entries ∨ w ∈ ss := by
  induction ss generalizing d with
  | nil => simp [insertAll]
  | cons s ss ih =>
    rw [insertAll_cons, ih, mem_insert, List.mem_cons, or_assoc, or_left_comm]

theorem insertAll_append (d : Dictionary) (ss us : List String) :
    d.insertAll (ss ++ us) = (d.insertAll ss).insertAll us :=
  List.foldl_append

theorem ofList_concat (ss : List String) (s : String) :
    ofList (ss ++ [s]) = (ofList ss).insert s :=
  insertAll_append empty ss [s]

theorem mem_ofList : s ∈ (ofList ss).entries ↔ s ∈ ss := by
  unfold ofList
  rw [mem_insertAll]
  simp [empty]

theorem eraseDups_concat {α : Type} [BEq α] [LawfulBEq α] [DecidableEq α] (as : List α) (a : α) :
    (as ++ [a]).eraseDups = if a ∈ as then as.eraseDups else as.eraseDups ++ [a] := by
  rw [List.eraseDups_append]
  by_cases h : a ∈ as
  · simp [List.removeAll, h]
  · simp [List.removeAll, h, List.eraseDups_cons]

/-- The dictionary of a list has its texts without their later repetitions. -/
theorem entries_ofList (ss : List String) : (ofList ss).entries = ss.eraseDups := by
  induction ss using List.reverseRecOn with
  | nil => rfl
  | append_singleton ss s ih =>
    rw [ofList_concat, eraseDups_concat]
    by_cases h : s ∈ ss
    · rw [if_pos h, entries_insert_of_mem (mem_ofList.2 h), ih]
    · rw [if_neg h, entries_insert_of_notMem fun hmem => h (mem_ofList.1 hmem), ih]

theorem foldl_insertWords (d : Dictionary) (fields : List String) :
    fields.foldl insertWords d = d.insertAll (fields.flatMap Text.words) := by
  induction fields generalizing d with
  | nil => rfl
  | cons f fields ih =>
    rw [List.foldl_cons, ih, List.flatMap_cons, insertAll_append]
    rfl

theorem entries_prefix_insertAll (d : Dictionary) (ss : List String) :
    d.entries <+: (d.insertAll ss).entries := by
  induction ss generalizing d with
  | nil => exact List.prefix_rfl
  | cons s ss ih => exact (entries_prefix_insert d s).trans (ih (d.insert s))

/-- New texts without repetition follow the old ones in their order. -/
theorem entries_insertAll_of_nodup (h : (d.entries ++ ss).Nodup) :
    (d.insertAll ss).entries = d.entries ++ ss := by
  induction ss generalizing d with
  | nil => exact (List.append_nil d.entries).symm
  | cons s ss ih =>
    have hs : s ∉ d.entries := fun hmem =>
      (List.nodup_append.1 h).2.2 s hmem s List.mem_cons_self rfl
    have he := entries_insert_of_notMem hs
    rw [insertAll_cons, ih, he, List.append_assoc, List.singleton_append]
    rw [he, List.append_assoc, List.singleton_append]
    exact h

/-- The texts of a dictionary, in the order of their indices, give the dictionary again. -/
theorem ofList_entries (d : Dictionary) : ofList d.entries = d :=
  eq_of_entries (entries_insertAll_of_nodup d.nodup)

/-- What is added comes in the order of the texts, some of which may be left out. -/
theorem exists_entries_insertAll (d : Dictionary) (ss : List String) :
    ∃ new, new.Sublist ss ∧ (d.insertAll ss).entries = d.entries ++ new := by
  induction ss generalizing d with
  | nil => exact ⟨[], .slnil, (List.append_nil d.entries).symm⟩
  | cons s ss ih =>
    obtain ⟨new, hnew, he⟩ := ih (d.insert s)
    rw [insertAll_cons]
    by_cases hs : s ∈ d.entries
    · rw [entries_insert_of_mem hs] at he
      exact ⟨new, hnew.cons s, he⟩
    · rw [entries_insert_of_notMem hs, List.append_assoc] at he
      exact ⟨s :: new, hnew.cons_cons s, he⟩

/-- A dictionary that has as many entries as there were texts has just these texts. -/
theorem entries_ofList_of_size (h : (ofList ss).size = ss.length) : (ofList ss).entries = ss := by
  obtain ⟨new, hnew, he⟩ := exists_entries_insertAll empty ss
  have hl : (ofList ss).entries = new := he
  rw [size, hl] at h
  rw [hl]
  exact hnew.eq_of_length h

/-- A text has an index iff the text is found under the index. -/
theorem indexOf?_eq_some_iff {i : Nat} : d.indexOf? s = some i ↔ d.get? i = some s := by
  rw [indexOf?, get?, List.idxOf?_eq_some_iff, List.getElem?_eq_some_iff]
  constructor
  · rintro ⟨hlt, he, -⟩
    exact ⟨hlt, he⟩
  · rintro ⟨hlt, he⟩
    refine ⟨hlt, he, fun j hj hs => ?_⟩
    have hji : j = i := (List.getElem_inj d.nodup).1 (hs.trans he.symm)
    omega

/-- A new text gets the next index, and the others keep theirs. -/
theorem indexOf?_insert_of_notMem (h : s ∉ d.entries) (w : String) :
    (d.insert s).indexOf? w = if w = s then some d.size else d.indexOf? w := by
  have hentries := entries_insert_of_notMem h
  by_cases hw : w = s
  · subst hw
    rw [if_pos rfl, indexOf?_eq_some_iff, get?, hentries]
    exact List.getElem?_concat_length
  · rw [if_neg hw]
    ext i
    rw [indexOf?_eq_some_iff, indexOf?_eq_some_iff, get?, get?, hentries, List.getElem?_append]
    by_cases hi : i < d.entries.length
    · rw [if_pos hi]
    · have hlast : [s][i - d.entries.length]? ≠ some w := fun hget =>
        hw (List.mem_singleton.1 (List.mem_of_getElem? hget))
      rw [if_neg hi, List.getElem?_eq_none (Nat.le_of_not_lt hi)]
      exact iff_of_false hlast nofun

end PackageIndex.Dictionary
