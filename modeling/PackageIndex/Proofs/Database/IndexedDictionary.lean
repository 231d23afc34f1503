import Mathlib.Data.Finset.Card
import PackageIndex.Database.IndexedDictionary
import PackageIndex.Proofs.Database.Dictionary

/-!
# Dictionaries and their index agree

The texts of a dictionary and the index of them are changed separately, and yet they always tell the
same as a dictionary that is searched for its texts (`Represents`). One text keeps this
(`Represents.insert`), and so does all that comes to a dictionary one after the other. So a text has
one index, by the place at which it came first, and keeps it (`indices_by_first_arrival`).
-/

namespace PackageIndex.IndexedDictionary

/-! ## What a dictionary with an index stands for -/

/-- The texts are those of the dictionary, and the index has their places. -/
structure Represents (t : IndexedDictionary) (d : Dictionary) : Prop where
  entries : t.entries = d.entries
  indexOf? : ∀ s, t.indexOf? s = d.indexOf? s

namespace Represents

variable {t : IndexedDictionary} {d : Dictionary}

theorem empty : Represents {} .empty :=
  ⟨rfl, fun _ => rfl⟩

theorem get? (h : t.Represents d) (i : Nat) : t.get? i = d.get? i :=
  congrArg (·[i]?) h.entries

theorem size (h : t.Represents d) : t.size = d.size :=
  congrArg List.length h.entries

/-- A text that comes is found under the index that it is given, whether or not it was there. -/
theorem insert (h : t.Represents d) (s : String) :
    (t.insert s).2.Represents (d.insert s) ∧ (d.insert s).indexOf? s = some (t.insert s).1 := by
  unfold IndexedDictionary.insert
  by_cases hs : s ∈ d.entries
  · have hsame : d.insert s = d := Dictionary.eq_of_entries (Dictionary.entries_insert_of_mem hs)
    obtain ⟨i, hi⟩ : ∃ i, d.indexOf? s = some i :=
      Option.isSome_iff_exists.1 (List.isSome_idxOf?.2 hs)
    rw [h.indexOf? s, hi, hsame]
    exact ⟨h, hi⟩
  · have hnone : d.indexOf? s = none := List.idxOf?_eq_none_iff.2 hs
    have hindex := Dictionary.indexOf?_insert_of_notMem hs
    rw [h.indexOf? s, hnone, h.size]
    refine ⟨⟨?_, fun w => ?_⟩, (hindex s).trans (if_pos rfl)⟩
    · rw [Dictionary.entries_insert_of_notMem hs, h.entries]
    · rw [hindex w, ← h.indexOf? w, IndexedDictionary.indexOf?, IndexedDictionary.indexOf?,
        List.lookup_cons]
      by_cases hw : w = s
      · simp [hw]
      · simp [hw, beq_eq_false_iff_ne.2 hw]

theorem insertAll (h : t.Represents d) (ss : List String) :
    (t.insertAll ss).Represents (d.insertAll ss) := by
  induction ss generalizing t d with
  | nil => exact h
  | cons s ss ih => exact ih (h.insert s).1

theorem ofList (ss : List String) :
    (IndexedDictionary.ofList ss).Represents (Dictionary.ofList ss) :=
  empty.insertAll ss

end Represents

/-! ## What comes to a dictionary -/

/-- What comes to a dictionary: a text as it is, or the words of a text. -/
inductive Arrival where
  | text (s : String)
  | words (s : String)

/-- The texts that come, in order. -/
def Arrival.texts : Arrival → List String
  | text s => [s]
  | words s => Text.words s

/-- The dictionary with what comes. -/
def receive (t : IndexedDictionary) : Arrival → IndexedDictionary
  | .text s => (t.insert s).2
  | .words s => t.insertWords s

/-- The dictionary with all that comes, one after the other. -/
def receiveAll (t : IndexedDictionary) (as : List Arrival) : IndexedDictionary :=
  as.foldl receive t

variable {t : IndexedDictionary} {d : Dictionary}

theorem Represents.receive (h : t.Represents d) (a : Arrival) :
    (t.receive a).Represents (d.insertAll a.texts) := by
  cases a with
  | text s => exact (h.insert s).1
  | words s => exact h.insertAll (Text.words s)

theorem Represents.receiveAll (h : t.Represents d) (as : List Arrival) :
    (t.receiveAll as).Represents (d.insertAll (as.flatMap Arrival.texts)) := by
  induction as generalizing t d with
  | nil => exact h
  | cons a as ih =>
    rw [List.flatMap_cons, Dictionary.insertAll_append]
    exact ih (h.receive a)

/-- What has an index keeps it, whatever comes. -/
theorem Represents.indexOf?_receiveAll (h : t.Represents d) {s : String} {i : Nat}
    (hi : d.indexOf? s = some i) (as : List Arrival) : (t.receiveAll as).indexOf? s = some i := by
  rw [Dictionary.indexOf?_eq_some_iff] at hi
  obtain ⟨hlt, -⟩ := List.getElem?_eq_some_iff.1 hi
  obtain ⟨new, hnew⟩ := Dictionary.entries_prefix_insertAll d (as.flatMap Arrival.texts)
  rw [(h.receiveAll as).indexOf?, Dictionary.indexOf?_eq_some_iff, Dictionary.get?, ← hnew,
    List.getElem?_append_left hlt]
  exact hi

/-- **The index of a text is the place at which it came first.** Whatever list of texts a dictionary
is made of (of none if it is new) and whatever texts and words come to it then, a text has an index
iff it is found under the index. In the order of the indices, the texts are those that came, without
their later repetitions, and their number is that of different texts. A text that is inserted is
found under the index that the insertion gives from then on, and a text that has an index keeps it.
The records of a database refer to the same texts by the same indices. -/
theorem indices_by_first_arrival (ss : List String) (as : List Arrival) :
    let t := (ofList ss).receiveAll as
    let texts := ss ++ as.flatMap Arrival.texts
    (∀ s i, t.indexOf? s = some i ↔ t.get? i = some s) ∧
      t.entries = texts.eraseDups ∧ t.size = texts.toFinset.card ∧
      (∀ s later, ((t.insert s).2.receiveAll later).indexOf? s = some (t.insert s).1) ∧
      (∀ s i, t.indexOf? s = some i → ∀ later, (t.receiveAll later).indexOf? s = some i) ∧
      t.Represents (.ofList texts) := by
  intro t texts
  have ht : t.Represents (.ofList texts) := by
    unfold Dictionary.ofList
    rw [Dictionary.insertAll_append]
    exact (Represents.ofList ss).receiveAll as
  refine ⟨fun s i => ?_, ?_, ?_, fun s later => ?_, fun s i hi later => ?_, ht⟩
  · rw [ht.indexOf?, ht.get?]
    exact Dictionary.indexOf?_eq_some_iff
  · exact ht.entries.trans (Dictionary.entries_ofList texts)
  · have hsame : (Dictionary.ofList texts).entries.toFinset = texts.toFinset := by
      ext s
      rw [List.mem_toFinset, List.mem_toFinset, Dictionary.mem_ofList]
    rw [ht.size, ← hsame, List.toFinset_card_of_nodup (Dictionary.nodup _)]
    rfl
  · obtain ⟨hinsert, hindex⟩ := ht.insert s
    exact hinsert.indexOf?_receiveAll hindex later
  · exact ht.indexOf?_receiveAll (ht.indexOf? s ▸ hi) later

/-- The empty text and a text with a blank have an index of their own, which repetitions keep. -/
theorem indices_by_first_arrival_blanks :
    let t := (ofList ["ssl", ""]).receiveAll [.words " gtk\tssl  X", .text "a b", .text ""]
    t.entries = ["ssl", "", "gtk", "X", "a b"] ∧ t.indexOf? "gtk" = some 2 ∧
      (t.receiveAll [.words "a gtk b", .text "gtk"]).indexOf? "gtk" = some 2 := by
  intro t
  obtain ⟨-, hentries, -, -, hkept, -⟩ := indices_by_first_arrival ["ssl", ""]
    [.words " gtk\tssl  X", .text "a b", .text ""]
  have hindex : t.indexOf? "gtk" = some 2 := by decide +kernel
  exact ⟨hentries.trans (by decide +kernel), hindex, hkept _ _ hindex _⟩

end PackageIndex.IndexedDictionary
