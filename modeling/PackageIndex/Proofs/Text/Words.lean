import Mathlib.Data.List.Basic
import PackageIndex.Text.Blank

/-!
# Words of texts that are put together

Where a separator stands between two texts, the pieces of the whole are those of the one and then
those of the other. So the words of two texts with a blank between them are the words of both. To
write words with single spaces between them is to intercalate spaces. What is gathered from words
one by one is brought by one of them (`foldl_iff`).
-/

namespace PackageIndex.Text

/-- Between two separators there are the pieces of what is before the first and behind it. -/
theorem pieces_append_cons {sep : Char → Bool} {c : Char} (hc : sep c = true)
    (as bs : List Char) : pieces sep (as ++ c :: bs) = pieces sep as ++ pieces sep bs := by
  induction as with
  | nil =>
    rw [List.nil_append, pieces.eq_2, if_pos hc]
    rfl
  | cons a as ih =>
    rw [List.cons_append, pieces, pieces, ih]
    by_cases ha : sep a = true
    · rw [if_pos ha, if_pos ha]
      rfl
    · rw [if_neg ha, if_neg ha]
      cases hp : pieces sep as with
      | nil => exact absurd hp (pieces_ne_nil sep as)
      | cons p ps => rfl

theorem wordLists_append_cons {c : Char} (hc : isBlank c = true) (as bs : List Char) :
    wordLists (as ++ c :: bs) = wordLists as ++ wordLists bs := by
  unfold wordLists
  rw [pieces_append_cons hc, List.filter_append]

/-- The words of two texts with a space between them. -/
theorem words_append_space (a b : String) : words (a ++ " " ++ b) = words a ++ words b := by
  have hchars : (a ++ " " ++ b).toList = a.toList ++ ' ' :: b.toList := by simp
  have hspace : isBlank ' ' = true := by decide
  unfold words
  rw [hchars, wordLists_append_cons hspace, List.map_append]

instance (w : List Char) : Decidable (IsWord w) :=
  decidable_of_iff (w ≠ [] ∧ w.all (fun c => !isBlank c) = true) (by simp [IsWord])

theorem words_of_isWord {s : String} (h : IsWord s.toList) : words s = [s] := by
  have hempty : s.toList.isEmpty = false := by simpa using h.1
  unfold words wordLists
  rw [pieces_of_none h.2, List.filter_cons, hempty]
  simp

theorem join_eq_intercalate (sep : Char) (ps : List (List Char)) :
    join sep ps = [sep].intercalate ps := by
  induction ps with
  | nil => rfl
  | cons p ps ih =>
    cases ps with
    | nil => simp [join]
    | cons q qs =>
      rw [join, ih, List.intercalate_cons_cons, List.append_assoc, List.singleton_append]

theorem unwords_eq_intercalate (ws : List String) : unwords ws = " ".intercalate ws := by
  apply String.toList_inj.1
  rw [String.toList_intercalate, unwords, String.toList_ofList, join_eq_intercalate]
  rfl

/-- If each step adds what one word brings, then all of them add what some word brings. -/
theorem foldl_iff {σ : Type} {step : σ → String → σ} (has : σ → Prop) {brings : String → Prop}
    (h : ∀ s w, has (step s w) ↔ has s ∨ brings w) (ws : List String) (s : σ) :
    has (ws.foldl step s) ↔ has s ∨ ∃ w ∈ ws, brings w := by
  induction ws generalizing s with
  | nil => simp
  | cons w ws ih => rw [List.foldl_cons, ih, h, or_assoc, List.exists_mem_cons_iff]

end PackageIndex.Text
