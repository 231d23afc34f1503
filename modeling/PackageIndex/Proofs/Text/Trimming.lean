import Mathlib.Data.List.TakeWhile
import PackageIndex.Text.Blank

/-!
# Cut and trimmed texts

A text is cut at the first separator, which is the one that no other stands before
(`cut_eq_some_iff`). Trimming takes blanks from both ends until neither end is a blank
(`trim_eq_iff`), so it leaves exactly the trimmed texts as they are.
-/

namespace PackageIndex.Text

variable {sep : Char} {cs before rest : List Char} {drop : Char → Bool} {s t : String}

/-! ## Cutting -/

theorem cut_eq_none_iff : cut sep cs = none ↔ sep ∉ cs := by
  induction cs with
  | nil => simp [cut]
  | cons c cs ih =>
    by_cases hc : c = sep
    · simp [cut, hc]
    · simp [cut, hc, ih, Ne.symm hc]

theorem cut_append_cons (h : sep ∉ before) (rest : List Char) :
    cut sep (before ++ sep :: rest) = some (before, rest) := by
  induction before with
  | nil => simp [cut]
  | cons c before ih =>
    obtain ⟨hc, hbefore⟩ := List.ne_and_not_mem_of_not_mem_cons h
    rw [List.cons_append, cut, if_neg (Ne.symm hc), ih hbefore]
    rfl

theorem cut_eq_some_iff :
    cut sep cs = some (before, rest) ↔ cs = before ++ sep :: rest ∧ sep ∉ before := by
  constructor
  · intro h
    have hmem : sep ∈ cs := by
      by_contra hnot
      rw [cut_eq_none_iff.2 hnot] at h
      cases h
    obtain ⟨a, b, rfl, ha⟩ := List.eq_append_cons_of_mem hmem
    rw [cut_append_cons ha, Option.some_inj, Prod.mk.injEq] at h
    obtain ⟨rfl, rfl⟩ := h
    exact ⟨rfl, ha⟩
  · rintro ⟨rfl, h⟩
    exact cut_append_cons h rest

/-! ## Trimming -/

/-- What is dropped are characters of the kind, up to the first that is not. -/
theorem dropWhile_eq_iff : cs.dropWhile drop = rest ↔
    (∃ before, cs = before ++ rest ∧ ∀ c ∈ before, drop c = true) ∧
      ∀ c ∈ rest.head?, drop c = false := by
  constructor
  · rintro rfl
    refine ⟨⟨cs.takeWhile drop, List.takeWhile_append_dropWhile.symm, fun c hc => ?_⟩, ?_⟩
    · exact List.mem_takeWhile_imp hc
    · intro c hc
      have hhead := List.head?_dropWhile_not drop cs
      rw [Option.mem_def.1 hc] at hhead
      simpa using hhead
  · rintro ⟨⟨before, rfl, hbefore⟩, hhead⟩
    rw [List.dropWhile_append_of_pos hbefore]
    cases rest with
    | nil => rfl
    | cons c rest => rw [List.dropWhile_cons_of_neg (by simp [hhead c rfl])]

theorem trimEnd_eq_iff : trimEnd drop cs = rest ↔
    (∃ after, cs = rest ++ after ∧ ∀ c ∈ after, drop c = true) ∧
      ∀ c ∈ rest.getLast?, drop c = false := by
  rw [trimEnd, List.reverse_eq_iff, dropWhile_eq_iff, List.head?_reverse]
  refine and_congr_left fun _ => ?_
  constructor
  · rintro ⟨after, hcs, hafter⟩
    refine ⟨after.reverse, ?_, fun c hc => hafter c (List.mem_reverse.1 hc)⟩
    rw [← List.reverse_reverse cs, hcs, List.reverse_append, List.reverse_reverse]
  · rintro ⟨after, rfl, hafter⟩
    exact ⟨after.reverse, List.reverse_append, fun c hc => hafter c (List.mem_reverse.1 hc)⟩

/-- No blank stands at either end. -/
structure IsTrimmed (cs : List Char) : Prop where
  /-- The first character is no blank. -/
  head : ∀ c ∈ cs.head?, isBlank c = false
  /-- The last character is no blank. -/
  last : ∀ c ∈ cs.getLast?, isBlank c = false

/-- Trimming takes the blanks from both ends, and nothing else. -/
theorem trim_eq_iff : trim s = t ↔
    IsTrimmed t.toList ∧ ∃ before after, s.toList = before ++ t.toList ++ after ∧
      (∀ c ∈ before, isBlank c = true) ∧ ∀ c ∈ after, isBlank c = true := by
  rw [trim, ← String.toList_inj, String.toList_ofList, trimEnd_eq_iff]
  constructor
  · rintro ⟨⟨after, hmiddle, hafter⟩, hlast⟩
    obtain ⟨⟨before, hs, hbefore⟩, hhead⟩ := dropWhile_eq_iff.1 hmiddle
    refine ⟨⟨fun c hc => hhead c ?_, hlast⟩, before, after, ?_, hbefore, hafter⟩
    · rw [List.head?_append, Option.mem_def.1 hc]
      rfl
    · rw [hs, List.append_assoc]
  · rintro ⟨⟨hhead, hlast⟩, before, after, hs, hbefore, hafter⟩
    refine ⟨?_, hlast⟩
    cases ht : t.toList with
    | nil =>
      -- A text of blanks alone is dropped as a whole, so nothing is left for the end.
      refine ⟨[], List.dropWhile_eq_nil_iff.2 fun c hc => ?_, by simp⟩
      rw [hs, ht, List.append_nil] at hc
      exact (List.mem_append.1 hc).elim (hbefore c) (hafter c)
    | cons c cs =>
      refine ⟨after, dropWhile_eq_iff.2 ⟨⟨before, ?_, hbefore⟩, ?_⟩, hafter⟩
      · rw [hs, ht, List.append_assoc]
      · intro d hd
        rw [ht] at hhead
        exact hhead d hd

theorem isTrimmed_trim (s : String) : IsTrimmed (trim s).toList :=
  (trim_eq_iff.1 rfl).1

theorem mem_of_mem_trim {c : Char} (h : c ∈ (trim s).toList) : c ∈ s.toList := by
  obtain ⟨-, before, after, hs, -⟩ := trim_eq_iff.1 (Eq.refl (trim s))
  rw [hs]
  simp [h]

/-- Only from blanks is nothing left. -/
theorem isBlank_of_trim_eq_empty (h : trim s = "") : ∀ c ∈ s.toList, isBlank c = true := by
  obtain ⟨-, before, after, hs, hbefore, hafter⟩ := trim_eq_iff.1 h
  intro c hc
  rw [hs, List.mem_append, List.mem_append] at hc
  rcases hc with (hc | hc) | hc
  · exact hbefore c hc
  · cases hc
  · exact hafter c hc

theorem trim_eq_self_iff : trim s = s ↔ IsTrimmed s.toList := by
  rw [trim_eq_iff, and_iff_left]
  exact ⟨[], [], by simp, by simp, by simp⟩

end PackageIndex.Text
