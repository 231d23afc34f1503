/-!
# Cutting texts into pieces

A text is cut at separators into the pieces between them, and pieces are joined again with a
separator. Both work on lists of characters; everything that splits a text (into words, lines,
path components, `KEY=VALUE` pairs) is a use of these. Main statements: no piece contains a
separator (`not_mem_of_mem_pieces`), and the first piece ends at the first one
(`pieces_append_sep`).
-/

namespace PackageIndex.Text

/-- The pieces of a text between the separators, in order; there is always at least one. -/
def pieces (sep : Char → Bool) : List Char → List (List Char)
  | [] => [[]]
  | c :: cs =>
    if sep c then [] :: pieces sep cs
    else match pieces sep cs with
      | [] => [[c]]
      | p :: ps => (c :: p) :: ps

/-- Pieces put together again, with one separator between neighbours. -/
def join (sep : Char) : List (List Char) → List Char
  | [] => []
  | [p] => p
  | p :: q :: ps => p ++ sep :: join sep (q :: ps)

/-- The text before and after the first character of the given kind, if there is one. -/
def cut (sep : Char) : List Char → Option (List Char × List Char)
  | [] => none
  | c :: cs => if c = sep then some ([], cs) else (cut sep cs).map fun (a, b) => (c :: a, b)

/-- The text before and after the last character of the given kind, if there is one. -/
def cutLast (sep : Char) : List Char → Option (List Char × List Char)
  | [] => none
  | c :: cs =>
    match cutLast sep cs with
    | some (a, b) => some (c :: a, b)
    | none => if c = sep then some ([], cs) else none

/-- The text without the characters of a kind at its end. -/
def trimEnd (drop : Char → Bool) (cs : List Char) : List Char :=
  (cs.reverse.dropWhile drop).reverse

/-! ## Laws -/

theorem pieces_ne_nil (sep : Char → Bool) (cs : List Char) : pieces sep cs ≠ [] := by
  cases cs with
  | nil => simp [pieces]
  | cons c cs =>
    rw [pieces]
    split
    · simp
    · split <;> simp

/-- No piece contains a separator. -/
theorem not_mem_of_mem_pieces {sep : Char → Bool} {cs p : List Char} (h : p ∈ pieces sep cs) :
    ∀ c ∈ p, sep c = false := by
  induction cs generalizing p with
  | nil => simp_all [pieces]
  | cons c cs ih =>
    rw [pieces] at h
    split at h
    · rcases List.mem_cons.1 h with rfl | h
      · simp
      · exact ih h
    · split at h
      next he => exact absurd he (pieces_ne_nil sep cs)
      next q qs he =>
        rcases List.mem_cons.1 h with rfl | h
        · intro d hd
          rcases List.mem_cons.1 hd with rfl | hd
          · simp_all
          · exact ih (he ▸ List.mem_cons_self) d hd
        · exact ih (he ▸ List.mem_cons_of_mem _ h)

/-- A text without separators is one piece. -/
theorem pieces_of_none {sep : Char → Bool} {p : List Char} (h : ∀ c ∈ p, sep c = false) :
    pieces sep p = [p] := by
  induction p with
  | nil => rfl
  | cons c p ih =>
    have hc : sep c = false := h c List.mem_cons_self
    rw [pieces, ih fun d hd => h d (List.mem_cons_of_mem _ hd)]
    simp [hc]

/-- The first piece ends at the first separator. -/
theorem pieces_append_sep {sep : Char → Bool} {p : List Char} (h : ∀ c ∈ p, sep c = false)
    {s : Char} (hs : sep s = true) (rest : List Char) :
    pieces sep (p ++ s :: rest) = p :: pieces sep rest := by
  induction p with
  | nil => simp [pieces, hs]
  | cons c p ih =>
    have hc : sep c = false := h c List.mem_cons_self
    rw [List.cons_append, pieces, ih fun d hd => h d (List.mem_cons_of_mem _ hd)]
    simp [hc]

end PackageIndex.Text
