import PackageIndex.Text.Pieces

/-!
# White space, words and lines

White space is the Unicode property White_Space. Words are the maximal runs of other characters;
lines end at a line feed, and a carriage return before it belongs to the line end. `collapse` writes
the words of a text with single spaces between them, and a second application changes nothing.
-/

namespace PackageIndex.Text

/-- The characters with the Unicode property White_Space. -/
def isBlank (c : Char) : Bool :=
  let n := c.toNat
  (9 ≤ n && n ≤ 13) || n == 0x20 || n == 0x85 || n == 0xA0 || n == 0x1680 ||
    (0x2000 ≤ n && n ≤ 0x200A) || n == 0x2028 || n == 0x2029 || n == 0x202F || n == 0x205F ||
    n == 0x3000

/-- The words of a character list: the nonempty pieces between blanks. -/
def wordLists (cs : List Char) : List (List Char) :=
  (pieces isBlank cs).filter fun p => !p.isEmpty

/-- The words of a text. -/
def words (s : String) : List String :=
  (wordLists s.toList).map String.ofList

/-- Words written with single spaces between them. -/
def unwords (ws : List String) : String :=
  String.ofList (join ' ' (ws.map String.toList))

/-- The words of a text with single spaces between them. -/
def collapse (s : String) : String :=
  unwords (words s)

/-- The text without white space at either end. -/
def trim (s : String) : String :=
  String.ofList (trimEnd isBlank (s.toList.dropWhile isBlank))

/-- A line without the carriage return that belongs to its line end. -/
def dropReturn (line : List Char) : List Char :=
  if line.getLast? = some '\r' then line.dropLast else line

/-- The lines among the pieces between line feeds: the last piece is a line only if it holds
anything, and it keeps a carriage return, since no line feed follows it. -/
def linesOfPieces : List (List Char) → List (List Char)
  | [] => []
  | [last] => if last.isEmpty then [] else [last]
  | p :: q :: ps => dropReturn p :: linesOfPieces (q :: ps)

/-- The lines of a text. -/
def lines (s : String) : List String :=
  (linesOfPieces (pieces (· == '\n') s.toList)).map String.ofList

/-! ## Laws -/

/-- A word of a text: not empty, and without blanks. -/
def IsWord (w : List Char) : Prop :=
  w ≠ [] ∧ ∀ c ∈ w, isBlank c = false

theorem isWord_of_mem_wordLists {cs w : List Char} (h : w ∈ wordLists cs) : IsWord w := by
  have hm := List.mem_filter.1 h
  exact ⟨by simpa using hm.2, not_mem_of_mem_pieces hm.1⟩

/-- Cutting a joined list of words gives the words back. -/
theorem wordLists_join {ws : List (List Char)} (h : ∀ w ∈ ws, IsWord w) :
    wordLists (join ' ' ws) = ws := by
  induction ws with
  | nil => rfl
  | cons w ws ih =>
    have hw := h w List.mem_cons_self
    have ih := ih fun v hv => h v (List.mem_cons_of_mem _ hv)
    have hne : w.isEmpty = false := by simp [hw.1]
    cases ws with
    | nil => simp [wordLists, join, pieces_of_none hw.2, hne]
    | cons v vs =>
      have hb : isBlank ' ' = true := by decide
      rw [join, wordLists, pieces_append_sep hw.2 hb, List.filter_cons]
      simp only [hne, Bool.not_false, ↓reduceIte]
      exact congrArg (w :: ·) ih

theorem words_unwords {ws : List String} (h : ∀ w ∈ ws, IsWord w.toList) :
    words (unwords ws) = ws := by
  have hl : ∀ w ∈ ws.map String.toList, IsWord w := by
    intro w hw
    obtain ⟨s, hs, rfl⟩ := List.mem_map.1 hw
    exact h s hs
  simp [words, unwords, wordLists_join hl, Function.comp_def]

theorem isWord_of_mem_words {s w : String} (h : w ∈ words s) : IsWord w.toList := by
  obtain ⟨cs, hcs, rfl⟩ := List.mem_map.1 h
  simpa using isWord_of_mem_wordLists hcs

/-- Collapsing keeps the words. -/
@[simp] theorem words_collapse (s : String) : words (collapse s) = words s :=
  words_unwords fun _ => isWord_of_mem_words

/-- A collapsed text is in its final form. -/
@[simp] theorem collapse_collapse (s : String) : collapse (collapse s) = collapse s := by
  rw [collapse, words_collapse, collapse]

end PackageIndex.Text
