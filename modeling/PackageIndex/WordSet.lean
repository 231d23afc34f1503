/-!
# Sorted sets of texts

A finite set of texts, kept as its strictly ascending list. Texts are in the order of their
characters, which is also the order of their UTF-8 bytes.
-/

namespace PackageIndex

/-- A finite set of texts. -/
structure WordSet where
  /-- The members in ascending order. -/
  toList : List String
  /-- The members ascend strictly, so each is listed once. -/
  ascending : toList.Pairwise (· < ·)
  deriving DecidableEq

namespace WordSet

/-- The empty set. -/
def empty : WordSet := ⟨[], .nil⟩

instance : Inhabited WordSet := ⟨empty⟩

/-- Puts a text into its place in an ascending list, unless it is there already. -/
def insertInto (w : String) : List String → List String
  | [] => [w]
  | v :: vs =>
    if w < v then w :: v :: vs
    else if w = v then v :: vs
    else v :: insertInto w vs

theorem mem_insertInto {w u : String} {vs : List String} :
    u ∈ insertInto w vs ↔ u = w ∨ u ∈ vs := by
  induction vs with
  | nil => simp [insertInto]
  | cons v vs ih =>
    rw [insertInto]
    split
    · simp
    · split
      next h => simp [h]
      next => simp only [List.mem_cons, ih]; grind

theorem pairwise_insertInto {w : String} {vs : List String} (h : vs.Pairwise (· < ·)) :
    (insertInto w vs).Pairwise (· < ·) := by
  induction vs with
  | nil => simp [insertInto]
  | cons v vs ih =>
    have ⟨hv, hvs⟩ := List.pairwise_cons.1 h
    rw [insertInto]
    split
    next hlt =>
      refine List.pairwise_cons.2 ⟨fun u hu => ?_, h⟩
      rcases List.mem_cons.1 hu with rfl | hu
      · exact hlt
      · exact String.lt_trans hlt (hv u hu)
    next hge =>
      split
      next => exact h
      next hne =>
        refine List.pairwise_cons.2 ⟨fun u hu => ?_, ih hvs⟩
        rcases mem_insertInto.1 hu with rfl | hu
        · exact String.not_le.1 fun hle => hne (String.le_antisymm hle (String.not_lt.1 hge))
        · exact hv u hu

/-- The set with one more member. -/
def insert (s : WordSet) (w : String) : WordSet :=
  ⟨insertInto w s.toList, pairwise_insertInto s.ascending⟩

/-- The set with all texts of a list as members. -/
def insertAll (s : WordSet) (ws : List String) : WordSet :=
  ws.foldl insert s

/-- The set of the texts of a list. -/
def ofList (ws : List String) : WordSet :=
  empty.insertAll ws

theorem mem_insert {s : WordSet} {w u : String} :
    u ∈ (s.insert w).toList ↔ u = w ∨ u ∈ s.toList :=
  mem_insertInto

theorem mem_insertAll {s : WordSet} {ws : List String} {u : String} :
    u ∈ (s.insertAll ws).toList ↔ u ∈ s.toList ∨ u ∈ ws := by
  induction ws generalizing s with
  | nil => simp [insertAll]
  | cons w ws ih =>
    have := ih (s := s.insert w)
    simp only [insertAll, List.foldl_cons, List.mem_cons] at this ⊢
    rw [this, mem_insert]
    grind

end WordSet

end PackageIndex
