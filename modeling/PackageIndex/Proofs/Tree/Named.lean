import Mathlib.Data.List.Nodup
import PackageIndex.Tree.Named

/-!
# Named things after a change

What an upsert does to a list of named things: it touches the one thing that is found under the
name, or adds one at the end. So names stay distinct, nothing loses its place, and a change after an
upsert of the same name can be made within the upsert.
-/

namespace PackageIndex.Named

variable {α : Type} {nameOf : α → String} {name : String} {new x y : α} {f g : α → α} {xs : List α}

/-! ## What is found under a name -/

theorem nameOf_of_find? (h : find? nameOf name xs = some x) : nameOf x = name := by
  have hx : (nameOf x == name) = true := List.find?_some (p := fun x => nameOf x == name) h
  exact beq_iff_eq.1 hx

/-- What is found under a name, or made for it, has the name. -/
theorem nameOf_find?_getD (hnew : nameOf new = name) (xs : List α) :
    nameOf ((find? nameOf name xs).getD new) = name := by
  cases h : find? nameOf name xs with
  | none => exact hnew
  | some x => exact nameOf_of_find? h

theorem find?_eq_none_iff : find? nameOf name xs = none ↔ name ∉ xs.map nameOf := by
  unfold find?
  simp [List.find?_eq_none]

theorem find?_cons_of_ne (h : nameOf x ≠ name) :
    find? nameOf name (x :: xs) = find? nameOf name xs :=
  List.find?_cons_of_neg (mt beq_iff_eq.1 h)

theorem find?_cons_of_eq (h : nameOf x = name) : find? nameOf name (x :: xs) = some x :=
  List.find?_cons_of_pos (beq_iff_eq.2 h)

/-- Where names are distinct, whatever has a name is found under it. -/
theorem find?_eq_some_iff (hnames : (xs.map nameOf).Nodup) :
    find? nameOf name xs = some x ↔ x ∈ xs ∧ nameOf x = name := by
  constructor
  · intro h
    exact ⟨List.mem_of_find?_eq_some h, nameOf_of_find? h⟩
  · rintro ⟨hx, rfl⟩
    cases h : find? nameOf (nameOf x) xs with
    | none => exact absurd (List.mem_map_of_mem hx) (find?_eq_none_iff.1 h)
    | some y =>
      have hy : nameOf y = nameOf x := nameOf_of_find? h
      rw [List.inj_on_of_nodup_map hnames (List.mem_of_find?_eq_some h) hx hy]

/-! ## What an upsert leaves -/

theorem mem_upsert (h : y ∈ upsert nameOf name new f xs) :
    y ∈ xs ∨ y = f ((find? nameOf name xs).getD new) := by
  induction xs with
  | nil => exact .inr (List.mem_singleton.1 h)
  | cons x xs ih =>
    unfold upsert at h
    split at h
    next hx =>
      rw [find?_cons_of_eq hx]
      rcases List.mem_cons.1 h with rfl | h
      · exact .inr rfl
      · exact .inl (List.mem_cons_of_mem x h)
    next hx =>
      rw [find?_cons_of_ne hx]
      rcases List.mem_cons.1 h with rfl | h
      · exact .inl List.mem_cons_self
      · exact (ih h).imp_left (List.mem_cons_of_mem x)

/-- What holds of all things and of a new one, and is kept by the change, holds after the upsert. -/
theorem forall_upsert {P : α → Prop} (hnew : P new) (hf : ∀ x, P x → P (f x))
    (h : ∀ x ∈ xs, P x) : ∀ y ∈ upsert nameOf name new f xs, P y := by
  intro y hy
  rcases mem_upsert hy with hy | rfl
  · exact h y hy
  · refine hf _ ?_
    cases hfind : find? nameOf name xs with
    | none => exact hnew
    | some x => exact h x (List.mem_of_find?_eq_some hfind)

theorem map_upsert (hf : ∀ x, nameOf x = name → nameOf (f x) = name) (hnew : nameOf new = name)
    (xs : List α) :
    (upsert nameOf name new f xs).map nameOf =
      if name ∈ xs.map nameOf then xs.map nameOf else xs.map nameOf ++ [name] := by
  induction xs with
  | nil => simp [upsert, hf new hnew]
  | cons x xs ih =>
    unfold upsert
    by_cases hx : nameOf x = name
    · simp [hx, hf x hx]
    · rw [if_neg hx, List.map_cons, ih, List.map_cons]
      by_cases hm : name ∈ xs.map nameOf
      · rw [if_pos hm, if_pos (List.mem_cons_of_mem _ hm)]
      · rw [if_neg hm, if_neg (List.not_mem_cons_of_ne_of_not_mem (Ne.symm hx) hm)]
        rfl

theorem nodup_map_upsert (hf : ∀ x, nameOf x = name → nameOf (f x) = name)
    (hnew : nameOf new = name) (h : (xs.map nameOf).Nodup) :
    ((upsert nameOf name new f xs).map nameOf).Nodup := by
  rw [map_upsert hf hnew]
  split
  next => exact h
  next hm => exact List.nodup_append.2 ⟨h, List.nodup_singleton _, by grind⟩

/-- Nothing loses its place. -/
theorem getElem?_upsert {i : Nat} (h : xs[i]? = some x) :
    (upsert nameOf name new f xs)[i]? = some x ∨
      nameOf x = name ∧ (upsert nameOf name new f xs)[i]? = some (f x) := by
  induction xs generalizing i with
  | nil => cases h
  | cons z xs ih =>
    unfold upsert
    split
    next hz =>
      cases i with
      | zero =>
        cases h
        exact .inr ⟨hz, rfl⟩
      | succ i => exact .inl h
    next =>
      cases i with
      | zero => exact .inl h
      | succ i => exact ih h

/-! ## Changes one after the other -/

/-- An upsert asks of its change only what it does to the thing under the name. -/
theorem upsert_congr
    (h : f ((find? nameOf name xs).getD new) = g ((find? nameOf name xs).getD new)) :
    upsert nameOf name new f xs = upsert nameOf name new g xs := by
  induction xs with
  | nil => exact congrArg (fun y => [y]) h
  | cons x xs ih =>
    unfold upsert
    by_cases hx : nameOf x = name
    · rw [find?_cons_of_eq hx] at h
      rw [if_pos hx, if_pos hx]
      exact congrArg (· :: xs) h
    · rw [find?_cons_of_ne hx] at h
      rw [if_neg hx, if_neg hx, ih h]

theorem upsert_upsert (hf : ∀ x, nameOf x = name → nameOf (f x) = name)
    (hnew : nameOf new = name) (xs : List α) :
    upsert nameOf name new g (upsert nameOf name new f xs) =
      upsert nameOf name new (fun x => g (f x)) xs := by
  induction xs with
  | nil => simp [upsert, hf new hnew]
  | cons x xs ih =>
    by_cases hx : nameOf x = name
    · simp [upsert, hx, hf x hx]
    · simp [upsert, hx, ih]

theorem modify_upsert (hf : ∀ x, nameOf x = name → nameOf (f x) = name)
    (hnew : nameOf new = name) (xs : List α) :
    modify nameOf name g (upsert nameOf name new f xs) =
      upsert nameOf name new (fun x => g (f x)) xs := by
  induction xs with
  | nil => simp [upsert, modify, hf new hnew]
  | cons x xs ih =>
    by_cases hx : nameOf x = name
    · simp [upsert, modify, hx, hf x hx]
    · simp [upsert, modify, hx, ih]

/-- What an upsert has added under a name that was missing can be removed again by the name. -/
theorem filter_upsert (hf : ∀ x, nameOf x = name → nameOf (f x) = name) (hnew : nameOf new = name)
    (h : name ∉ xs.map nameOf) :
    (upsert nameOf name new f xs).filter (fun x => nameOf x != name) = xs := by
  induction xs with
  | nil => simp [upsert, hf new hnew]
  | cons x xs ih =>
    obtain ⟨hx, hxs⟩ := not_or.1 (mt List.mem_cons.2 h)
    have hne : (nameOf x != name) = true := bne_iff_ne.2 (Ne.symm hx)
    unfold upsert
    rw [if_neg (Ne.symm hx), List.filter_cons, if_pos hne, ih hxs]

/-- What excludes the thing under a name, before and after the change, does not see the upsert. -/
theorem filter_upsert_of_excluded {P : α → Bool}
    (hxs : ∀ x ∈ xs, nameOf x = name → P x = false ∧ P (f x) = false) (hnew : P (f new) = false) :
    (upsert nameOf name new f xs).filter P = xs.filter P := by
  induction xs with
  | nil =>
    unfold upsert
    rw [List.filter_cons, hnew]
    rfl
  | cons x xs ih =>
    have hrest := ih fun y hy => hxs y (List.mem_cons_of_mem x hy)
    unfold upsert
    by_cases hx : nameOf x = name
    · obtain ⟨hold, hchanged⟩ := hxs x List.mem_cons_self hx
      rw [if_pos hx, List.filter_cons, List.filter_cons, hold, hchanged]
      rfl
    · rw [if_neg hx, List.filter_cons, List.filter_cons, hrest]

/-! ## Things that are new -/

theorem upsert_of_notMem (h : name ∉ xs.map nameOf) :
    upsert nameOf name new f xs = xs ++ [f new] := by
  induction xs with
  | nil => rfl
  | cons x xs ih =>
    obtain ⟨hx, hxs⟩ := not_or.1 (mt List.mem_cons.2 h)
    rw [upsert, if_neg (Ne.symm hx), ih hxs]
    rfl

/-- Steps each of which puts a thing last as long as its name is new put things of distinct names
one behind the other. -/
theorem foldl_eq_append {σ β : Type} {m : List α → σ} {g : β → α} {step : σ → β → σ}
    {bs : List β}
    (hstep : ∀ b ∈ bs, ∀ xs, nameOf (g b) ∉ xs.map nameOf →
      step (m xs) b = m (xs ++ [g b])) :
    ∀ xs, ((xs ++ bs.map g).map nameOf).Nodup →
      bs.foldl step (m xs) = m (xs ++ bs.map g) := by
  induction bs with
  | nil =>
    intro xs _
    rw [List.map_nil, List.append_nil]
    rfl
  | cons b bs ih =>
    intro xs hnames
    have hnew : nameOf (g b) ∉ xs.map nameOf := by
      rw [List.map_append] at hnames
      intro hmem
      exact (List.nodup_append.1 hnames).2.2 _ hmem _ List.mem_cons_self rfl
    have happend : (xs ++ [g b]) ++ bs.map g = xs ++ (b :: bs).map g := by
      rw [List.append_assoc]
      rfl
    rw [List.foldl_cons, hstep b List.mem_cons_self xs hnew,
      ih (fun d hd => hstep d (List.mem_cons_of_mem b hd)) _ (happend ▸ hnames), happend]

/-! ## What the things hold -/

/-- If a change keeps what one thing gives, an upsert of it keeps what all give. -/
theorem flatMap_upsert {β : Type} {g : α → List β} (hnew : g new = []) (xs : List α)
    (h : g (f ((find? nameOf name xs).getD new)) = g ((find? nameOf name xs).getD new)) :
    (upsert nameOf name new f xs).flatMap g = xs.flatMap g := by
  induction xs with
  | nil => simpa [upsert, find?, hnew] using h
  | cons x xs ih =>
    unfold upsert
    by_cases hx : nameOf x = name
    · rw [find?_cons_of_eq hx] at h
      rw [if_pos hx, List.flatMap_cons, List.flatMap_cons]
      exact congrArg (· ++ xs.flatMap g) h
    · rw [find?_cons_of_ne hx] at h
      rw [if_neg hx, List.flatMap_cons, List.flatMap_cons, ih h]

/-- If a change adds to what one thing gives, an upsert of it adds the same to what all give. -/
theorem perm_flatMap_upsert {β : Type} {g : α → List β} {added : List β} (hnew : g new = [])
    (xs : List α)
    (h : (g (f ((find? nameOf name xs).getD new))).Perm
      (added ++ g ((find? nameOf name xs).getD new))) :
    ((upsert nameOf name new f xs).flatMap g).Perm (added ++ xs.flatMap g) := by
  induction xs with
  | nil => simpa [upsert, find?, hnew] using h
  | cons x xs ih =>
    by_cases hx : nameOf x = name
    · rw [find?_cons_of_eq hx] at h
      rw [upsert, if_pos hx, List.flatMap_cons, List.flatMap_cons, ← List.append_assoc]
      exact h.append_right _
    · rw [find?_cons_of_ne hx] at h
      rw [upsert, if_neg hx, List.flatMap_cons, List.flatMap_cons]
      exact ((ih h).append_left (g x)).trans (List.perm_append_comm_assoc _ _ _)

end PackageIndex.Named
