import PackageIndex.Database.File
import PackageIndex.Proofs.Database.Results

/-!
# Files that hold a database

A file holds a database if its header and all its categories are read without an error. Whether the
header counts the packages right is not asked, and a cursor does not ask either: it comes to its end
on exactly these files (`exists_holds_iff`), and in every detail it yields the packages of the
categories (`Holds.openCursor`).
-/

namespace PackageIndex

theorem Cursor.packages_of_items {c : Cursor} {ps : List Package} (hi : c.items = ps.map .ok) :
    c.packages = .ok ps := by
  unfold packages
  rw [hi]
  clear hi
  induction ps with
  | nil => rfl
  | cons p ps ih =>
    rw [List.map_cons, List.mapM_cons, ih]
    rfl

namespace Database

variable {fs : FileSystem} {path : String} {h : Header} {cs : List Category}

/-- The header and the categories of the file are read without an error. -/
def Holds (fs : FileSystem) (path : String) (h : Header) (cs : List Category) : Prop :=
  ∃ bytes i total rest, fileContent fs path = .ok bytes ∧
    (Header.read path).run (.ofBytes bytes) = .ok (h, i) ∧
    (readCategories h 0 h.categoryCount.toNat).run i = .ok ((cs, total), rest)

theorem holds_of_load {t : Tree} (hl : load fs path = .ok (h, t)) :
    Holds fs path h t.categories := by
  obtain ⟨bytes, hb, hd⟩ := Decoder.bind_eq_ok hl
  cases hh : (Header.read path).run (.ofBytes bytes) with
  | error e =>
    rw [decode_of_header_error hh] at hd
    cases hd
  | ok r =>
    obtain ⟨k, i⟩ := r
    cases hc : (readCategories k 0 k.categoryCount.toNat).run i with
    | error e =>
      rw [decode_of_categories_error hh hc] at hd
      cases hd
    | ok r =>
      obtain ⟨⟨cs, total⟩, rest⟩ := r
      rw [decode_of_categories hh hc] at hd
      split at hd
      next =>
        cases hd
        exact ⟨bytes, i, total, rest, hb, hh, hc⟩
      next => cases hd

theorem Holds.category_eq (hr : Holds fs path h cs) :
    ∀ c ∈ cs, ∀ p ∈ c.packages, p.category = c.name := by
  obtain ⟨bytes, i, total, rest, -, -, hc⟩ := hr
  obtain ⟨-, -, hcs⟩ := ensures_readCategories h 0 _ _ _ _ hc
  exact fun c hmem => (hcs c hmem).named

theorem Holds.openCursor (hr : Holds fs path h cs) (d : Detail) :
    ∃ c, openCursor fs path d = .ok c ∧ c.header = h ∧
      c.items = (cs.flatMap Category.packages).map fun p => .ok (d.reduce p) := by
  obtain ⟨bytes, i, total, rest, hb, hh, hc⟩ := hr
  refine ⟨.start h i d, ?_, rfl, ?_⟩
  · unfold Database.openCursor
    rw [hb]
    exact Cursor.ofBytes_of_header hh d
  · obtain ⟨hi, -⟩ := Cursor.items_categories (c := .start h i .full) rfl rfl rfl hc
    exact (Cursor.items_withDetail (c := .start h i .full) rfl d _ ⟨[], by simp [hi]⟩).2 hi

/-- A cursor in full detail comes to its end without an error on the files that hold a database. -/
theorem exists_holds_iff : (∃ h cs, Holds fs path h cs) ↔
    ∃ (c : Cursor) (ps : List Package), Database.openCursor fs path .full = .ok c ∧
      c.items = ps.map .ok := by
  constructor
  · rintro ⟨h, cs, hr⟩
    obtain ⟨c, hc, -, hi⟩ := hr.openCursor .full
    exact ⟨c, _, hc, hi⟩
  · rintro ⟨c, ps, ho, hi⟩
    obtain ⟨bytes, hb, ho⟩ := Decoder.bind_eq_ok ho
    obtain ⟨i, hh, hstart⟩ := Cursor.ofBytes_eq_ok ho
    generalize c.header = h at hh hstart
    subst hstart
    cases hc : (readCategories h 0 h.categoryCount.toNat).run i with
    | ok r => exact ⟨h, r.1.1, bytes, i, r.1.2, r.2, hb, hh, hc⟩
    | error e =>
      obtain ⟨qs, hq⟩ := Cursor.items_categories_error (c := .start h i .full) rfl rfl rfl
        (Nat.zero_le _) (by decide) hc
      have hmem : .error e ∈ ps.map (Except.ok (ε := Error)) := by
        rw [← hi, hq]
        exact List.mem_append_right _ List.mem_cons_self
      exact absurd hmem (Cursor.error_not_mem_map_ok ps)

end Database

end PackageIndex
