import PackageIndex.Database.Basic
import PackageIndex.Proofs.Database.Progress

/-!
# Complete reads

A complete read is the header, the categories one after the other, and the comparison of the counts.
Categories are taken apart into their names, counts and packages, once for a read that succeeds and
once for one that fails.
-/

namespace PackageIndex.Database

open Record

/-- Reads the categories behind a header. -/
def readContent (name : String) (h : Header) : Decoder (Header × Tree) := do
  let (categories, found) ← readCategories h 0 h.categoryCount.toNat
  if found = h.packageCount.toNat then return (h, { categories })
  else throw (.corrupt (.packageCount name h.packageCount found))

theorem read_eq (name : String) : read name = Header.read name >>= readContent name :=
  rfl

variable {h : Header} {found n : Nat} {i i' : Input}

theorem readCategories_eq_ok {cs : List Category} {total : Nat}
    (hr : (readCategories h found (n + 1)).run i = .ok ((cs, total), i')) :
    ∃ name count i₁ ps i₂ ks, readCategoryHeader.run i = .ok ((name, count), i₁) ∧
      (Decoder.repeated (readPackage h name .full) count.toNat).run i₁ = .ok (ps, i₂) ∧
      (readCategories h (found + ps.length) n).run i₂ = .ok ((ks, total), i') ∧
      cs = ⟨name, ps⟩ :: ks := by
  obtain ⟨c, i₂, hc, hr⟩ := Decoder.run_bind_eq_ok hr
  obtain ⟨⟨name, count⟩, i₁, h₁, hc⟩ := Decoder.run_bind_eq_ok hc
  obtain ⟨ps, i₃, h₂, hc⟩ := Decoder.run_bind_eq_ok hc
  cases hc
  dsimp only at hr
  split at hr
  next =>
    obtain ⟨⟨ks, total'⟩, i₄, h₃, hr⟩ := Decoder.run_bind_eq_ok hr
    cases hr
    exact ⟨name, count, i₁, ps, i₂, ks, h₁, h₂, h₃, rfl⟩
  next => cases hr

/-- The count of packages cannot run over: they are no more than the bytes passed, and the last of
them ends at an offset of 64 bits. -/
theorem readCategories_eq_error {e : Error} (hf : found ≤ i.offset) (hlt : found < UInt64.size)
    (hr : (readCategories h found (n + 1)).run i = .error e) :
    readCategoryHeader.run i = .error e ∨
      ∃ name count i₁, readCategoryHeader.run i = .ok ((name, count), i₁) ∧
        ((Decoder.repeated (readPackage h name .full) count.toNat).run i₁ = .error e ∨
          ∃ ps i₂,
            (Decoder.repeated (readPackage h name .full) count.toNat).run i₁ = .ok (ps, i₂) ∧
            found + ps.length ≤ i₂.offset ∧ found + ps.length < UInt64.size ∧
            (readCategories h (found + ps.length) n).run i₂ = .error e) := by
  rcases Decoder.run_bind_eq_error hr with hc | ⟨c, i₂, hc, hr⟩
  · rcases Decoder.run_bind_eq_error hc with h₁ | ⟨⟨name, count⟩, i₁, h₁, hc⟩
    · exact .inl h₁
    · rcases Decoder.run_bind_eq_error hc with h₂ | ⟨ps, i₂, -, hc⟩
      · exact .inr ⟨name, count, i₁, h₁, .inl h₂⟩
      · cases hc
  · obtain ⟨hle, hend⟩ := offset_of_readCategory hc
    have hfound : found + c.packages.length < UInt64.size := by
      rcases hend with hzero | hend <;> omega
    obtain ⟨⟨name, count⟩, i₁, h₁, hc⟩ := Decoder.run_bind_eq_ok hc
    obtain ⟨ps, i₃, h₂, hc⟩ := Decoder.run_bind_eq_ok hc
    cases hc
    dsimp only at hr hle hfound
    rw [if_pos hfound] at hr
    rcases Decoder.run_bind_eq_error hr with h₃ | ⟨ks, i₄, -, hr⟩
    · exact .inr ⟨name, count, i₁, h₁, .inr ⟨ps, i₂, h₂, by omega, hfound, h₃⟩⟩
    · cases hr

variable {name : String} {bytes : List UInt8} {e : Error}

theorem run_of_decode {t : Tree} (hd : decode name bytes = .ok (h, t)) :
    ∃ rest, (read name).run (.ofBytes bytes) = .ok ((h, t), rest) := by
  have hmap : ((read name).run (.ofBytes bytes)).map Prod.fst = .ok (h, t) := hd
  cases hr : (read name).run (.ofBytes bytes) with
  | error e =>
    rw [hr] at hmap
    cases hmap
  | ok r =>
    obtain ⟨r, rest⟩ := r
    rw [hr] at hmap
    cases hmap
    exact ⟨rest, rfl⟩

theorem decode_of_header_error (hh : (Header.read name).run (.ofBytes bytes) = .error e) :
    decode name bytes = .error e := by
  have hr : (read name).run (.ofBytes bytes) = .error e := Decoder.run_bind_of_error hh
  exact congrArg (Except.map Prod.fst) hr

theorem decode_of_categories_error
    (hh : (Header.read name).run (.ofBytes bytes) = .ok (h, i))
    (hc : (readCategories h 0 h.categoryCount.toNat).run i = .error e) :
    decode name bytes = .error e := by
  have hr : (readContent name h).run i = .error e := Decoder.run_bind_of_error hc
  exact congrArg (Except.map Prod.fst) ((Decoder.run_bind_of_ok hh).trans hr)

theorem decode_of_categories {cs : List Category} {total : Nat}
    (hh : (Header.read name).run (.ofBytes bytes) = .ok (h, i))
    (hc : (readCategories h 0 h.categoryCount.toNat).run i = .ok ((cs, total), i')) :
    decode name bytes =
      if total = h.packageCount.toNat then .ok (h, ⟨cs⟩)
      else .error (.corrupt (.packageCount name h.packageCount total)) := by
  have hr := (Decoder.run_bind_of_ok (f := readContent name) hh).trans (Decoder.run_bind_of_ok hc)
  refine (congrArg (Except.map Prod.fst) hr).trans ?_
  dsimp only
  split
  · rfl
  · rfl

end PackageIndex.Database
