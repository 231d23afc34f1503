import Mathlib.Data.String.Basic
import PackageIndex.Text.Utf8

/-!
# The order of texts

Of two characters the one with the higher code point has the higher byte where their bytes first
differ, and their bytes do differ before those of either end (`encodeChar_append_lt`). So the order of
texts by their characters is that by their bytes (`encode_lt_encode`).
-/

namespace PackageIndex.Utf8

variable {c d : Char} {xs ys : List UInt8}

theorem cons_lt_cons_of_le {m n : Nat} (hm : m < 0x100) (hn : n < 0x100) (hle : m ≤ n)
    (hrest : m = n → xs < ys) : m.toUInt8 :: xs < n.toUInt8 :: ys := by
  rw [List.cons_lt_cons_iff, UInt8.lt_iff_toNat_lt, ← UInt8.toNat_inj, toNat_toUInt8 hm,
    toNat_toUInt8 hn]
  rcases Nat.lt_or_eq_of_le hle with hlt | heq
  · exact .inl hlt
  · exact .inr ⟨heq, hrest heq⟩

/-- The lower of two characters has the lower bytes, whatever follows either. -/
theorem encodeChar_append_lt (h : c.toNat < d.toNat) (xs ys : List UInt8) :
    encodeChar c ++ xs < encodeChar d ++ ys := by
  have hd := toNat_ranges d
  unfold encodeChar
  generalize c.toNat = m at h
  generalize d.toNat = n at h hd
  dsimp only
  -- Where one takes more bytes than the other, the first byte tells them apart.
  by_cases hm1 : m < 0x80
  · rw [if_pos hm1]
    split_ifs
    all_goals exact cons_lt_cons_of_le (by omega) (by omega) (by omega) fun heq => by omega
  · have hn1 : ¬ n < 0x80 := by omega
    rw [if_neg hm1, if_neg hn1]
    by_cases hm2 : m < 0x800
    · rw [if_pos hm2]
      by_cases hn2 : n < 0x800
      · rw [if_pos hn2]
        refine cons_lt_cons_of_le (by omega) (by omega) (by omega) fun heq => ?_
        exact cons_lt_cons_of_le (by omega) (by omega) (by omega) fun heq' => by omega
      · rw [if_neg hn2]
        split_ifs
        all_goals exact cons_lt_cons_of_le (by omega) (by omega) (by omega) fun heq => by omega
    · have hn2 : ¬ n < 0x800 := by omega
      rw [if_neg hm2, if_neg hn2]
      by_cases hm3 : m < 0x10000
      · rw [if_pos hm3]
        split_ifs
        · refine cons_lt_cons_of_le (by omega) (by omega) (by omega) fun heq => ?_
          refine cons_lt_cons_of_le (by omega) (by omega) (by omega) fun heq' => ?_
          exact cons_lt_cons_of_le (by omega) (by omega) (by omega) fun heq'' => by omega
        · exact cons_lt_cons_of_le (by omega) (by omega) (by omega) fun heq => by omega
      · have hn3 : ¬ n < 0x10000 := by omega
        rw [if_neg hm3, if_neg hn3]
        refine cons_lt_cons_of_le (by omega) (by omega) (by omega) fun heq => ?_
        refine cons_lt_cons_of_le (by omega) (by omega) (by omega) fun heq' => ?_
        refine cons_lt_cons_of_le (by omega) (by omega) (by omega) fun heq'' => ?_
        exact cons_lt_cons_of_le (by omega) (by omega) (by omega) fun heq''' => by omega

theorem encodeChar_ne_nil (c : Char) : encodeChar c ≠ [] := by
  unfold encodeChar
  dsimp only
  split_ifs
  all_goals exact List.cons_ne_nil _ _

theorem flatMap_encodeChar_lt {cs ds : List Char} (h : cs < ds) :
    cs.flatMap encodeChar < ds.flatMap encodeChar := by
  induction h with
  | @nil d ds =>
    obtain ⟨b, bs, hb⟩ := List.exists_cons_of_ne_nil (encodeChar_ne_nil d)
    rw [List.flatMap_cons, hb]
    exact List.Lex.nil
  | @rel c cs d ds hlt => exact encodeChar_append_lt hlt _ _
  | @cons c cs ds _ ih =>
    rw [List.flatMap_cons, List.flatMap_cons]
    exact List.append_left_lt ih

/-- The order of texts is that of their bytes. -/
theorem encode_lt_encode {s t : String} : encode s < encode t ↔ s < t := by
  rw [String.lt_iff_toList_lt]
  constructor
  · intro h
    rcases lt_trichotomy s.toList t.toList with hlt | heq | hgt
    · exact hlt
    · unfold encode at h
      rw [heq] at h
      exact absurd h (List.lt_irrefl _)
    · exact absurd (flatMap_encodeChar_lt hgt) (List.lt_asymm h)
  · exact flatMap_encodeChar_lt

end PackageIndex.Utf8
