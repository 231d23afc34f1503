import PackageIndex.Proofs.Database.Results
import PackageIndex.Proofs.Database.RoundTrip

/-!
# Reading brings a database into its normal form

A database may be written by anybody: with releases out of order, with unused entries or blanks in
its dictionaries, with unknown options. What is read of it is written in one way, which is read as
the same tree and written in the same way ever after (`decode_normalizes`). The tree comes back
because a read sees to all that the writer relies on; the written form is stable because a header
that is prepared for a tree stays so.
-/

namespace PackageIndex

namespace Header

variable {h : Header} {t : Tree}

theorem prepare_prepare (h : Header) (t : Tree) : (h.prepare t).prepare t = h.prepare t :=
  rfl

theorem toUInt64_of_toNat {n : Nat} {count : UInt64} (h : n = count.toNat) :
    n.toUInt64 = count := by
  rw [h]
  exact UInt64.ofNat_toNat

/-- Preparing the header that was read with a tree changes its dictionaries only. -/
theorem Describes.prepare (hd : h.Describes t) :
    h.prepare t = { h with dictionaries := (h.prepare t).dictionaries } := by
  have hc : t.categories.length.toUInt64 = h.categoryCount := toUInt64_of_toNat hd.categoryCount
  have hp : t.packageCount.toUInt64 = h.packageCount :=
    toUInt64_of_toNat (t.packageCount_eq.trans hd.packageCount)
  rw [Header.prepare, hc, hp]

theorem Describes.named (hd : h.Describes t) :
    ∀ c ∈ t.categories, ∀ p ∈ c.packages, p.category = c.name :=
  fun c hc => (hd.categories c hc).named

theorem Describes.stored (hd : h.Describes t) : t.asStored h.storesDependencies = t :=
  Tree.asStored_eq_self fun c hc => (hd.categories c hc).stored

end Header

namespace Database

/-- What was read can be written, and the written form is read as the same tree under a header that
differs in its dictionaries only. Written again, it is the same byte for byte. -/
theorem decode_normalizes (name : String) (bytes : List UInt8) (h : Header) (t : Tree)
    (hd : decode name bytes = .ok (h, t)) :
    ∃ form, encode h t = .ok form ∧
      (form.length < UInt64.size → ∀ name', ∃ h',
        decode name' form = .ok (h', t) ∧ h' = { h with dictionaries := h'.dictionaries } ∧
          encode h' t = .ok form) := by
  have hdescribes := describes_of_decode hd
  obtain ⟨form, hw, -⟩ := kept_body h hdescribes.version hdescribes.named name
  refine ⟨_, hw, fun hlt name' => ⟨h.prepare t, ?_, hdescribes.prepare, ?_⟩⟩
  · obtain ⟨form', hw', hr⟩ := kept_body h hdescribes.version hdescribes.named name'
    -- The name does not enter into what is written.
    cases hw.symm.trans hw'
    rw [List.length_append] at hlt
    have hread := (hr hlt).whole []
    rw [List.append_nil, ← run_read, hdescribes.stored] at hread
    exact congrArg (Except.map Prod.fst) hread
  · rw [encode, Header.prepare_prepare]
    exact hw

-- Bit 1 of the options is unknown; the dictionaries have unused entries and one with a blank; the
-- USE flags `b` and `a` and the releases `2` and `1` are out of order.
def foreignBytes : List UInt8 :=
  [0x50, 0x49, 0x58, 0x0A, 39, 1, 1, 0, 3,
    2, 1, 0x38, 1, 0x37, 1, 0, 2, 0, 1, 0x30, 2, 1, 0x62, 1, 0x61, 2, 3, 0x78, 0x20, 0x79, 1, 0x7A,
    1, 0x61, 1, 45, 1, 0x62, 0, 0, 0, 0, 2, 0, 1, 2,
    1, 0x32, 1, 1, 0, 0, 0, 1, 0, 1, 0, 0, 6, 2, 0, 1, 0, 0, 0,
    1, 0x31, 1, 1, 0, 0, 0, 1, 0, 0, 0, 4, 0, 0, 0, 0]

/-- These bytes are not what is written for them. -/
theorem decode_normalizes_foreign :
    ∃ h t form h', decode "index" foreignBytes = .ok (h, t) ∧ encode h t = .ok form ∧
      form.length < UInt64.size ∧ form ≠ foreignBytes ∧ decode "index" form = .ok (h', t) ∧
      encode h' t = .ok form := by
  have hform : (decode "index" foreignBytes >>= fun r => encode r.1 r.2).toOption.any
      (fun form => decide (form.length < UInt64.size ∧ form ≠ foreignBytes)) = true := by
    decide +kernel
  cases hd : decode "index" foreignBytes with
  | error e =>
    rw [hd] at hform
    cases hform
  | ok r =>
    obtain ⟨h, t⟩ := r
    obtain ⟨form, hw, hread⟩ := decode_normalizes "index" foreignBytes h t hd
    have hbind : (decode "index" foreignBytes >>= fun r => encode r.1 r.2) = .ok form := by
      rw [hd]
      exact hw
    rw [hbind] at hform
    obtain ⟨hlt, hne⟩ := of_decide_eq_true hform
    obtain ⟨h', hd', -, hw'⟩ := hread hlt "index"
    exact ⟨h, t, form, h', rfl, hw, hlt, hne, hd', hw'⟩

end Database

end PackageIndex
