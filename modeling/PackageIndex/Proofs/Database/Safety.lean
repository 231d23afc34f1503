import PackageIndex.Proofs.Database.Consumption
import PackageIndex.Proofs.Database.Words

/-!
# Reading is safe on all bytes

Whatever counts and lengths a file declares, its bytes bound what is read: the counters of the reader
stay words, a cursor yields no more packages than there are bytes, then at most one error and then
nothing more, and a complete read has no more items than there are bytes (`reading_safe`).
-/

namespace PackageIndex

namespace Cursor

variable {c c' : Cursor} {p : Package}

/-- A step that yields a package takes at least one byte, over however many empty categories it
goes. -/
theorem length_lt_of_step (h : c.step = .ok (some (p, c'))) :
    c'.input.bytes.length < c.input.bytes.length := by
  fun_induction step c with
  | case1 c n hn =>
    obtain ⟨⟨q, i⟩, hr, h⟩ := Decoder.bind_eq_ok h
    cases h
    have hpaid := Record.pays_readPackage_one c.header c.category c.detail _ _ _ hr
    have hlength := (Record.advances_readPackage c.header c.category c.detail).offset_add_length hr
    dsimp only at hpaid ⊢
    omega
  | case2 => cases h
  | case3 => cases h
  | case4 c h0 k hk category count i hr ih =>
    have hpaid := Record.pays_readCategoryHeader _ _ _ hr
    have hlength := Record.advances_readCategoryHeader.offset_add_length hr
    have hlt := ih h
    dsimp only at hpaid hlt
    omega

/-- A cursor yields no more packages than there are bytes, and at most one error behind them. -/
theorem exists_items (c : Cursor) : ∃ (ps : List Package) (tail : List (Except Error Package)),
    c.items = ps.map .ok ++ tail ∧ (tail = [] ∨ ∃ e, tail = [.error e]) ∧
      ps.length ≤ c.input.bytes.length := by
  fun_induction items c with
  | case1 c p c' hs _ ih =>
    obtain ⟨ps, tail, hi, htail, hle⟩ := ih
    refine ⟨p :: ps, tail, by rw [hi]; rfl, htail, ?_⟩
    have hlt := length_lt_of_step hs
    rw [List.length_cons]
    omega
  | case2 c hs => exact ⟨[], [], rfl, .inl rfl, Nat.zero_le _⟩
  | case3 c e hs => exact ⟨[], [.error e], rfl, .inr ⟨e, rfl⟩, Nat.zero_le _⟩

end Cursor

theorem WordCursor.bounds_of_ofBytes {bytes : List UInt8} {name : String} {detail : Detail}
    {c : WordCursor} (h : ofBytes bytes name detail = .ok c) :
    c.input.bytes.length ≤ bytes.length ∧ c.failed = false := by
  obtain ⟨⟨header, i⟩, hh, h⟩ := Decoder.bind_eq_ok h
  cases h
  have hlength := (Header.advances_read name).offset_add_length hh
  dsimp only [Input.ofBytes] at hlength ⊢
  exact ⟨by omega, rfl⟩

/-- What a database declares never makes a counter of its reader run over or under, and never makes
it give more than there are bytes. At every place of a database whose offsets are words, the escape
bytes of a number and the end of a record are counted with words like without bounds; so are the
packages of all categories, and what a cursor has left at every call. A cursor yields at most as many
packages as there are bytes, then at most one error, and then nothing more; a complete read has at
most as many layers, dictionary entries, categories, packages, ebuilds and USE flags together. -/
theorem Database.reading_safe (name : String) (bytes : List UInt8) :
    (bytes.length < UInt64.size → ∀ i : Input, i.IsPlaceIn bytes →
      Number.readWords i = some (Number.read.run i) ∧
      (∃ r, Record.readStopWords i = some r ∧
        r.map (Prod.map UInt64.toNat id) = Record.readStop.run i) ∧
      ∀ length, (Word.addSaturating i.offset.toUInt64 length).toNat =
        min (i.offset + length.toNat) (UInt64.size - 1)) ∧
    decodeWords name bytes = some (decode name bytes) ∧
    (∀ detail, (WordCursor.ofBytes bytes name detail).map WordCursor.toCursor =
      Cursor.ofBytes bytes name detail) ∧
    (∀ detail c, WordCursor.ofBytes bytes name detail = .ok c →
      (∀ n, c.call n = some (c.toCursor.after n).next.1) ∧
      ∃ (ps : List Package) (tail : List (Except Error Package)), ps.length ≤ bytes.length ∧
        (tail = [] ∨ ∃ e, tail = [.error e]) ∧ ∀ n, c.call n = some (ps.map .ok ++ tail)[n]?) ∧
    (∀ h t, decode name bytes = .ok (h, t) →
      h.overlays.length + (h.dictionaries.toList.map Dictionary.size).sum +
        t.categories.length + t.packages.length +
        (t.packages.flatMap fun p => p.useFlags.toList).length +
        (t.packages.flatMap Package.ebuilds).length +
        ((t.packages.flatMap Package.ebuilds).flatMap Ebuild.iuse).length ≤ bytes.length) := by
  refine ⟨fun hsize i hi => ?_, decodeWords_eq name bytes,
    WordCursor.ofBytes_eq bytes name, fun detail c hc => ⟨c.call_eq, ?_⟩, fun h t hd => ?_⟩
  · obtain ⟨before, hbytes, hoffset⟩ := hi
    rw [← hbytes, List.length_append, hoffset] at hsize
    refine ⟨Number.readWords_eq (by omega), Record.readStopWords_eq hsize, fun length => ?_⟩
    rw [Word.toNat_addSaturating, Number.toNat_toUInt64 (by omega)]
  · obtain ⟨hlength, hfailed⟩ := WordCursor.bounds_of_ofBytes hc
    obtain ⟨ps, tail, hi, htail, hle⟩ := c.toCursor.exists_items
    refine ⟨ps, tail, hle.trans hlength, htail, fun n => ?_⟩
    rw [c.call_eq, Cursor.next_after (c := c.toCursor) hfailed, hi]
  · have hle := itemCount_le_of_decode hd
    rw [Header.itemCount, Dictionaries.entryCount, Tree.itemCount_eq] at hle
    omega

/-- A package `a/b` in a category that announces as many packages as a word can count, in a database
that announces as many categories; the next package has a record of as many bytes. -/
def boundlessBytes : List UInt8 :=
  let most : List UInt8 := List.replicate 8 0xFF ++ 0 :: List.replicate 7 0xFF
  [0x50, 0x49, 0x58, 0x0A, 39] ++ most ++ most ++ [0, 0, 0, 0, 0, 0, 0, 1, 0x61] ++ most ++
    [2, 1, 0x62] ++ most

theorem Database.reading_safe_boundless :
    boundlessBytes.length < UInt64.size ∧
    Number.readWords ⟨5, boundlessBytes.drop 5⟩ =
      some (.ok (0xFFFFFFFFFFFFFFFF, ⟨21, boundlessBytes.drop 21⟩)) ∧
    (∃ c, WordCursor.ofBytes boundlessBytes "index" .names = .ok c ∧
      c.call 0 = some (some (.ok { category := "a", name := "b" })) ∧
      c.call 1 = some (some (.error (.corrupt (.recordTooLong 0xFFFFFFFFFFFFFFFF)))) ∧
      ∀ n, c.call (n + 2) = some none) ∧
    ∃ h t, decode "index" Cursor.singleBytes = .ok (h, t) ∧
      (h.dictionaries.toList.map Dictionary.size).sum + t.categories.length + t.packages.length ≤
        Cursor.singleBytes.length := by
  obtain ⟨hplaces, -, -, hcursor, -⟩ := reading_safe "index" boundlessBytes
  obtain ⟨-, -, -, -, hitems⟩ := reading_safe "index" Cursor.singleBytes
  let header : Header :=
    { Header.new with categoryCount := 0xFFFFFFFFFFFFFFFF, packageCount := 0xFFFFFFFFFFFFFFFF }
  have hsize : boundlessBytes.length < UInt64.size := by decide +kernel
  have hheader : (Header.read "index").run (.ofBytes boundlessBytes) =
      .ok (header, ⟨44, boundlessBytes.drop 44⟩) := by decide +kernel
  let c : WordCursor :=
    { input := ⟨44, boundlessBytes.drop 44⟩
      header
      detail := .names
      categoriesLeft := 0xFFFFFFFFFFFFFFFF }
  have hc : WordCursor.ofBytes boundlessBytes "index" .names = .ok c := by
    unfold WordCursor.ofBytes
    rw [hheader]
    rfl
  have hplace : Input.IsPlaceIn ⟨5, boundlessBytes.drop 5⟩ boundlessBytes :=
    ⟨boundlessBytes.take 5, List.take_append_drop 5 _, by decide +kernel⟩
  refine ⟨hsize, ?_, ⟨c, hc, by decide +kernel, by decide +kernel, fun n => ?_⟩, ?_⟩
  · rw [(hplaces hsize _ hplace).1]
    decide +kernel
  · obtain ⟨-, ps, tail, -, -, hcalls⟩ := hcursor .names c hc
    have hlast : c.call 2 = some none := by decide +kernel
    rw [hcalls, Option.some_inj, List.getElem?_eq_none_iff] at hlast
    rw [hcalls, List.getElem?_eq_none (by omega)]
  · let p : Package := { category := "a", name := "b", description := "d" }
    let h : Header :=
      { Header.new with
        categoryCount := 1
        packageCount := 1
        dictionaries := { license := .ofList [""] } }
    have hd : decode "index" Cursor.singleBytes = .ok (h, ⟨[⟨"a", [p]⟩]⟩) := by decide +kernel
    have hle := hitems h _ hd
    exact ⟨h, _, hd, by omega⟩

end PackageIndex
