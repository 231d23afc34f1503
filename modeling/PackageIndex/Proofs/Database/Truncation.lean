import PackageIndex.Proofs.Database.Labels
import PackageIndex.Proofs.Database.Results
import PackageIndex.Proofs.Database.RoundTrip

/-!
# Truncated databases are found out

What is left of a database that was cut short is never taken for a database (`truncation_detected`).
A complete read fails; a cursor fails when it is opened, or it yields packages of the complete
database and then the error. The cut is followed from the record that it falls into: what stands
before it is read as in the complete database (`items_category`), and the record itself cannot be
read (`truncated_packages`, `truncated_category`).
-/

namespace PackageIndex

open Decoder (Reads part_of_append)
open Record

/-! ## Headers -/

namespace Header

theorem run_read (name : String) (rest : List UInt8) :
    (read name).run (.ofBytes (magic ++ rest)) = (readFields name).run ⟨magic.length, rest⟩ := by
  rw [read_eq, Input.ofBytes]
  exact Decoder.run_bind_of_ok (run_readMagic name rest)

theorem run_read_of_length_lt (name : String) {part : List UInt8}
    (hl : part.length < magic.length) :
    (read name).run (.ofBytes part) = .error (.notADatabase name) := by
  have hne : part ≠ magic := fun h => Nat.ne_of_lt hl (congrArg List.length h)
  have hmagic : (readMagic name).run (.ofBytes part) = .error (.notADatabase name) := by
    refine (Decoder.run_bind_of_ok (Decoder.run_upTo_of_length_le (Nat.le_of_lt hl) 0)).trans ?_
    rw [if_neg hne]
    rfl
  exact Decoder.run_bind_of_error hmagic

end Header

namespace Cursor

/-! ## Cursors that run into the cut -/

/-- The cursor yields first ones of the packages, possibly none, and then the error that its input
is truncated. -/
def TruncatedWithin (c : Cursor) (ps : List Package) : Prop :=
  ∃ qs cause, qs <+: ps ∧ c.items = qs.map .ok ++ [.error (.truncated cause)]

namespace TruncatedWithin

variable {c c' : Cursor} {ps qs : List Package}

theorem of_error {cause : Truncation} (h : c.step = .error (.truncated cause)) :
    c.TruncatedWithin ps :=
  ⟨[], cause, List.nil_prefix, items_of_error h⟩

theorem of_step (h : c.step = c'.step) (hc : c'.TruncatedWithin ps) : c.TruncatedWithin ps := by
  rw [TruncatedWithin, items_congr h]
  exact hc

theorem append (h : c.items = ps.map .ok ++ c'.items) (hc : c'.TruncatedWithin qs) :
    c.TruncatedWithin (ps ++ qs) := by
  obtain ⟨rs, cause, hrs, hi⟩ := hc
  refine ⟨ps ++ rs, cause, (List.prefix_append_right_inj ps).2 hrs, ?_⟩
  rw [h, hi, List.map_append, List.append_assoc]

theorem append_right (hc : c.TruncatedWithin ps) (qs : List Package) :
    c.TruncatedWithin (ps ++ qs) := by
  obtain ⟨rs, cause, hrs, hi⟩ := hc
  exact ⟨rs, cause, hrs.trans (List.prefix_append ps qs), hi⟩

end TruncatedWithin

section

variable {c : Cursor} {part : List UInt8}

theorem truncated_packages {forms : List (List UInt8)} {ps : List Package}
    (hr : List.Forall₂ (readPackage c.header c.category c.detail).Reads forms ps) (offset : Nat)
    (hlt : offset + forms.flatten.length < UInt64.size)
    (hp : part <+: forms.flatten) (hne : part ≠ forms.flatten) :
    TruncatedWithin { c with input := ⟨offset, part⟩, packagesLeft := ps.length } ps := by
  -- The cut falls into the first record, or what is left behind it is cut further on.
  induction hr generalizing offset part with
  | nil => exact absurd (List.prefix_nil.1 hp) hne
  | @cons form p forms ps hform _ ih =>
    rw [List.flatten_cons] at hlt hp hne
    rw [List.length_append] at hlt
    have hat := hform offset (by omega)
    rcases part_of_append hp hne with ⟨hp, hne⟩ | ⟨part, rfl, hp, hne⟩
    · obtain ⟨cause, he⟩ := hat.cut part hp hne
      exact .of_error (step_package_error rfl he)
    · have hstep : items { c with
          input := ⟨offset, form ++ part⟩, packagesLeft := ps.length + 1 } =
            [p].map .ok ++ items { c with
              input := ⟨offset + form.length, part⟩, packagesLeft := ps.length } :=
        items_of_some (step_package rfl (hat.whole part))
      exact .append hstep (ih (offset + form.length) (by omega) hp hne)

/-! ### Categories -/

variable {form : List UInt8} {k : Category} {n : Nat}

/-- A cursor before the bytes of a category yields its packages. -/
theorem items_category (hk : HoldsCategory c.header c.detail form k) {offset : Nat}
    (hlt : offset + form.length < UInt64.size) (rest : List UInt8) :
    items { c with input := ⟨offset, form ++ rest⟩, categoriesLeft := n + 1, packagesLeft := 0 } =
      (k.packages.map c.detail.reduce).map .ok ++
        items { c with
          input := ⟨offset + form.length, rest⟩
          category := k.name
          categoriesLeft := n
          packagesLeft := 0 } := by
  have hcount := hk.toNat_count (by omega)
  obtain ⟨forms, rfl, hr⟩ := hk
  rw [List.length_append] at hlt ⊢
  rw [List.append_assoc, ← Nat.add_assoc]
  have hname := (reads_categoryHeader k.name k.packages.length offset (by omega)).whole
    (forms.flatten ++ rest)
  have hread := Reads.repeated hr
    (offset + (encodeCategoryHeader k.name k.packages.length).length) (by omega)
  rw [List.length_map] at hread
  exact (items_congr (step_category rfl rfl hname)).trans (items_repeated hcount (hread.whole rest))

theorem truncated_category (hk : HoldsCategory c.header c.detail form k) {offset : Nat}
    (hlt : offset + form.length < UInt64.size) (hp : part <+: form) (hne : part ≠ form) :
    TruncatedWithin
      { c with input := ⟨offset, part⟩, categoriesLeft := n + 1, packagesLeft := 0 }
      (k.packages.map c.detail.reduce) := by
  have hcount := hk.toNat_count (by omega)
  obtain ⟨forms, rfl, hr⟩ := hk
  rw [List.length_append] at hlt
  have hname := reads_categoryHeader k.name k.packages.length offset (by omega)
  rcases part_of_append hp hne with ⟨hp, hne⟩ | ⟨part, rfl, hp, hne⟩
  · obtain ⟨cause, he⟩ := hname.cut part hp hne
    exact .of_error (step_category_error rfl rfl he)
  · refine .of_step (step_category rfl rfl (hname.whole part)) ?_
    have htruncated := truncated_packages (c := { c with category := k.name, categoriesLeft := n })
      hr (offset + (encodeCategoryHeader k.name k.packages.length).length) (by omega) hp hne
    rw [List.length_map] at htruncated
    rw [hcount]
    exact htruncated

/-- The cut falls into one of the categories; those before it are yielded. -/
theorem truncated_categories {forms : List (List UInt8)} {ks : List Category}
    (hr : List.Forall₂ (HoldsCategory c.header c.detail) forms ks) (category : String)
    (offset : Nat) (hlt : offset + forms.flatten.length < UInt64.size)
    (hp : part <+: forms.flatten) (hne : part ≠ forms.flatten) :
    TruncatedWithin
      { c with
        input := ⟨offset, part⟩
        category
        categoriesLeft := ks.length
        packagesLeft := 0 }
      ((ks.flatMap Category.packages).map c.detail.reduce) := by
  induction hr generalizing offset part category with
  | nil => exact absurd (List.prefix_nil.1 hp) hne
  | @cons form k forms ks hk _ ih =>
    rw [List.flatten_cons] at hlt hp hne
    rw [List.length_append] at hlt
    rw [List.flatMap_cons, List.map_append]
    rcases part_of_append hp hne with ⟨hp, hne⟩ | ⟨part, rfl, hp, hne⟩
    · exact (truncated_category (c := { c with category }) hk (by omega) hp hne).append_right _
    · exact .append (items_category (c := { c with category }) hk (by omega) part)
        (ih k.name (offset + form.length) (by omega) hp hne)

end

/-! ### From the start -/

variable {h : Header} {t : Tree} {name : String}

/-- Whatever the detail, the cursor over a database yields the packages of a complete read, reduced
to the detail. -/
theorem items_reduce_of_decode {bytes : List UInt8}
    (hd : Database.decode name bytes = .ok (h, t)) (d : Detail) :
    ∃ c, ofBytes bytes name d = .ok c ∧ c.items = (t.packages.map d.reduce).map .ok := by
  obtain ⟨c, hc, -, hi, -⟩ := items_of_decode hd
  obtain ⟨i, hh, he⟩ := ofBytes_eq_ok hc
  rw [he] at hi
  refine ⟨_, ofBytes_of_header hh d, ?_⟩
  rw [List.map_map]
  exact (items_withDetail rfl d t.packages (hi ▸ List.prefix_rfl)).2 hi

/-- If the cut leaves the header, the cursor behind it runs into the cut. -/
theorem truncated_start (hv : h.version = Header.currentVersion)
    (hn : ∀ c ∈ t.categories, ∀ p ∈ c.packages, p.category = c.name) {form : List UInt8}
    (hw : Database.encode h t = .ok (Header.magic ++ form))
    (hlt : Header.magic.length + form.length < UInt64.size)
    (hd : (h.prepare t).Describes (t.asStored h.storesDependencies)) {part : List UInt8}
    (hp : part <+: form) (hne : part ≠ form) {k : Header} {i : Input}
    (hh : (Header.read name).run (.ofBytes (Header.magic ++ part)) = .ok (k, i)) (d : Detail) :
    (start k i d).TruncatedWithin ((t.asStored h.storesDependencies).packages.map d.reduce) := by
  obtain ⟨forms, hf, hr⟩ := Database.kept_layout h hn d
  rw [hf, Header.encode_eq, List.append_assoc] at hw
  obtain rfl := List.append_cancel_left (Except.ok.inj hw)
  rw [List.length_append] at hlt
  have hfields := Header.reads_encodeFields (h := h.prepare t) hv name Header.magic.length
    (by omega)
  rw [Header.run_read] at hh
  -- A cut in the header would have stopped the reading of it.
  rcases part_of_append hp hne with ⟨hp, hne⟩ | ⟨part, rfl, hp, hne⟩
  · obtain ⟨cause, he⟩ := hfields.cut part hp hne
    rw [he] at hh
    cases hh
  · rw [hfields.whole part] at hh
    cases hh
    have hcategories := hr (Header.sized_of_length (by omega))
    have htruncated := truncated_categories (c := start (h.prepare t) ⟨0, []⟩ d) hcategories ""
      (Header.magic.length + (h.prepare t).encodeFields.length) (by omega) hp hne
    rw [hd.categoryCount] at htruncated
    exact htruncated

end Cursor

namespace Database

/-- The packages that the database of a tree holds, to the detail: each is one of the category that
it stands in, and has dependencies only if the header stores them. -/
def packagesAt (h : Header) (t : Tree) (d : Detail) : List Package :=
  (t.labelled.asStored h.storesDependencies).packages.map d.reduce

/-- Every tree can be written under every header of the current format. A cursor over what was
written yields all packages. On a proper first part of it, a complete read fails: fewer than four
bytes are no database, and more are a truncated one. A cursor over the part cannot be opened, for
the reason for which the read fails, or it yields call by call first ones of the packages, then that
the input is truncated, and then nothing more. -/
theorem truncation_detected (h : Header) (t : Tree) (name : String)
    (hv : h.version = Header.currentVersion) :
    ∃ bytes, encode h t = .ok bytes ∧ (bytes.length < UInt64.size →
      (∀ d, ∃ c, Cursor.ofBytes bytes name d = .ok c ∧ c.items = (packagesAt h t d).map .ok) ∧
      ∀ part, part <+: bytes → part ≠ bytes →
        (part.length < 4 → decode name part = .error (.notADatabase name)) ∧
        (4 ≤ part.length → ∃ cause, decode name part = .error (.truncated cause)) ∧
        ∀ d, (∃ e, Cursor.ofBytes part name d = .error e ∧ decode name part = .error e) ∨
          ∃ c, Cursor.ofBytes part name d = .ok c ∧ c.TruncatedWithin (packagesAt h t d) ∧
            ∀ n, (c.after n).next.1 = c.items[n]?) := by
  have hn := t.category_of_mem_labelled
  obtain ⟨form, hw, hr⟩ := kept_body h hv hn name
  refine ⟨Header.magic ++ form, (encode_labelled h t).symm.trans hw, fun hlt => ?_⟩
  rw [List.length_append] at hlt
  have hbody := hr hlt
  have hd : decode name (Header.magic ++ form) =
      .ok (h.prepare t.labelled, t.labelled.asStored h.storesDependencies) := by
    have hwhole := hbody.whole []
    rw [List.append_nil] at hwhole
    exact congrArg (Except.map Prod.fst) ((run_read name form).trans hwhole)
  refine ⟨Cursor.items_reduce_of_decode hd, fun part hp hne => ?_⟩
  -- The cut falls into the four magic bytes, or behind them.
  rcases part_of_append hp hne with ⟨hp, hne⟩ | ⟨part, rfl, hp, hne⟩
  · have hl : part.length < 4 :=
      Nat.lt_of_le_of_ne hp.length_le fun h => hne (hp.eq_of_length h)
    have hh := Header.run_read_of_length_lt name hl
    have he := decode_of_header_error hh
    exact ⟨fun _ => he, fun hge => absurd hl (Nat.not_lt.2 hge),
      fun d => .inl ⟨_, Cursor.ofBytes_of_header_error hh d, he⟩⟩
  · obtain ⟨cause, hcut⟩ := hbody.cut part hp hne
    have he : decode name (Header.magic ++ part) = .error (.truncated cause) :=
      congrArg (Except.map Prod.fst) ((run_read name part).trans hcut)
    have hge : 4 ≤ (Header.magic ++ part).length := by
      rw [List.length_append]
      exact Nat.le_add_right 4 part.length
    refine ⟨fun hl => absurd hl (Nat.not_lt.2 hge), fun _ => ⟨cause, he⟩, fun d => ?_⟩
    cases hh : (Header.read name).run (.ofBytes (Header.magic ++ part)) with
    | error e => exact .inl ⟨e, Cursor.ofBytes_of_header_error hh d, decode_of_header_error hh⟩
    | ok r =>
      have htruncated := Cursor.truncated_start hv hn hw hlt (describes_of_decode hd) hp hne hh d
      exact .inr ⟨_, Cursor.ofBytes_of_header hh d, htruncated, Cursor.next_after rfl⟩

-- The last byte is missing, so the only package is cut short.
theorem truncation_detected_holly :
    ∃ bytes, encode staleHeader hollyTree = .ok bytes ∧
      (∃ cause, decode "index" bytes.dropLast = .error (.truncated cause)) ∧
      ∃ c, Cursor.ofBytes bytes.dropLast "index" .names = .ok c ∧
        c.TruncatedWithin [{ category := "dev-libs", name := "holly" }] := by
  have hb : (encode staleHeader hollyTree).toOption.all (fun b =>
      4 < b.length ∧ b.length < UInt64.size ∧
        (Cursor.ofBytes b.dropLast "index" .names).toOption.isSome) = true := by decide +kernel
  have hp : packagesAt staleHeader hollyTree .names =
      [{ category := "dev-libs", name := "holly" }] := by decide +kernel
  obtain ⟨bytes, hw, hr⟩ := truncation_detected staleHeader hollyTree "index" rfl
  rw [hw] at hb
  obtain ⟨hfour, hlt, hopen⟩ := of_decide_eq_true hb
  have hl : bytes.dropLast.length = bytes.length - 1 := List.length_dropLast
  have hne : bytes.dropLast ≠ bytes := fun h => by
    have := congrArg List.length h
    omega
  obtain ⟨-, hcut⟩ := hr hlt
  obtain ⟨-, hread, hcursor⟩ := hcut bytes.dropLast bytes.dropLast_prefix hne
  refine ⟨bytes, hw, hread (by omega), ?_⟩
  rcases hcursor .names with ⟨e, he, -⟩ | ⟨c, hc, htruncated, -⟩
  · rw [he] at hopen
    cases hopen
  · exact ⟨c, hc, hp ▸ htruncated⟩

end Database

end PackageIndex
