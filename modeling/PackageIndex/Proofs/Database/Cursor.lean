import PackageIndex.Database.Cursor
import PackageIndex.Proofs.Database.CompleteRead
import PackageIndex.Proofs.Database.Content

/-!
# Cursors and complete reads

What a cursor yields call by call is its list of items (`next_after`). In full detail the items are
the packages of a complete read, or those before its error and the error; with less detail the items
begin with the same packages reduced to the detail (`agrees_with_decode`). No condition is laid on
the bytes: lengths that lead past 2^64 stop the cursor and the complete read at the same record.
-/

namespace PackageIndex

open Record

/-! ## A record at each detail -/

namespace Record

variable {h : Header} {category : String} {i i' : Input} {p : Package}

theorem fields_of_readMetadata {q : Package} (hr : (readMetadata h q).run i = .ok (p, i')) :
    p.category = q.category ∧ p.name = q.name ∧ p.releases = q.releases := by
  obtain ⟨description, i₁, -, hr⟩ := Decoder.run_bind_eq_ok hr
  obtain ⟨homepage, i₂, -, hr⟩ := Decoder.run_bind_eq_ok hr
  obtain ⟨license, i₃, -, hr⟩ := Decoder.run_bind_eq_ok hr
  obtain ⟨provide, i₄, -, hr⟩ := Decoder.run_bind_eq_ok hr
  obtain ⟨useFlags, i₅, -, hr⟩ := Decoder.run_bind_eq_ok hr
  cases hr
  exact ⟨rfl, rfl, rfl⟩

theorem fields_of_readReleases {q : Package} (hr : (readReleases h q).run i = .ok (p, i')) :
    { p with releases := .empty } = { q with releases := .empty } := by
  obtain ⟨count, i₁, -, hr⟩ := Decoder.run_bind_eq_ok hr
  obtain ⟨ebuilds, i₂, -, hr⟩ := Decoder.run_bind_eq_ok hr
  cases hr
  rfl

/-- From where a reader that moves forward has come, skipping gets to where it went. -/
theorem run_skipTo_of_advances {α : Type} {d : Decoder α} (hd : d.Advances) {a : α}
    (hr : d.run i = .ok (a, i')) : (Decoder.skipTo i'.offset).run i = .ok ((), i') := by
  obtain ⟨taken, hb, ho⟩ := hd i a i' hr
  have hs := (Decoder.ReadsAt.skipTo ho).whole i'.bytes
  rw [← hb, ← ho] at hs
  exact hs

/-- A package that can be read in full can be read to every detail, with the same end. -/
theorem readPackage_reduce (hr : (readPackage h category .full).run i = .ok (p, i'))
    (d : Detail) : (readPackage h category d).run i = .ok (d.reduce p, i') := by
  obtain ⟨stop, i₁, name, i₂, q, i₃, h₁, h₂, h₃, h₄, rfl⟩ := readPackage_full_eq_ok hr
  have hm := advances_readMetadata h { category, name }
  have hq := advances_readReleases h q
  obtain ⟨hcategory, hname, hreleases⟩ := fields_of_readMetadata h₃
  have hp := fields_of_readReleases h₄
  refine (Decoder.run_bind_of_ok h₁).trans ((Decoder.run_bind_of_ok h₂).trans ?_)
  cases d with
  | full =>
    refine Eq.trans ?_ hr
    exact ((Decoder.run_bind_of_ok h₁).trans (Decoder.run_bind_of_ok h₂)).symm
  | metadata =>
    refine (Decoder.run_bind_of_ok h₃).trans ?_
    refine (Decoder.run_bind_of_ok (run_skipTo_of_advances hq h₄)).trans ?_
    have hv : Detail.metadata.reduce p = q := by
      rw [Detail.reduce, hp]
      cases q
      cases hreleases
      rfl
    rw [hv]
    rfl
  | names =>
    have hs := run_skipTo_of_advances (hm.bind fun q => advances_readReleases h q)
      ((Decoder.run_bind_of_ok h₃).trans h₄)
    refine (Decoder.run_bind_of_ok hs).trans ?_
    have hv : Detail.names.reduce p = { category, name } := by
      have hpc := congrArg Package.category hp
      have hpn := congrArg Package.name hp
      dsimp only at hpc hpn hcategory hname
      rw [Detail.reduce, hpc, hpn, hcategory, hname]
    rw [hv]
    rfl

end Record

/-! ## What a cursor yields -/

namespace Cursor

variable {c c' : Cursor} {p : Package} {e : Error}

theorem items_of_some (h : c.step = .ok (some (p, c'))) : c.items = .ok p :: c'.items := by
  rw [items]
  split
  next h' =>
    rw [h] at h'
    cases h'
    rfl
  next h' => rw [h] at h'; cases h'
  next h' => rw [h] at h'; cases h'

theorem items_of_none (h : c.step = .ok none) : c.items = [] := by
  rw [items]
  split
  next h' => rw [h] at h'; cases h'
  next => rfl
  next h' => rw [h] at h'; cases h'

theorem items_of_error (h : c.step = .error e) : c.items = [.error e] := by
  rw [items]
  split
  next h' => rw [h] at h'; cases h'
  next h' => rw [h] at h'; cases h'
  next h' => rw [h] at h'; cases h'; rfl

theorem items_congr (h : c.step = c'.step) : c.items = c'.items := by
  rcases hs : c'.step with e | _ | ⟨p, c''⟩
  · rw [items_of_error hs, items_of_error (h.trans hs)]
  · rw [items_of_none hs, items_of_none (h.trans hs)]
  · rw [items_of_some hs, items_of_some (h.trans hs)]

/-- A cursor whose first item is a package has made the step that reads it. -/
theorem step_of_items {xs : List (Except Error Package)} (h : c.items = .ok p :: xs) :
    ∃ c', c.step = .ok (some (p, c')) ∧ c'.items = xs := by
  rcases hs : c.step with e | _ | ⟨q, c'⟩
  · rw [items_of_error hs] at h
    cases h
  · rw [items_of_none hs] at h
    cases h
  · rw [items_of_some hs] at h
    cases h
    exact ⟨c', rfl, rfl⟩

theorem step_of_items_nil (h : c.items = []) : c.step = .ok none := by
  rcases hs : c.step with e | _ | ⟨q, c'⟩
  · rw [items_of_error hs] at h
    cases h
  · rfl
  · rw [items_of_some hs] at h
    cases h

/-! ### Single steps -/

theorem step_package {n : Nat} (hp : c.packagesLeft = n + 1) {i : Input}
    (hr : (readPackage c.header c.category c.detail).run c.input = .ok (p, i)) :
    c.step = .ok (some (p, { c with input := i, packagesLeft := n })) := by
  rw [step, hp]
  dsimp only
  rw [hr]
  rfl

theorem step_package_error {n : Nat} (hp : c.packagesLeft = n + 1)
    (hr : (readPackage c.header c.category c.detail).run c.input = .error e) :
    c.step = .error e := by
  rw [step, hp]
  dsimp only
  rw [hr]
  rfl

theorem step_end (hp : c.packagesLeft = 0) (hc : c.categoriesLeft = 0) : c.step = .ok none := by
  rw [step, hp]
  dsimp only
  split
  next => rfl
  next hc' => rw [hc] at hc'; cases hc'

theorem step_category {n : Nat} (hp : c.packagesLeft = 0) (hc : c.categoriesLeft = n + 1)
    {i : Input} {name : String} {count : UInt64}
    (hr : readCategoryHeader.run c.input = .ok ((name, count), i)) :
    c.step = step { c with
      input := i, category := name, categoriesLeft := n, packagesLeft := count.toNat } := by
  rw [step, hp]
  dsimp only
  split
  next hc' => rw [hc] at hc'; cases hc'
  next hc' =>
    rw [hc] at hc'
    cases hc'
    rw [hr]

theorem step_category_error {n : Nat} (hp : c.packagesLeft = 0) (hc : c.categoriesLeft = n + 1)
    (hr : readCategoryHeader.run c.input = .error e) : c.step = .error e := by
  rw [step, hp]
  dsimp only
  split
  next hc' => rw [hc] at hc'; cases hc'
  next hc' =>
    rw [hc] at hc'
    cases hc'
    rw [hr]
    rfl

/-! ### Call by call -/

/-- The cursor after a number of calls. -/
def after (c : Cursor) : Nat → Cursor
  | 0 => c
  | n + 1 => c.next.2.after n

theorem failed_of_step (h : c.step = .ok (some (p, c'))) : c'.failed = c.failed := by
  fun_induction step c with
  | case1 c n hn =>
    obtain ⟨⟨q, i⟩, -, h⟩ := Decoder.bind_eq_ok h
    cases h
    rfl
  | case2 => cases h
  | case3 => cases h
  | case4 c h0 k hk category count i hr ih => exact ih h

theorem next_of_failed (h : c.failed = true) : c.next = (none, c) := by
  rw [next, if_pos h]

theorem next_of_not_failed (h : c.failed = false) : c.next = match c.step with
    | .ok (some (p, c')) => (some (.ok p), c')
    | .ok none => (none, { c with categoriesLeft := 0, packagesLeft := 0 })
    | .error e => (some (.error e), { c with failed := true }) := by
  unfold next
  exact if_neg (Bool.eq_false_iff.1 h)

theorem next_after_of_failed (h : c.failed = true) (n : Nat) : (c.after n).next.1 = none := by
  induction n with
  | zero => rw [after, next_of_failed h]
  | succ n ih =>
    rw [after, next_of_failed h]
    exact ih

/-- The items are what the calls yield one after the other; behind the last, a call yields
nothing. -/
theorem next_after (h : c.failed = false) (n : Nat) : (c.after n).next.1 = c.items[n]? := by
  induction n generalizing c with
  | zero =>
    rw [after, next_of_not_failed h]
    rcases hs : c.step with e | _ | ⟨p, c'⟩
    · rw [items_of_error hs]
      rfl
    · rw [items_of_none hs]
      rfl
    · rw [items_of_some hs]
      rfl
  | succ n ih =>
    rw [after, next_of_not_failed h]
    rcases hs : c.step with e | _ | ⟨p, c'⟩
    · rw [items_of_error hs]
      exact next_after_of_failed (c := { c with failed := true }) rfl n
    · rw [items_of_none hs]
      refine (ih (c := { c with categoriesLeft := 0, packagesLeft := 0 }) h).trans ?_
      rw [items_of_none (step_end rfl rfl)]
      rfl
    · rw [items_of_some hs]
      exact ih ((failed_of_step hs).trans h)

/-! ### Less detail -/

/-- The cursor at the same place that reads to another detail. -/
def withDetail (c : Cursor) (d : Detail) : Cursor :=
  { c with detail := d }

/-- A step in full detail is a step in every detail to the same place. -/
theorem step_withDetail (hc : c.detail = .full) (d : Detail)
    (h : c.step = .ok (some (p, c'))) :
    c'.detail = .full ∧ (c.withDetail d).step = .ok (some (d.reduce p, c'.withDetail d)) := by
  fun_induction step c with
  | case1 c n hn =>
    obtain ⟨⟨q, i⟩, hr, h⟩ := Decoder.bind_eq_ok h
    cases h
    rw [hc] at hr
    exact ⟨hc, step_package (c := c.withDetail d) hn (readPackage_reduce hr d)⟩
  | case2 => cases h
  | case3 => cases h
  | case4 c h0 k hk category count i hr ih =>
    rw [step_category (c := c.withDetail d) h0 hk hr]
    exact ih hc h

theorem step_withDetail_none (d : Detail) (h : c.step = .ok none) :
    (c.withDetail d).step = .ok none := by
  fun_induction step c with
  | case1 c n hn =>
    obtain ⟨⟨q, i⟩, -, h⟩ := Decoder.bind_eq_ok h
    cases h
  | case2 c h0 hk => exact step_end (c := c.withDetail d) h0 hk
  | case3 => cases h
  | case4 c h0 k hk category count i hr ih =>
    rw [step_category (c := c.withDetail d) h0 hk hr]
    exact ih h

/-- The packages that a cursor in full detail yields are yielded, reduced, in every detail, and
nothing follows them if nothing follows in full detail. -/
theorem items_withDetail (hc : c.detail = .full) (d : Detail) (ps : List Package)
    (h : ps.map .ok <+: c.items) :
    ps.map (fun p => .ok (d.reduce p)) <+: (c.withDetail d).items ∧
      (c.items = ps.map .ok → (c.withDetail d).items = ps.map fun p => .ok (d.reduce p)) := by
  induction ps generalizing c with
  | nil =>
    refine ⟨List.nil_prefix, fun he => ?_⟩
    exact items_of_none (step_withDetail_none d (step_of_items_nil he))
  | cons p ps ih =>
    obtain ⟨xs, hx⟩ := h
    obtain ⟨c', hs, hx⟩ := step_of_items hx.symm
    obtain ⟨hc', hs'⟩ := step_withDetail hc d hs
    obtain ⟨hp, he⟩ := ih hc' ⟨xs, hx.symm⟩
    rw [items_of_some hs']
    refine ⟨(List.prefix_cons_inj _).2 hp, fun hall => ?_⟩
    rw [items_of_some hs] at hall
    rw [he (List.cons.inj hall).2]
    rfl

/-! ### Complete reads -/

theorem items_repeated {n : Nat} {ps : List Package} {i : Input} (hp : c.packagesLeft = n)
    (hr : (Decoder.repeated (readPackage c.header c.category c.detail) n).run c.input =
      .ok (ps, i)) :
    c.items = ps.map .ok ++ items { c with input := i, packagesLeft := 0 } := by
  induction n generalizing c ps with
  | zero =>
    cases hr
    rw [← hp]
    rfl
  | succ n ih =>
    obtain ⟨p, i₁, h₁, hr⟩ := Decoder.run_bind_eq_ok hr
    obtain ⟨qs, i₂, h₂, hr⟩ := Decoder.run_bind_eq_ok hr
    cases hr
    rw [items_of_some (step_package hp h₁), List.map_cons, List.cons_append]
    exact congrArg _ (ih (c := { c with input := i₁, packagesLeft := n }) rfl h₂)

theorem items_repeated_error {n : Nat} (hc : c.detail = .full) (hp : c.packagesLeft = n)
    (hr : (Decoder.repeated (readPackage c.header c.category .full) n).run c.input = .error e) :
    ∃ ps : List Package, c.items = ps.map .ok ++ [.error e] := by
  induction n generalizing c with
  | zero => cases hr
  | succ n ih =>
    rcases Decoder.run_bind_eq_error hr with h₁ | ⟨p, i₁, h₁, hr⟩
    · rw [← hc] at h₁
      exact ⟨[], items_of_error (step_package_error hp h₁)⟩
    · rcases Decoder.run_bind_eq_error hr with h₂ | ⟨qs, i₂, -, hr⟩
      · rw [← hc] at h₁
        obtain ⟨ps, hi⟩ := ih (c := { c with input := i₁, packagesLeft := n }) hc rfl h₂
        exact ⟨p :: ps, (items_of_some (step_package hp h₁)).trans (congrArg _ hi)⟩
      · cases hr

theorem items_categories {n found total : Nat} {cs : List Category} {i : Input}
    (hc : c.detail = .full) (hp : c.packagesLeft = 0) (hn : c.categoriesLeft = n)
    (hr : (Database.readCategories c.header found n).run c.input = .ok ((cs, total), i)) :
    c.items = (cs.flatMap Category.packages).map .ok ∧
      total = found + (cs.flatMap Category.packages).length := by
  induction n generalizing c found cs with
  | zero =>
    cases hr
    exact ⟨items_of_none (step_end hp hn), rfl⟩
  | succ n ih =>
    obtain ⟨name, count, i₁, ps, i₂, ks, h₁, h₂, h₃, rfl⟩ := Database.readCategories_eq_ok hr
    let c' : Cursor :=
      { c with input := i₂, category := name, categoriesLeft := n, packagesLeft := 0 }
    rw [← hc] at h₂
    have hs : c.items = ps.map .ok ++ c'.items :=
      (items_congr (step_category hp hn h₁)).trans (items_repeated rfl h₂)
    obtain ⟨hi, ht⟩ := ih (c := c') hc rfl rfl h₃
    rw [List.flatMap_cons, List.length_append]
    refine ⟨?_, ht.trans (Nat.add_assoc _ _ _)⟩
    rw [hs, hi, List.map_append]

theorem items_categories_error {n found : Nat} (hc : c.detail = .full) (hp : c.packagesLeft = 0)
    (hn : c.categoriesLeft = n) (hf : found ≤ c.input.offset) (hlt : found < UInt64.size)
    (hr : (Database.readCategories c.header found n).run c.input = .error e) :
    ∃ ps : List Package, c.items = ps.map .ok ++ [.error e] := by
  induction n generalizing c found with
  | zero => cases hr
  | succ n ih =>
    rcases Database.readCategories_eq_error hf hlt hr with h₁ | ⟨name, count, i₁, h₁, hr⟩
    · exact ⟨[], items_of_error (step_category_error hp hn h₁)⟩
    · rw [items_congr (step_category hp hn h₁)]
      rcases hr with h₂ | ⟨ps, i₂, h₂, hf, hlt, h₃⟩
      · exact items_repeated_error hc rfl h₂
      · let c' : Cursor :=
          { c with input := i₂, category := name, categoriesLeft := n, packagesLeft := 0 }
        have hs : items { c with
            input := i₁, category := name, categoriesLeft := n, packagesLeft := count.toNat } =
              ps.map .ok ++ c'.items := items_repeated rfl (hc.symm ▸ h₂)
        obtain ⟨qs, hi⟩ := ih (c := c') hc rfl rfl hf hlt h₃
        refine ⟨ps ++ qs, ?_⟩
        rw [hs, hi, List.map_append, List.append_assoc]

/-- The cursor before the first package, once the header is read. -/
def start (h : Header) (i : Input) (d : Detail) : Cursor :=
  { input := i, header := h, detail := d, categoriesLeft := h.categoryCount.toNat }

section

variable {name : String} {bytes : List UInt8}

theorem ofBytes_of_header {h : Header} {i : Input}
    (hh : (Header.read name).run (.ofBytes bytes) = .ok (h, i)) (d : Detail) :
    ofBytes bytes name d = .ok (start h i d) := by
  rw [ofBytes, hh]
  rfl

theorem ofBytes_of_header_error (hh : (Header.read name).run (.ofBytes bytes) = .error e)
    (d : Detail) : ofBytes bytes name d = .error e := by
  rw [ofBytes, hh]
  rfl

/-- Behind the header, a complete read and the cursor in full detail go the same way: to the end, and
then the read compares the counts, or to the same error. -/
theorem decode_cases {h : Header} {i : Input}
    (hh : (Header.read name).run (.ofBytes bytes) = .ok (h, i)) :
    (∃ t : Tree, (start h i .full).items = t.packages.map .ok ∧
      Database.decode name bytes =
        if t.packages.length = h.packageCount.toNat then .ok (h, t)
        else .error (.corrupt (.packageCount name h.packageCount t.packages.length))) ∨
    (∃ e, ∃ ps : List Package, (start h i .full).items = ps.map .ok ++ [.error e] ∧
      Database.decode name bytes = .error e) := by
  cases hc : (Database.readCategories h 0 h.categoryCount.toNat).run i with
  | error e =>
    obtain ⟨ps, hi⟩ := items_categories_error (c := start h i .full) rfl rfl rfl
      (Nat.zero_le _) (by decide) hc
    exact .inr ⟨e, ps, hi, Database.decode_of_categories_error hh hc⟩
  | ok r =>
    obtain ⟨⟨cs, total⟩, i'⟩ := r
    obtain ⟨hi, ht⟩ := items_categories (c := start h i .full) rfl rfl rfl hc
    rw [Nat.zero_add] at ht
    subst ht
    exact .inl ⟨⟨cs⟩, hi, Database.decode_of_categories hh hc⟩

theorem ofBytes_eq_ok {d : Detail} (h : ofBytes bytes name d = .ok c) :
    ∃ i, (Header.read name).run (.ofBytes bytes) = .ok (c.header, i) ∧
      c = start c.header i d := by
  cases hh : (Header.read name).run (.ofBytes bytes) with
  | error e =>
    rw [ofBytes_of_header_error hh] at h
    cases h
  | ok r =>
    obtain ⟨k, i⟩ := r
    rw [ofBytes_of_header hh] at h
    cases h
    exact ⟨i, rfl, rfl⟩

theorem ofBytes_eq_error {d : Detail} (h : ofBytes bytes name d = .error e) :
    (Header.read name).run (.ofBytes bytes) = .error e := by
  cases hh : (Header.read name).run (.ofBytes bytes) with
  | error e' =>
    rw [ofBytes_of_header_error hh] at h
    cases h
    rfl
  | ok r =>
    rw [ofBytes_of_header hh] at h
    cases h

theorem error_not_mem_map_ok (ps : List Package) :
    .error e ∉ ps.map (Except.ok (ε := Error)) := by
  intro h
  obtain ⟨p, -, h⟩ := List.mem_map.1 h
  cases h

theorem items_of_decode {h : Header} {t : Tree}
    (hd : Database.decode name bytes = .ok (h, t)) :
    ∃ c, ofBytes bytes name .full = .ok c ∧ c.header = h ∧ c.items = t.packages.map .ok ∧
      t.packages.length = h.packageCount.toNat := by
  cases hh : (Header.read name).run (.ofBytes bytes) with
  | error e =>
    rw [Database.decode_of_header_error hh] at hd
    cases hd
  | ok r =>
    obtain ⟨k, i⟩ := r
    rcases decode_cases hh with ⟨t', hi, hd'⟩ | ⟨e, ps, hi, hd'⟩
    · rw [hd'] at hd
      split at hd
      next hcount =>
        cases hd
        exact ⟨_, ofBytes_of_header hh .full, rfl, hi, hcount⟩
      next => cases hd
    · rw [hd'] at hd
      cases hd

theorem decode_of_items {ps : List Package} (hc : ofBytes bytes name .full = .ok c)
    (hi : c.items = ps.map .ok) (hcount : ps.length = c.header.packageCount.toNat) :
    ∃ t, Database.decode name bytes = .ok (c.header, t) := by
  obtain ⟨i, hh, he⟩ := ofBytes_eq_ok hc
  rw [he] at hi
  rcases decode_cases hh with ⟨t, ht, hd⟩ | ⟨e, qs, hq, -⟩
  · have hl := congrArg List.length (ht.symm.trans hi)
    rw [List.length_map, List.length_map] at hl
    rw [if_pos (hl.trans hcount)] at hd
    exact ⟨t, hd⟩
  · have hmem : .error e ∈ ps.map (Except.ok (ε := Error)) := by
      rw [← hi, hq]
      exact List.mem_append_right _ List.mem_cons_self
    exact absurd hmem (error_not_mem_map_ok ps)

theorem decode_of_items_error (hc : ofBytes bytes name .full = .ok c) (hi : .error e ∈ c.items) :
    Database.decode name bytes = .error e := by
  obtain ⟨i, hh, he⟩ := ofBytes_eq_ok hc
  rw [he] at hi
  rcases decode_cases hh with ⟨t, ht, -⟩ | ⟨e', ps, hp, hd⟩
  · rw [ht] at hi
    exact absurd hi (error_not_mem_map_ok _)
  · rw [hp] at hi
    rcases List.mem_append.1 hi with hi | hi
    · exact absurd hi (error_not_mem_map_ok ps)
    · cases List.mem_singleton.1 hi
      exact hd

/-- On all bytes a cursor in full detail and a complete read agree. The read succeeds if and only if
the cursor comes to its end with as many packages as its header announces, and then on the same
header and packages; an error of the cursor is the error of the read. A cursor of any detail yields
call by call what its items are, and its items begin with the packages that the cursor in full
detail yields, reduced to the detail; they end with them if the cursor in full detail ends so. -/
theorem agrees_with_decode (name : String) (bytes : List UInt8) :
    (∀ h, (∃ t, Database.decode name bytes = .ok (h, t)) ↔
      ∃ (c : Cursor) (ps : List Package), ofBytes bytes name .full = .ok c ∧ c.header = h ∧
        c.items = ps.map .ok ∧ ps.length = h.packageCount.toNat) ∧
    (∀ h t, Database.decode name bytes = .ok (h, t) →
      ∃ c, ofBytes bytes name .full = .ok c ∧ c.header = h ∧ c.items = t.packages.map .ok) ∧
    (∀ e, (ofBytes bytes name .full = .error e ∨
      ∃ c, ofBytes bytes name .full = .ok c ∧ .error e ∈ c.items) →
        Database.decode name bytes = .error e) ∧
    (∀ (d : Detail) (c : Cursor), ofBytes bytes name .full = .ok c →
      ∃ c', ofBytes bytes name d = .ok c' ∧ c'.header = c.header ∧
        ∀ ps : List Package, ps.map .ok <+: c.items →
          ps.map (fun p => .ok (d.reduce p)) <+: c'.items ∧
          (c.items = ps.map .ok → c'.items = ps.map fun p => .ok (d.reduce p))) ∧
    (∀ (d : Detail) (c : Cursor), ofBytes bytes name d = .ok c →
      ∀ n, (c.after n).next.1 = c.items[n]?) := by
  refine ⟨fun h => ⟨?_, ?_⟩, ?_, ?_, ?_, ?_⟩
  · rintro ⟨t, hd⟩
    obtain ⟨c, hc, hh, hi, hcount⟩ := items_of_decode hd
    exact ⟨c, t.packages, hc, hh, hi, hcount⟩
  · rintro ⟨c, ps, hc, rfl, hi, hcount⟩
    exact decode_of_items hc hi hcount
  · intro h t hd
    obtain ⟨c, hc, hh, hi, -⟩ := items_of_decode hd
    exact ⟨c, hc, hh, hi⟩
  · rintro e (he | ⟨c, hc, hi⟩)
    · exact Database.decode_of_header_error (ofBytes_eq_error he)
    · exact decode_of_items_error hc hi
  · intro d c hc
    obtain ⟨i, hh, he⟩ := ofBytes_eq_ok hc
    refine ⟨start c.header i d, ofBytes_of_header hh d, rfl, fun ps hp => ?_⟩
    rw [he] at hp ⊢
    exact items_withDetail rfl d ps hp
  · intro d c hc n
    obtain ⟨i, hh, he⟩ := ofBytes_eq_ok hc
    rw [he]
    exact next_after rfl n

/-- One package `a/b` with a description and no releases. -/
def singleBytes : List UInt8 :=
  [0x50, 0x49, 0x58, 0x0A, 39, 1, 1, 0, 0, 0, 1, 0, 0, 0, 0,
    1, 0x61, 1, 9, 1, 0x62, 1, 0x64, 0, 0, 0, 0, 0]

theorem agrees_with_decode_single :
    Database.decode "index" [] = .error (.notADatabase "index") ∧
    ∃ h t, Database.decode "index" singleBytes = .ok (h, t) ∧
      ∃ c, ofBytes singleBytes "index" .names = .ok c ∧ c.header = h ∧
        c.items = [.ok { category := "a", name := "b" }] ∧ (c.after 1).next.1 = none := by
  have hempty : ofBytes [] "index" .full = .error (.notADatabase "index") := rfl
  let p : Package := { category := "a", name := "b", description := "d" }
  let h : Header :=
    { Header.new with
      categoryCount := 1
      packageCount := 1
      dictionaries := { license := .ofList [""] } }
  have hd : Database.decode "index" singleBytes = .ok (h, ⟨[⟨"a", [p]⟩]⟩) := by decide +kernel
  obtain ⟨-, hpackages, -, hdetail, hcalls⟩ := agrees_with_decode "index" singleBytes
  obtain ⟨-, -, herror, -⟩ := agrees_with_decode "index" []
  obtain ⟨c, hc, hh, hi⟩ := hpackages h _ hd
  obtain ⟨c', hc', hh', hp⟩ := hdetail .names c hc
  have hi' : c'.items = [.ok { category := "a", name := "b" }] :=
    (hp [p] (hi ▸ List.prefix_rfl)).2 hi
  refine ⟨herror _ (.inl hempty), h, _, hd, c', hc', hh'.trans hh, hi', ?_⟩
  rw [hcalls .names c' hc' 1, hi']
  rfl

end

end Cursor

end PackageIndex
