import Mathlib.Data.List.Nodup
import PackageIndex.Proofs.Repository.Layers

/-!
# Layers by their paths

A layer that is registered has the key that it was given ever after, and no two keys have one path.
A layer is registered under its exact path, but looked up by its path up to slashes at the end: what
is found for a path is the first layer with the path up to such slashes (`exists_findOverlay?`). So a
layer is found by its own path iff none with a lower key differs from it in nothing but slashes at the
end (`registered_layer_found`).
-/

namespace PackageIndex.Header

variable {h h' : Header} {o : Overlay} {k : OverlayKey} {place : Nat}

/-- The header with the layers of a list registered one by one. -/
def register (h : Header) (os : List Overlay) : Header :=
  os.foldl (fun h o => (h.addOverlay o).1) h

theorem register_cons (h : Header) (o : Overlay) (os : List Overlay) :
    h.register (o :: os) = (h.addOverlay o).1.register os :=
  rfl

/-! ## Registered layers -/

theorem overlays_prefix_register (os : List Overlay) :
    ∀ h : Header, h.overlays <+: (h.register os).overlays := by
  induction os with
  | nil =>
    intro h
    exact List.prefix_rfl
  | cons o os ih =>
    intro h
    rw [register_cons]
    have hadd := (addOverlay_spec h o).1
    exact hadd.trans (ih (h.addOverlay o).1)

theorem nodup_paths_addOverlay (o : Overlay) (hpaths : (h.overlays.map Overlay.path).Nodup) :
    ((h.addOverlay o).1.overlays.map Overlay.path).Nodup := by
  by_cases hknown : o.path ∈ h.overlays.map Overlay.path
  · have hfind : ∃ i, (h.overlays.findIdx? fun known => known.path == o.path) = some i := by
      obtain ⟨known, hmem, hpath⟩ := List.mem_map.1 hknown
      refine Option.isSome_iff_exists.1 ?_
      rw [List.findIdx?_isSome]
      exact List.any_eq_true.2 ⟨known, hmem, beq_iff_eq.2 hpath⟩
    obtain ⟨i, hi⟩ := hfind
    have hsame : (h.addOverlay o).1 = h := by
      unfold addOverlay
      rw [hi]
    rwa [hsame]
  · rw [paths_addOverlay hknown]
    refine List.nodup_append.2 ⟨hpaths, List.nodup_singleton _, ?_⟩
    intro path hpath path' hpath' heq
    rw [List.mem_singleton.1 hpath'] at heq
    exact hknown (heq ▸ hpath)

theorem nodup_paths_register (os : List Overlay) :
    ∀ h : Header, (h.overlays.map Overlay.path).Nodup →
      ((h.register os).overlays.map Overlay.path).Nodup := by
  induction os with
  | nil =>
    intro h hpaths
    exact hpaths
  | cons o os ih =>
    intro h hpaths
    rw [register_cons]
    exact ih _ (nodup_paths_addOverlay o hpaths)

/-- Layers of different paths are put one behind the other. -/
theorem paths_register (os : List Overlay) :
    ∀ h : Header, (h.overlays.map Overlay.path ++ os.map Overlay.path).Nodup →
      (h.register os).overlays.map Overlay.path =
        h.overlays.map Overlay.path ++ os.map Overlay.path := by
  induction os with
  | nil =>
    intro h _
    simp [register]
  | cons o os ih =>
    intro h hpaths
    have hnew : o.path ∉ h.overlays.map Overlay.path := by
      intro hmem
      exact (List.nodup_append.1 hpaths).2.2 _ hmem _ List.mem_cons_self rfl
    have hadd := paths_addOverlay hnew
    rw [register_cons, ih, hadd]
    · simp
    · rw [hadd]
      simpa using hpaths

/-- The layer of a key has the path for which the key was given. -/
theorem exists_overlay?_of_addOverlay (hadd : h.addOverlay o = (h', k))
    (hsize : h'.overlays.length ≤ UInt32.size) :
    ∃ l, h'.overlays[k.toNat]? = some l ∧ l.path = o.path := by
  obtain ⟨-, hknows, hkey, -⟩ := addOverlay_spec h o
  rw [hadd] at hknows hkey
  dsimp only at hknows hkey
  rw [hkey]
  exact overlay?_keyOf hsize hknows

theorem place_eq_of_path_eq (hpaths : (h.overlays.map Overlay.path).Nodup) {place' : Nat}
    {l l' : Overlay} (hl : h.overlays[place]? = some l) (hl' : h.overlays[place']? = some l')
    (hpath : l.path = l'.path) : place = place' := by
  have hp : (h.overlays.map Overlay.path)[place]? = some l.path := by simp [hl]
  have hp' : (h.overlays.map Overlay.path)[place']? = some l.path := by simp [hl', hpath]
  have hlt := (List.getElem?_eq_some_iff.1 hp).1
  exact (List.getElem?_inj hlt hpaths).1 (hp.trans hp'.symm)

/-! ## Layers that are looked up -/

/-- A text that is no key of the header is looked up as a name. -/
theorem findOverlay?_eq_keyOfName? {name : String}
    (hnumber : ∀ key, keyOfText? name = some key → h.overlays.length ≤ key.toNat) :
    h.findOverlay? name = h.keyOfName? name := by
  unfold findOverlay?
  cases htext : keyOfText? name with
  | none => rfl
  | some key =>
    have hle := hnumber key htext
    dsimp only
    rw [if_neg (Nat.not_lt.2 hle)]

/-- The path of a layer leads to the first layer with the path up to slashes at its end. -/
theorem exists_findOverlay? (hplace : h.overlays[place]? = some o)
    (hnumber : ∀ key, keyOfText? o.path = some key → h.overlays.length ≤ key.toNat)
    (hlabel : ∀ l ∈ h.overlays, l.label ≠ o.path) :
    ∃ first ≤ place, h.findOverlay? o.path = some first.toUInt32 ∧
      (∃ l, h.overlays[first]? = some l ∧ withoutSlashes l.path = withoutSlashes o.path) ∧
      ∀ i < first, ∀ l, h.overlays[i]? = some l →
        withoutSlashes l.path ≠ withoutSlashes o.path := by
  have hmatch : ∀ l ∈ h.overlays, (l.label == o.path ||
      withoutSlashes l.path == withoutSlashes o.path) = true ↔
        withoutSlashes l.path = withoutSlashes o.path := by
    intro l hl
    have hne := beq_eq_false_iff_ne.2 (hlabel l hl)
    rw [hne, Bool.false_or, beq_iff_eq]
  have hsome : (h.overlays.findIdx? fun l => l.label == o.path ||
      withoutSlashes l.path == withoutSlashes o.path).isSome = true := by
    have hmem := List.mem_of_getElem? hplace
    rw [List.findIdx?_isSome]
    exact List.any_eq_true.2 ⟨o, hmem, (hmatch o hmem).2 rfl⟩
  obtain ⟨first, hfirst⟩ := Option.isSome_iff_exists.1 hsome
  obtain ⟨hlt, hself, hbefore⟩ := List.findIdx?_eq_some_iff_getElem.1 hfirst
  have hnot : ∀ i < first, ∀ l, h.overlays[i]? = some l →
      withoutSlashes l.path ≠ withoutSlashes o.path := by
    intro i hi l hl hsame
    obtain ⟨hilt, rfl⟩ := List.getElem?_eq_some_iff.1 hl
    exact hbefore i hi ((hmatch _ (List.getElem_mem hilt)).2 hsame)
  refine ⟨first, ?_, ?_, ⟨h.overlays[first], ?_, ?_⟩, hnot⟩
  · exact Nat.le_of_not_lt fun hgt => hnot place hgt o hplace rfl
  · rw [findOverlay?_eq_keyOfName? hnumber]
    unfold keyOfName?
    rw [hfirst]
    rfl
  · exact List.getElem?_eq_getElem hlt
  · exact (hmatch _ (List.getElem_mem hlt)).1 hself

/-- Under whatever calls a header came about, the key of a registered layer leads to its path ever
after, and no two keys lead to one path. If the path is neither a key of the header nor a label, it
leads to a layer with the path up to slashes at its end, and this is the layer that was registered iff
no layer with a lower key has the path up to slashes at its end. -/
theorem registered_layer_found (before later : List Overlay)
    (hadd : (new.register before).addOverlay o = (h, k))
    (hsize : h.overlays.length ≤ UInt32.size) :
    (∃ l, (h.register later).overlay? k = some l ∧ l.path = o.path) ∧
    (∀ key key' l l', (h.register later).overlay? key = some l →
      (h.register later).overlay? key' = some l' → l.path = l'.path → key = key') ∧
    ((∀ key, keyOfText? o.path = some key → (h.register later).overlays.length ≤ key.toNat) →
      (∀ l ∈ (h.register later).overlays, l.label ≠ o.path) →
      (∃ key l, (h.register later).findOverlay? o.path = some key ∧
        (h.register later).overlay? key = some l ∧
        withoutSlashes l.path = withoutSlashes o.path) ∧
      ((h.register later).findOverlay? o.path = some k ↔ ∀ key l, key < k →
        (h.register later).overlay? key = some l →
          withoutSlashes l.path ≠ withoutSlashes o.path)) := by
  have hpaths : ((h.register later).overlays.map Overlay.path).Nodup := by
    have hbefore : ((new.register before).overlays.map Overlay.path).Nodup :=
      nodup_paths_register before new .nil
    have hself := nodup_paths_addOverlay o hbefore
    rw [hadd] at hself
    exact nodup_paths_register later h hself
  obtain ⟨l, hl, hpath⟩ := exists_overlay?_of_addOverlay hadd hsize
  have hlt : k.toNat < h.overlays.length := (List.getElem?_eq_some_iff.1 hl).1
  have hlater : (h.register later).overlays[k.toNat]? = some l := by
    obtain ⟨more, hmore⟩ := overlays_prefix_register later h
    rw [← hmore, List.getElem?_append_left hlt]
    exact hl
  refine ⟨⟨l, hlater, hpath⟩, ?_, fun hnumber hlabel => ?_⟩
  · intro key key' l l' hkey hkey' heq
    exact UInt32.toNat_inj.1 (place_eq_of_path_eq hpaths hkey hkey' heq)
  rw [← hpath] at hnumber hlabel ⊢
  obtain ⟨first, hle, hfind, ⟨m, hm, hsame⟩, hnot⟩ :=
    exists_findOverlay? hlater hnumber hlabel
  -- The place of the first such layer is not behind that of the layer, so it is one of a key.
  have hfirst : first.toUInt32.toNat = first := by
    rw [UInt32.toNat_ofNat', Nat.mod_eq_of_lt]
    exact Nat.lt_of_le_of_lt hle k.toNat_lt
  refine ⟨⟨first.toUInt32, m, hfind, ?_, hsame⟩, ?_, ?_⟩
  · unfold overlay?
    rwa [hfirst]
  · intro hfound key l' hkey hl'
    have hk : first.toUInt32 = k := Option.some_inj.1 (hfind.symm.trans hfound)
    have hplace : key.toNat < first := by
      rw [← hfirst, hk]
      exact UInt32.lt_iff_toNat_lt.1 hkey
    exact hnot key.toNat hplace l' hl'
  · intro hlower
    rw [hfind, Option.some_inj, ← UInt32.toNat_inj, hfirst]
    refine Nat.le_antisymm hle (Nat.le_of_not_lt fun hgt => ?_)
    refine hlower first.toUInt32 m ?_ ?_ hsame
    · rw [UInt32.lt_iff_toNat_lt, hfirst]
      exact hgt
    · unfold overlay?
      rwa [hfirst]

/-- A layer with a slash at the end of its path that is registered before one without. -/
theorem registered_layer_found_guru :
    (((new.register [⟨"/repos/gentoo", "gentoo"⟩]).addOverlay ⟨"/repos/guru/", "guru"⟩).1.register
      [⟨"/repos/guru", "other"⟩]).findOverlay? "/repos/guru/" = some 1 := by
  obtain ⟨-, -, hfound⟩ := registered_layer_found (o := ⟨"/repos/guru/", "guru"⟩)
    [⟨"/repos/gentoo", "gentoo"⟩] [⟨"/repos/guru", "other"⟩] rfl (by decide)
  have hnumber : keyOfText? "/repos/guru/" = none := by decide +kernel
  refine (hfound ?_ (by decide +kernel)).2.2 ?_
  · intro key hkey
    rw [hnumber] at hkey
    cases hkey
  · intro key l hkey hl
    -- The one key below is that of the first layer.
    have hzero : key.toNat = 0 := Nat.lt_one_iff.1 (UInt32.lt_iff_toNat_lt.1 hkey)
    unfold overlay? at hl
    rw [hzero] at hl
    cases hl
    decide +kernel

/-- So many layers, each with a path of its own. -/
def manyLayers (n : Nat) : List Overlay :=
  (List.range n).map fun i => ⟨String.ofList (List.replicate i 'a'), ""⟩

theorem nodup_paths_manyLayers (n : Nat) : ((manyLayers n).map Overlay.path).Nodup := by
  unfold manyLayers
  rw [List.map_map]
  refine List.nodup_range.map fun i j hij => ?_
  have hlength := congrArg String.length hij
  simpa using hlength

theorem notMem_paths_manyLayers (n : Nat) : "b" ∉ (manyLayers n).map Overlay.path := by
  intro hmem
  unfold manyLayers at hmem
  rw [List.map_map] at hmem
  obtain ⟨i, -, hi⟩ := List.mem_map.1 hmem
  have hb : 'b' ∈ List.replicate i 'a' := by
    have hchars := congrArg String.toList hi
    simp only [Function.comp_apply, String.toList_ofList] at hchars
    rw [hchars]
    decide
  exact absurd (List.eq_of_mem_replicate hb) (by decide)

/-- There are 2^32 keys: the layer that is registered after so many others shares the key of the
first. -/
theorem exists_shared_key : ∃ (before : List Overlay) (o l : Overlay),
    ((new.register before).addOverlay o).1.overlay? ((new.register before).addOverlay o).2 = some l ∧
      l.path ≠ o.path := by
  obtain ⟨n, hn⟩ : ∃ n, n = UInt32.size := ⟨_, rfl⟩
  have hpaths : (new.register (manyLayers n)).overlays.map Overlay.path =
      (manyLayers n).map Overlay.path :=
    paths_register (manyLayers n) new (nodup_paths_manyLayers n)
  have hlength : (new.register (manyLayers n)).overlays.length = n := by
    have hmap := congrArg List.length hpaths
    simpa [manyLayers] using hmap
  have hfirst : ((manyLayers n).map Overlay.path)[0]? = some "" := by
    rw [hn]
    simp [manyLayers, UInt32.size]
  rw [← hpaths, List.getElem?_map, Option.map_eq_some_iff] at hfirst
  obtain ⟨l, hl, hempty⟩ := hfirst
  have hzero : n.toUInt32.toNat = 0 := by
    rw [UInt32.toNat_ofNat', hn]
    exact Nat.mod_self _
  have hnew : "b" ∉ (new.register (manyLayers n)).overlays.map Overlay.path :=
    hpaths ▸ notMem_paths_manyLayers n
  refine ⟨manyLayers n, ⟨"b", ""⟩, l, ?_, ?_⟩
  · rw [addOverlay_of_notMem hnew, hlength]
    unfold overlay?
    dsimp only
    rw [hzero, List.getElem?_append_left (List.getElem?_eq_some_iff.1 hl).1]
    exact hl
  · rw [hempty]
    decide

/-- A path that is known up to a slash at its end gets a key of its own, under which it is not found
again. -/
theorem findOverlay?_passes_by_path :
    (new.register [⟨"/repos/guru", "guru"⟩]).findOverlay? "/repos/guru/" = some 0 ∧
    ((new.register [⟨"/repos/guru", "guru"⟩]).addOverlay ⟨"/repos/guru/", "guru"⟩).2 = 1 ∧
    keyOfText? "/repos/guru/" = none ∧
    (∀ l ∈ ((new.register [⟨"/repos/guru", "guru"⟩]).addOverlay
      ⟨"/repos/guru/", "guru"⟩).1.overlays, l.label ≠ "/repos/guru/") ∧
    ((new.register [⟨"/repos/guru", "guru"⟩]).addOverlay ⟨"/repos/guru/", "guru"⟩).1.findOverlay?
      "/repos/guru/" = some 0 := by
  decide +kernel

end PackageIndex.Header
