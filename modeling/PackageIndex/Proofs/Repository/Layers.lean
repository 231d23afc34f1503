import PackageIndex.Proofs.Database.Decoding
import PackageIndex.Repository.Build

/-!
# The keys of repositories

A repository is registered under its path, and a path that is known keeps its key. So the key of a
repository can be told from the header in the end (`registers_addRepositories`), and as long as the
keys do not run out, repositories with different paths have different keys (`keyOf_injOn`).
-/

namespace PackageIndex

namespace Header

variable {h h' : Header} {o : Overlay} {path path' : String}

/-- The key of the first layer with a path. -/
def keyOf (h : Header) (path : String) : OverlayKey :=
  (h.overlays.findIdx fun o => o.path == path).toUInt32

/-- Whether a layer has the path. -/
def Knows (h : Header) (path : String) : Prop :=
  ∃ o ∈ h.overlays, o.path = path

theorem Knows.mono (hp : h.overlays <+: h'.overlays) (hk : h.Knows path) : h'.Knows path := by
  obtain ⟨o, ho, hpath⟩ := hk
  exact ⟨o, hp.subset ho, hpath⟩

theorem findIdx_lt_of_knows (hk : h.Knows path) :
    (h.overlays.findIdx fun o => o.path == path) < h.overlays.length := by
  obtain ⟨o, ho, hpath⟩ := hk
  exact List.findIdx_lt_length_of_exists ⟨o, ho, beq_iff_eq.2 hpath⟩

/-- More layers leave the key of a known path. -/
theorem keyOf_of_extends (hp : h.overlays <+: h'.overlays) (hk : h.Knows path) :
    h'.keyOf path = h.keyOf path := by
  obtain ⟨more, hmore⟩ := hp
  unfold keyOf
  rw [← hmore, List.findIdx_append, if_pos (findIdx_lt_of_knows hk)]

theorem addOverlay_spec (h : Header) (o : Overlay) :
    h.overlays <+: (h.addOverlay o).1.overlays ∧ (h.addOverlay o).1.Knows o.path ∧
      (h.addOverlay o).2 = (h.addOverlay o).1.keyOf o.path ∧
      (h.addOverlay o).1.overlays.length ≤ h.overlays.length + 1 := by
  unfold addOverlay
  cases hf : h.overlays.findIdx? fun known => known.path == o.path with
  | some i =>
    obtain ⟨hlt, hi⟩ := List.findIdx?_eq_some_iff_findIdx_eq.1 hf
    have hpath := List.findIdx_getElem (w := hi ▸ hlt)
    refine ⟨List.prefix_rfl, ⟨_, List.getElem_mem _, beq_iff_eq.1 hpath⟩, ?_, Nat.le_succ _⟩
    unfold keyOf
    rw [hi]
  | none =>
    refine ⟨List.prefix_append _ _, ⟨o, by simp, rfl⟩, ?_, by simp⟩
    have hnone : (h.overlays.findIdx fun known => known.path == o.path) = h.overlays.length :=
      List.findIdx_eq_length.2 (List.findIdx?_eq_none_iff.1 hf)
    unfold keyOf
    rw [List.findIdx_append, hnone, if_neg (Nat.lt_irrefl _)]
    simp

/-- A layer whose path is not known is put last, and its place is its key. -/
theorem addOverlay_of_notMem (hk : o.path ∉ h.overlays.map Overlay.path) :
    h.addOverlay o =
      ({ h with overlays := h.overlays ++ [o] }, h.overlays.length.toUInt32) := by
  have hnone : (h.overlays.findIdx? fun known => known.path == o.path) = none := by
    refine List.findIdx?_eq_none_iff.2 fun known hknown => beq_eq_false_iff_ne.2 fun heq => ?_
    exact hk (heq ▸ List.mem_map_of_mem hknown)
  unfold addOverlay
  rw [hnone]

/-- A path that is not known becomes that of a last layer. -/
theorem paths_addOverlay (hk : o.path ∉ h.overlays.map Overlay.path) :
    (h.addOverlay o).1.overlays.map Overlay.path = h.overlays.map Overlay.path ++ [o.path] := by
  rw [addOverlay_of_notMem hk]
  exact List.map_append

theorem toNat_toUInt32_le (n : Nat) : n.toUInt32.toNat ≤ n := by
  rw [UInt32.toNat_ofNat']
  exact Nat.mod_le n _

/-- The key of a known path is one of the table, whatever the number of layers. -/
theorem toNat_keyOf_lt (hk : h.Knows path) : (h.keyOf path).toNat < h.overlays.length :=
  Nat.lt_of_le_of_lt (toNat_toUInt32_le _) (findIdx_lt_of_knows hk)

/-! If there are not more layers than keys, a key is the place of its layer. -/

section

variable (hsize : h.overlays.length ≤ UInt32.size)

include hsize

theorem toNat_keyOf (hk : h.Knows path) :
    (h.keyOf path).toNat = h.overlays.findIdx fun o => o.path == path := by
  unfold keyOf
  rw [UInt32.toNat_ofNat', Nat.mod_eq_of_lt (Nat.lt_of_lt_of_le (findIdx_lt_of_knows hk) hsize)]

theorem overlay?_keyOf (hk : h.Knows path) :
    ∃ o, h.overlay? (h.keyOf path) = some o ∧ o.path = path := by
  have hlt := findIdx_lt_of_knows hk
  refine ⟨_, ?_, beq_iff_eq.1 (List.findIdx_getElem (w := hlt))⟩
  unfold overlay?
  rw [toNat_keyOf hsize hk]
  exact List.getElem?_eq_getElem hlt

theorem keyOf_injOn (hk : h.Knows path) (hk' : h.Knows path')
    (heq : h.keyOf path = h.keyOf path') : path = path' := by
  obtain ⟨o, ho, rfl⟩ := overlay?_keyOf hsize hk
  obtain ⟨o', ho', rfl⟩ := overlay?_keyOf hsize hk'
  rw [heq, ho'] at ho
  cases ho
  rfl

/-- Layers with different paths have ascending keys. -/
theorem pairwise_keyOf (hpaths : (h.overlays.map Overlay.path).Nodup) :
    (h.overlays.map Overlay.path).Pairwise fun path path' => h.keyOf path ≤ h.keyOf path' := by
  have hplace : ∀ (i : Nat) (hi : i < (h.overlays.map Overlay.path).length),
      (h.keyOf (h.overlays.map Overlay.path)[i]).toNat = i := by
    intro i hi
    have hk : h.Knows (h.overlays.map Overlay.path)[i] := List.mem_map.1 (List.getElem_mem hi)
    have hidx := hpaths.idxOf_getElem i hi
    unfold List.idxOf at hidx
    rw [List.findIdx_map] at hidx
    exact (toNat_keyOf hsize hk).trans hidx
  refine List.pairwise_iff_getElem.2 fun i j hi hj hij => ?_
  rw [UInt32.le_iff_toNat_le, hplace i hi, hplace j hj]
  exact Nat.le_of_lt hij

end

end Header

namespace BuildConfig

variable {config : BuildConfig} {fs : FileSystem} {h : Header}

/-- The repositories, the main one first. -/
def repositories (config : BuildConfig) : List String :=
  config.mainRepository :: config.overlays

/-- The metadata cache of a repository that has its key from a header. -/
def cacheOf (config : BuildConfig) (h : Header) (root : String) : MetadataCache where
  root := root
  key := h.keyOf root
  arch := config.arch
  withDependencies := config.withDependencies

/-- What registering repositories under a header comes to: layers are only added, at most one for
each, and every repository gets the key that its path has in the end. -/
structure Registers (config : BuildConfig) (roots : List String) (h h' : Header)
    (sources : List Source) : Prop where
  keeps : h.overlays <+: h'.overlays
  length_le : h'.overlays.length ≤ h.overlays.length + roots.length
  knows : ∀ root ∈ roots, h'.Knows root
  paths_eq : (h.overlays.map Overlay.path ++ roots).Nodup →
    h'.overlays.map Overlay.path = h.overlays.map Overlay.path ++ roots
  sources_eq : sources = roots.map fun root => .cache (config.cacheOf h' root)

theorem registers_addRepositories (config : BuildConfig) (fs : FileSystem) (roots : List String) :
    ∀ h : Header,
    config.Registers roots h (config.addRepositories fs h roots).1
      (config.addRepositories fs h roots).2 := by
  induction roots with
  | nil =>
    intro h
    exact ⟨List.prefix_rfl, Nat.le_refl _, nofun, fun _ => (List.append_nil _).symm, rfl⟩
  | cons root roots ih =>
    intro h
    obtain ⟨hkeeps, hknows, hkey, hlength⟩ := h.addOverlay_spec ⟨root, repositoryLabel fs root⟩
    have hpaths := Header.paths_addOverlay (h := h) (o := ⟨root, repositoryLabel fs root⟩)
    have hrest := ih (h.addOverlay ⟨root, repositoryLabel fs root⟩).1
    unfold addRepositories addRepository
    dsimp only
    generalize h.addOverlay ⟨root, repositoryLabel fs root⟩ = first at *
    generalize config.addRepositories fs first.1 roots = rest at *
    have hfirst : rest.1.Knows root := hknows.mono hrest.keeps
    refine ⟨hkeeps.trans hrest.keeps, ?_, ?_, ?_, ?_⟩
    · have hle := hrest.length_le
      rw [List.length_cons]
      omega
    · intro r hr
      rcases List.mem_cons.1 hr with rfl | hr
      · exact hfirst
      · exact hrest.knows r hr
    · intro hnodup
      have hroot : root ∉ h.overlays.map Overlay.path := fun hmem =>
        (List.nodup_append.1 hnodup).2.2 root hmem root List.mem_cons_self rfl
      have hsplit := List.append_cons (h.overlays.map Overlay.path) root roots
      rw [hsplit, ← hpaths hroot] at hnodup ⊢
      exact hrest.paths_eq hnodup
    · rw [List.map_cons, ← hrest.sources_eq]
      unfold cacheOf
      rw [Header.keyOf_of_extends hrest.keeps hknows, ← hkey]

/-- The imports are registered behind the repositories; each has a key of the table. -/
theorem addImports_spec (fs : FileSystem) (requests : List ImportRequest) :
    ∀ (h h' : Header) (sources : List Source), addImports fs h requests = .ok (h', sources) →
      h.overlays <+: h'.overlays ∧ ∀ s ∈ sources, ∃ file : DatabaseImport,
        s = .database file ∧ file.key.toNat < h'.overlays.length := by
  induction requests with
  | nil =>
    intro h h' sources hadd
    cases hadd
    exact ⟨List.prefix_rfl, nofun⟩
  | cons request requests ih =>
    intro h h' sources hadd
    obtain ⟨o, -, hadd⟩ := Decoder.bind_eq_ok hadd
    obtain ⟨⟨h₂, others⟩, hothers, hadd⟩ := Decoder.bind_eq_ok hadd
    cases hadd
    obtain ⟨hkeeps, hknows, hkey, -⟩ := h.addOverlay_spec o
    obtain ⟨hrest, hkeys⟩ := ih _ _ _ hothers
    refine ⟨hkeeps.trans hrest, fun s hs => ?_⟩
    rcases List.mem_cons.1 hs with rfl | hs
    · refine ⟨_, rfl, ?_⟩
      have hlt := Header.toNat_keyOf_lt hknows
      rw [← hkey] at hlt
      exact Nat.lt_of_lt_of_le hlt hrest.length_le
    · exact hkeys s hs

end BuildConfig

end PackageIndex
