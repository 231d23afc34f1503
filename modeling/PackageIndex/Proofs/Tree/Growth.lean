import Mathlib.Logic.Relation
import PackageIndex.Proofs.Package.Releases
import PackageIndex.Proofs.Tree.Named
import PackageIndex.Tree.Basic

/-!
# Trees that grow

Whatever reads a layer into a tree does it in steps of one kind: one package gets ebuilds of the
layer, and is added, with its category, if it is missing; a package that is added gets at least one.
A tree grows by such steps. What a step keeps, growth keeps: names stay distinct, packages are of
the category that they stand in and have ebuilds, and nothing that was there is lost or moved.
-/

namespace PackageIndex

open Relation

/-! ## Steps -/

/-- A change of packages that adds ebuilds to their releases, one by one, and leaves their names. -/
structure Package.Adds (es : List Ebuild) (f : Package → Package) : Prop where
  category : ∀ p, (f p).category = p.category
  name : ∀ p, (f p).name = p.name
  releases : ∀ p, (f p).releases = p.releases.insertAll es

namespace Package.Adds

variable {es us : List Ebuild} {f g : Package → Package}

theorem refl : Adds [] id :=
  ⟨fun _ => rfl, fun _ => rfl, fun _ => rfl⟩

theorem trans (hf : Adds es f) (hg : Adds us g) : Adds (es ++ us) fun p => g (f p) := by
  refine ⟨fun p => ?_, fun p => ?_, fun p => ?_⟩
  · rw [hg.category, hf.category]
  · rw [hg.name, hf.name]
  · rw [hg.releases, hf.releases, Releases.insertAll_append]

theorem ite {c : Package → Prop} [DecidablePred c] (hf : Adds es f) (hg : Adds es g) :
    Adds es fun p => if c p then f p else g p := by
  refine ⟨fun p => ?_, fun p => ?_, fun p => ?_⟩
  · split
    · exact hf.category p
    · exact hg.category p
  · split
    · exact hf.name p
    · exact hg.name p
  · split
    · exact hf.releases p
    · exact hg.releases p

theorem add (e : Ebuild) : Adds [e] fun p => p.add e :=
  ⟨fun _ => rfl, fun _ => rfl, fun _ => rfl⟩

theorem addUseFlags (flags : List String) : Adds [] fun p => p.addUseFlags flags :=
  ⟨fun _ => rfl, fun _ => rfl, fun _ => rfl⟩

end Package.Adds

/-- A package of the category gets ebuilds of a layer, at least one if it is new. -/
def Category.Gains (key : OverlayKey) (c c' : Category) : Prop :=
  ∃ name f es, Package.Adds es f ∧ (∀ e ∈ es, e.overlay = key) ∧
    (es = [] → c.find? name ≠ none) ∧ c' = c.update name f

/-- Packages of the category get ebuilds of a layer. -/
abbrev Category.Grows (key : OverlayKey) : Category → Category → Prop :=
  ReflTransGen (Category.Gains key)

/-- A category of the tree grows, from an empty one if it is new. -/
def Tree.Gains (key : OverlayKey) (t t' : Tree) : Prop :=
  ∃ name g, (∀ c, Category.Grows key c (g c)) ∧ t' = t.update name g

/-- Categories of the tree get ebuilds of a layer. -/
abbrev Tree.Grows (key : OverlayKey) : Tree → Tree → Prop :=
  ReflTransGen (Tree.Gains key)

variable {key : OverlayKey} {c c' : Category} {t t' : Tree}

theorem Category.Grows.name (h : Grows key c c') : c'.name = c.name := by
  induction h with
  | refl => rfl
  | tail _ hstep ih =>
    obtain ⟨name, f, es, -, -, -, rfl⟩ := hstep
    exact ih

/-! ## What holds of all packages -/

/-- A step keeps what holds of all packages, if the change of the one package keeps it and
establishes it for a package that is new. -/
theorem Category.Gains.forall_packages {P : Package → Prop} (h : Gains key c c')
    (hold : ∀ es f p, Package.Adds es f → (∀ e ∈ es, e.overlay = key) → P p → P (f p))
    (hnew : ∀ es f name, Package.Adds es f → (∀ e ∈ es, e.overlay = key) → es ≠ [] →
      P (f { category := c.name, name }))
    (hc : ∀ p ∈ c.packages, P p) : ∀ p ∈ c'.packages, P p := by
  obtain ⟨name, f, es, hf, hes, hne, rfl⟩ := h
  intro p hp
  rcases Named.mem_upsert hp with hp | rfl
  · exact hc p hp
  · cases hfind : Named.find? Package.name name c.packages with
    | none => exact hnew es f name hf hes (fun hnil => hne hnil hfind)
    | some q => exact hold es f q hf hes (hc q (List.mem_of_find?_eq_some hfind))

/-- What holds of a category without packages and is kept while categories grow holds of all
categories of a tree that grows. -/
theorem Tree.Grows.forall_categories {P : Category → Prop} (h : Grows key t t')
    (hempty : ∀ name, P { name }) (hgrows : ∀ c c', Category.Grows key c c' → P c → P c')
    (ht : ∀ c ∈ t.categories, P c) : ∀ c ∈ t'.categories, P c := by
  induction h with
  | refl => exact ht
  | tail _ hstep ih =>
    obtain ⟨name, g, hg, rfl⟩ := hstep
    exact Named.forall_upsert (hempty name) (fun c hc => hgrows c (g c) (hg c) hc) ih

/-- What holds of no ebuilds and is kept by the addition of one of the layer holds of the releases
of all packages of a category that grows. -/
theorem Category.Grows.forall_releases {P : Releases → Prop} (h : Grows key c c') (hempty : P .empty)
    (hinsert : ∀ r e, e.overlay = key → P r → P (r.insert e)) (hc : ∀ p ∈ c.packages, P p.releases) :
    ∀ p ∈ c'.packages, P p.releases := by
  have hall : ∀ es f p, Package.Adds es f → (∀ e ∈ es, e.overlay = key) → P p.releases →
      P (f p).releases := by
    intro es f p hf hes hp
    rw [hf.releases]
    exact Releases.insertAll_induction (fun r e he => hinsert r e (hes e he)) hp
  induction h with
  | refl => exact hc
  | tail _ hstep ih =>
    exact hstep.forall_packages hall (fun es f name hf hes _ => hall es f _ hf hes hempty) ih

theorem Tree.Grows.forall_releases {P : Releases → Prop} (h : Grows key t t') (hempty : P .empty)
    (hinsert : ∀ r e, e.overlay = key → P r → P (r.insert e))
    (ht : ∀ c ∈ t.categories, ∀ p ∈ c.packages, P p.releases) :
    ∀ c ∈ t'.categories, ∀ p ∈ c.packages, P p.releases := by
  refine h.forall_categories (fun _ _ hp => nomatch hp) (fun c c' hgrows hc => ?_) ht
  exact hgrows.forall_releases hempty hinsert hc

/-! ## Names -/

/-- No two categories of the tree have one name, and no two packages of a category. -/
structure Tree.NamesDistinct (t : Tree) : Prop where
  categories : (t.categories.map Category.name).Nodup
  packages : ∀ c ∈ t.categories, (c.packages.map Package.name).Nodup

theorem Category.Grows.nodup_packages (h : Grows key c c') (hc : (c.packages.map Package.name).Nodup) :
    (c'.packages.map Package.name).Nodup := by
  induction h with
  | refl => exact hc
  | tail _ hstep ih =>
    obtain ⟨name, f, es, hf, -, -, rfl⟩ := hstep
    exact Named.nodup_map_upsert (fun p hp => (hf.name p).trans hp) (by rfl) ih

theorem Tree.Grows.nodup_categories (h : Grows key t t')
    (ht : (t.categories.map Category.name).Nodup) : (t'.categories.map Category.name).Nodup := by
  induction h with
  | refl => exact ht
  | tail _ hstep ih =>
    obtain ⟨name, g, hg, rfl⟩ := hstep
    exact Named.nodup_map_upsert (fun c hc => (hg c).name.trans hc) (by rfl) ih

theorem Tree.Grows.namesDistinct (h : Grows key t t') (ht : t.NamesDistinct) :
    t'.NamesDistinct :=
  ⟨h.nodup_categories ht.categories,
    h.forall_categories (fun _ => .nil) (fun _ _ hc => hc.nodup_packages) ht.packages⟩

/-- Every package is of the category that it stands in, and has ebuilds. -/
def Category.Occupied (c : Category) : Prop :=
  ∀ p ∈ c.packages, p.category = c.name ∧ p.ebuilds ≠ []

theorem Category.Grows.occupied (h : Grows key c c') (hc : c.Occupied) : c'.Occupied := by
  induction h with
  | refl => exact hc
  | @tail b d hbc hstep ih =>
    have hname : d.name = b.name := (Grows.name (.single hstep) :)
    unfold Occupied at ih ⊢
    rw [hname]
    refine hstep.forall_packages (P := fun p => p.category = b.name ∧ p.ebuilds ≠ []) ?_ ?_ ih
    · intro es f p hf _ hp
      refine ⟨(hf.category p).trans hp.1, ?_⟩
      unfold Package.ebuilds
      rw [hf.releases]
      exact Releases.insertAll_ne_nil (.inl hp.2)
    · intro es f name hf _ hne
      refine ⟨hf.category _, ?_⟩
      unfold Package.ebuilds
      rw [hf.releases]
      exact Releases.insertAll_ne_nil (.inr hne)

/-! ## What was there before -/

/-- The package is still there: its ebuilds are among those of the other, in their order. -/
structure Package.KeptIn (p q : Package) : Prop where
  category : q.category = p.category
  name : q.name = p.name
  ebuilds : p.ebuilds.Sublist q.ebuilds

/-- The category is still there, with its packages in their places. -/
structure Category.KeptIn (c d : Category) : Prop where
  name : d.name = c.name
  packages : ∀ (i : Nat) p, c.packages[i]? = some p → ∃ q, d.packages[i]? = some q ∧ p.KeptIn q

/-- The categories of the tree are still there, in their places. -/
def Tree.KeptIn (t u : Tree) : Prop :=
  ∀ (i : Nat) c, t.categories[i]? = some c → ∃ d, u.categories[i]? = some d ∧ c.KeptIn d

theorem Package.KeptIn.refl (p : Package) : p.KeptIn p :=
  ⟨rfl, rfl, .refl _⟩

theorem Package.KeptIn.trans {p q r : Package} (h : p.KeptIn q) (h' : q.KeptIn r) : p.KeptIn r :=
  ⟨h'.category.trans h.category, h'.name.trans h.name, h.ebuilds.trans h'.ebuilds⟩

theorem Category.KeptIn.refl (c : Category) : c.KeptIn c :=
  ⟨rfl, fun _ p hp => ⟨p, hp, .refl p⟩⟩

theorem Category.KeptIn.trans {d : Category} (h : c.KeptIn c') (h' : c'.KeptIn d) : c.KeptIn d := by
  refine ⟨h'.name.trans h.name, fun i p hp => ?_⟩
  obtain ⟨q, hq, hpq⟩ := h.packages i p hp
  obtain ⟨r, hr, hqr⟩ := h'.packages i q hq
  exact ⟨r, hr, hpq.trans hqr⟩

theorem Package.Adds.keptIn {es : List Ebuild} {f : Package → Package} (h : Package.Adds es f)
    (p : Package) : p.KeptIn (f p) := by
  refine ⟨h.category p, h.name p, ?_⟩
  unfold ebuilds
  rw [h.releases]
  exact Releases.sublist_insertAll es p.releases

theorem Category.Grows.keptIn (h : Grows key c c') : c.KeptIn c' := by
  induction h with
  | refl => exact .refl _
  | tail _ hstep ih =>
    obtain ⟨name, f, es, hf, -, -, rfl⟩ := hstep
    refine ih.trans ⟨rfl, fun i p hp => ?_⟩
    rcases Named.getElem?_upsert hp with hi | ⟨-, hi⟩
    · exact ⟨p, hi, .refl p⟩
    · exact ⟨f p, hi, hf.keptIn p⟩

theorem Tree.Grows.keptIn (h : Grows key t t') : t.KeptIn t' := by
  induction h with
  | refl => exact fun _ c hc => ⟨c, hc, .refl c⟩
  | tail _ hstep ih =>
    obtain ⟨name, g, hg, rfl⟩ := hstep
    intro i c hc
    obtain ⟨d, hd, hcd⟩ := ih i c hc
    rcases Named.getElem?_upsert hd with hi | ⟨-, hi⟩
    · exact ⟨d, hi, hcd⟩
    · exact ⟨g d, hi, hcd.trans (hg d).keptIn⟩

end PackageIndex
