import PackageIndex.Database.Basic
import PackageIndex.Proofs.Database.Cursor

/-!
# What a successful read sees to

Whoever wrote the bytes, a database that is read has the current format and as many categories and
packages as its header announces, its packages carry the name of their category, and there are no
dependencies where the header says that none are stored (`ensures_read`). What else holds of every
tree, such as the order and the normal form of releases, is part of its type.
-/

namespace PackageIndex

open Decoder (Ensures)

namespace Record

variable (h : Header)

theorem ensures_readEbuild :
    (readEbuild h).Ensures fun e => h.storesDependencies = false → e.depend = none := by
  refine .last fun _ => .last fun _ => .last fun _ => .last fun _ => .last fun _ => .last fun _ => ?_
  refine .last fun _ => .last fun _ => .last fun _ => .last fun _ => .ite (fun hs => ?_) fun _ => ?_
  · refine .last fun _ => .pure fun hs' => ?_
    rw [hs] at hs'
    cases hs'
  · exact (Ensures.pure (P := (· = none)) rfl).bind fun depend hd => .pure fun _ => hd

theorem ensures_readReleases (p : Package) :
    (readReleases h p).Ensures fun q =>
      q.category = p.category ∧ q.asStored h.storesDependencies = q := by
  refine .last fun count => ((ensures_readEbuild h).repeated count.toNat).bind fun es hes => ?_
  refine .pure ⟨rfl, Package.asStored_eq_self fun hs u hu => ?_⟩
  obtain ⟨e, he, rfl⟩ := Releases.mem_ofList.1 hu
  show Dependencies.normalize e.depend = none
  rw [hes.2 e he hs]
  rfl

theorem ensures_readPackage (category : String) :
    (readPackage h category .full).Ensures fun p =>
      p.category = category ∧ p.asStored h.storesDependencies = p := by
  have hm : ∀ p, (readMetadata h p).Ensures fun q => q.category = p.category :=
    fun p i q i' hr => (fields_of_readMetadata hr).1
  refine .last fun stop => .last fun name => (hm _).bind fun p hp => ?_
  refine (ensures_readReleases h p).bind fun q hq => .last fun position => ?_
  exact .ite (fun _ => .pure ⟨hq.1.trans hp, hq.2⟩) fun _ => .throw _

end Record

/-- What holds of a category that is read under a header: its packages carry its name, and what the
header does not store is not there. -/
structure Category.ReadUnder (h : Header) (c : Category) : Prop where
  named : ∀ p ∈ c.packages, p.category = c.name
  stored : c.asStored h.storesDependencies = c

theorem Record.ensures_readCategory (h : Header) :
    (readCategory h).Ensures (Category.ReadUnder h) := by
  refine .last fun (name, count) => ?_
  refine ((ensures_readPackage h name).repeated count.toNat).bind fun ps hps => .pure ?_
  exact ⟨fun p hp => (hps.2 p hp).1, Category.asStored_eq_self fun p hp => (hps.2 p hp).2⟩

theorem Header.ensures_read (name : String) :
    (Header.read name).Ensures fun h => h.version = currentVersion := by
  have hv : (readVersion name).Ensures (· = currentVersion) := by
    refine .last fun version => .ite (fun _ => .throw _) fun hlow => ?_
    refine .ite (fun _ => .throw _) fun hhigh => .pure ?_
    exact UInt64.le_antisymm (UInt64.not_lt.1 hhigh) (UInt64.not_lt.1 hlow)
  refine .last fun _ => hv.bind fun version hversion => .last fun _ => .last fun _ => ?_
  exact .last fun _ => .last fun _ => .last fun _ => .last fun _ => .pure hversion

/-- What a header says about a tree: its format is current, its counts are those of the tree, and the
tree has no more than is stored under it. -/
structure Header.Describes (h : Header) (t : Tree) : Prop where
  version : h.version = currentVersion
  categoryCount : t.categories.length = h.categoryCount.toNat
  packageCount : t.packages.length = h.packageCount.toNat
  categories : ∀ c ∈ t.categories, c.ReadUnder h

namespace Database

theorem ensures_readCategories (h : Header) (found n : Nat) :
    (readCategories h found n).Ensures fun (cs, total) =>
      cs.length = n ∧ total = found + (cs.flatMap Category.packages).length ∧
        ∀ c ∈ cs, c.ReadUnder h := by
  induction n generalizing found with
  | zero => exact .pure ⟨rfl, rfl, fun c hc => absurd hc List.not_mem_nil⟩
  | succ n ih =>
    refine (Record.ensures_readCategory h).bind fun c hc => .ite (fun _ => ?_) fun _ => .throw _
    refine (ih _).bind fun (cs, total) ⟨hl, ht, hcs⟩ => .pure ⟨congrArg Nat.succ hl, ?_, ?_⟩
    · rw [ht, List.flatMap_cons, List.length_append, Nat.add_assoc]
    · intro d hd
      rcases List.mem_cons.1 hd with rfl | hd
      · exact hc
      · exact hcs d hd

theorem ensures_read (name : String) : (read name).Ensures fun (h, t) => h.Describes t := by
  refine (Header.ensures_read name).bind fun h hv => ?_
  refine (ensures_readCategories h 0 _).bind fun (cs, total) ⟨hl, ht, hcs⟩ => ?_
  refine .ite (fun hcount => .pure ⟨hv, hl, ?_, hcs⟩) fun _ => .throw _
  rw [← hcount, ht, Nat.zero_add]
  rfl

theorem describes_of_decode {name : String} {bytes : List UInt8} {h : Header} {t : Tree}
    (hd : decode name bytes = .ok (h, t)) : h.Describes t := by
  cases hr : (read name).run (.ofBytes bytes) with
  | error e =>
    have he : decode name bytes = .error e := congrArg (Except.map Prod.fst) hr
    rw [hd] at he
    cases he
  | ok r =>
    obtain ⟨⟨k, u⟩, i⟩ := r
    have hok : decode name bytes = .ok (k, u) := congrArg (Except.map Prod.fst) hr
    rw [hd] at hok
    cases hok
    exact ensures_read name _ _ _ hr

end Database

end PackageIndex
