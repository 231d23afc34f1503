import Mathlib.Algebra.BigOperators.Group.List.Basic
import Mathlib.Data.List.Perm.Subperm
import PackageIndex.Proofs.Database.CompleteRead
import PackageIndex.Proofs.Database.Headers

/-!
# What is read is paid for in bytes

A database may declare any counts, but every overlay, dictionary entry, category, package, release and
USE flag that is read from it has taken at least one byte of its own. The count goes along with the
reader: what has been passed so far is a credit, from which the value that is put together at the end
is paid (`Pays`). So a database has no more items than bytes (`itemCount_le_of_decode`).
-/

namespace PackageIndex

open Decoder (Advances)

variable {α β : Type}

/-! ## Credit -/

namespace Decoder

/-- Wherever the decoder succeeds, the bytes that it has passed, together with the credit, cover the
cost of its value. -/
def Pays (d : Decoder α) (credit : Nat) (cost : α → Nat) : Prop :=
  ∀ i a i', d.run i = .ok (a, i') → i.offset + cost a ≤ i'.offset + credit

theorem Advances.pays {d : Decoder α} (hd : d.Advances) (credit : Nat) :
    d.Pays credit fun _ => credit :=
  fun _ _ _ h => Nat.add_le_add_right (hd.le h) credit

namespace Pays

variable {d d' : Decoder α} {f : α → Decoder β} {credit credit' : Nat} {cost cost' : α → Nat}
  {total : β → Nat}

theorem pure {a : α} (h : cost a ≤ credit) : Decoder.Pays (Pure.pure a) credit cost := by
  intro i b i' hr
  cases hr
  exact Nat.add_le_add_left h _

theorem throw (e : Error) : Decoder.Pays (throw e : Decoder α) credit cost := by
  intro i a i' hr
  cases hr

/-- What the first step is worth can be spent on the value of the second. -/
theorem trans (hd : d.Pays credit cost) (hf : ∀ a, (f a).Pays (cost a) total) :
    Decoder.Pays (d >>= f) credit total := by
  intro i b i'' hr
  obtain ⟨a, i', h₁, h₂⟩ := run_bind_eq_ok hr
  have hfirst := hd i a i' h₁
  have hsecond := hf a i' b i'' h₂
  omega

/-- A first step that is paid for by its own bytes leaves the credit as it is. -/
theorem bind (hd : d.Pays 0 cost) (hf : ∀ a, (f a).Pays (credit + cost a) total) :
    Decoder.Pays (d >>= f) credit total := by
  have hadd : d.Pays credit fun a => credit + cost a := by
    intro i a i' hr
    have hle := hd i a i' hr
    dsimp only
    omega
  exact hadd.trans hf

/-- A first step that counts for nothing. -/
theorem after (hd : d.Advances) (hf : ∀ a, (f a).Pays credit total) :
    Decoder.Pays (d >>= f) credit total :=
  (hd.pays credit).trans hf

theorem ite {c : Prop} [Decidable c] (hd : d.Pays credit cost) (hd' : d'.Pays credit cost) :
    Decoder.Pays (if c then d else d') credit cost := by
  split
  · exact hd
  · exact hd'

theorem mono (hd : d.Pays credit cost) (hcredit : credit ≤ credit')
    (hcost : ∀ a, cost' a ≤ cost a) : d.Pays credit' cost' := by
  intro i a i' hr
  have hle := hd i a i' hr
  have hcost := hcost a
  omega

theorem repeated (hd : d.Pays 0 cost) (count : Nat) :
    (Decoder.repeated d count).Pays 0 fun as => (as.map cost).sum := by
  induction count with
  | zero => exact pure (Nat.le_refl 0)
  | succ count ih =>
    refine hd.bind fun a => ih.bind fun as => pure ?_
    rw [List.map_cons, List.sum_cons, Nat.zero_add]

theorem repeated_length (hd : d.Pays 0 fun _ => 1) (count : Nat) :
    (Decoder.repeated d count).Pays 0 List.length := by
  refine (hd.repeated count).mono (Nat.le_refl 0) fun as => ?_
  rw [List.map_const', List.sum_replicate_nat, Nat.mul_one]

end Pays

end Decoder

open Decoder (Pays)

/-! ## What is counted -/

/-- The number of entries of all dictionaries. -/
def Dictionaries.entryCount (d : Dictionaries) : Nat :=
  (d.toList.map Dictionary.size).sum

/-- The number of layers and dictionary entries of a header. -/
def Header.itemCount (h : Header) : Nat :=
  h.overlays.length + h.dictionaries.entryCount

/-- An ebuild with its USE flags. -/
def Ebuild.itemCount (e : Ebuild) : Nat :=
  1 + e.iuse.length

/-- A package with its USE flags and ebuilds. -/
def Package.itemCount (p : Package) : Nat :=
  1 + p.useFlags.toList.length + (p.ebuilds.map Ebuild.itemCount).sum

/-- A category with its packages. -/
def Category.itemCount (c : Category) : Nat :=
  1 + (c.packages.map Package.itemCount).sum

/-- All categories of a tree. -/
def Tree.itemCount (t : Tree) : Nat :=
  (t.categories.map Category.itemCount).sum

theorem Package.sum_itemCount (ps : List Package) :
    (ps.map itemCount).sum = ps.length + (ps.flatMap fun p => p.useFlags.toList).length +
      (ps.flatMap ebuilds).length + ((ps.flatMap ebuilds).flatMap Ebuild.iuse).length := by
  have hebuilds : ∀ es : List Ebuild,
      (es.map Ebuild.itemCount).sum = es.length + (es.flatMap Ebuild.iuse).length := by
    intro es
    induction es with
    | nil => rfl
    | cons e es ih =>
      rw [List.map_cons, List.sum_cons, ih, List.flatMap_cons, List.length_append, List.length_cons,
        Ebuild.itemCount]
      omega
  induction ps with
  | nil => rfl
  | cons p ps ih =>
    simp only [List.map_cons, List.sum_cons, ih, List.flatMap_cons, List.flatMap_append,
      List.length_append, List.length_cons, itemCount, hebuilds]
    omega

/-- The items of a tree are its categories, packages, ebuilds and USE flags. -/
theorem Tree.itemCount_eq (t : Tree) : t.itemCount =
    t.categories.length + t.packages.length +
      (t.packages.flatMap fun p => p.useFlags.toList).length +
      (t.packages.flatMap Package.ebuilds).length +
      ((t.packages.flatMap Package.ebuilds).flatMap Ebuild.iuse).length := by
  have hcategories : ∀ cs : List Category, (cs.map Category.itemCount).sum =
      cs.length + ((cs.flatMap Category.packages).map Package.itemCount).sum := by
    intro cs
    induction cs with
    | nil => rfl
    | cons c cs ih =>
      rw [List.map_cons, List.sum_cons, ih, List.flatMap_cons, List.map_append, List.sum_append,
        List.length_cons, Category.itemCount]
      omega
  rw [itemCount, hcategories, ← packages, Package.sum_itemCount]
  omega

/-- A set has no more members than the list that it is made of. -/
theorem WordSet.length_toList_ofList_le (ws : List String) :
    (WordSet.ofList ws).toList.length ≤ ws.length := by
  have hnodup : (WordSet.ofList ws).toList.Nodup :=
    (WordSet.ofList ws).ascending.imp fun hlt => String.ne_of_lt hlt
  refine (hnodup.subperm fun w hw => ?_).length_le
  exact (WordSet.mem_insertAll.1 hw).resolve_left List.not_mem_nil

theorem Releases.sum_itemCount_ofList (es : List Ebuild) :
    ((Releases.ofList es).toList.map Ebuild.itemCount).sum = (es.map Ebuild.itemCount).sum := by
  have hperm : (Releases.ofList es).toList.Perm (es.map Ebuild.normalize) := by
    have hall := Releases.perm_insertAll es .empty
    rwa [Releases.empty, List.append_nil] at hall
  rw [(hperm.map _).sum_eq, List.map_map]
  rfl

/-! ## Fields -/

theorem Number.pays_read : Number.read.Pays 0 fun _ => 1 := by
  intro i n i' hr
  obtain ⟨-, ho⟩ := Number.read_eq_ok_iff.1 hr
  have hpos := Number.length_encode_pos n
  dsimp only
  omega

namespace Field

theorem pays_readText : readText.Pays 0 fun _ => 1 := by
  refine Number.pays_read.bind fun _ => Advances.pays ?_ 1
  refine (Advances.upTo _).bind fun bytes => (Advances.throw _).ite ?_
  split
  · exact Advances.pure _
  · exact Advances.throw _

theorem pays_readEntry (d : Dictionary) : (readEntry d).Pays 0 fun _ => 1 :=
  Number.pays_read.bind fun _ => (Advances.require _ _).pays 1

theorem pays_readEntries (d : Dictionary) : (readEntries d).Pays 0 List.length :=
  .after Number.advances_read fun _ => (pays_readEntry d).repeated_length _

theorem pays_readDictionary : readDictionary.Pays 0 Dictionary.size := by
  refine .after Number.advances_read fun _ => (pays_readText.repeated_length _).bind fun texts => ?_
  dsimp only
  split
  next hs => exact .pure (hs.le.trans (Nat.zero_add _).ge)
  next => exact .throw _

end Field

/-! ## Headers -/

namespace Header

theorem pays_readOverlay : readOverlay.Pays 0 fun _ => 1 :=
  Field.pays_readText.bind fun _ =>
    (Field.advances_readText.bind fun _ => Advances.pure _).pays 1

theorem pays_readDictionaries : readDictionaries.Pays 0 Dictionaries.entryCount := by
  have hd := Field.pays_readDictionary
  refine hd.bind fun eapi => hd.bind fun license => hd.bind fun slot => hd.bind fun iuse => ?_
  refine hd.bind fun depend => .pure ?_
  simp only [Dictionaries.entryCount, Dictionaries.toList, List.map_cons, List.map_nil, List.sum_cons,
    List.sum_nil]
  omega

theorem pays_read (name : String) : (read name).Pays 0 itemCount := by
  have hn := Number.advances_read
  refine .after (advances_readMagic name) fun _ => .after (advances_readVersion name) fun _ => ?_
  refine .after hn fun _ => .after hn fun _ => .after hn fun _ => ?_
  refine (pays_readOverlay.repeated_length _).bind fun overlays => .after hn fun _ => ?_
  refine pays_readDictionaries.bind fun dictionaries => .pure ?_
  rw [itemCount, Nat.zero_add]

end Header

/-! ## Records -/

namespace Record

variable (h : Header)

theorem pays_readEbuild : (readEbuild h).Pays 0 Ebuild.itemCount := by
  have hn := Number.advances_read
  have he := Field.advances_readEntry
  have hv : readVersion.Pays 0 fun _ => 1 :=
    Field.pays_readText.bind fun _ => (Advances.require _ _).pays 1
  refine hv.bind fun _ => .after (he _) fun _ => .after advances_readStability fun _ => ?_
  refine .after hn fun _ => .after hn fun _ => .after hn fun _ => ?_
  refine .after (he _) fun _ => .after (he _) fun _ => ?_
  refine (Field.pays_readEntries _).bind fun iuse => .after advances_readOverlayKey fun _ => ?_
  have hle : 1 + iuse.length ≤ 0 + 1 + iuse.length := by omega
  refine Pays.ite ?_ ?_
  · exact .after (advances_readDependencies h) fun _ => .pure hle
  · exact .after (Advances.pure _) fun _ => .pure hle

/-- The USE flags of a package are paid for when its metadata is read. -/
theorem pays_readMetadata (p : Package) :
    (readMetadata h p).Pays 0 fun q => q.useFlags.toList.length := by
  have ht := Field.advances_readText
  refine .after ht fun _ => .after ht fun _ => .after (Field.advances_readEntry _) fun _ => ?_
  refine .after ht fun _ => (Field.pays_readEntries _).bind fun useFlags => .pure ?_
  rw [Nat.zero_add]
  exact WordSet.length_toList_ofList_le useFlags

/-- The releases are paid for when they are read; a package and its USE flags were paid for before. -/
theorem pays_readReleases (p : Package) :
    (readReleases h p).Pays (1 + p.useFlags.toList.length) Package.itemCount := by
  refine .after Number.advances_read fun _ => ?_
  refine ((pays_readEbuild h).repeated _).bind fun ebuilds => .pure ?_
  exact Nat.add_le_add_left (Releases.sum_itemCount_ofList ebuilds).le _

theorem pays_readStop : readStop.Pays 0 fun _ => 1 :=
  fun _ _ _ hr => (readStop_eq_ok hr).1

/-- A package takes at least one byte, in whatever detail it is read. -/
theorem pays_readPackage_one (category : String) (detail : Detail) :
    (readPackage h category detail).Pays 0 fun _ => 1 := by
  obtain ⟨f, hf, hadvances⟩ := exists_readPackage_eq h category detail
  rw [hf]
  exact pays_readStop.bind fun stop => (hadvances stop).pays 1

theorem pays_readPackage (category : String) :
    (readPackage h category .full).Pays 0 Package.itemCount := by
  refine pays_readStop.bind fun stop => .after Field.advances_readText fun name => ?_
  refine (pays_readMetadata h _).bind fun p => (pays_readReleases h p).trans fun q => ?_
  exact .after Advances.position fun _ => .ite (.pure (Nat.le_refl _)) (.throw _)

theorem pays_readCategoryHeader : readCategoryHeader.Pays 0 fun _ => 1 :=
  Field.pays_readText.bind fun _ =>
    (Number.advances_read.bind fun _ => Advances.pure _).pays 1

theorem pays_readCategory : (readCategory h).Pays 0 Category.itemCount := by
  refine pays_readCategoryHeader.bind fun (name, count) => ?_
  refine ((pays_readPackage h name).repeated _).bind fun packages => .pure ?_
  rw [Category.itemCount, Nat.zero_add]

theorem advances_readCategory : (readCategory h).Advances :=
  advances_readCategoryHeader.bind fun _ =>
    ((advances_readPackage h _ .full).repeated _).bind fun _ => Advances.pure _

end Record

/-! ## Databases -/

namespace Database

theorem pays_readCategories (h : Header) (found count : Nat) :
    (readCategories h found count).Pays 0 fun r => (Tree.mk r.1).itemCount := by
  induction count generalizing found with
  | zero => exact .pure (Nat.le_refl 0)
  | succ count ih =>
    refine (Record.pays_readCategory h).bind fun c => .ite ?_ (.throw _)
    refine (ih _).bind fun (cs, total) => .pure ?_
    rw [Tree.itemCount, List.map_cons, List.sum_cons, Nat.zero_add]
    rfl

theorem advances_readCategories (h : Header) (found count : Nat) :
    (readCategories h found count).Advances := by
  induction count generalizing found with
  | zero => exact Advances.pure _
  | succ count ih =>
    refine (Record.advances_readCategory h).bind fun c => Advances.ite ?_ (Advances.throw _)
    exact (ih _).bind fun _ => Advances.pure _

theorem advances_read (name : String) : (read name).Advances := by
  refine (Header.advances_read name).bind fun h => (advances_readCategories h 0 _).bind fun _ => ?_
  exact (Advances.pure _).ite (Advances.throw _)

theorem pays_read (name : String) :
    (read name).Pays 0 fun r => r.1.itemCount + r.2.itemCount := by
  refine (Header.pays_read name).bind fun h => ?_
  refine (pays_readCategories h 0 _).bind fun (cs, found) => .ite (.pure ?_) (.throw _)
  rw [Nat.zero_add]

/-- A database that is read has no more items than bytes. -/
theorem itemCount_le_of_decode {name : String} {bytes : List UInt8} {h : Header} {t : Tree}
    (hd : decode name bytes = .ok (h, t)) : h.itemCount + t.itemCount ≤ bytes.length := by
  obtain ⟨i, hr⟩ := run_of_decode hd
  have hpaid := pays_read name _ _ _ hr
  have hbytes := (advances_read name).offset_add_length hr
  dsimp only [Input.ofBytes] at hpaid hbytes
  omega

end Database

end PackageIndex
