import PackageIndex.Proofs.Repository.Sources

/-!
# Reading a layer lets the tree grow

Both kinds of sources do nothing to a tree but to let it grow by ebuilds of their layer
(`Source.grows_readCategories`), whether they come to their end or not.
-/

namespace PackageIndex

open Relation

/-! ## Metadata caches -/

namespace MetadataCache

variable {cache : MetadataCache} {fs : FileSystem} {c : Category}

theorem grows_addFile (file : String) : c.Grows cache.key (cache.addFile fs c file) := by
  rcases addFile_eq cache fs c file with ⟨h, -⟩ | ⟨name, entry, version, h, -⟩
  · rw [h]
  · rw [h]
    refine .single ⟨name, _, _, adds_addEntry cache entry version, ?_, nofun, rfl⟩
    intro e he
    rw [List.mem_singleton.1 he]
    rfl

theorem grows_readCategory (fs : FileSystem) (c : Category) :
    c.Grows cache.key (cache.readCategory fs c).value := by
  have hfold : ∀ (files : List String) (c : Category),
      c.Grows cache.key (files.foldl (cache.addFile fs) c) := by
    intro files
    induction files with
    | nil => exact fun c => .refl
    | cons file files ih => exact fun c => (grows_addFile file).trans (ih _)
  unfold readCategory
  split
  · exact hfold _ c
  · exact .refl
  · exact .refl

end MetadataCache

/-! ## Imports -/

namespace DatabaseImport

theorem grows_readCategories (source : DatabaseImport) (fs : FileSystem) (t : Tree) :
    t.Grows source.key (source.readCategories fs t).value := by
  unfold readCategories
  split
  next => exact .refl
  next cursor selected _ =>
    refine Attempt.each_induction (P := Tree.Grows source.key t) cursor.items t ?_ .refl
    intro t' item _ h
    cases item with
    | error e => exact h
    | ok p => exact h.tail ⟨p.category, _, fun c => grows_merge source.key selected c p, rfl⟩

end DatabaseImport

/-! ## Sources -/

namespace Source

/-- Whatever a source does to a tree lets it grow by ebuilds of its layer. -/
theorem grows_readCategories (s : Source) (fs : FileSystem) (t : Tree) :
    t.Grows s.key (s.readCategories fs t).value := by
  cases s with
  | database file => exact file.grows_readCategories fs t
  | cache repository =>
    unfold readCategories readEachCategory
    dsimp only
    split
    next => exact .refl
    next names _ =>
      refine Attempt.each_induction (P := Tree.Grows repository.key t) names t ?_ .refl
      intro t' name _ h
      rw [value_addCategory]
      exact h.tail ⟨name, _, fun c => MetadataCache.grows_readCategory fs c, rfl⟩

end Source

end PackageIndex
