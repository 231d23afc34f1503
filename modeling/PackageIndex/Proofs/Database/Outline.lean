import Mathlib.Data.List.Basic
import PackageIndex.Database.Basic
import PackageIndex.Proofs.Database.Dictionary

/-!
# What databases are made of

The outline of a database says of each part of its written form whether it is a reference to an entry
of a dictionary, and to which, or bytes that are there whatever the dictionaries are like. To write a
database is to write its outline (`encodePrepared_eq`). That fails only if a text is missing from its
dictionary (`Outline.encode_eq`).
-/

namespace PackageIndex

open PackageIndex.Field (encodeEntry encodeEntries encodeNat encodeText)

/-! ## Outlines -/

namespace Dictionaries

/-- The dictionaries by their names. -/
inductive Part where
  | eapi
  | license
  | slot
  | iuse
  | depend
  deriving DecidableEq

/-- The dictionary with a name. -/
def get (d : Dictionaries) : Part → Dictionary
  | .eapi => d.eapi
  | .license => d.license
  | .slot => d.slot
  | .iuse => d.iuse
  | .depend => d.depend

end Dictionaries

/-- The index of a text that the dictionary has. -/
def Dictionary.index (d : Dictionary) (s : String) : Nat :=
  d.entries.idxOf s

theorem Dictionary.indexOf?_of_mem {d : Dictionary} {s : String} (h : s ∈ d.entries) :
    d.indexOf? s = some (d.index s) :=
  indexOf?_eq_some_iff.2 (List.getElem?_idxOf h)

theorem Dictionary.indexOf?_of_notMem {d : Dictionary} {s : String} (h : s ∉ d.entries) :
    d.indexOf? s = none :=
  List.idxOf?_eq_none_iff.2 h

/-- A part of a written form. -/
inductive OutlineItem where
  /-- Bytes as they are. -/
  | plain (bytes : List UInt8)
  /-- A reference to the entry of a text. -/
  | entry (part : Dictionaries.Part) (text : String)

namespace OutlineItem

/-- The written form of a part. -/
def encode (d : Dictionaries) : OutlineItem → Except Error (List UInt8)
  | plain bytes => pure bytes
  | entry part text => encodeEntry (d.get part) text

/-- The bytes of a part, if the dictionary has its text. -/
def bytes (d : Dictionaries) : OutlineItem → List UInt8
  | plain bytes => bytes
  | entry part text => encodeNat ((d.get part).index text)

/-- The text that is referred to in a dictionary. -/
def text? (part : Dictionaries.Part) : OutlineItem → Option String
  | plain _ => none
  | entry other text => if other = part then some text else none

variable {d : Dictionaries} {part : Dictionaries.Part} {text : String}

theorem encode_of_mem (h : text ∈ (d.get part).entries) :
    encode d (entry part text) = .ok (bytes d (entry part text)) := by
  show encodeEntry (d.get part) text = .ok (encodeNat ((d.get part).index text))
  unfold encodeEntry
  rw [Dictionary.indexOf?_of_mem h]

theorem encode_of_notMem (h : text ∉ (d.get part).entries) :
    encode d (entry part text) = .error (.corrupt (.missingWord text)) := by
  show encodeEntry (d.get part) text = _
  unfold encodeEntry
  rw [Dictionary.indexOf?_of_notMem h]

end OutlineItem

/-- The parts of a written form in order. -/
abbrev Outline := List OutlineItem

namespace Outline

/-- The written form. -/
def encode (d : Dictionaries) (o : Outline) : Except Error (List UInt8) :=
  List.flatten <$> o.mapM (OutlineItem.encode d)

/-- The bytes, if the dictionaries have all texts. -/
def bytes (d : Dictionaries) (o : Outline) : List UInt8 :=
  o.flatMap (OutlineItem.bytes d)

/-- The texts that are referred to in a dictionary, in order. -/
def texts (part : Dictionaries.Part) (o : Outline) : List String :=
  o.filterMap (OutlineItem.text? part)

/-- A part behind its length. -/
def measured (d : Dictionaries) (o : Outline) : Outline :=
  .plain (encodeNat (o.bytes d).length) :: o

/-- References behind their number. -/
def ofEntries (part : Dictionaries.Part) (ss : List String) : Outline :=
  .plain (encodeNat ss.length) :: ss.map (.entry part)

/-- The dependencies of an ebuild. -/
def ofDependencies (d : Dictionaries) (depend : Dependencies) : Outline :=
  measured d (depend.fields.flatMap fun f => ofEntries .depend (Text.words f))

/-- An ebuild. -/
def ofEbuild (h : Header) (e : Ebuild) : Outline :=
  [.plain (encodeText (toString e.version)), .entry .eapi e.eapi,
    .plain (Number.encode e.stability.code ++ Number.encode e.mask.bits ++
      Number.encode e.restrict.bits ++ Number.encode e.properties.bits),
    .entry .slot e.slot.name, .entry .slot e.slot.subText] ++
  ofEntries .iuse e.iuse ++ [.plain (Number.encode e.overlay.toUInt64)] ++
  if h.storesDependencies then ofDependencies h.dictionaries (e.depend.getD .none) else []

/-- The fields of a package record behind its length. -/
def ofPackageFields (h : Header) (p : Package) : Outline :=
  [.plain (encodeText p.name ++ encodeText p.description ++ encodeText p.homepage),
    .entry .license p.license, .plain (encodeText p.provide)] ++
  ofEntries .iuse p.useFlags.toList ++ [.plain (encodeNat p.ebuilds.length)] ++
  p.ebuilds.flatMap (ofEbuild h)

/-- A package. -/
def ofPackage (h : Header) (p : Package) : Outline :=
  measured h.dictionaries (ofPackageFields h p)

/-- A category. -/
def ofCategory (h : Header) (c : Category) : Outline :=
  .plain (Record.encodeCategoryHeader c.name c.packages.length) :: c.packages.flatMap (ofPackage h)

/-- A database: the header and the categories behind it. -/
def ofTree (h : Header) (t : Tree) : Outline :=
  .plain h.encode :: t.categories.flatMap (ofCategory h)

/-! ## Written forms -/

variable {d : Dictionaries} {o o' : Outline} {α : Type}

theorem encode_nil (d : Dictionaries) : encode d [] = pure [] :=
  rfl

theorem encode_cons (d : Dictionaries) (item : OutlineItem) (o : Outline) :
    encode d (item :: o) = do
      let first ← item.encode d
      let rest ← o.encode d
      return first ++ rest := by
  unfold encode
  rw [List.mapM_cons]
  simp

theorem encode_append (d : Dictionaries) (o o' : Outline) :
    encode d (o ++ o') = do
      let first ← o.encode d
      let rest ← o'.encode d
      return first ++ rest := by
  unfold encode
  rw [List.mapM_append]
  simp

/-- What is written member by member has the outlines of the members one after the other. -/
theorem encode_flatMap {f : α → Except Error (List UInt8)} {g : α → Outline}
    (h : ∀ a, f a = encode d (g a)) (as : List α) :
    encode d (as.flatMap g) = List.flatten <$> as.mapM f := by
  induction as with
  | nil => rfl
  | cons a as ih =>
    rw [List.flatMap_cons, encode_append, ih, ← h, List.mapM_cons]
    simp

/-- Writing gives the bytes of the outline, or fails. -/
theorem encode_cases (d : Dictionaries) (o : Outline) :
    o.encode d = .ok (o.bytes d) ∨ ∃ e, o.encode d = .error e := by
  induction o with
  | nil => exact .inl rfl
  | cons item o ih =>
    have hitem : item.encode d = .ok (item.bytes d) ∨ ∃ e, item.encode d = .error e := by
      cases item with
      | plain bytes => exact .inl rfl
      | entry part text =>
        by_cases hmem : text ∈ (d.get part).entries
        · exact .inl (OutlineItem.encode_of_mem hmem)
        · exact .inr ⟨_, OutlineItem.encode_of_notMem hmem⟩
    rw [encode_cons]
    rcases hitem with hitem | ⟨e, hitem⟩
    · rw [hitem]
      rcases ih with ih | ⟨e, ih⟩
      · rw [ih]
        exact .inl rfl
      · rw [ih]
        exact .inr ⟨e, rfl⟩
    · rw [hitem]
      exact .inr ⟨e, rfl⟩

/-- Writing succeeds if no text is missing from its dictionary. -/
theorem encode_eq (h : ∀ part, ∀ s ∈ o.texts part, s ∈ (d.get part).entries) :
    o.encode d = .ok (o.bytes d) := by
  induction o with
  | nil => rfl
  | cons item o ih =>
    have hitem : item.encode d = .ok (item.bytes d) := by
      cases item with
      | plain bytes => rfl
      | entry part text =>
        have hmem : text ∈ (d.get part).entries := by
          refine h part text (List.mem_filterMap.2 ⟨_, List.mem_cons_self, ?_⟩)
          exact if_pos rfl
        exact OutlineItem.encode_of_mem hmem
    have hrest : ∀ part, ∀ s ∈ texts part o, s ∈ (d.get part).entries := by
      intro part s hs
      obtain ⟨other, hother, htext⟩ := List.mem_filterMap.1 hs
      exact h part s (List.mem_filterMap.2 ⟨other, List.mem_cons_of_mem item hother, htext⟩)
    rw [encode_cons, hitem, ih hrest]
    rfl

theorem encode_measured (d : Dictionaries) (o : Outline) :
    encode d (measured d o) = Record.measured <$> o.encode d := by
  unfold measured
  rw [encode_cons]
  rcases encode_cases d o with h | ⟨e, h⟩
  · rw [h]
    rfl
  · rw [h]
    rfl

theorem encode_ofEntries (d : Dictionaries) (part : Dictionaries.Part) (ss : List String) :
    encode d (ofEntries part ss) = encodeEntries (d.get part) ss := by
  have hentries : encode d (ss.map (.entry part)) =
      List.flatten <$> ss.mapM (encodeEntry (d.get part)) := by
    unfold encode
    rw [List.mapM_map]
    rfl
  unfold ofEntries encodeEntries
  rw [encode_cons, hentries]
  simp [OutlineItem.encode]

theorem encodeDependencies_eq (h : Header) (depend : Dependencies) :
    Record.encodeDependencies h depend =
      encode h.dictionaries (ofDependencies h.dictionaries depend) := by
  unfold Record.encodeDependencies ofDependencies
  rw [encode_measured, encode_flatMap fun f => (encode_ofEntries h.dictionaries .depend _).symm]
  simp [Dictionaries.get]

theorem encodeEbuild_eq (h : Header) (e : Ebuild) :
    Record.encodeEbuild h e = encode h.dictionaries (ofEbuild h e) := by
  unfold Record.encodeEbuild ofEbuild
  simp only [encode_append, encode_cons, encode_nil, encode_ofEntries, encodeDependencies_eq]
  cases h.storesDependencies with
  | false => simp [OutlineItem.encode, Dictionaries.get, encode_nil]
  | true => simp [-bind_pure_comp, OutlineItem.encode, Dictionaries.get]

theorem encodePackageFields_eq (h : Header) (p : Package) :
    Record.encodePackageFields h p = encode h.dictionaries (ofPackageFields h p) := by
  unfold Record.encodePackageFields ofPackageFields
  simp only [encode_append, encode_cons, encode_nil, encode_ofEntries,
    encode_flatMap (encodeEbuild_eq h)]
  simp [OutlineItem.encode, Dictionaries.get]

theorem encodePackage_eq (h : Header) (p : Package) :
    Record.encodePackage h p = encode h.dictionaries (ofPackage h p) := by
  unfold Record.encodePackage ofPackage
  rw [encode_measured, encodePackageFields_eq]

theorem encodeCategory_eq (h : Header) (c : Category) :
    Record.encodeCategory h c = encode h.dictionaries (ofCategory h c) := by
  unfold Record.encodeCategory ofCategory
  rw [encode_cons, encode_flatMap (encodePackage_eq h)]
  simp [OutlineItem.encode]

/-- To write a database is to write its outline. -/
theorem encodePrepared_eq (h : Header) (t : Tree) :
    Database.encodePrepared h t = encode h.dictionaries (ofTree h t) := by
  unfold Database.encodePrepared ofTree
  rw [encode_cons, encode_flatMap (encodeCategory_eq h)]
  simp [OutlineItem.encode]

end Outline

end PackageIndex
