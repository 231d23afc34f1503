import PackageIndex.Error
import PackageIndex.Version.Basic

/-!
# Reading versions

The grammar is deterministic: at every point the next character decides which part follows, and a
digit run always extends as far as it can. Each part has a function that takes it off the front of a
text; a version is a text that the parts use up. Main statements: a text that is read is the text of
the version read (`toList_of_ofList?`), and the text of a version is read as that version
(`ofList?_toList`).
-/

namespace PackageIndex

/-- The numeral at the front of a text, and the text after it. -/
def Numeral.take? (cs : List Char) : Option (Numeral × List Char) :=
  match Digits.take cs with
  | (d :: ds, rest) => some (⟨d, ds⟩, rest)
  | ([], _) => none

theorem Numeral.append_of_take? {cs rest : List Char} {n : Numeral}
    (h : take? cs = some (n, rest)) : Digits.toList n.digits ++ rest = cs := by
  have ht := Digits.toList_take_append cs
  rw [take?] at h
  split at h
  next d ds r he =>
    rw [he] at ht
    obtain ⟨rfl, rfl⟩ : (⟨d, ds⟩ : Numeral) = n ∧ r = rest := by simpa using h
    exact ht
  next => cases h

theorem Numeral.length_take? {cs rest : List Char} {n : Numeral}
    (h : take? cs = some (n, rest)) : rest.length < cs.length := by
  have hl := congrArg List.length (append_of_take? h)
  simp [Digits.toList, digits] at hl
  omega

namespace Version

/-- The dotted components at the front of a text; a dot with no numeral after it is an error. -/
def takeComponents : List Char → Option (List Numeral × List Char)
  | '.' :: cs =>
    match h : Numeral.take? cs with
    | some (n, rest) =>
      have : rest.length < cs.length := Numeral.length_take? h
      (takeComponents rest).map fun (ns, rest) => (n :: ns, rest)
    | none => none
  | cs => some ([], cs)
termination_by cs => cs.length
decreasing_by simp only [List.length_cons]; omega

/-- The letter at the front of a text, if there is one. -/
def takeLetter : List Char → Option Letter × List Char
  | [] => (none, [])
  | c :: cs =>
    match Letter.ofChar? c with
    | some l => (some l, cs)
    | none => (none, c :: cs)

/-- The suffixes at the front of a text; an underscore with no kind after it is an error. -/
def takeSuffixes : List Char → Option (List Suffix × List Char)
  | '_' :: cs =>
    match h : SuffixKind.take? cs with
    | some (kind, rest) =>
      have : (Digits.take rest).2.length < cs.length :=
        Nat.lt_of_le_of_lt (Digits.length_take_le rest) (SuffixKind.length_take? h)
      (takeSuffixes (Digits.take rest).2).map fun (ss, r) =>
        (⟨kind, (Digits.take rest).1⟩ :: ss, r)
    | none => none
  | cs => some ([], cs)
termination_by cs => cs.length
decreasing_by simp only [List.length_cons]; omega

/-- The number of the revision that is all of a text, or nothing of an empty text. -/
def revisionOfList? : List Char → Option (List Digit)
  | [] => some []
  | '-' :: 'r' :: cs =>
    match Digits.take cs with
    | (d :: ds, []) => some (d :: ds)
    | _ => none
  | _ => none

/-- The version that a text spells. -/
def ofList? (cs : List Char) : Option Version :=
  match Numeral.take? cs with
  | none => none
  | some (first, cs) =>
    match takeComponents cs with
    | none => none
    | some (rest, cs) =>
      let (letter, cs) := takeLetter cs
      match takeSuffixes cs with
      | none => none
      | some (suffixes, cs) =>
        (revisionOfList? cs).map fun revision => ⟨first, rest, letter, suffixes, revision⟩

/-- The version that a text spells. -/
def ofString? (s : String) : Option Version :=
  ofList? s.toList

/-- Reads a version; a text that spells none is the cause of the failure. -/
def parse (s : String) : Except Error Version :=
  match ofString? s with
  | some v => .ok v
  | none => .error (.invalidVersion s)

/-! ## What is read is what is written -/

theorem append_of_takeComponents {cs rest : List Char} {ns : List Numeral}
    (h : takeComponents cs = some (ns, rest)) :
    (ns.flatMap fun n => '.' :: Digits.toList n.digits) ++ rest = cs := by
  fun_induction takeComponents cs generalizing ns rest with
  | case1 cs n r hn _ ih =>
    obtain ⟨⟨ns', r'⟩, hr, he⟩ := Option.map_eq_some_iff.1 h
    obtain ⟨rfl, rfl⟩ : n :: ns' = ns ∧ r' = rest := by simpa using he
    have := ih hr
    simp [this, Numeral.append_of_take? hn]
  | case2 => simp_all
  | case3 => simp_all

theorem append_of_takeLetter (cs : List Char) :
    ((takeLetter cs).1.map Letter.toChar).toList ++ (takeLetter cs).2 = cs := by
  cases cs with
  | nil => rfl
  | cons c cs =>
    rw [takeLetter]
    split
    next l hl =>
      have : l.toChar = c := by
        rw [Letter.ofChar?] at hl
        split at hl
        next hc =>
          obtain rfl := Option.some.inj hl
          have : 'a'.toNat + (c.toNat - 'a'.toNat) = c.toNat := by omega
          simp only [Letter.toChar, this, Char.ofNat_toNat]
        next => cases hl
      simp [this]
    next => rfl

theorem append_of_takeKind {cs rest : List Char} {kind : SuffixKind}
    (h : SuffixKind.take? cs = some (kind, rest)) : kind.toList ++ rest = cs := by
  unfold SuffixKind.take? at h
  split at h <;> simp_all <;> (obtain ⟨rfl, rfl⟩ := h; rfl)

theorem append_of_takeSuffixes {cs rest : List Char} {ss : List Suffix}
    (h : takeSuffixes cs = some (ss, rest)) : ss.flatMap Suffix.toList ++ rest = cs := by
  fun_induction takeSuffixes cs generalizing ss rest with
  | case1 cs kind r hk _ ih =>
    obtain ⟨⟨ss', r'⟩, hr, he⟩ := Option.map_eq_some_iff.1 h
    obtain ⟨rfl, rfl⟩ : (⟨kind, (Digits.take r).1⟩ : Suffix) :: ss' = ss ∧ r' = rest := by
      simpa using he
    have := ih hr
    simp [Suffix.toList, this, Digits.toList_take_append, append_of_takeKind hk]
  | case2 => simp_all
  | case3 => simp_all

theorem append_of_revisionOfList? {cs : List Char} {ds : List Digit}
    (h : revisionOfList? cs = some ds) : revisionToList ds = cs := by
  unfold revisionOfList? at h
  split at h
  next => simp_all [revisionToList]
  next cs =>
    have ht := Digits.toList_take_append cs
    split at h
    next d ds' he =>
      rw [he] at ht
      obtain rfl : d :: ds' = ds := by simpa using h
      simpa [revisionToList] using ht
    next => cases h
  next => cases h

/-- A text that is read is the text of the version read. -/
theorem toList_of_ofList? {cs : List Char} {v : Version} (h : ofList? cs = some v) :
    v.toList = cs := by
  rw [ofList?] at h
  split at h
  · cases h
  next first r₁ h₁ =>
    split at h
    · cases h
    next rest r₂ h₂ =>
      simp only at h
      split at h
      · cases h
      next suffixes r₃ h₃ =>
        obtain ⟨revision, h₄, rfl⟩ := Option.map_eq_some_iff.1 h
        simp only [toList, List.append_assoc, append_of_revisionOfList? h₄,
          append_of_takeSuffixes h₃, append_of_takeLetter, append_of_takeComponents h₂,
          Numeral.append_of_take? h₁]

/-! ## What is written is read back -/

end Version

theorem Numeral.take?_append (n : Numeral) {rest : List Char} (h : Digits.Ends rest) :
    take? (Digits.toList n.digits ++ rest) = some (n, rest) := by
  rw [take?, Digits.take_toList_append h]
  rfl

theorem SuffixKind.take?_append (kind : SuffixKind) {rest : List Char}
    (h : ∀ c ∈ rest.head?, c ≠ 'r') : take? (kind.toList ++ rest) = some (kind, rest) := by
  cases kind with
  | patch =>
    cases rest with
    | nil => rfl
    | cons c cs =>
      have hc : c ≠ 'r' := h c (by simp)
      simp [toList, take?, hc]
  | alpha | beta | pre | rc => rfl

namespace Version

/-- A text that starts neither with a digit nor with a dot ends the components. -/
def EndsComponents (rest : List Char) : Prop :=
  ∀ c ∈ rest.head?, Digit.ofChar? c = none ∧ c ≠ '.'

theorem ends_flatMap_components (ns : List Numeral) {rest : List Char} (h : EndsComponents rest) :
    Digits.Ends ((ns.flatMap fun n => '.' :: Digits.toList n.digits) ++ rest) := by
  cases ns with
  | nil => exact fun c hc => (h c (by simpa using hc)).1
  | cons n ns => exact fun c hc => by obtain rfl : '.' = c := by simpa using hc
                                      decide

theorem takeComponents_append (ns : List Numeral) {rest : List Char} (h : EndsComponents rest) :
    takeComponents ((ns.flatMap fun n => '.' :: Digits.toList n.digits) ++ rest) =
      some (ns, rest) := by
  induction ns with
  | nil =>
    cases rest with
    | nil => simp [takeComponents]
    | cons c cs =>
      have hc : c ≠ '.' := (h c (by simp)).2
      simp [takeComponents, hc]
  | cons n ns ih =>
    have ht := Numeral.take?_append n (ends_flatMap_components ns h)
    simp only [List.flatMap_cons, List.append_assoc, List.cons_append]
    rw [takeComponents]
    split
    next m r hm =>
      obtain ⟨rfl, rfl⟩ : n = m ∧ _ = r := by simpa using ht.symm.trans hm
      rw [ih]
      rfl
    next hn => simp [ht] at hn

theorem takeLetter_append (letter : Option Letter) {rest : List Char}
    (h : ∀ c ∈ rest.head?, Letter.ofChar? c = none) :
    takeLetter ((letter.map Letter.toChar).toList ++ rest) = (letter, rest) := by
  cases letter with
  | none =>
    cases rest with
    | nil => rfl
    | cons c cs =>
      have hc : Letter.ofChar? c = none := h c (by simp)
      simp [takeLetter, hc]
  | some l =>
    have hl : Letter.ofChar? l.toChar = some l := by revert l; decide
    simp [takeLetter, hl]

/-- A text that is empty or starts with a dash ends the suffixes. -/
def EndsSuffixes (rest : List Char) : Prop :=
  ∀ c ∈ rest.head?, c = '-'

/-- The suffixes, and what ends them, start with an underscore, a dash or not at all. -/
theorem head?_suffixes_append (ss : List Suffix) {rest : List Char} (h : EndsSuffixes rest) :
    ∀ c ∈ (ss.flatMap Suffix.toList ++ rest).head?, c = '_' ∨ c = '-' := by
  cases ss with
  | nil => exact fun c hc => .inr (h c (by simpa using hc))
  | cons s ss => exact fun c hc => .inl (by simpa [Suffix.toList] using hc.symm)

theorem takeSuffixes_append (ss : List Suffix) {rest : List Char} (h : EndsSuffixes rest) :
    takeSuffixes (ss.flatMap Suffix.toList ++ rest) = some (ss, rest) := by
  induction ss with
  | nil =>
    cases rest with
    | nil => simp [takeSuffixes]
    | cons c cs =>
      obtain rfl : c = '-' := h c (by simp)
      simp [takeSuffixes]
  | cons s ss ih =>
    have hh := head?_suffixes_append ss h
    have he : Digits.Ends (ss.flatMap Suffix.toList ++ rest) := fun c hc => by
      rcases hh c hc with rfl | rfl <;> decide
    have hr : ∀ c ∈ (Digits.toList s.number ++ (ss.flatMap Suffix.toList ++ rest)).head?,
        c ≠ 'r' := by
      intro c hc
      cases hn : s.number with
      | nil =>
        rw [hn] at hc
        rcases hh c hc with rfl | rfl <;> decide
      | cons d ds =>
        rw [hn] at hc
        obtain rfl : d.toChar = c := by simpa [Digits.toList] using hc
        clear hn hc
        revert d; decide
    have ht := SuffixKind.take?_append s.kind hr
    simp only [List.flatMap_cons, List.append_assoc, List.cons_append, Suffix.toList]
    rw [takeSuffixes]
    split
    next k r hm =>
      obtain ⟨rfl, rfl⟩ : s.kind = k ∧ _ = r := by simpa using ht.symm.trans hm
      simp only [Digits.take_toList_append he, ih]
      rfl
    next hn => simp [ht] at hn

theorem revisionOfList?_revisionToList (ds : List Digit) :
    revisionOfList? (revisionToList ds) = some ds := by
  cases ds with
  | nil => rfl
  | cons d ds =>
    have ht : Digits.take (Digits.toList (d :: ds) ++ []) = (d :: ds, []) :=
      Digits.take_toList_append (by simp [Digits.Ends])
    rw [List.append_nil] at ht
    simp [revisionToList, revisionOfList?, ht]

/-- The text of a version is read as that version. -/
@[simp] theorem ofList?_toList (v : Version) : ofList? v.toList = some v := by
  have hr : EndsSuffixes (revisionToList v.revision) := by
    intro c hc
    rw [revisionToList] at hc
    split at hc
    · simp at hc
    · simpa using hc.symm
  have hs := head?_suffixes_append v.suffixes hr
  have hl : ∀ c ∈ (v.suffixes.flatMap Suffix.toList ++ revisionToList v.revision).head?,
      Letter.ofChar? c = none := fun c hc => by
    rcases hs c hc with rfl | rfl <;> decide
  have hc : EndsComponents ((v.letter.map Letter.toChar).toList ++
      (v.suffixes.flatMap Suffix.toList ++ revisionToList v.revision)) := by
    intro c hc
    cases hv : v.letter with
    | none =>
      rw [hv] at hc
      rcases hs c (by simpa using hc) with rfl | rfl <;> decide
    | some l =>
      rw [hv] at hc
      obtain rfl : l.toChar = c := by simpa using hc
      clear hv hc
      revert l; decide
  rw [toList, ofList?]
  simp only [List.append_assoc]
  rw [Numeral.take?_append v.first (ends_flatMap_components v.rest hc)]
  simp only [takeComponents_append v.rest hc, takeLetter_append v.letter hl,
    takeSuffixes_append v.suffixes hr, revisionOfList?_revisionToList]
  rfl

/-- Reading gives a version exactly on its text. -/
theorem ofList?_eq_some_iff {cs : List Char} {v : Version} : ofList? cs = some v ↔ v.toList = cs :=
  ⟨toList_of_ofList?, fun h => h ▸ ofList?_toList v⟩

end Version

end PackageIndex
