import PackageIndex.Version.Parser

/-!
# Names with versions

The files and directories of a repository are named `name-version`. The version starts after the
last dash that is followed by a digit: no version contains such a dash, however much the name looks
like one.
-/

namespace PackageIndex

/-- Whether a text starts with a digit. -/
def startsWithDigit (cs : List Char) : Bool :=
  match cs with
  | [] => false
  | c :: _ => (Digit.ofChar? c).isSome

/-- The text before and after the last dash that is followed by a digit. -/
def cutAtVersion : List Char → Option (List Char × List Char)
  | [] => none
  | c :: cs =>
    match cutAtVersion cs with
    | some (name, version) => some (c :: name, version)
    | none => if c = '-' ∧ startsWithDigit cs then some ([], cs) else none

/-- The name and the version part of a text, if it has a version part. -/
def splitNameVersion (s : String) : Option (String × String) :=
  (cutAtVersion s.toList).map fun (name, version) => (String.ofList name, String.ofList version)

theorem append_of_cutAtVersion {cs name version : List Char}
    (h : cutAtVersion cs = some (name, version)) : cs = name ++ '-' :: version := by
  induction cs generalizing name with
  | nil => cases h
  | cons c cs ih =>
    rw [cutAtVersion] at h
    split at h
    next n v hc =>
      cases h
      rw [ih hc, List.cons_append]
    next =>
      split at h
      next hdash =>
        cases h
        rw [hdash.1, List.nil_append]
      next => cases h

/-- A text with a version part is the name and the version with a dash between them. -/
theorem eq_of_splitNameVersion {s name version : String}
    (h : splitNameVersion s = some (name, version)) : s = name ++ "-" ++ version := by
  obtain ⟨⟨n, v⟩, hc, he⟩ := Option.map_eq_some_iff.1 h
  cases he
  have hs := congrArg String.ofList (append_of_cutAtVersion hc)
  rw [String.ofList_toList] at hs
  rw [hs, String.append_assoc]
  simp [String.ofList_append]

end PackageIndex
