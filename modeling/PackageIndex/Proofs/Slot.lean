import Mathlib.Data.List.Basic
import PackageIndex.Installed
import PackageIndex.Proofs.Text.Trimming

/-!
# Slots that are read and written

The SLOT values of ebuilds and of installed versions are read by one rule (`IsReadAs`). Whatever is
read would be read again as it is if a slash was always written behind the name
(`parse_append_slash`). Without a sub-slot the slash is left out, though. Then blanks at the end of the
name stand at the end of the value, where they do not count (`parse_toString`). The values of such slots
are those that end in their only slash with a blank before it (`endsLoose_iff`).
-/

namespace PackageIndex.Slot

open Text (IsTrimmed cut cut_append_cons cut_eq_none_iff cut_eq_some_iff isBlank
  isBlank_of_trim_eq_empty isTrimmed_trim mem_of_mem_trim trim trim_eq_iff trim_eq_self_iff)

variable {s : Slot} {text : String} {name sub value : List Char}

/-! ## The rule -/

/-- The slot with a name and a sub-slot as they are written: without a name it is `0`, and an empty
sub-slot is none. -/
def ofParts (name sub : List Char) : Slot where
  name := if name.isEmpty then "0" else String.ofList name
  sub := if sub.isEmpty then none else some (String.ofList sub)

/-- The slot that a SLOT value without blanks around it names. -/
inductive Names : List Char → Slot → Prop
  /-- A value without a slash is a slot. -/
  | slot {name : List Char} (h : '/' ∉ name) : Names name (ofParts name [])
  /-- The first slash ends the slot, and all that is behind it is the sub-slot. -/
  | withSub {name sub : List Char} (h : '/' ∉ name) :
      Names (name ++ '/' :: sub) (ofParts name sub)

/-- What a text is read as: the slot that it names without the blanks at its ends. -/
def IsReadAs (text : String) (s : Slot) : Prop :=
  ∃ before value after, text.toList = before ++ value ++ after ∧
    (∀ c ∈ before, isBlank c = true) ∧ (∀ c ∈ after, isBlank c = true) ∧
    IsTrimmed value ∧ Names value s

theorem parse_eq (text : String) : parse text =
    Function.uncurry ofParts ((cut '/' (trim text).toList).getD ((trim text).toList, [])) := by
  unfold parse
  dsimp only
  rfl

theorem names_parse (text : String) : Names (trim text).toList (parse text) := by
  rw [parse_eq]
  cases hcut : cut '/' (trim text).toList with
  | none =>
    rw [Option.getD_none, Function.uncurry_apply_pair]
    exact .slot (cut_eq_none_iff.1 hcut)
  | some parts =>
    obtain ⟨name, sub⟩ := parts
    obtain ⟨hvalue, hname⟩ := cut_eq_some_iff.1 hcut
    rw [Option.getD_some, Function.uncurry_apply_pair, hvalue]
    exact .withSub hname

theorem parse_of_names (h : Names (trim text).toList s) : parse text = s := by
  rw [parse_eq]
  generalize (trim text).toList = value at h
  cases h with
  | slot hname => rw [cut_eq_none_iff.2 hname, Option.getD_none, Function.uncurry_apply_pair]
  | withSub hname => rw [cut_append_cons hname, Option.getD_some, Function.uncurry_apply_pair]

/-- A text is read by the rule, and the rule tells one slot only. -/
theorem parse_eq_iff : parse text = s ↔ IsReadAs text s := by
  constructor
  · rintro rfl
    obtain ⟨htrimmed, before, after, htext, hbefore, hafter⟩ := trim_eq_iff.1 (Eq.refl (trim text))
    exact ⟨before, _, after, htext, hbefore, hafter, htrimmed, names_parse text⟩
  · rintro ⟨before, value, after, htext, hbefore, hafter, htrimmed, hnames⟩
    have htrim : trim text = String.ofList value := by
      rw [trim_eq_iff, String.toList_ofList]
      exact ⟨htrimmed, before, after, htext, hbefore, hafter⟩
    apply parse_of_names
    rw [htrim, String.toList_ofList]
    exact hnames

/-! ## What is read -/

/-- The form of a slot that is read from a text. -/
structure IsRead (s : Slot) : Prop where
  /-- The slot has a name. -/
  name_ne : s.name ≠ ""
  /-- The name ends before the first slash. -/
  slash : '/' ∉ s.name.toList
  /-- No blank stands before the name. -/
  head : ∀ c ∈ s.name.toList.head?, isBlank c = false
  /-- A sub-slot is not empty. -/
  sub_ne : s.sub ≠ some ""
  /-- No blank stands behind the sub-slot. -/
  last : ∀ c ∈ s.subText.toList.getLast?, isBlank c = false

theorem ofParts_toList (h : s.IsRead) : ofParts s.name.toList s.subText.toList = s := by
  obtain ⟨name, sub⟩ := s
  have hname : name.toList.isEmpty = false := by simpa using h.name_ne
  cases sub with
  | none => simp [ofParts, subText, hname]
  | some sub =>
    have hsub : sub.toList.isEmpty = false := by simpa using h.sub_ne
    simp [ofParts, subText, hname, hsub]

theorem isRead_ofParts (hslash : '/' ∉ name) (hhead : ∀ c ∈ name.head?, isBlank c = false)
    (hlast : ∀ c ∈ sub.getLast?, isBlank c = false) : (ofParts name sub).IsRead where
  name_ne := by cases name <;> simp [ofParts]
  slash := by
    cases name with
    | nil => simp [ofParts]
    | cons c name => simpa [ofParts] using hslash
  head := by
    cases name with
    | nil => simp [ofParts, isBlank]
    | cons c name => simpa [ofParts] using hhead
  sub_ne := by cases sub <;> simp [ofParts]
  last := by
    cases sub with
    | nil => simp [ofParts, subText]
    | cons c sub => simpa [ofParts, subText] using hlast

theorem isRead_parse (text : String) : (parse text).IsRead := by
  have htrimmed := isTrimmed_trim text
  have hnames := names_parse text
  generalize (trim text).toList = value at htrimmed hnames
  generalize parse text = s at hnames
  cases hnames with
  | slot hname => exact isRead_ofParts hname htrimmed.head (by simp)
  | withSub hname =>
    -- The ends of the value are those of the name and of the sub-slot, where these are not empty.
    refine isRead_ofParts hname (fun c hc => htrimmed.head c ?_) fun c hc => htrimmed.last c ?_
    · rw [List.head?_append, Option.mem_def.1 hc]
      rfl
    · rw [List.getLast?_append, List.getLast?_cons, Option.mem_def.1 hc]
      rfl

theorem normalize_parse (text : String) : (parse text).normalize = parse text :=
  if_neg (isRead_parse text).sub_ne

/-! ## Reading again what was written -/

/-- With a slash behind the name, no blank of a slot stands at an end. -/
theorem IsRead.isTrimmed (h : s.IsRead) : IsTrimmed (s.name.toList ++ '/' :: s.subText.toList) where
  head := by
    intro c hc
    have hname : s.name.toList ≠ [] := by simpa using h.name_ne
    rw [List.head?_append_of_ne_nil _ hname] at hc
    exact h.head c hc
  last := by
    intro c hc
    rw [List.getLast?_append, List.getLast?_cons] at hc
    cases hsub : s.subText.toList.getLast? with
    | none =>
      rw [hsub] at hc
      cases hc
      decide
    | some d =>
      rw [hsub] at hc
      cases hc
      exact h.last d hsub

/-- With a slash behind its name, whether a sub-slot follows or not, a slot is read as it is. -/
theorem parse_append_slash (h : s.IsRead) : parse (s.name ++ "/" ++ s.subText) = s := by
  have hchars : (s.name ++ "/" ++ s.subText).toList = s.name.toList ++ '/' :: s.subText.toList := by
    simp
  have hnames : Names (s.name.toList ++ '/' :: s.subText.toList)
      (ofParts s.name.toList s.subText.toList) := .withSub h.slash
  rw [ofParts_toList h] at hnames
  exact parse_eq_iff.2 ⟨[], _, [], by rw [hchars]; simp, by simp, by simp, h.isTrimmed, hnames⟩

/-- What comes of a slot when it is rendered and read: without a sub-slot, the blanks at the end of
its name are lost. -/
def settled (s : Slot) : Slot :=
  match s.sub with
  | none => { s with name := trim s.name }
  | some _ => s

theorem settled_eq_self_iff : s.settled = s ↔ (s.sub = none → IsTrimmed s.name.toList) := by
  obtain ⟨name, sub⟩ := s
  cases sub <;> simp [settled, trim_eq_self_iff]

theorem settled_settled (s : Slot) : s.settled.settled = s.settled := by
  rw [settled_eq_self_iff]
  obtain ⟨name, sub⟩ := s
  cases sub with
  | none => exact fun _ => isTrimmed_trim name
  | some sub => simp [settled]

theorem IsRead.settled (h : s.IsRead) : s.settled.IsRead := by
  obtain ⟨name, sub⟩ := s
  cases sub with
  | some sub => exact h
  | none =>
    refine ⟨?_, fun hmem => h.slash (mem_of_mem_trim hmem), (isTrimmed_trim name).head, h.sub_ne,
      h.last⟩
    -- The first character of the name is no blank, so something is left of the name.
    intro hempty
    have hblank := isBlank_of_trim_eq_empty hempty
    cases hname : name.toList with
    | nil => exact h.name_ne (String.toList_eq_nil_iff.1 hname)
    | cons c cs =>
      have hfirst : isBlank c = true := hblank c (by simp [hname])
      rw [h.head c (by simp [hname])] at hfirst
      cases hfirst

/-- What is read from the rendering of a slot. -/
theorem parse_toString (h : s.IsRead) : parse (toString s) = s.settled := by
  cases hsub : s.sub with
  | some sub =>
    have hrender : toString s = s.name ++ "/" ++ s.subText := by
      simp [toString, Slot.toString, subText, hsub]
    have hsettled : s.settled = s := settled_eq_self_iff.2 fun hnone => by simp [hsub] at hnone
    rw [hrender, parse_append_slash h, hsettled]
  | none =>
    have hrender : toString s = s.name := by simp [toString, Slot.toString, hsub]
    have hname : (trim s.name).toList = s.settled.name.toList := by simp [Slot.settled, hsub]
    have hsubText : s.settled.subText.toList = [] := by simp [Slot.settled, subText, hsub]
    have hnames := Names.slot h.settled.slash
    rw [← hsubText, ofParts_toList h.settled, ← hname] at hnames
    rw [hrender]
    exact parse_of_names hnames

/-- A blank before the slash is kept where a sub-slot follows. -/
example : parse (toString (parse " 2 /2.4\n")) = ⟨"2 ", some "2.4"⟩ := by decide +kernel

/-! ## Values that are not read again as before -/

/-- A SLOT value ends in its only slash, and a blank stands before it. -/
def EndsLoose (text : String) : Prop :=
  ∃ name c, (trim text).toList = name ++ [c, '/'] ∧ '/' ∉ name ∧ isBlank c = true

theorem parse_of_value_eq {c : Char} (hvalue : (trim text).toList = name ++ [c, '/'])
    (hname : '/' ∉ name) (hc : isBlank c = true) :
    parse text = ⟨String.ofList (name ++ [c]), none⟩ := by
  have hslash : '/' ∉ name ++ [c] := by
    rw [List.mem_append, List.mem_singleton]
    rintro (hmem | rfl)
    · exact hname hmem
    · exact absurd hc (by decide)
  have hnames : Names (name ++ [c] ++ ['/']) (ofParts (name ++ [c]) []) := .withSub hslash
  rw [List.append_assoc, List.singleton_append, ← hvalue] at hnames
  rw [parse_of_names hnames]
  simp [ofParts]

/-- Only its last character can keep the name of a slot that was read from being trimmed. -/
theorem IsRead.exists_blank_end (h : s.IsRead) (hloose : ¬ IsTrimmed s.name.toList) :
    ∃ name c, s.name.toList = name ++ [c] ∧ isBlank c = true := by
  by_contra hnot
  refine hloose ⟨h.head, fun c hc => ?_⟩
  obtain ⟨name, hname⟩ := List.getLast?_eq_some_iff.1 hc
  exact Bool.eq_false_iff.2 fun hblank => hnot ⟨name, c, hname, hblank⟩

/-- A name that ends in a blank is there as it is written. -/
theorem eq_of_name_ofParts {written : List Char} {c : Char}
    (h : (ofParts written sub).name.toList = name ++ [c]) (hc : isBlank c = true) :
    written = name ++ [c] := by
  cases written with
  | nil =>
    have hlast : "0".toList.getLast? = (name ++ [c]).getLast? := congrArg List.getLast? h
    rw [List.getLast?_concat] at hlast
    cases hlast
    exact absurd hc (by decide)
  | cons d written => simpa [ofParts] using h

/-- They are the values of the slots with a blank at the end of the name and without a sub-slot. -/
theorem endsLoose_iff : EndsLoose text ↔
    (parse text).sub = none ∧ ¬ IsTrimmed (parse text).name.toList := by
  constructor
  · rintro ⟨name, c, hvalue, hname, hc⟩
    rw [parse_of_value_eq hvalue hname hc]
    refine ⟨rfl, fun htrimmed => ?_⟩
    rw [htrimmed.last c (by simp)] at hc
    cases hc
  · rintro ⟨hsub, hloose⟩
    obtain ⟨name, c, hname, hc⟩ := (isRead_parse text).exists_blank_end hloose
    have hslash := (isRead_parse text).slash
    have htrimmed := isTrimmed_trim text
    have hnames := names_parse text
    refine ⟨name, c, ?_, fun hmem => hslash (by simp [hname, hmem]), hc⟩
    generalize (trim text).toList = value at htrimmed hnames ⊢
    generalize parse text = s at hsub hname hnames
    cases hnames with
    | slot =>
      -- The blank would end the whole value, which is trimmed.
      have hvalue := eq_of_name_ofParts hname hc
      rw [htrimmed.last c (by simp [hvalue])] at hc
      cases hc
    | @withSub written sub =>
      have hempty : sub = [] := by simpa [ofParts] using hsub
      rw [eq_of_name_ofParts hname hc, hempty, List.append_assoc]
      rfl

theorem parse_toString_parse_eq_iff :
    parse (toString (parse text)) = parse text ↔ ¬ EndsLoose text := by
  rw [parse_toString (isRead_parse text), settled_eq_self_iff, endsLoose_iff, not_and_not_right]

/-- A SLOT value tells one slot, which is the same for an ebuild and for an installed version. What this
slot is rendered as tells it again, to both of them, iff the value did not end in its only slash with a
blank before it. If it did, the blanks at the end of the name are lost, and from then on nothing more.
With a slash behind the name they would be kept. -/
theorem stable_iff_not_endsLoose (text : String) (e : Ebuild) (i : Installed) :
    ∃ s, (∀ t, IsReadAs text t ↔ s = t) ∧
      ((e.withSlot text).slot = s ∧ (i.withSlot text).slot = some s ∧ parse text = s) ∧
      (((e.withSlot (toString s)).slot = s ↔ ¬ EndsLoose text) ∧
        ((i.withSlot (toString s)).slot = some s ↔ ¬ EndsLoose text) ∧
        (parse (toString s) = s ↔ ¬ EndsLoose text)) ∧
      (parse (toString s) = s.settled ∧ parse (toString s.settled) = s.settled) ∧
      parse (s.name ++ "/" ++ s.subText) = s := by
  have hread := isRead_parse text
  have hebuild : ∀ t, (e.withSlot t).slot = parse t := fun t => rfl
  have hinstalled : ∀ t, (i.withSlot t).slot = some (parse t) := i.slot_withSlot
  have hsettled := parse_toString hread.settled
  rw [settled_settled] at hsettled
  refine ⟨parse text, fun t => parse_eq_iff.symm, ⟨hebuild text, hinstalled text, rfl⟩, ?_,
    ⟨parse_toString hread, hsettled⟩, parse_append_slash hread⟩
  rw [hebuild, hinstalled, Option.some_inj]
  exact ⟨parse_toString_parse_eq_iff, parse_toString_parse_eq_iff, parse_toString_parse_eq_iff⟩

/-- The blank before the slash belongs to the slot as it is read first, but not to what is read from the
rendering. -/
theorem parse_toString_loses_blank :
    parse "a /" = ⟨"a ", none⟩ ∧ toString (parse "a /") = "a " ∧ parse "a " = ⟨"a", none⟩ ∧
    parse (toString (parse "a /")) ≠ parse "a /" ∧
    (({ version := ⟨⟨1, []⟩, [], none, [], []⟩ } : Ebuild).withSlot "a /").slot = ⟨"a ", none⟩ ∧
    (({ version := ⟨⟨1, []⟩, [], none, [], []⟩ } : Ebuild).withSlot "a ").slot = ⟨"a", none⟩ := by
  decide +kernel

end PackageIndex.Slot
