import Mathlib.Computability.RegularExpressions
import PackageIndex.Version.Parser

/-!
# The grammar of versions

The texts of versions are those of the regular expression
`N(.N)*[a-z]?(_(alpha|beta|pre|rc|p)N?)*(-rN)?`, where `N` is a nonempty run of digits
(`spells_grammar`). The parts of a version are what its text is put together from, so each part of
the expression matches the texts of one type of parts: a repetition those of lists, an option those
of `Option`, a sequence those of pairs.
-/

open scoped Computability
open RegularExpression (matches'_add matches'_mul matches'_star matches'_epsilon matches'_char)

namespace PackageIndex.Version

namespace Grammar

/-! ## The expression -/

/-- One of the characters of a text. -/
def oneOf (s : String) : RegularExpression Char :=
  (s.toList.map RegularExpression.char).sum

/-- The characters of a text, one after the other. -/
def word (s : String) : RegularExpression Char :=
  (s.toList.map RegularExpression.char).prod

/-- The expression or nothing. -/
def optional (r : RegularExpression Char) : RegularExpression Char :=
  1 + r

/-- A nonempty run of digits. -/
def numeral : RegularExpression Char :=
  oneOf "0123456789" * (oneOf "0123456789").star

/-- The words of the suffix kinds. -/
def kind : RegularExpression Char :=
  word "alpha" + word "beta" + word "pre" + word "rc" + word "p"

end Grammar

open Grammar

/-- The form of a version. -/
def grammar : RegularExpression Char :=
  numeral * (word "." * numeral).star * optional (oneOf "abcdefghijklmnopqrstuvwxyz") *
    (word "_" * kind * optional numeral).star * optional (word "-r" * numeral)

/-! ## What an expression matches -/

variable {α β : Type} {r s : RegularExpression Char} {f : α → List Char} {g : β → List Char}

/-- The expression matches the texts of the values of a type. -/
def Spells (r : RegularExpression Char) (f : α → List Char) : Prop :=
  ∀ w, w ∈ r.matches' ↔ ∃ a, f a = w

theorem mem_char {c : Char} {w : List Char} :
    w ∈ (RegularExpression.char c).matches' ↔ [c] = w :=
  eq_comm

namespace Spells

/-- The same texts are those of another type, if its values are put together from the first. -/
theorem of_surjective (hr : Spells r f) (e : α → β) (he : e.Surjective)
    (h : ∀ a, g (e a) = f a) : Spells r g := by
  intro w
  rw [hr w]
  constructor
  · rintro ⟨a, rfl⟩
    exact ⟨e a, h a⟩
  · rintro ⟨b, rfl⟩
    obtain ⟨a, rfl⟩ := he b
    exact ⟨a, (h a).symm⟩

theorem mul (hr : Spells r f) (hs : Spells s g) :
    Spells (r * s) fun p : α × β => f p.1 ++ g p.2 := by
  intro w
  rw [matches'_mul, Language.mem_mul]
  constructor
  · rintro ⟨u, hu, v, hv, rfl⟩
    obtain ⟨a, rfl⟩ := (hr u).1 hu
    obtain ⟨b, rfl⟩ := (hs v).1 hv
    exact ⟨(a, b), rfl⟩
  · rintro ⟨⟨a, b⟩, rfl⟩
    exact ⟨f a, (hr _).2 ⟨a, rfl⟩, g b, (hs _).2 ⟨b, rfl⟩, rfl⟩

theorem star (hr : Spells r f) : Spells r.star fun as : List α => as.flatMap f := by
  intro w
  rw [matches'_star, Language.mem_kstar]
  constructor
  · rintro ⟨ws, rfl, hws⟩
    induction ws with
    | nil => exact ⟨[], rfl⟩
    | cons u ws ih =>
      obtain ⟨a, rfl⟩ := (hr u).1 (hws u List.mem_cons_self)
      obtain ⟨as, has⟩ := ih fun v hv => hws v (List.mem_cons_of_mem _ hv)
      exact ⟨a :: as, congrArg (f a ++ ·) has⟩
  · rintro ⟨as, rfl⟩
    refine ⟨as.map f, List.flatMap_def, fun u hu => ?_⟩
    obtain ⟨a, -, rfl⟩ := List.mem_map.1 hu
    exact (hr _).2 ⟨a, rfl⟩

theorem optional (hr : Spells r f) :
    Spells (optional r) fun o : Option α => (o.map f).getD [] := by
  intro w
  rw [Grammar.optional, matches'_add, matches'_epsilon, Language.mem_add, Language.mem_one, hr w]
  constructor
  · rintro (rfl | ⟨a, rfl⟩)
    · exact ⟨none, rfl⟩
    · exact ⟨some a, rfl⟩
  · rintro ⟨_ | a, rfl⟩
    · exact .inl rfl
    · exact .inr ⟨a, rfl⟩

theorem oneOf {s : String} {f : α → Char} (h : ∀ c, c ∈ s.toList ↔ ∃ a, f a = c) :
    Spells (oneOf s) fun a => [f a] := by
  have hmem : ∀ (cs : List Char) (w : List Char),
      w ∈ (cs.map RegularExpression.char).sum.matches' ↔ ∃ c ∈ cs, [c] = w := by
    intro cs w
    induction cs with
    | nil => simp [RegularExpression.matches'_zero, Language.notMem_zero]
    | cons c cs ih =>
      rw [List.map_cons, List.sum_cons, matches'_add, Language.mem_add, ih, mem_char]
      simp only [List.mem_cons, exists_eq_or_imp]
  intro w
  rw [Grammar.oneOf, hmem]
  constructor
  · rintro ⟨c, hc, rfl⟩
    obtain ⟨a, rfl⟩ := (h c).1 hc
    exact ⟨a, rfl⟩
  · rintro ⟨a, rfl⟩
    exact ⟨f a, (h _).2 ⟨a, rfl⟩, rfl⟩

theorem word (s : String) : Spells (word s) fun _ : Unit => s.toList := by
  have hmem : ∀ (cs : List Char) (w : List Char),
      w ∈ (cs.map RegularExpression.char).prod.matches' ↔ cs = w := by
    intro cs w
    induction cs generalizing w with
    | nil => exact eq_comm
    | cons c cs ih =>
      rw [List.map_cons, List.prod_cons, matches'_mul, Language.mem_mul]
      constructor
      · rintro ⟨u, hu, v, hv, rfl⟩
        rw [← mem_char.1 hu, ← (ih v).1 hv]
        rfl
      · rintro rfl
        exact ⟨[c], mem_char.2 rfl, cs, (ih cs).2 rfl, rfl⟩
  intro w
  rw [Grammar.word, hmem]
  exact ⟨fun h => ⟨(), h⟩, fun ⟨_, h⟩ => h⟩

end Spells

/-! ## The parts of a version -/

theorem spells_digit : Spells (oneOf "0123456789") fun d : Digit => [d.toChar] := by
  refine .oneOf fun c => ?_
  have hdigits : "0123456789".toList = (List.finRange 10).map Digit.toChar := by decide
  rw [hdigits, List.mem_map]
  simp only [List.mem_finRange, true_and]

theorem spells_letter :
    Spells (oneOf "abcdefghijklmnopqrstuvwxyz") fun l : Letter => [l.toChar] := by
  refine .oneOf fun c => ?_
  have hletters : "abcdefghijklmnopqrstuvwxyz".toList = (List.finRange 26).map Letter.toChar := by
    decide
  rw [hletters, List.mem_map]
  simp only [List.mem_finRange, true_and]

theorem spells_numeral : Spells numeral fun n : Numeral => Digits.toList n.digits := by
  refine (spells_digit.mul spells_digit.star).of_surjective (fun p => ⟨p.1, p.2⟩) ?_ ?_
  · rintro ⟨d, ds⟩
    exact ⟨(d, ds), rfl⟩
  · rintro ⟨d, ds⟩
    exact congrArg (d.toChar :: ·) List.map_eq_flatMap

theorem spells_kind : Spells kind SuffixKind.toList := by
  intro w
  simp only [kind, matches'_add, Language.mem_add, Spells.word _ w]
  constructor
  · rintro ((((⟨-, rfl⟩ | ⟨-, rfl⟩) | ⟨-, rfl⟩) | ⟨-, rfl⟩) | ⟨-, rfl⟩)
    · exact ⟨.alpha, rfl⟩
    · exact ⟨.beta, rfl⟩
    · exact ⟨.pre, rfl⟩
    · exact ⟨.rc, rfl⟩
    · exact ⟨.patch, rfl⟩
  · rintro ⟨k, rfl⟩
    cases k with
    | alpha => exact .inl (.inl (.inl (.inl ⟨(), rfl⟩)))
    | beta => exact .inl (.inl (.inl (.inr ⟨(), rfl⟩)))
    | pre => exact .inl (.inl (.inr ⟨(), rfl⟩))
    | rc => exact .inl (.inr ⟨(), rfl⟩)
    | patch => exact .inr ⟨(), rfl⟩

theorem spells_components : Spells (word "." * numeral).star
    fun ns : List Numeral => ns.flatMap fun n => '.' :: Digits.toList n.digits := by
  refine (((Spells.word ".").mul spells_numeral).of_surjective Prod.snd ?_ ?_).star
  · exact fun n => ⟨((), n), rfl⟩
  · exact fun p => rfl

/-- An absent number is the empty run. -/
theorem spells_number : Spells (optional numeral) Digits.toList := by
  refine spells_numeral.optional.of_surjective (fun o => (o.map Numeral.digits).getD []) ?_ ?_
  · rintro (_ | ⟨d, ds⟩)
    · exact ⟨none, rfl⟩
    · exact ⟨some ⟨d, ds⟩, rfl⟩
  · rintro (_ | n)
    · rfl
    · rfl

theorem spells_suffixes : Spells (word "_" * kind * optional numeral).star
    fun ss : List Suffix => ss.flatMap Suffix.toList := by
  have hsuffix := ((Spells.word "_").mul spells_kind).mul spells_number
  refine (hsuffix.of_surjective (fun p => ⟨p.1.2, p.2⟩) ?_ ?_).star
  · exact fun s => ⟨(((), s.kind), s.number), rfl⟩
  · exact fun p => rfl

theorem spells_revision : Spells (optional (word "-r" * numeral)) revisionToList := by
  refine ((Spells.word "-r").mul spells_numeral).optional.of_surjective
    (fun o => (o.map fun p => p.2.digits).getD []) ?_ ?_
  · rintro (_ | ⟨d, ds⟩)
    · exact ⟨none, rfl⟩
    · exact ⟨some ((), ⟨d, ds⟩), rfl⟩
  · rintro (_ | p)
    · rfl
    · rfl

/-- The grammar matches the texts of versions. -/
theorem spells_grammar : Spells grammar Version.toList := by
  have hall := (((spells_numeral.mul spells_components).mul spells_letter.optional).mul
    spells_suffixes).mul spells_revision
  refine hall.of_surjective (fun p => ⟨p.1.1.1.1, p.1.1.1.2, p.1.1.2, p.1.2, p.2⟩) ?_ ?_
  · exact fun v => ⟨((((v.first, v.rest), v.letter), v.suffixes), v.revision), rfl⟩
  · rintro ⟨⟨⟨⟨n, ns⟩, letter⟩, ss⟩, ds⟩
    cases letter with
    | none => rfl
    | some l => rfl

end PackageIndex.Version
