import PackageIndex.Keywords
import PackageIndex.Proofs.Text.Words

/-!
# The strongest keyword decides

A KEYWORDS value is as strong as its strongest keyword (`le_rank_ofKeywords_iff`). So it does not
matter in which order and how often the keywords are there, and more keywords never make it weaker.
Who reads the keywords one after the other may stop at the first that makes versions stable
(`scan_eq_foldl`).
-/

namespace PackageIndex.Stability

variable {arch w : String} {a b : Stability} {k : Nat}

/-! ## Ranks -/

theorem eq_stable_iff : a = stable ↔ 2 ≤ a.rank := by
  cases a <;> decide

theorem eq_unstable_iff : a = unstable ↔ ¬ 2 ≤ a.rank ∧ 1 ≤ a.rank := by
  cases a <;> decide

theorem eq_absent_iff : a = absent ↔ ¬ 1 ≤ a.rank := by
  cases a <;> decide

theorem rank_inj : a.rank = b.rank ↔ a = b := by
  cases a <;> cases b <;> decide

theorem le_rank_max_iff : k ≤ (a.max b).rank ↔ k ≤ a.rank ∨ k ≤ b.rank := by
  unfold Stability.max
  split
  · omega
  · omega

theorem max_absent (a : Stability) : a.max absent = a :=
  if_neg (Nat.not_lt_zero _)

theorem max_unstable (h : a ≠ stable) : a.max unstable = unstable := by
  cases a with
  | stable => exact absurd rfl h
  | _ => rfl

theorem max_stable (a : Stability) : a.max stable = stable := by
  cases a <;> rfl

/-! ## One keyword -/

/-- The keyword makes versions stable on the architecture. -/
def MarksStable (arch w : String) : Prop :=
  w = arch ∨ w = "*"

/-- The keyword makes versions unstable on the architecture, if it does not make them stable. -/
def MarksUnstable (arch w : String) : Prop :=
  w = "~" ++ arch ∨ w = "~*"

theorem marksUnstable_iff :
    MarksUnstable arch w ↔ ∃ cs, w.toList = '~' :: cs ∧ (cs = arch.toList ∨ cs = ['*']) := by
  have harch : w = "~" ++ arch ↔ w.toList = '~' :: arch.toList := by
    rw [← String.toList_inj, String.toList_append]
    rfl
  have hall : w = "~*" ↔ w.toList = ['~', '*'] := String.toList_inj.symm
  unfold MarksUnstable
  rw [harch, hall]
  constructor
  · rintro (h | h)
    · exact ⟨_, h, .inl rfl⟩
    · exact ⟨_, h, .inr rfl⟩
  · rintro ⟨cs, h, rfl | rfl⟩
    · exact .inl h
    · exact .inr h

theorem two_le_rank_ofKeyword_iff : 2 ≤ (ofKeyword arch w).rank ↔ MarksStable arch w := by
  unfold ofKeyword MarksStable
  split
  case isTrue h => exact iff_of_true (Nat.le_refl 2) h
  case isFalse h =>
    refine iff_of_false ?_ h
    split
    · split <;> decide
    · decide

theorem one_le_rank_ofKeyword_iff :
    1 ≤ (ofKeyword arch w).rank ↔ MarksStable arch w ∨ MarksUnstable arch w := by
  by_cases hstable : MarksStable arch w
  · exact iff_of_true (Nat.le_of_succ_le (two_le_rank_ofKeyword_iff.2 hstable)) (.inl hstable)
  · have hnot : ¬ (w = arch ∨ w = "*") := hstable
    rw [or_iff_right hstable, marksUnstable_iff, ofKeyword, if_neg hnot]
    split
    case h_1 cs hw =>
      by_cases hcs : cs = arch.toList ∨ cs = ['*']
      · rw [if_pos hcs]
        exact iff_of_true (by decide) ⟨cs, hw, hcs⟩
      · rw [if_neg hcs]
        refine iff_of_false (by decide) ?_
        rintro ⟨cs', hw', hcs'⟩
        rw [hw] at hw'
        cases hw'
        exact hcs hcs'
    case h_2 hw =>
      refine iff_of_false (by decide) ?_
      rintro ⟨cs, hcs, -⟩
      exact hw cs hcs

/-! ## Several keywords -/

theorem le_rank_foldl_iff (f : String → Stability) (ws : List String) (a : Stability) :
    k ≤ (ws.foldl (fun a w => a.max (f w)) a).rank ↔ k ≤ a.rank ∨ ∃ w ∈ ws, k ≤ (f w).rank := by
  have hstep : ∀ (a : Stability) (w : String),
      k ≤ (a.max (f w)).rank ↔ k ≤ a.rank ∨ k ≤ (f w).rank := fun _ _ => le_rank_max_iff
  exact Text.foldl_iff (fun a => k ≤ a.rank) hstep ws a

/-- A KEYWORDS value has a strength iff one of its keywords has. -/
theorem le_rank_ofKeywords_iff {keywords : String} (hk : 1 ≤ k) :
    k ≤ (ofKeywords keywords arch).rank ↔
      ∃ w ∈ Text.words keywords, k ≤ (ofKeyword arch w).rank := by
  have habsent : ¬ k ≤ absent.rank := Nat.not_le.2 hk
  rw [ofKeywords, le_rank_foldl_iff, or_iff_right habsent]

/-- Reads keywords after others, which were found to say something, and stops at the first that makes
versions stable. -/
def scan (arch : String) (found : Stability) : List String → Stability
  | [] => found
  | w :: ws =>
    match ofKeyword arch w with
    | stable => stable
    | unstable => scan arch unstable ws
    | absent => scan arch found ws

/-- Behind a keyword that makes versions stable there is nothing that counts. -/
theorem foldl_stable (f : String → Stability) (ws : List String) :
    ws.foldl (fun a w => a.max (f w)) stable = stable :=
  eq_stable_iff.2 ((le_rank_foldl_iff f ws stable).2 (.inl (Nat.le_refl 2)))

theorem scan_eq_foldl (ws : List String) (ha : a ≠ stable) :
    scan arch a ws = ws.foldl (fun a w => a.max (ofKeyword arch w)) a := by
  induction ws generalizing a with
  | nil => rfl
  | cons w ws ih =>
    rw [scan, List.foldl_cons]
    cases ofKeyword arch w with
    | stable => rw [max_stable, foldl_stable]
    | unstable => exact (ih (by decide)).trans (by rw [max_unstable ha])
    | absent => exact (ih ha).trans (by rw [max_absent])

/-- **The strongest keyword decides.** Whatever the architecture is called, a KEYWORDS value says that
versions are stable iff some keyword says so, that they are unstable iff none says that they are
stable and some that they are unstable, and nothing iff no keyword says either. It says what is
found from left to right up to the first keyword that makes versions stable. Only which keywords
there are counts, not their order or their repetitions, and with more keywords a value is never
weaker. -/
theorem strongest_keyword_decides (arch : String) :
    (∀ keywords,
      (ofKeywords keywords arch = stable ↔ ∃ w ∈ Text.words keywords, MarksStable arch w) ∧
      (ofKeywords keywords arch = unstable ↔ (¬ ∃ w ∈ Text.words keywords, MarksStable arch w) ∧
        ∃ w ∈ Text.words keywords, MarksUnstable arch w) ∧
      (ofKeywords keywords arch = absent ↔
        ∀ w ∈ Text.words keywords, ¬ MarksStable arch w ∧ ¬ MarksUnstable arch w) ∧
      ofKeywords keywords arch = scan arch absent (Text.words keywords)) ∧
    (∀ keywords others, (∀ w, w ∈ Text.words keywords ↔ w ∈ Text.words others) →
      ofKeywords keywords arch = ofKeywords others arch) ∧
    ∀ keywords more, (∀ w ∈ Text.words keywords, w ∈ Text.words more) →
      (ofKeywords keywords arch).rank ≤ (ofKeywords more arch).rank := by
  have hmore : ∀ keywords more, (∀ w ∈ Text.words keywords, w ∈ Text.words more) →
      (ofKeywords keywords arch).rank ≤ (ofKeywords more arch).rank := by
    intro keywords more h
    rcases Nat.eq_zero_or_pos (ofKeywords keywords arch).rank with hzero | hpos
    · omega
    · obtain ⟨w, hw, hk⟩ := (le_rank_ofKeywords_iff hpos).1 (Nat.le_refl _)
      exact (le_rank_ofKeywords_iff hpos).2 ⟨w, h w hw, hk⟩
  refine ⟨fun keywords => ?_, fun keywords others h => ?_, hmore⟩
  · have htwo : 2 ≤ (ofKeywords keywords arch).rank ↔
        ∃ w ∈ Text.words keywords, MarksStable arch w := by
      simp only [le_rank_ofKeywords_iff (show 1 ≤ 2 by decide), two_le_rank_ofKeyword_iff]
    have hone : 1 ≤ (ofKeywords keywords arch).rank ↔
        ∃ w ∈ Text.words keywords, MarksStable arch w ∨ MarksUnstable arch w := by
      simp only [le_rank_ofKeywords_iff (Nat.le_refl 1), one_le_rank_ofKeyword_iff]
    have hscan : scan arch absent (Text.words keywords) = ofKeywords keywords arch :=
      scan_eq_foldl _ (by decide)
    refine ⟨eq_stable_iff.trans htwo, ?_, ?_, hscan.symm⟩
    · rw [eq_unstable_iff, htwo, hone]
      refine and_congr_right fun hnone => ?_
      exact exists_congr fun w => and_congr_right fun hw =>
        or_iff_right fun hstable => hnone ⟨w, hw, hstable⟩
    · rw [eq_absent_iff, hone]
      simp only [not_exists, not_and, not_or]
  · have hle := hmore keywords others fun w => (h w).1
    have hge := hmore others keywords fun w => (h w).2
    exact rank_inj.1 (Nat.le_antisymm hle hge)

/-- The name of the architecture starts with a tilde itself. -/
theorem strongest_keyword_decides_tilde :
    (∀ w ∈ Text.words "~~x86 x86", w ∈ Text.words "x86  ~~x86 ~x86") ∧
      ofKeywords "~~x86 x86" "~x86" = unstable ∧ ofKeywords "x86  ~~x86 ~x86" "~x86" = stable ∧
      (ofKeywords "~~x86 x86" "~x86").rank ≤ (ofKeywords "x86  ~~x86 ~x86" "~x86").rank := by
  obtain ⟨hall, -, hmore⟩ := strongest_keyword_decides "~x86"
  have hwords : ∀ w ∈ Text.words "~~x86 x86", w ∈ Text.words "x86  ~~x86 ~x86" := by decide +kernel
  refine ⟨hwords, ?_, ?_, hmore _ _ hwords⟩
  · exact (hall _).2.1.2 (by unfold MarksStable MarksUnstable; decide +kernel)
  · exact (hall _).1.2 (by unfold MarksStable; decide +kernel)

end PackageIndex.Stability
