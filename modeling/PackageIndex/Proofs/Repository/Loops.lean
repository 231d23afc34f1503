import PackageIndex.Repository.Attempt

/-!
# Loops that may stop

What can be said of a loop of attempts from what can be said of a single one: what every attempt
keeps is kept by the loop, and what every attempt adds is added, one after the other, by a loop that
comes to its end.
-/

namespace PackageIndex.Attempt

variable {α β γ : Type} {step : α → β → Attempt α}

theorem eq_of_error?_eq_none {a : Attempt α} (h : a.error? = none) : a = { value := a.value } := by
  cases a
  cases h
  rfl

theorem toExcept_eq_ok {a : Attempt α} {value : α} (h : a.toExcept = .ok value) :
    a.error? = none ∧ a.value = value := by
  unfold toExcept at h
  cases he : a.error? with
  | none =>
    rw [he] at h
    cases h
    exact ⟨rfl, rfl⟩
  | some e =>
    rw [he] at h
    cases h

/-- The first step is all that is done if it fails, and otherwise the others go on from its value. -/
theorem each_cons (step : α → β → Attempt α) (a : α) (b : β) (bs : List β) :
    each step a (b :: bs) = if (step a b).error? = none then each step (step a b).value bs
      else step a b := by
  rw [each]
  cases step a b with
  | mk a' error? =>
    cases error? with
    | none => rfl
    | some e => rfl

/-- What every step keeps is kept by all steps, also up to a failure. -/
theorem each_induction {P : α → Prop} (bs : List β) :
    ∀ a, (∀ a, ∀ b ∈ bs, P a → P (step a b).value) → P a → P (each step a bs).value := by
  induction bs with
  | nil =>
    intro a _ h
    exact h
  | cons b bs ih =>
    intro a hstep h
    have hb := hstep a b List.mem_cons_self h
    rw [each_cons]
    split
    · exact ih _ (fun a u hu => hstep a u (List.mem_cons_of_mem b hu)) hb
    · exact hb

/-- What every step adds is added by all steps. -/
theorem perm_each {g : α → List γ} {added : β → List γ}
    (hstep : ∀ a b, (step a b).error? = none → (g (step a b).value).Perm (added b ++ g a)) :
    ∀ (bs : List β) (a : α), (each step a bs).error? = none →
      (g (each step a bs).value).Perm (bs.flatMap added ++ g a) := by
  intro bs
  induction bs with
  | nil =>
    intro a _
    exact .refl _
  | cons b bs ih =>
    intro a h
    rw [each_cons] at h ⊢
    split at h
    next hb =>
      rw [if_pos hb, List.flatMap_cons, List.append_assoc]
      have hrest := (ih _ h).trans ((hstep a b hb).append_left _)
      exact hrest.trans (List.perm_append_comm_assoc _ _ _)
    next hb => exact absurd h hb

theorem each_cons_of_eq {a a' : α} {b : β} (h : step a b = { value := a' }) (bs : List β) :
    each step a (b :: bs) = each step a' bs := by
  rw [each, h]

/-- A loop in which no step fails is a fold. -/
theorem each_map {g : γ → β} {f : α → γ → α} (hstep : ∀ a c, step a (g c) = { value := f a c })
    (cs : List γ) : ∀ a, each step a (cs.map g) = { value := cs.foldl f a } := by
  induction cs with
  | nil => exact fun a => rfl
  | cons c cs ih =>
    intro a
    rw [List.map_cons, each_cons_of_eq (hstep a c)]
    exact ih (f a c)

end PackageIndex.Attempt
