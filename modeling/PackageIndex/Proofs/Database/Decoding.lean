import Mathlib.Data.List.Forall2
import PackageIndex.Database.Decoder

/-!
# What a decoder takes

A written form and its decoder belong together if the decoder takes exactly the written bytes,
whatever follows them, and reports a truncation if the input ends within them (`ReadsAt`, `Reads`).
Both halves pass through the sequencing of decoders, so that records are treated field by field
(`Reads.bind`, `Reads.repeated`). Apart from any written form, a decoder that succeeds has moved
forward over bytes that were there (`Advances`), and what it gives has a property that the decoder
sees to, whoever wrote the bytes (`Ensures`).
-/

namespace PackageIndex.Decoder

variable {α β : Type}

/-! ## Sequencing -/

theorem run_bind_of_ok {d : Decoder α} {f : α → Decoder β} {i i' : Input} {a : α}
    (h : d.run i = .ok (a, i')) : (d >>= f).run i = (f a).run i' := by
  rw [StateT.run_bind, h]
  rfl

theorem run_bind_of_error {d : Decoder α} {f : α → Decoder β} {i : Input} {e : Error}
    (h : d.run i = .error e) : (d >>= f).run i = .error e := by
  rw [StateT.run_bind, h]
  rfl

theorem bind_eq_ok {x : Except Error α} {f : α → Except Error β} {b : β}
    (h : x >>= f = .ok b) : ∃ a, x = .ok a ∧ f a = .ok b := by
  cases x with
  | error e => cases h
  | ok a => exact ⟨a, rfl, h⟩

/-- A sequence that succeeds does so in both of its steps. -/
theorem run_bind_eq_ok {d : Decoder α} {f : α → Decoder β} {i i'' : Input} {b : β}
    (h : (d >>= f).run i = .ok (b, i'')) :
    ∃ a i', d.run i = .ok (a, i') ∧ (f a).run i' = .ok (b, i'') := by
  rw [StateT.run_bind] at h
  obtain ⟨⟨a, i'⟩, hd, hf⟩ := bind_eq_ok h
  exact ⟨a, i', hd, hf⟩

/-- A sequence that fails does so in its first step, or in its second after the first. -/
theorem run_bind_eq_error {d : Decoder α} {f : α → Decoder β} {i : Input} {e : Error}
    (h : (d >>= f).run i = .error e) :
    d.run i = .error e ∨ ∃ a i', d.run i = .ok (a, i') ∧ (f a).run i' = .error e := by
  cases hd : d.run i with
  | error e' => rw [run_bind_of_error hd] at h; cases h; exact .inl rfl
  | ok r => exact .inr ⟨r.1, r.2, rfl, (run_bind_of_ok hd).symm.trans h⟩

theorem run_repeated_succ {item : Decoder α} {count : Nat} {i i' i'' : Input} {a : α} {as : List α}
    (h : item.run i = .ok (a, i')) (hs : (repeated item count).run i' = .ok (as, i'')) :
    (repeated item (count + 1)).run i = .ok (a :: as, i'') := by
  rw [repeated, run_bind_of_ok h, run_bind_of_ok hs]
  rfl

theorem run_upTo_append (offset : Nat) (bytes rest : List UInt8) :
    (upTo bytes.length).run ⟨offset, bytes ++ rest⟩ =
      .ok (bytes, ⟨offset + bytes.length, rest⟩) := by
  simp [upTo, StateT.run]

theorem run_upTo_of_length_le {count : Nat} {bytes : List UInt8} (h : bytes.length ≤ count)
    (offset : Nat) :
    (upTo count).run ⟨offset, bytes⟩ = .ok (bytes, ⟨offset + bytes.length, []⟩) := by
  simp [upTo, StateT.run, List.take_of_length_le h, List.drop_of_length_le h]

/-! ## Written forms -/

/-- At the offset, the decoder takes exactly the bytes and gives the value. -/
structure ReadsAt (d : Decoder α) (offset : Nat) (bytes : List UInt8) (a : α) : Prop where
  /-- What follows the bytes is left. -/
  whole (rest : List UInt8) :
    d.run ⟨offset, bytes ++ rest⟩ = .ok (a, ⟨offset + bytes.length, rest⟩)
  /-- If only a part of the bytes is there, the decoder says that the input is truncated. -/
  cut (part : List UInt8) (hp : part <+: bytes) (hne : part ≠ bytes) :
    ∃ cause, d.run ⟨offset, part⟩ = .error (.truncated cause)

/-- The decoder takes exactly the bytes and gives the value, wherever they end at an offset of 64
bits. -/
def Reads (d : Decoder α) (bytes : List UInt8) (a : α) : Prop :=
  ∀ offset, offset + bytes.length < UInt64.size → d.ReadsAt offset bytes a

/-- A part of two written forms is a part of the first, or the first with a part of the second. -/
theorem part_of_append {part as bs : List UInt8} (hp : part <+: as ++ bs)
    (hne : part ≠ as ++ bs) :
    (part <+: as ∧ part ≠ as) ∨ ∃ part', part = as ++ part' ∧ part' <+: bs ∧ part' ≠ bs := by
  rcases List.prefix_or_prefix_of_prefix hp (List.prefix_append as bs) with h | ⟨part', rfl⟩
  · by_cases he : part = as
    · subst he
      refine .inr ⟨[], (List.append_nil part).symm, List.nil_prefix, ?_⟩
      rintro rfl
      exact hne (List.append_nil part).symm
    · exact .inl ⟨h, he⟩
  · refine .inr ⟨part', rfl, (List.prefix_append_right_inj as).1 hp, ?_⟩
    rintro rfl
    exact hne rfl

namespace ReadsAt

variable {d : Decoder α} {f : α → Decoder β} {offset : Nat} {as bs : List UInt8} {a : α} {b : β}

/-- What takes no bytes cannot find too few. -/
theorem of_nil (h : ∀ rest, d.run ⟨offset, rest⟩ = .ok (a, ⟨offset, rest⟩)) :
    d.ReadsAt offset [] a where
  whole := h
  cut _ hp hne := absurd (List.prefix_nil.1 hp) hne

theorem pure (a : α) : Decoder.ReadsAt (Pure.pure a) offset [] a :=
  of_nil fun _ => rfl

theorem position : Decoder.position.ReadsAt offset [] offset :=
  of_nil fun _ => rfl

theorem require {value : Option α} {cause : Error} (h : value = some a) :
    (Decoder.require value cause).ReadsAt offset [] a := by
  subst h
  exact of_nil fun _ => rfl

theorem bind (hd : d.ReadsAt offset as a) (hf : (f a).ReadsAt (offset + as.length) bs b) :
    Decoder.ReadsAt (d >>= f) offset (as ++ bs) b where
  whole rest := by
    rw [List.append_assoc, run_bind_of_ok (hd.whole (bs ++ rest)), hf.whole rest,
      List.length_append, Nat.add_assoc]
  cut part hp hne := by
    rcases part_of_append hp hne with ⟨hp, hne⟩ | ⟨part, rfl, hp, hne⟩
    · obtain ⟨cause, h⟩ := hd.cut part hp hne
      exact ⟨cause, run_bind_of_error h⟩
    · obtain ⟨cause, h⟩ := hf.cut part hp hne
      exact ⟨cause, (run_bind_of_ok (hd.whole part)).trans h⟩

theorem andThen (hd : d.ReadsAt offset as a) (hf : (f a).ReadsAt (offset + as.length) [] b) :
    Decoder.ReadsAt (d >>= f) offset as b :=
  List.append_nil as ▸ hd.bind hf

theorem position_bind {f : Nat → Decoder β} (hf : (f offset).ReadsAt offset bs b) :
    Decoder.ReadsAt (Decoder.position >>= f) offset bs b :=
  position.bind hf

/-- Passing over bytes up to their end takes them. -/
theorem skipTo {stop : Nat} (h : stop = offset + bs.length) :
    (Decoder.skipTo stop).ReadsAt offset bs () := by
  subst h
  refine position_bind ?_
  rw [if_neg (by omega), Nat.add_sub_cancel_left]
  constructor
  · intro rest
    refine (run_bind_of_ok (run_upTo_append offset bs rest)).trans ?_
    rw [if_neg (Nat.lt_irrefl _)]
    rfl
  · intro part hp hne
    have hlt : part.length < bs.length :=
      Nat.lt_of_le_of_ne hp.length_le fun h => hne (hp.eq_of_length h)
    refine ⟨.record bs.length part.length,
      (run_bind_of_ok (run_upTo_of_length_le (Nat.le_of_lt hlt) offset)).trans ?_⟩
    rw [if_pos hlt]
    rfl

end ReadsAt

namespace Reads

variable {d : Decoder α} {f : α → Decoder β} {as bs : List UInt8} {a : α} {b : β}

theorem pure (a : α) : Decoder.Reads (Pure.pure a) [] a :=
  fun _ _ => .pure a

theorem require {value : Option α} {cause : Error} (h : value = some a) :
    (Decoder.require value cause).Reads [] a :=
  fun _ _ => .require h

theorem bind (hd : d.Reads as a) (hf : (f a).Reads bs b) :
    Decoder.Reads (d >>= f) (as ++ bs) b := by
  intro offset hlt
  rw [List.length_append] at hlt
  exact (hd offset (by omega)).bind (hf (offset + as.length) (by omega))

theorem andThen (hd : d.Reads as a) (hf : (f a).Reads [] b) : Decoder.Reads (d >>= f) as b :=
  List.append_nil as ▸ hd.bind hf

/-- A last step that takes no bytes, after a choice between two readers. -/
theorem ite_bind {c : Prop} [Decidable c] {d' : Decoder α}
    (hd : (if c then d else d').Reads as a) (hf : (f a).Reads [] b) :
    (if c then d >>= f else d' >>= f).Reads as b := by
  split at hd
  · rw [if_pos ‹c›]
    exact hd.andThen hf
  · rw [if_neg ‹¬c›]
    exact hd.andThen hf

/-- Items are read one after the other. -/
theorem repeated {item : Decoder α} {forms : List (List UInt8)} {values : List α}
    (h : List.Forall₂ item.Reads forms values) :
    (Decoder.repeated item values.length).Reads forms.flatten values := by
  induction h with
  | nil => exact pure []
  | cons hitem _ ih => exact hitem.bind (ih.andThen (pure _))

end Reads

/-! ## Moving forward -/

/-- Wherever the decoder succeeds, it has moved forward over bytes that were there. -/
def Advances (d : Decoder α) : Prop :=
  ∀ i a i', d.run i = .ok (a, i') →
    ∃ taken, i.bytes = taken ++ i'.bytes ∧ i'.offset = i.offset + taken.length

namespace Advances

variable {d d' : Decoder α} {f : α → Decoder β}

theorem le (hd : d.Advances) {i i' : Input} {a : α} (h : d.run i = .ok (a, i')) :
    i.offset ≤ i'.offset := by
  obtain ⟨taken, -, ho⟩ := hd i a i' h
  omega

theorem offset_add_length (hd : d.Advances) {i i' : Input} {a : α} (h : d.run i = .ok (a, i')) :
    i'.offset + i'.bytes.length = i.offset + i.bytes.length := by
  obtain ⟨taken, hb, ho⟩ := hd i a i' h
  rw [hb, ho, List.length_append, Nat.add_assoc]

/-- What takes nothing where it succeeds. -/
theorem of_same (h : ∀ i a i', d.run i = .ok (a, i') → i' = i) : d.Advances := by
  intro i a i' hr
  obtain rfl := h i a i' hr
  exact ⟨[], rfl, rfl⟩

theorem pure (a : α) : Decoder.Advances (Pure.pure a) := by
  refine of_same fun i b i' h => ?_
  cases h
  rfl

theorem throw (e : Error) : Decoder.Advances (throw e : Decoder α) := by
  intro i a i' h
  cases h

theorem position : Decoder.position.Advances := by
  refine of_same fun i b i' h => ?_
  cases h
  rfl

theorem require (value : Option α) (cause : Error) :
    (Decoder.require value cause).Advances := by
  cases value with
  | none => exact throw cause
  | some a => exact pure a

theorem upTo (count : Nat) : (Decoder.upTo count).Advances := by
  intro i a i' h
  cases h
  exact ⟨i.bytes.take count, (List.take_append_drop count i.bytes).symm, rfl⟩

theorem bind (hd : d.Advances) (hf : ∀ a, (f a).Advances) : Decoder.Advances (d >>= f) := by
  intro i b i'' h
  obtain ⟨a, i', h₁, h₂⟩ := run_bind_eq_ok h
  obtain ⟨t₁, hb₁, ho₁⟩ := hd i a i' h₁
  obtain ⟨t₂, hb₂, ho₂⟩ := hf a i' b i'' h₂
  refine ⟨t₁ ++ t₂, by rw [hb₁, hb₂, List.append_assoc], ?_⟩
  rw [ho₂, ho₁, List.length_append, Nat.add_assoc]

theorem ite {c : Prop} [Decidable c] (hd : d.Advances) (hd' : d'.Advances) :
    Decoder.Advances (if c then d else d') := by
  split
  · exact hd
  · exact hd'

theorem skipTo (stop : Nat) : (Decoder.skipTo stop).Advances :=
  position.bind fun _ => (throw _).ite ((upTo _).bind fun _ => (throw _).ite (pure _))

theorem repeated (hd : d.Advances) (count : Nat) : (Decoder.repeated d count).Advances := by
  induction count with
  | zero => exact pure []
  | succ count ih => exact hd.bind fun _ => ih.bind fun _ => pure _

end Advances

/-! ## What a decoder sees to -/

/-- Wherever the decoder succeeds, its value has the property. -/
def Ensures (d : Decoder α) (P : α → Prop) : Prop :=
  ∀ i a i', d.run i = .ok (a, i') → P a

namespace Ensures

variable {d d' : Decoder α} {f : α → Decoder β} {P : α → Prop} {Q : β → Prop}

theorem pure {a : α} (h : P a) : Decoder.Ensures (Pure.pure a) P := by
  intro i b i' hr
  cases hr
  exact h

theorem throw (e : Error) : Decoder.Ensures (throw e : Decoder α) P := by
  intro i a i' hr
  cases hr

theorem bind (hd : d.Ensures P) (hf : ∀ a, P a → (f a).Ensures Q) :
    Decoder.Ensures (d >>= f) Q := by
  intro i b i'' hr
  obtain ⟨a, i', h₁, h₂⟩ := run_bind_eq_ok hr
  exact hf a (hd i a i' h₁) i' b i'' h₂

/-- Only the last step matters. -/
theorem last (hf : ∀ a, (f a).Ensures Q) : Decoder.Ensures (d >>= f) Q :=
  bind (P := fun _ => True) (fun _ _ _ _ => trivial) fun a _ => hf a

theorem ite {c : Prop} [Decidable c] (hd : c → d.Ensures P) (hd' : ¬c → d'.Ensures P) :
    Decoder.Ensures (if c then d else d') P := by
  split
  next h => exact hd h
  next h => exact hd' h

theorem repeated (hd : d.Ensures P) (count : Nat) :
    (Decoder.repeated d count).Ensures fun as => as.length = count ∧ ∀ a ∈ as, P a := by
  induction count with
  | zero => exact pure ⟨rfl, fun a ha => absurd ha List.not_mem_nil⟩
  | succ count ih =>
    refine hd.bind fun a ha => ih.bind fun as has => pure ⟨congrArg Nat.succ has.1, fun b hb => ?_⟩
    rcases List.mem_cons.1 hb with rfl | hb
    · exact ha
    · exact has.2 b hb

end Ensures

end PackageIndex.Decoder
