import PackedRatings.Number.Arithmetic

/-!
# Sums up to the sign of zero

A zero that is added to a sum changes at most the sign of a zero, and a term that is not a number
makes the whole sum one that is not. So the terms of a sum that are zero may be left out.
-/
namespace PackedRatings.Binary64

variable {x y : Binary64}

/-- Both are not numbers, or both are and they are numerically equal. -/
def SameNumber (x y : Binary64) : Prop :=
  x.numEq y = true ∨ x.isNaN = true ∧ y.isNaN = true

theorem isNaN_of_isZero (h : x.isZero = true) : x.isNaN = false := by
  simp only [isZero, isNaN, decide_eq_true_eq, decide_eq_false_iff_not] at *
  rw [h]
  exact Nat.not_lt_zero _

theorem sameNumber_iff : x.SameNumber y ↔
    x = y ∨ x.isZero = true ∧ y.isZero = true ∨ x.isNaN = true ∧ y.isNaN = true := by
  simp only [SameNumber, numEq, Bool.and_eq_true, Bool.or_eq_true, Bool.not_eq_true', beq_iff_eq]
  constructor
  · rintro (⟨-, h⟩ | h)
    · rcases h with heq | hzero
      · exact .inl heq
      · exact .inr (.inl hzero)
    · exact .inr (.inr h)
  · rintro (rfl | hzero | h)
    · cases hx : x.isNaN with
      | true => simp
      | false => simp
    · exact .inl ⟨⟨isNaN_of_isZero hzero.1, isNaN_of_isZero hzero.2⟩, .inr hzero⟩
    · exact .inr h

theorem SameNumber.refl (x : Binary64) : x.SameNumber x :=
  sameNumber_iff.2 (.inl rfl)

theorem SameNumber.symm (h : x.SameNumber y) : y.SameNumber x := by
  rw [sameNumber_iff] at *
  rwa [eq_comm, and_comm, and_comm (a := y.isNaN = true)]

theorem SameNumber.isNaN_iff (h : x.SameNumber y) : x.isNaN = true ↔ y.isNaN = true := by
  rcases sameNumber_iff.1 h with rfl | hzero | hnan
  · rfl
  · simp [isNaN_of_isZero hzero.1, isNaN_of_isZero hzero.2]
  · exact iff_of_true hnan.1 hnan.2

theorem SameNumber.trans {z : Binary64} (h : x.SameNumber y) (h' : y.SameNumber z) :
    x.SameNumber z := by
  rcases sameNumber_iff.1 h with rfl | hzero | hnan
  · exact h'
  · rcases sameNumber_iff.1 h' with rfl | hzero' | hnan'
    · exact h
    · exact sameNumber_iff.2 (.inr (.inl ⟨hzero.1, hzero'.2⟩))
    · rw [isNaN_of_isZero hzero.2] at hnan'
      cases hnan'.1
  · exact sameNumber_iff.2 (.inr (.inr ⟨hnan.1, h'.isNaN_iff.1 hnan.2⟩))

theorem isNaN_quiet (h : x.isNaN = true) : x.quiet.isNaN = true := by
  have hle : x.magnitude ≤ x.quiet.magnitude := by
    have hmod : ∀ m n : Nat, (m ||| n) % 0x8000000000000000 =
        m % 0x8000000000000000 ||| n % 0x8000000000000000 := fun m n =>
      Nat.or_mod_two_pow (n := 63)
    rw [magnitude, magnitude, quiet, UInt64.toNat_or, hmod]
    exact Nat.left_le_or
  simp only [isNaN, decide_eq_true_eq] at *
  exact Nat.lt_of_lt_of_le h hle

theorem isZero_signedZero (negative : Bool) : (signedZero negative).isZero = true := by
  cases negative with
  | false => rfl
  | true => rfl

theorem isNaN_add (h : x.isNaN = true ∨ y.isNaN = true) : (x + y).isNaN = true := by
  change (add x y).isNaN = true
  rw [add]
  split
  · exact isNaN_quiet ‹_›
  · rename_i hx
    have hy := h.resolve_left hx
    rw [if_pos hy]
    exact isNaN_quiet hy

/-- Adding a zero changes nothing but the sign of a zero. -/
theorem add_zero_sameNumber (h : y.isZero = true) : (x + y).SameNumber x := by
  have hy := isNaN_of_isZero h
  by_cases hx : x.isNaN = true
  · exact sameNumber_iff.2 (.inr (.inr ⟨isNaN_add (.inl hx), hx⟩))
  · by_cases hzero : x.isZero = true
    · have hadd : x + y = signedZero (x.negative && y.negative) := by
        change add x y = _
        rw [add, if_neg hx, if_neg (by simp [hy]), if_pos (by simp [hzero, h])]
      rw [hadd]
      exact sameNumber_iff.2 (.inr (.inl ⟨isZero_signedZero _, hzero⟩))
    · have hadd : x + y = x := by
        change add x y = _
        rw [add, if_neg hx, if_neg (by simp [hy]), if_neg (by simp [hzero]), if_neg hzero,
          if_pos h]
      rw [hadd]
      exact .refl x

theorem add_of_isZero (hx : x.isZero = true) : x + y =
    if y.isNaN then y.quiet else if y.isZero then signedZero (x.negative && y.negative) else y := by
  change add x y = _
  rw [add, if_neg (by simp [isNaN_of_isZero hx])]
  simp [hx]

theorem SameNumber.add_right {x' : Binary64} (h : x.SameNumber x') (y : Binary64) :
    (x + y).SameNumber (x' + y) := by
  rcases sameNumber_iff.1 h with rfl | hzero | hnan
  · exact .refl _
  · rw [add_of_isZero hzero.1, add_of_isZero hzero.2]
    split
    · exact .refl _
    · split
      · exact sameNumber_iff.2 (.inr (.inl ⟨isZero_signedZero _, isZero_signedZero _⟩))
      · exact .refl _
  · exact sameNumber_iff.2 (.inr (.inr ⟨isNaN_add (.inl hnan.1), isNaN_add (.inl hnan.2)⟩))

/-- A finite number times zero is a zero. -/
theorem isZero_mul_zero (h : x.isFinite = true) : (x * 0).isZero = true := by
  simp only [isFinite, decide_eq_true_eq] at h
  have hnan : x.isNaN = false := by
    rw [isNaN, decide_eq_false_iff_not]
    omega
  have hinf : x.isInfinite = false := by
    rw [isInfinite, decide_eq_false_iff_not]
    omega
  have hzero : (0 : Binary64).isNaN = false ∧ (0 : Binary64).isZero = true ∧
      (0 : Binary64).isInfinite = false := by decide
  change (mul x 0).isZero = true
  simp [mul, hnan, hinf, hzero, isZero_signedZero]

/-- Anything else times zero has no value. -/
theorem isNaN_mul_zero (h : x.isFinite = false) : (x * 0).isNaN = true := by
  have hzero : (0 : Binary64).isNaN = false ∧ (0 : Binary64).isZero = true := by decide
  change (mul x 0).isNaN = true
  rw [mul]
  split
  · exact isNaN_quiet ‹_›
  · rename_i hnan
    have hinf : x.isInfinite = true := by
      simp only [isFinite, isNaN, isInfinite, decide_eq_true_eq, decide_eq_false_iff_not] at *
      omega
    rw [if_neg (by simp [hzero]), if_pos (by simp [hzero]), if_pos (by simp [hinf])]
    decide

theorem isNaN_foldl_add {xs : List Binary64} {start : Binary64}
    (h : start.isNaN = true ∨ ∃ x ∈ xs, x.isNaN = true) :
    (xs.foldl (· + ·) start).isNaN = true := by
  induction xs generalizing start with
  | nil => simpa using h
  | cons x xs ih =>
    apply ih
    rcases h with hstart | ⟨z, hz, hnan⟩
    · exact .inl (isNaN_add (.inl hstart))
    · rcases List.mem_cons.1 hz with rfl | hz
      · exact .inl (isNaN_add (.inr hnan))
      · exact .inr ⟨z, hz, hnan⟩

theorem isNaN_sum {xs : List Binary64} (hx : x ∈ xs) (h : x.isNaN = true) :
    (sum xs).isNaN = true :=
  isNaN_foldl_add (.inr ⟨x, hx, h⟩)

section LeavingZerosOut

variable {β : Type u} {l : List β} {product? : β → Option Binary64} {rest : β → Binary64}

theorem SameNumber.foldl_getD {start start' : Binary64} (hstart : start.SameNumber start')
    (h : ∀ b ∈ l, product? b = none → (rest b).isZero = true) :
    ((l.map fun b => (product? b).getD (rest b)).foldl (· + ·) start).SameNumber
      ((l.filterMap product?).foldl (· + ·) start') := by
  induction l generalizing start start' with
  | nil => exact hstart
  | cons b l ih =>
    have hlater : ∀ b ∈ l, product? b = none → (rest b).isZero = true := fun b hb =>
      h b (List.mem_cons_of_mem _ hb)
    rw [List.map_cons, List.foldl_cons]
    cases hproduct : product? b with
    | none =>
      have hzero := h b List.mem_cons_self hproduct
      rw [List.filterMap_cons_none hproduct]
      exact ih ((add_zero_sameNumber hzero).trans hstart) hlater
    | some x =>
      rw [List.filterMap_cons_some hproduct]
      exact ih (hstart.add_right x) hlater

/-- Terms that are zero may be left out: those that come from elements without a product. -/
theorem sum_getD_sameNumber (h : ∀ b ∈ l, product? b = none → (rest b).isZero = true) :
    (sum (l.map fun b => (product? b).getD (rest b))).SameNumber (sum (l.filterMap product?)) :=
  (SameNumber.refl negZero).foldl_getD h

end LeavingZerosOut

end PackedRatings.Binary64
