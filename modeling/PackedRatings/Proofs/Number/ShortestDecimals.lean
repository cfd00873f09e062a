import PackedRatings.Proofs.Number.Rounding

/-!
# The shortest decimal that is rounded to a number

The search tries grids of decimals with one digit, two digits and so on. An interval that holds any
decimal with so many digits holds one of the two points of the grid next to its value, so the
search ends at the fewest digits, with the nearest decimal of this length. Seventeen digits always
do, as the grid is finer then than the interval is wide.
-/
namespace PackedRatings.Decimal

def number (d : Decimal) : ℚ :=
  d.digits * 10 ^ d.exponent

/-- Whether `n` digits are enough to write the number. -/
def Writes (n : ℕ) (q : ℚ) : Prop :=
  ∃ d : Decimal, d.digits < 10 ^ n ∧ d.number = q

theorem Writes.mono {m n : ℕ} {q : ℚ} (h : Writes m q) (hle : m ≤ n) : Writes n q := by
  obtain ⟨d, hdigits, rfl⟩ := h
  exact ⟨d, hdigits.trans_le (Nat.pow_le_pow_right (by decide) hle), rfl⟩

theorem lt_pow_digitCount (n : ℕ) : n < 10 ^ digitCount n := by
  rw [digitCount]
  split
  · omega
  · exact (Nat.length_toDigits_le_iff (by decide) Nat.length_toDigits_pos).1 (Nat.le_refl _)

theorem digitCount_pos {n : ℕ} (h : n ≠ 0) : 0 < digitCount n := by
  rw [digitCount, if_neg h]
  exact Nat.length_toDigits_pos

theorem pow_digitCount_le {n : ℕ} (h : n ≠ 0) : 10 ^ (digitCount n - 1) ≤ n := by
  apply Nat.le_of_not_lt
  intro hlt
  by_cases hone : digitCount n - 1 = 0
  · rw [hone] at hlt
    omega
  · have hle := (Nat.length_toDigits_le_iff (by decide) (Nat.pos_of_ne_zero hone)).2 hlt
    rw [digitCount, if_neg h] at *
    omega

/-- `p` is nearer to `c` than `q`, or it is as near and not below. -/
def Prefers (c p q : ℚ) : Prop :=
  |p - c| < |q - c| ∨ |p - c| = |q - c| ∧ q ≤ p

theorem prefers_of_le {c p q : ℚ} (hq : q ≤ p) (hp : p ≤ c) : Prefers c p q := by
  rw [Prefers, abs_of_nonpos (sub_nonpos.2 hp), abs_of_nonpos (sub_nonpos.2 (hq.trans hp))]
  rcases lt_or_eq_of_le hq with hlt | rfl
  · left
    linarith
  · exact .inr ⟨rfl, le_rfl⟩

theorem prefers_of_ge {c p q : ℚ} (hp : c ≤ p) (hq : p ≤ q) : Prefers c p q := by
  rw [Prefers, abs_of_nonneg (sub_nonneg.2 hp), abs_of_nonneg (sub_nonneg.2 (hp.trans hq))]
  rcases lt_or_eq_of_le hq with hlt | rfl
  · left
    linarith
  · exact .inr ⟨rfl, le_rfl⟩

theorem Prefers.trans {c p q t : ℚ} (h : Prefers c p q) (h' : Prefers c q t) : Prefers c p t := by
  rcases h with hlt | ⟨heq, hle⟩
  · rcases h' with hlt' | ⟨heq', -⟩
    · exact .inl (hlt.trans hlt')
    · exact .inl (hlt.trans_eq heq')
  · rcases h' with hlt' | ⟨heq', hle'⟩
    · exact .inl (heq.trans_lt hlt')
    · exact .inr ⟨heq.trans heq', hle'.trans hle⟩

/-- Of two points around `c` the one below is preferred if `c` lies below their middle. -/
theorem prefers_across {c p q : ℚ} (hp : p ≤ c) (hq : c ≤ q) :
    if 2 * c < p + q then Prefers c p q else Prefers c q p := by
  simp only [Prefers, abs_of_nonpos (sub_nonpos.2 hp), abs_of_nonneg (sub_nonneg.2 hq)]
  split
  · left
    linarith
  · rename_i hle
    rcases lt_or_eq_of_le (not_lt.1 hle) with hlt | heq
    · left
      linarith
    · exact .inr ⟨by linarith, hp.trans hq⟩

theorem Prefers.mul {c p q t : ℚ} (h : Prefers (c / t) p q) (ht : 0 < t) :
    Prefers c (p * t) (q * t) := by
  have hdistance : ∀ a : ℚ, |a * t - c| = |a - c / t| * t := by
    intro a
    rw [← abs_of_pos ht, ← abs_mul, abs_of_pos ht, sub_mul, div_mul_cancel₀ _ ht.ne']
  rw [Prefers, hdistance, hdistance, mul_lt_mul_iff_of_pos_right ht,
    mul_le_mul_iff_of_pos_right ht]
  exact h.imp_right fun hq => ⟨congrArg (· * t) hq.1, hq.2⟩

namespace Rounding

variable {r : Rounding}

theorem holds_iff {n : ℕ} : r.holds n = true ↔ r.Contains n := by
  rw [holds, Contains]
  split
  · simp only [Bool.and_eq_true, decide_eq_true_eq]
    norm_cast
  · simp only [Bool.and_eq_true, decide_eq_true_eq]
    norm_cast

/-- The value is positive, and it lies between the powers of ten of its exponent and the next. -/
theorem Valid.exponent_bounds (h : r.Valid) :
    10 ^ r.exponent ≤ r.center ∧ r.center < 10 ^ (r.exponent + 1) := by
  have hvalue : 0 < r.value := Nat.lt_of_le_of_lt (Nat.zero_le _) h.low_lt
  have hdenominator : (0 : ℚ) < r.denominator := by exact_mod_cast h.denominator_pos
  rw [center, le_div_iff₀ hdenominator, div_lt_iff₀ hdenominator, exponent]
  split
  · rename_i hle
    have hne : r.value / r.denominator ≠ 0 := by
      rw [Nat.div_ne_zero_iff]
      exact ⟨h.denominator_pos.ne', hle⟩
    obtain ⟨c, hc⟩ := Nat.exists_eq_succ_of_ne_zero (digitCount_pos hne).ne'
    have hlow := pow_digitCount_le hne
    have hhigh := lt_pow_digitCount (r.value / r.denominator)
    rw [hc] at *
    have hexponent : ((c.succ : ℕ) : ℤ) - 1 = c := by omega
    rw [hexponent, ← Nat.cast_succ, zpow_natCast, zpow_natCast]
    constructor
    · exact_mod_cast (Nat.le_div_iff_mul_le h.denominator_pos).1 hlow
    · exact_mod_cast (Nat.div_lt_iff_lt_mul h.denominator_pos).1 hhigh
  · rename_i hlt
    have hne : (r.denominator - 1) / r.value ≠ 0 := by
      rw [Nat.div_ne_zero_iff]
      omega
    obtain ⟨c, hc⟩ := Nat.exists_eq_succ_of_ne_zero (digitCount_pos hne).ne'
    have hlow := (Nat.le_div_iff_mul_le hvalue).1 (pow_digitCount_le hne)
    have hhigh := (Nat.div_lt_iff_lt_mul hvalue).1
      (lt_pow_digitCount ((r.denominator - 1) / r.value))
    rw [hc] at *
    have hexponent : -((c.succ : ℕ) : ℤ) + 1 = -(c : ℤ) := by omega
    rw [hexponent, zpow_neg, zpow_neg, zpow_natCast, zpow_natCast, inv_mul_le_iff₀ (by positivity),
      lt_inv_mul_iff₀ (by positivity)]
    constructor
    · exact_mod_cast Nat.le_of_pred_lt hhigh
    · exact_mod_cast Nat.lt_of_le_pred h.denominator_pos hlow

/-- Between a number of the interval and the value is nothing but the interval. -/
theorem Valid.contains_of_between (h : r.Valid) {p q : ℚ} (hp : r.Contains p)
    (hq : p ≤ q ∧ q ≤ r.center ∨ r.center ≤ q ∧ q ≤ p) : r.Contains q := by
  have hdenominator : (0 : ℚ) < r.denominator := by exact_mod_cast h.denominator_pos
  have hlow : (r.low : ℚ) < r.value := by exact_mod_cast h.low_lt
  have hhigh : (r.value : ℚ) < r.high := by exact_mod_cast h.lt_high
  rw [center, le_div_iff₀ hdenominator, div_le_iff₀ hdenominator] at hq
  have hbetween : p * r.denominator ≤ q * r.denominator ∧ q * r.denominator ≤ r.value ∨
      r.value ≤ q * r.denominator ∧ q * r.denominator ≤ p * r.denominator := by
    rwa [mul_le_mul_iff_of_pos_right hdenominator, mul_le_mul_iff_of_pos_right hdenominator]
  unfold Contains at *
  split_ifs at *
  · rcases hbetween with hq | hq
    · exact ⟨hp.1.trans hq.1, hq.2.trans hhigh.le⟩
    · exact ⟨hlow.le.trans hq.1, hq.2.trans hp.2⟩
  · rcases hbetween with hq | hq
    · exact ⟨hp.1.trans_le hq.1, hq.2.trans_lt hhigh⟩
    · exact ⟨hlow.trans_le hq.1, hq.2.trans_lt hp.2⟩

/-- The two points next to the value. -/
theorem Valid.floor_bounds (h : r.Valid) :
    ((r.value / r.denominator : ℕ) : ℚ) ≤ r.center ∧
      r.center < ((r.value / r.denominator + 1 : ℕ) : ℚ) := by
  have hdenominator : (0 : ℚ) < r.denominator := by exact_mod_cast h.denominator_pos
  rw [center, le_div_iff₀ hdenominator, div_lt_iff₀ hdenominator]
  constructor
  · exact_mod_cast Nat.div_mul_le_self _ _
  · exact_mod_cast Nat.lt_mul_of_div_lt (Nat.lt_succ_self _) h.denominator_pos

theorem le_floor_or_ge (r : Rounding) (k : ℕ) :
    (k : ℚ) ≤ (r.value / r.denominator : ℕ) ∨ ((r.value / r.denominator + 1 : ℕ) : ℚ) ≤ k := by
  rcases Nat.lt_or_ge (r.value / r.denominator) k with hlt | hle
  · right
    exact_mod_cast hlt
  · left
    exact_mod_cast hle

/-- If any whole number is in the interval, so is one next to the value. -/
theorem Valid.holds_of_contains (h : r.Valid) {k : ℕ} (hk : r.Contains k) :
    (k : ℚ) ≤ (r.value / r.denominator : ℕ) ∧ r.holds (r.value / r.denominator) = true ∨
      ((r.value / r.denominator + 1 : ℕ) : ℚ) ≤ k ∧
        r.holds (r.value / r.denominator + 1) = true := by
  obtain ⟨hfloor, hceil⟩ := h.floor_bounds
  rcases le_floor_or_ge r k with hle | hge
  · exact .inl ⟨hle, holds_iff.2 (h.contains_of_between hk (.inl ⟨hle, hfloor⟩))⟩
  · exact .inr ⟨hge, holds_iff.2 (h.contains_of_between hk (.inr ⟨hceil.le, hge⟩))⟩

theorem Valid.nearest?_ne_none (h : r.Valid) {k : ℕ} (hk : r.Contains k) : r.nearest? ≠ none := by
  rcases h.holds_of_contains hk with ⟨-, hbelow⟩ | ⟨-, habove⟩
  · cases habove : r.holds (r.value / r.denominator + 1) with
    | true =>
      simp only [nearest?, hbelow, habove]
      split <;> exact Option.some_ne_none _
    | false => simp [nearest?, hbelow, habove]
  · cases hbelow : r.holds (r.value / r.denominator) with
    | true =>
      simp only [nearest?, hbelow, habove]
      split <;> exact Option.some_ne_none _
    | false => simp [nearest?, hbelow, habove]

theorem Valid.prefers_floor (h : r.Valid) {k : ℕ} (hk : (k : ℚ) ≤ (r.value / r.denominator : ℕ)) :
    Prefers r.center (r.value / r.denominator : ℕ) k :=
  prefers_of_le hk h.floor_bounds.1

theorem Valid.prefers_ceil (h : r.Valid) {k : ℕ}
    (hk : ((r.value / r.denominator + 1 : ℕ) : ℚ) ≤ k) :
    Prefers r.center (r.value / r.denominator + 1 : ℕ) k :=
  prefers_of_ge h.floor_bounds.2.le hk

/-- The point below the value is preferred to every other in the interval, unless the one above is
in it and is not worse. -/
theorem Valid.best_floor (h : r.Valid)
    (hother : r.holds (r.value / r.denominator + 1) = true →
      Prefers r.center (r.value / r.denominator : ℕ) (r.value / r.denominator + 1 : ℕ)) {k : ℕ}
    (hk : r.Contains k) : Prefers r.center (r.value / r.denominator : ℕ) k := by
  rcases h.holds_of_contains hk with ⟨hle, -⟩ | ⟨hge, hhigh⟩
  · exact h.prefers_floor hle
  · exact (hother hhigh).trans (h.prefers_ceil hge)

theorem Valid.best_ceil (h : r.Valid)
    (hother : r.holds (r.value / r.denominator) = true →
      Prefers r.center (r.value / r.denominator + 1 : ℕ) (r.value / r.denominator : ℕ)) {k : ℕ}
    (hk : r.Contains k) : Prefers r.center (r.value / r.denominator + 1 : ℕ) k := by
  rcases h.holds_of_contains hk with ⟨hle, hlow⟩ | ⟨hge, -⟩
  · exact (hother hlow).trans (h.prefers_floor hle)
  · exact h.prefers_ceil hge

theorem Valid.of_nearest?_eq_some (h : r.Valid) {n : ℕ} (hn : r.nearest? = some n) :
    r.Contains n ∧ ∀ k : ℕ, r.Contains k → Prefers r.center n k := by
  have hacross := prefers_across h.floor_bounds.1 h.floor_bounds.2.le
  have hmiddle : 2 * r.center < (r.value / r.denominator : ℕ) + (r.value / r.denominator + 1 : ℕ) ↔
      2 * r.value < (r.value / r.denominator + (r.value / r.denominator + 1)) * r.denominator := by
    rw [center, ← mul_div_assoc, div_lt_iff₀ (by exact_mod_cast h.denominator_pos)]
    norm_cast
  cases hlow : r.holds (r.value / r.denominator) with
  | true =>
    cases hhigh : r.holds (r.value / r.denominator + 1) with
    | true =>
      simp only [nearest?, hlow, hhigh, ← hmiddle] at hn
      split at hn
      · rename_i hlt
        obtain rfl := Option.some.inj hn
        rw [if_pos hlt] at hacross
        exact ⟨holds_iff.1 hlow, fun k => h.best_floor fun _ => hacross⟩
      · rename_i hle
        obtain rfl := Option.some.inj hn
        rw [if_neg hle] at hacross
        exact ⟨holds_iff.1 hhigh, fun k => h.best_ceil fun _ => hacross⟩
    | false =>
      simp only [nearest?, hlow, hhigh] at hn
      obtain rfl := Option.some.inj hn
      exact ⟨holds_iff.1 hlow, fun k => h.best_floor fun hother => by simp [hhigh] at hother⟩
  | false =>
    cases hhigh : r.holds (r.value / r.denominator + 1) with
    | true =>
      simp only [nearest?, hlow, hhigh] at hn
      obtain rfl := Option.some.inj hn
      exact ⟨holds_iff.1 hhigh, fun k => h.best_ceil fun hother => by simp [hlow] at hother⟩
    | false => simp [nearest?, hlow, hhigh] at hn

theorem ten_zpow_mul (u : ℤ) : (10 : ℚ) ^ u * 10 ^ (-u).toNat = 10 ^ u.toNat := by
  rw [← zpow_natCast, ← zpow_natCast, ← zpow_add₀ (by norm_num)]
  congr 1
  omega

theorem contains_scaled {u : ℤ} {q : ℚ} : (r.scaled u).Contains q ↔ r.Contains (q * 10 ^ u) := by
  have hup : (0 : ℚ) < 10 ^ (-u).toNat := by positivity
  have hdenominator : q * (r.denominator * 10 ^ u.toNat) =
      q * 10 ^ u * r.denominator * 10 ^ (-u).toNat := by
    rw [← ten_zpow_mul]
    ring
  simp only [Contains, scaled, Nat.pow_eq, Nat.cast_mul, Nat.cast_pow, Nat.cast_ofNat,
    hdenominator, mul_le_mul_iff_of_pos_right hup, mul_lt_mul_iff_of_pos_right hup]

theorem center_scaled (u : ℤ) : (r.scaled u).center = r.center / 10 ^ u := by
  have hup : (10 : ℚ) ^ (-u).toNat ≠ 0 := by positivity
  simp only [center, scaled, Nat.pow_eq, Nat.cast_mul, Nat.cast_pow, Nat.cast_ofNat]
  rw [← ten_zpow_mul u, ← mul_assoc, mul_div_mul_right _ _ hup, div_div]

theorem Valid.scaled (h : r.Valid) (u : ℤ) : (r.scaled u).Valid where
  denominator_pos := Nat.mul_pos h.denominator_pos (Nat.pow_pos (by decide))
  low_lt := Nat.mul_lt_mul_of_pos_right h.low_lt (Nat.pow_pos (by decide))
  lt_high := Nat.mul_lt_mul_of_pos_right h.lt_high (Nat.pow_pos (by decide))
  wide := by
    have hup : 0 < Nat.pow 10 (-u).toNat := Nat.pow_pos (by decide)
    change r.value * _ < 10 ^ 16 * (r.high * _ - r.low * _)
    rw [← Nat.mul_sub_right_distrib, ← Nat.mul_assoc]
    exact Nat.mul_lt_mul_of_pos_right h.wide hup

/-- The distance of the points of a grid of decimals with `length` digits. -/
def grid (r : Rounding) (length : ℕ) : ℤ :=
  r.exponent - length + 1

theorem contains_of_lt {q : ℚ} (hlow : r.low < q * r.denominator)
    (hhigh : q * r.denominator < r.high) : r.Contains q := by
  rw [Contains]
  split
  · exact ⟨hlow.le, hhigh.le⟩
  · exact ⟨hlow, hhigh⟩

/-- An interval that holds neither point next to its value is no wider than their distance. -/
theorem Valid.width_le (h : r.Valid) (hnone : r.nearest? = none) :
    r.high ≤ r.low + r.denominator := by
  have hlow : (r.low : ℚ) < r.value := by exact_mod_cast h.low_lt
  have hhigh : (r.value : ℚ) < r.high := by exact_mod_cast h.lt_high
  have hdenominator : (0 : ℚ) < r.denominator := by exact_mod_cast h.denominator_pos
  obtain ⟨hfloor, hceil⟩ := h.floor_bounds
  rw [center, le_div_iff₀ hdenominator] at hfloor
  rw [center, div_lt_iff₀ hdenominator] at hceil
  have hbelow : ((r.value / r.denominator : ℕ) : ℚ) * r.denominator ≤ r.low :=
    not_lt.1 fun hlt => h.nearest?_ne_none (contains_of_lt hlt (hfloor.trans_lt hhigh)) hnone
  have habove : (r.high : ℚ) ≤ ((r.value / r.denominator + 1 : ℕ) : ℚ) * r.denominator :=
    not_lt.1 fun hlt => h.nearest?_ne_none (contains_of_lt (hlow.trans hceil) hlt) hnone
  have hwidth : (r.high : ℚ) ≤ r.low + r.denominator := by
    push_cast at habove
    linarith
  exact_mod_cast hwidth

/-- With seventeen digits the points of the grid are nearer to each other than the ends of the
interval. -/
theorem Valid.seventeen (h : r.Valid) : (r.scaled (r.grid 17)).nearest? ≠ none := by
  intro hnone
  have hs := h.scaled (r.grid 17)
  have hwidth := hs.width_le hnone
  have hdenominator : (0 : ℚ) < (r.scaled (r.grid 17)).denominator := by
    exact_mod_cast hs.denominator_pos
  have hcenter : 10 ^ 16 ≤ (r.scaled (r.grid 17)).center := by
    have hexponent : r.exponent = (16 : ℕ) + r.grid 17 := by
      rw [grid]
      push_cast
      ring
    rw [center_scaled, le_div_iff₀ (by positivity), ← zpow_natCast, ← zpow_add₀ (by norm_num),
      ← hexponent]
    exact h.exponent_bounds.1
  rw [center, le_div_iff₀ hdenominator] at hcenter
  have hmany : 10 ^ 16 * (r.scaled (r.grid 17)).denominator ≤ (r.scaled (r.grid 17)).value := by
    exact_mod_cast hcenter
  have hwide := hs.wide
  omega

/-- The search ends with the first grid that has a point in the interval. -/
theorem search_spec {length attempts : ℕ}
    (h : ∃ n, length ≤ n ∧ n < length + attempts ∧ (r.scaled (r.grid n)).nearest? ≠ none) :
    ∃ n, length ≤ n ∧ n < length + attempts ∧
      (r.scaled (r.grid n)).nearest? = some (search r length attempts).digits ∧
      (search r length attempts).exponent = r.grid n ∧
      ∀ k, length ≤ k → k < n → (r.scaled (r.grid k)).nearest? = none := by
  induction attempts generalizing length with
  | zero =>
    obtain ⟨n, hle, hlt, -⟩ := h
    omega
  | succ attempts ih =>
    cases hfound : (r.scaled (r.grid length)).nearest? with
    | some digits =>
      have hsearch : search r length (attempts + 1) = ⟨digits, r.grid length⟩ := by
        rw [grid] at *
        simp only [search, hfound]
      rw [hsearch]
      exact ⟨length, le_rfl, by omega, hfound, rfl, fun k hle hlt => by omega⟩
    | none =>
      have hsearch : search r length (attempts + 1) = search r (length + 1) attempts := by
        rw [grid] at hfound
        simp only [search, hfound]
      obtain ⟨n, hle, hlt, hn⟩ := h
      have hne : length ≠ n := by
        rintro rfl
        exact hn hfound
      have hrest : ∃ n, length + 1 ≤ n ∧ n < length + 1 + attempts ∧
          (r.scaled (r.grid n)).nearest? ≠ none := ⟨n, by omega, by omega, hn⟩
      obtain ⟨k, hle', hlt', hdigits, hexponent, hnone⟩ := ih hrest
      rw [hsearch]
      refine ⟨k, by omega, by omega, hdigits, hexponent, fun j hj hjk => ?_⟩
      rcases Nat.eq_or_lt_of_le hj with rfl | hj
      · exact hfound
      · exact hnone j hj hjk

/-- A decimal in the interval with `n` digits lies on the grid of this length, or below the power
of ten of the exponent, which lies on all grids. -/
theorem Valid.exists_contains_scaled (h : r.Valid) {n : ℕ} (hn : n ≠ 0) {q : ℚ} (hq : Writes n q)
    (hcontains : r.Contains q) : ∃ k : ℕ, (r.scaled (r.grid n)).Contains k ∧
      Prefers r.center (k * 10 ^ r.grid n) q := by
  obtain ⟨d, hdigits, rfl⟩ := hq
  have hpower := h.exponent_bounds.1
  rcases le_or_gt (10 ^ r.exponent) d.number with hle | hlt
  · have hlength : r.grid n ≤ d.exponent := by
      have hbound : (10 : ℚ) ^ r.exponent < 10 ^ ((n : ℤ) + d.exponent) := by
        rw [zpow_add₀ (by norm_num), zpow_natCast]
        exact hle.trans_lt (mul_lt_mul_of_pos_right (by exact_mod_cast hdigits) (by positivity))
      have hlt := (zpow_lt_zpow_iff_right₀ (by norm_num)).1 hbound
      rw [grid]
      omega
    have hpoint : ((d.digits * 10 ^ (d.exponent - r.grid n).toNat : ℕ) : ℚ) * 10 ^ r.grid n =
        d.number := by
      push_cast
      rw [mul_assoc, ← zpow_natCast, ← zpow_add₀ (by norm_num), number]
      congr 2
      omega
    refine ⟨d.digits * 10 ^ (d.exponent - r.grid n).toNat, ?_, ?_⟩
    · rwa [contains_scaled, hpoint]
    · rw [hpoint]
      exact .inr ⟨rfl, le_rfl⟩
  · have hpoint : ((10 ^ (n - 1) : ℕ) : ℚ) * 10 ^ r.grid n = 10 ^ r.exponent := by
      push_cast
      rw [← zpow_natCast, ← zpow_add₀ (by norm_num), grid]
      congr 1
      omega
    refine ⟨10 ^ (n - 1), ?_, ?_⟩
    · rw [contains_scaled, hpoint]
      exact h.contains_of_between hcontains (.inl ⟨hlt.le, hpower⟩)
    · rw [hpoint]
      exact prefers_of_le hlt.le hpower

/-- What is found on a grid has no more digits than the points of the grid. -/
theorem Valid.writes_of_nearest?_eq_some (h : r.Valid) {n digits : ℕ} (hn : n ≠ 0)
    (hfound : (r.scaled (r.grid n)).nearest? = some digits) :
    Writes n (digits * 10 ^ r.grid n) := by
  have hs := h.scaled (r.grid n)
  obtain ⟨hcontains, hnearest⟩ := hs.of_nearest?_eq_some hfound
  obtain ⟨-, hceil⟩ := hs.floor_bounds
  have hfloor : (r.scaled (r.grid n)).value / (r.scaled (r.grid n)).denominator < 10 ^ n := by
    have hcenter : (r.scaled (r.grid n)).center < 10 ^ n := by
      have hexponent : (n : ℤ) + r.grid n = r.exponent + 1 := by
        rw [grid]
        ring
      rw [center_scaled, div_lt_iff₀ (by positivity), ← zpow_natCast, ← zpow_add₀ (by norm_num),
        hexponent]
      exact h.exponent_bounds.2
    rw [center, div_lt_iff₀ (by exact_mod_cast hs.denominator_pos)] at hcenter
    rw [Nat.div_lt_iff_lt_mul hs.denominator_pos]
    exact_mod_cast hcenter
  have hdigits : digits ≤ 10 ^ n := by
    rcases le_floor_or_ge (r.scaled (r.grid n)) digits with hle | hge
    · exact (Nat.cast_le.1 hle).trans hfloor.le
    -- The point above the value lies between it and what is found, so it is what is found.
    · have hpoint := hs.contains_of_between hcontains (.inr ⟨hceil.le, hge⟩)
      have hle : |(digits : ℚ) - (r.scaled (r.grid n)).center| ≤ _ :=
        (hnearest _ hpoint).elim le_of_lt fun heq => heq.1.le
      rw [abs_of_nonneg (sub_nonneg.2 (hceil.le.trans hge)), abs_of_nonneg (sub_nonneg.2 hceil.le),
        sub_le_sub_iff_right, Nat.cast_le] at hle
      exact hle.trans hfloor
  rcases Nat.lt_or_eq_of_le hdigits with hlt | rfl
  · exact ⟨⟨digits, r.grid n⟩, hlt, rfl⟩
  · refine ⟨⟨1, n + r.grid n⟩, Nat.one_lt_pow hn (by decide), ?_⟩
    rw [number, zpow_add₀ (by norm_num), zpow_natCast]
    push_cast
    ring

end Rounding

open Binary64 Rounding

/-- The decimal is rounded to the number of a magnitude, it has as few digits as any number that
is, and of those with as few digits it is the nearest. -/
structure BestFor (m : ℕ) (d : Decimal) : Prop where
  rounds : RoundsTo d.number m
  fewest : ∀ n q, Writes n q → RoundsTo q m → Writes n d.number
  nearest : ∀ q, (∀ n, Writes n d.number → Writes n q) → RoundsTo q m →
    Prefers (numberOf m) d.number q
  seventeen : Writes 17 d.number

theorem center_ofBinary64 (x : Binary64) : (ofBinary64 x).center = numberOf x.magnitude := by
  have hdenominator : ((ofBinary64 x).denominator : ℚ) ≠ 0 := by
    exact_mod_cast (denominator_pos x).ne'
  rw [center, value_ofBinary64, mul_div_cancel_right₀ _ hdenominator]

theorem not_roundsTo_of_writes_zero {m : ℕ} (h : m ≠ 0) {q : ℚ} (hq : Writes 0 q) :
    ¬ RoundsTo q m := by
  obtain ⟨d, hdigits, rfl⟩ := hq
  have hzero : d.number = 0 := by
    rw [number, Nat.lt_one_iff.1 hdigits, Nat.cast_zero, zero_mul]
  rw [hzero]
  exact fun hround => h (hround.unique roundsTo_zero)

theorem shortest_bestFor {x : Binary64} (h : x.magnitude ≠ 0) :
    BestFor x.magnitude (shortest x) := by
  have hvalid := valid_ofBinary64 h
  have hsome : ∃ n, 1 ≤ n ∧ n < 1 + 17 ∧
      ((ofBinary64 x).scaled ((ofBinary64 x).grid n)).nearest? ≠ none :=
    ⟨17, by decide, by decide, hvalid.seventeen⟩
  obtain ⟨length, hpos, hle, hfound, hexponent, hnone⟩ := search_spec hsome
  have hnumber : (shortest x).number =
      (search (ofBinary64 x) 1 17).digits * 10 ^ (ofBinary64 x).grid length := by
    rw [shortest, number, hexponent]
  obtain ⟨hcontains, hnearest⟩ := (hvalid.scaled _).of_nearest?_eq_some hfound
  have hwrites := hvalid.writes_of_nearest?_eq_some (Nat.ne_of_gt hpos) hfound
  rw [contains_scaled, ← hnumber, contains_iff_roundsTo h] at hcontains
  rw [← hnumber] at hwrites
  -- A grid that comes before has no point in the interval.
  have hlength : ∀ n q, Writes n q → RoundsTo q x.magnitude → length ≤ n := by
    intro n q hq hround
    have hn : n ≠ 0 := by
      rintro rfl
      exact not_roundsTo_of_writes_zero h hq hround
    obtain ⟨k, hk, -⟩ := hvalid.exists_contains_scaled hn hq ((contains_iff_roundsTo h).2 hround)
    apply Nat.le_of_not_lt
    intro hlt
    exact (hvalid.scaled _).nearest?_ne_none hk (hnone n (Nat.pos_of_ne_zero hn) hlt)
  constructor
  · exact hcontains
  · intro n q hq hround
    exact hwrites.mono (hlength n q hq hround)
  · intro q hshort hround
    obtain ⟨k, hk, hprefers⟩ := hvalid.exists_contains_scaled (Nat.ne_of_gt hpos)
      (hshort length hwrites) ((contains_iff_roundsTo h).2 hround)
    have hpoint := hnearest k hk
    rw [center_scaled] at hpoint
    rw [← center_ofBinary64, hnumber]
    exact (hpoint.mul (by positivity)).trans hprefers
  · exact hwrites.mono (Nat.le_of_lt_succ hle)

end PackedRatings.Decimal
