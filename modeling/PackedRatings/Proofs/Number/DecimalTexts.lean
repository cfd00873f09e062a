import Mathlib.Data.List.DropRight
import Mathlib.Data.List.TakeWhile
import PackedRatings.Proofs.Number.ShortestDecimals
import Std.Data.String.ToInt

/-!
# Texts of numbers read back

The text of a finite number is its sign and the digits of its shortest decimal, with a point in
them or with an exponent behind them. Read as a decimal it is rounded to the number, so no two
numbers have the same text.
-/
namespace PackedRatings.Decimal

def before (stop : Char) (text : List Char) : List Char :=
  text.takeWhile (· != stop)

/-- The characters behind the first `stop`, none if there is none. -/
def behind (stop : Char) (text : List Char) : List Char :=
  (text.dropWhile (· != stop)).drop 1

def exponentOf (text : List Char) : ℤ :=
  match text with
  | [] => 0
  | text => (String.ofList text).toInt?.getD 0

/-- The number that digits with a point in them and an exponent behind them stand for. Point and
exponent may be missing. -/
def read (text : List Char) : ℚ :=
  let mantissa := before 'e' text
  let exponent := exponentOf (behind 'e' text)
  let fraction := behind '.' mantissa
  Nat.ofDigitChars 10 (before '.' mantissa ++ fraction) 0 * 10 ^ (exponent - fraction.length)

section

variable {stop : Char} {text : List Char}

theorem ne_stop_of_not_mem (h : stop ∉ text) : ∀ c ∈ text, (c != stop) = true := by
  intro c hc
  rw [bne_iff_ne]
  rintro rfl
  exact h hc

theorem before_append (h : stop ∉ text) (rest : List Char) :
    before stop (text ++ stop :: rest) = text := by
  rw [before, List.takeWhile_append_of_pos (ne_stop_of_not_mem h)]
  simp

theorem behind_append (h : stop ∉ text) (rest : List Char) :
    behind stop (text ++ stop :: rest) = rest := by
  rw [behind, List.dropWhile_append_of_pos (ne_stop_of_not_mem h)]
  simp

theorem before_of_not_mem (h : stop ∉ text) : before stop text = text :=
  List.takeWhile_eq_self_iff.2 (ne_stop_of_not_mem h)

theorem behind_of_not_mem (h : stop ∉ text) : behind stop text = [] := by
  rw [behind, List.dropWhile_eq_nil_iff.2 (ne_stop_of_not_mem h), List.drop_nil]

end

def Digits (text : List Char) : Prop :=
  ∀ c ∈ text, c.isDigit = true

namespace Digits

variable {text text' : List Char}

theorem append (h : Digits text) (h' : Digits text') : Digits (text ++ text') := by
  intro c hc
  exact (List.mem_append.1 hc).elim (h c) (h' c)

theorem of_subset (h : Digits text') (hsub : text ⊆ text') : Digits text :=
  fun c hc => h c (hsub hc)

theorem not_mem (h : Digits text) {c : Char} (hc : c.isDigit = false) : c ∉ text := by
  intro hmem
  rw [h c hmem] at hc
  cases hc

theorem replicate_zero (n : ℕ) : Digits (List.replicate n '0') := by
  intro c hc
  rw [List.eq_of_mem_replicate hc]
  rfl

end Digits

section

variable {whole fraction digits : List Char}

theorem read_point (hwhole : Digits whole) (hfraction : Digits fraction) :
    read (whole ++ '.' :: fraction) =
      Nat.ofDigitChars 10 (whole ++ fraction) 0 * 10 ^ (-fraction.length : ℤ) := by
  have he : 'e' ∉ whole ++ '.' :: fraction := by
    simp [hwhole.not_mem (show 'e'.isDigit = false by rfl),
      hfraction.not_mem (show 'e'.isDigit = false by rfl)]
  have hpoint : '.' ∉ whole := hwhole.not_mem rfl
  simp only [read, before_of_not_mem he, behind_of_not_mem he, before_append hpoint,
    behind_append hpoint]
  rw [exponentOf, zero_sub]

theorem toList_toString (n : ℤ) :
    (toString n).toList = (if n < 0 then ['-'] else []) ++ Nat.toDigits 10 n.natAbs := by
  cases n with
  | ofNat n =>
    change n.repr.toList = _
    rw [Nat.toList_repr]
    rfl
  | negSucc n =>
    change ("-" ++ n.succ.repr).toList = _
    rw [String.toList_append, Nat.toList_repr, if_pos (Int.negSucc_lt_zero n)]
    rfl

theorem exponentOf_toString (n : ℤ) : exponentOf (toString n).toList = n := by
  have hne : (toString n).toList ≠ [] := by
    rw [toList_toString]
    exact List.append_ne_nil_of_right_ne_nil _ Nat.toDigits_ne_nil
  rw [exponentOf]
  · rw [String.ofList_toList]
    change n.repr.toInt?.getD 0 = n
    rw [Int.toInt?_repr, Option.getD_some]
  · exact hne

theorem read_exponent (hdigits : Digits digits) (n : ℤ) :
    read (digits ++ 'e' :: (toString n).toList) = Nat.ofDigitChars 10 digits 0 * 10 ^ n := by
  have he : 'e' ∉ digits := hdigits.not_mem rfl
  have hpoint : '.' ∉ digits := hdigits.not_mem rfl
  simp only [read, before_append he, behind_append he, before_of_not_mem hpoint,
    behind_of_not_mem hpoint, exponentOf_toString, List.append_nil, List.length_nil]
  simp

theorem read_point_exponent (hwhole : Digits whole) (hfraction : Digits fraction) (n : ℤ) :
    read (whole ++ '.' :: (fraction ++ 'e' :: (toString n).toList)) =
      Nat.ofDigitChars 10 (whole ++ fraction) 0 * 10 ^ (n - fraction.length) := by
  have he : 'e' ∉ whole ++ '.' :: fraction := by
    simp [hwhole.not_mem (show 'e'.isDigit = false by rfl),
      hfraction.not_mem (show 'e'.isDigit = false by rfl)]
  have hpoint : '.' ∉ whole := hwhole.not_mem rfl
  rw [← List.cons_append, ← List.append_assoc]
  simp only [read, before_append he, behind_append he, before_append hpoint, behind_append hpoint,
    exponentOf_toString]

theorem ofDigitChars_zeros_append (n : ℕ) (digits : List Char) :
    Nat.ofDigitChars 10 (List.replicate n '0' ++ digits) 0 = Nat.ofDigitChars 10 digits 0 := by
  rw [Nat.ofDigitChars_append, Nat.ofDigitChars_replicate_zero, Nat.mul_zero]

theorem ofDigitChars_append_zeros (n : ℕ) (digits : List Char) :
    Nat.ofDigitChars 10 (digits ++ List.replicate n '0') 0 =
      10 ^ n * Nat.ofDigitChars 10 digits 0 := by
  rw [Nat.ofDigitChars_append, Nat.ofDigitChars_replicate_zero]

/-- Wherever the point is put, the digits stand for the same number. -/
theorem read_positional (hdigits : Digits digits) (lead : ℤ) : read (positional digits lead) =
    Nat.ofDigitChars 10 digits 0 * 10 ^ (lead + 1 - digits.length) := by
  rw [positional]
  split
  · rename_i hlead
    have hzeros := Digits.replicate_zero (-lead - 1).toNat
    change read (List.replicate 1 '0' ++ '.' :: _) = _
    rw [read_point (Digits.replicate_zero 1) (hzeros.append hdigits), List.length_append,
      List.length_replicate, ← List.append_assoc, List.replicate_append_replicate,
      ofDigitChars_zeros_append]
    congr 2
    omega
  · rename_i hlead
    have htake := hdigits.of_subset (List.take_subset (lead.toNat + 1) digits)
    cases hdrop : digits.drop (lead.toNat + 1) with
    | nil =>
      have hlength := List.drop_eq_nil_iff.1 hdrop
      have hzeros := Digits.replicate_zero (lead.toNat + 1 - digits.length)
      have hexponent : lead + 1 - digits.length =
          ((lead.toNat + 1 - digits.length + 1 : ℕ) : ℤ) + (-1 : ℤ) := by omega
      simp only [hdrop, List.take_of_length_le hlength]
      change read (_ ++ '.' :: List.replicate 1 '0') = _
      rw [read_point (hdigits.append hzeros) (Digits.replicate_zero 1), List.append_assoc,
        List.replicate_append_replicate, ofDigitChars_append_zeros, hexponent,
        zpow_add₀ (by norm_num), zpow_natCast, List.length_replicate]
      push_cast
      ring
    | cons c fraction =>
      have hsplit : digits.take (lead.toNat + 1) ++ c :: fraction = digits := by
        rw [← hdrop, List.take_append_drop]
      have hfraction : Digits (c :: fraction) :=
        hdrop ▸ hdigits.of_subset (List.drop_subset _ digits)
      have hlength := congrArg List.length hdrop
      rw [List.length_drop, List.length_cons] at hlength
      have hexponent : lead + 1 - digits.length = -((c :: fraction).length : ℤ) := by
        rw [List.length_cons]
        omega
      simp only [hdrop, Nat.sub_eq_zero_of_le (show digits.length ≥ lead.toNat + 1 by omega),
        List.replicate_zero, List.append_nil]
      rw [read_point htake hfraction, hsplit, hexponent]

theorem read_scientific (hdigits : Digits digits) (hne : digits ≠ []) (lead : ℤ) :
    read (scientific digits lead) =
      Nat.ofDigitChars 10 digits 0 * 10 ^ (lead + 1 - digits.length) := by
  rcases digits with _ | ⟨digit, _ | ⟨next, fraction⟩⟩
  · exact absurd rfl hne
  · change read ([digit] ++ _) = _
    rw [read_exponent hdigits, List.length_singleton]
    simp
  · change read ([digit] ++ '.' :: (_ ++ _)) = _
    rw [read_point_exponent (hdigits.of_subset (by simp)) (hdigits.of_subset (by simp))]
    congr 2
    simp only [List.length_cons]
    push_cast
    ring

end

theorem rdropWhile_append_zeros (text : List Char) :
    text.rdropWhile (· == '0') ++
      List.replicate (text.rtakeWhile (· == '0')).length '0' = text := by
  conv_rhs => rw [← List.rdropWhile_append_rtakeWhile (p := (· == '0')) (l := text)]
  congr 1
  exact (List.eq_replicate_of_mem fun c hc => by simpa using List.mem_rtakeWhile_imp hc).symm

/-- Without the zeros at its end a decimal stands for the same number. -/
theorem exists_significant_eq {d : Decimal} (h : d.digits ≠ 0) :
    ∃ digits lead, d.significant = (digits, lead) ∧ Digits digits ∧ digits ≠ [] ∧
      Nat.ofDigitChars 10 digits 0 * (10 : ℚ) ^ (lead + 1 - digits.length) = d.number := by
  have hall : Digits (Nat.toDigits 10 d.digits) := fun c hc =>
    Nat.isDigit_of_mem_toDigits (by decide) (by decide) hc
  have hdigits := Nat.ofDigitChars_ten_toDigits (n := d.digits)
  refine ⟨_, _, rfl, ?_⟩
  generalize Nat.toDigits 10 d.digits = all at *
  change Digits (all.rdropWhile (· == '0')) ∧ all.rdropWhile (· == '0') ≠ [] ∧
    Nat.ofDigitChars 10 (all.rdropWhile (· == '0')) 0 * (10 : ℚ) ^
      (d.exponent + all.length - 1 + 1 - (all.rdropWhile (· == '0')).length) = d.number
  have hzeros := rdropWhile_append_zeros all
  have hlength := congrArg List.length hzeros
  rw [List.length_append, List.length_replicate] at hlength
  rw [← hzeros, ofDigitChars_append_zeros] at hdigits
  refine ⟨hall.of_subset (List.rdropWhile_prefix _ _).subset, ?_, ?_⟩
  · intro hnil
    rw [hnil] at hdigits
    exact h hdigits.symm
  · rw [number, ← hdigits, ← hlength]
    push_cast
    rw [mul_comm ((10 : ℚ) ^ _) _, mul_assoc, ← zpow_natCast, ← zpow_add₀ (by norm_num)]
    congr 2
    ring

/-- The characters of numbers: digits, the point, and those of an exponent and its sign. -/
def Numeric (c : Char) : Prop :=
  c.isDigit = true ∨ c ∈ ['.', 'e', '-']

/-- A digit comes first. -/
structure Plain (text : List Char) : Prop where
  first : ∃ c rest, text = c :: rest ∧ c.isDigit = true
  numeric : ∀ c ∈ text, Numeric c

theorem numeric_toString (n : ℤ) : ∀ c ∈ (toString n).toList, Numeric c := by
  intro c hc
  rw [toList_toString, List.mem_append] at hc
  rcases hc with hsign | hdigit
  · split at hsign
    · rw [List.mem_singleton.1 hsign]
      exact .inr (by decide)
    · cases hsign
  · exact .inl (Nat.isDigit_of_mem_toDigits (by decide) (by decide) hdigit)

theorem Digits.numeric {text : List Char} (h : Digits text) : ∀ c ∈ text, Numeric c :=
  fun c hc => .inl (h c hc)

/-- Numeric characters behind a mark. -/
theorem numeric_marked {mark : Char} {whole text : List Char} (hwhole : Digits whole)
    (hmark : mark ∈ ['.', 'e', '-']) (h : ∀ c ∈ text, Numeric c) :
    ∀ c ∈ whole ++ mark :: text, Numeric c :=
  List.forall_mem_append.2 ⟨hwhole.numeric, List.forall_mem_cons.2 ⟨.inr hmark, h⟩⟩

theorem plain_positional {digits : List Char} (hdigits : Digits digits) (hne : digits ≠ [])
    (lead : ℤ) : Plain (positional digits lead) := by
  have hpoint : '.' ∈ ['.', 'e', '-'] := by decide
  have hdrop := hdigits.of_subset (List.drop_subset (lead.toNat + 1) digits)
  obtain ⟨d, rest, rfl⟩ := List.exists_cons_of_ne_nil hne
  have hfirst := hdigits d List.mem_cons_self
  rw [positional]
  split
  · have hfraction := (Digits.replicate_zero (-lead - 1).toNat).append hdigits
    exact ⟨⟨'0', _, rfl, rfl⟩,
      numeric_marked (Digits.replicate_zero 1) hpoint hfraction.numeric⟩
  · have hwhole := (hdigits.of_subset (List.take_subset (lead.toNat + 1) _)).append
      (Digits.replicate_zero (lead.toNat + 1 - (d :: rest).length))
    cases hfraction : (d :: rest).drop (lead.toNat + 1) with
    | nil =>
      simp only [hfraction]
      exact ⟨⟨d, _, rfl, hfirst⟩, numeric_marked hwhole hpoint (Digits.replicate_zero 1).numeric⟩
    | cons next fraction =>
      rw [hfraction] at hdrop
      simp only [hfraction]
      exact ⟨⟨d, _, rfl, hfirst⟩, numeric_marked hwhole hpoint hdrop.numeric⟩

theorem plain_scientific {digits : List Char} (hdigits : Digits digits) (hne : digits ≠ [])
    (lead : ℤ) : Plain (scientific digits lead) := by
  have hexponent : 'e' ∈ ['.', 'e', '-'] := by decide
  rcases digits with _ | ⟨digit, _ | ⟨next, fraction⟩⟩
  · exact absurd rfl hne
  · exact ⟨⟨digit, _, rfl, hdigits digit List.mem_cons_self⟩,
      numeric_marked hdigits hexponent (numeric_toString lead)⟩
  · have hwhole : Digits [digit] := hdigits.of_subset (by simp)
    have hfraction : Digits (next :: fraction) := hdigits.of_subset (List.subset_cons_self _ _)
    exact ⟨⟨digit, _, rfl, hdigits digit List.mem_cons_self⟩, numeric_marked hwhole (by decide)
      (numeric_marked hfraction hexponent (numeric_toString lead))⟩

/-- A text without a sign whose reading is rounded to a magnitude. -/
structure WritesMagnitude (m : ℕ) (text : List Char) : Prop where
  plain : Plain text
  rounds : Binary64.RoundsTo (read text) m

theorem writesMagnitude_zero : WritesMagnitude 0 ['0', '.', '0'] where
  plain := plain_positional (Digits.replicate_zero 1) (by decide) 0
  rounds := by
    have hread := read_point (Digits.replicate_zero 1) (Digits.replicate_zero 1)
    change read ['0', '.', '0'] = _ at hread
    have hdigits : Nat.ofDigitChars 10 (List.replicate 1 '0' ++ List.replicate 1 '0') 0 = 0 := rfl
    rw [hread, hdigits, Nat.cast_zero, zero_mul]
    exact Binary64.roundsTo_zero

/-- A finite number is written with its sign and a text that reads back, whatever the style. -/
theorem exists_text_eq (style : Style) {x : Binary64} (h : x.isFinite = true) :
    ∃ written, style.text x = (if x.negative then "-" else "") ++ String.ofList written ∧
      WritesMagnitude x.magnitude written := by
  rw [Binary64.isFinite, decide_eq_true_eq] at h
  have hnan : x.isNaN = false := decide_eq_false (Nat.not_lt.2 h.le)
  have hinfinite : x.isInfinite = false := decide_eq_false h.ne
  by_cases hzero : x.magnitude = 0
  · refine ⟨['0', '.', '0'], ?_, hzero ▸ writesMagnitude_zero⟩
    have hz : x.isZero = true := decide_eq_true hzero
    simp only [Style.text, hnan, hinfinite, hz]
    rfl
  · have hz : x.isZero = false := decide_eq_false hzero
    have hbest := shortest_bestFor hzero
    have hne : (shortest x).digits ≠ 0 := by
      intro hdigits
      apply not_roundsTo_of_writes_zero hzero _ hbest.rounds
      exact ⟨shortest x, by rw [hdigits]; decide, rfl⟩
    obtain ⟨digits, lead, hsignificant, hdigits, hnil, hnumber⟩ := exists_significant_eq hne
    refine ⟨if style.leastPositional ≤ lead ∧ lead ≤ style.greatestPositional then
      positional digits lead else scientific digits lead, ?_, ?_⟩
    · simp only [Style.text, hnan, hinfinite, hz, hsignificant]
      rfl
    · have hrounds := hbest.rounds
      rw [← hnumber] at hrounds
      split
      · exact ⟨plain_positional hdigits hnil lead, (read_positional hdigits lead).symm ▸ hrounds⟩
      · exact ⟨plain_scientific hdigits hnil lead,
          (read_scientific hdigits hnil lead).symm ▸ hrounds⟩

end PackedRatings.Decimal
