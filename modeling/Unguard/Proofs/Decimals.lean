import Mathlib.Data.List.TakeWhile
import Mathlib.Tactic.Ring
import Unguard.Number.Shortest

/-!
# Floats are read back from their text

The text of a finite float has digits on both sides of a point, and those digits stand for a decimal
that is nearest to the float (`Binary64.exists_text`).  There are two halves to this.

* Which float is nearest to a decimal depends on the value of the decimal only, not on how it is split
  into a coefficient and a power of ten (`Binary64.ofDecimal_scale`).  So the zeros that are added or
  dropped around the point do not matter (`Binary64.ofDecimal_digits`).
* The shortest decimal of a float has been read back before it is taken, and all digits of the float
  read back because nothing is rounded (`Binary64.ofDecimal_shortest`).
-/

namespace Unguard

namespace Decimal

/-! ### Sequences of digits -/

theorem ofDigitList_eq (digits : List Char) : ofDigitList digits = Nat.ofDigitChars 10 digits 0 := by
  rw [Nat.ofDigitChars_eq_foldl, ofDigitList]
  congr 1
  funext n c
  rw [Nat.mul_comm, digitValue]

theorem ofDigitList_toDigits (n : Nat) : ofDigitList (Nat.toDigits 10 n) = n := by
  rw [ofDigitList_eq, Nat.ofDigitChars_ten_toDigits]

/-- Zeros at the end multiply by powers of ten. -/
theorem ofDigitList_append_zeros (digits : List Char) (zeros : Nat) :
    ofDigitList (digits ++ List.replicate zeros '0') = ofDigitList digits * 10 ^ zeros := by
  rw [ofDigitList_eq, ofDigitList_eq, Nat.ofDigitChars_append, Nat.ofDigitChars_replicate_zero,
    Nat.mul_comm]

/-- Zeros at the beginning count for nothing. -/
theorem ofDigitList_zeros_append (digits : List Char) (zeros : Nat) :
    ofDigitList (List.replicate zeros '0' ++ digits) = ofDigitList digits := by
  rw [ofDigitList_eq, ofDigitList_eq, Nat.ofDigitChars_append, Nat.ofDigitChars_replicate_zero,
    Nat.mul_zero]

/-- A power of ten adds as many digits as its exponent says. -/
theorem length_toDigits_mul_pow {n : Nat} (hn : n ≠ 0) : ∀ k : Nat,
    (Nat.toDigits 10 (n * 10 ^ k)).length = (Nat.toDigits 10 n).length + k
  | 0 => by rw [Nat.pow_zero, Nat.mul_one, Nat.add_zero]
  | k + 1 => by
    have hpos : 0 < n * 10 ^ k := Nat.mul_pos (Nat.pos_of_ne_zero hn) (Nat.pow_pos (by decide))
    have hsplit : n * 10 ^ (k + 1) = 10 * (n * 10 ^ k) + 0 := by ring
    rw [hsplit, ← Nat.toDigits_append_toDigits (by decide) hpos (by decide), List.length_append,
      length_toDigits_mul_pow hn k, Nat.toDigits_zero]
    rfl

/-- The fraction is cut before some zeros, and one zero is kept where nothing else is left. -/
theorem exists_trimFraction (fraction : List Char) : ∃ kept dropped,
    fraction = kept ++ List.replicate dropped '0' ∧
      (trimFraction fraction = kept ∨ trimFraction fraction = kept ++ List.replicate 1 '0') := by
  obtain ⟨zeros, hzeros⟩ : ∃ zeros, fraction.reverse.takeWhile (· = '0') =
      List.replicate zeros '0' :=
    ⟨_, List.eq_replicate_of_mem fun c hc => by simpa using List.mem_takeWhile_imp hc⟩
  refine ⟨(fraction.reverse.dropWhile (· = '0')).reverse, zeros, ?_, ?_⟩
  · have hsplit := congrArg List.reverse
      (List.takeWhile_append_dropWhile (p := (· = '0')) (l := fraction.reverse))
    rw [List.reverse_append, List.reverse_reverse, hzeros, List.reverse_replicate] at hsplit
    exact hsplit.symm
  · rw [trimFraction]
    split
    · rename_i hnil
      exact Or.inr (by rw [hnil]; rfl)
    · exact Or.inl rfl

theorem trimFraction_ne_nil (fraction : List Char) : trimFraction fraction ≠ [] := by
  rw [trimFraction]
  split
  · exact List.cons_ne_nil _ _
  · assumption

theorem isDigit_of_mem_trimFraction {fraction : List Char}
    (h : ∀ c ∈ fraction, c.isDigit = true) : ∀ c ∈ trimFraction fraction, c.isDigit = true := by
  intro c hc
  obtain ⟨kept, dropped, rfl, htrim | htrim⟩ := exists_trimFraction fraction
  · exact h c (List.mem_append_left _ (htrim ▸ hc))
  · rcases List.mem_append.1 (htrim ▸ hc) with hc | hc
    · exact h c (List.mem_append_left _ hc)
    · rw [List.eq_of_mem_replicate hc]
      rfl

/-! ### The digits of a decimal -/

/-- Only digits stand on both sides of the point. -/
theorem isDigit_of_mem_digits (d : Decimal) :
    (∀ c ∈ d.digits.1, c.isDigit = true) ∧ ∀ c ∈ d.digits.2, c.isDigit = true := by
  have hdigits : ∀ c ∈ Nat.toDigits 10 d.coefficient, c.isDigit = true := fun c =>
    Nat.isDigit_of_mem_toDigits (by decide) (by decide)
  have hzeros : ∀ k, ∀ c ∈ List.replicate k '0', c.isDigit = true := fun k c hc =>
    List.eq_of_mem_replicate hc ▸ rfl
  rw [digits]
  split
  · exact ⟨List.forall_mem_append.2 ⟨hdigits, hzeros _⟩, fun _ hc => nomatch hc⟩
  · rename_i places _
    have hpadded := List.forall_mem_append.2
      ⟨hzeros (places + 2 - (Nat.toDigits 10 d.coefficient).length), hdigits⟩
    rw [List.splitAt_eq]
    exact ⟨fun c hc => hpadded c (List.mem_of_mem_take hc),
      fun c hc => hpadded c (List.mem_of_mem_drop hc)⟩

/-- There is always a digit before the point. -/
theorem digits_fst_ne_nil (d : Decimal) : d.digits.1 ≠ [] := by
  have hpos := Nat.length_toDigits_pos (b := 10) (n := d.coefficient)
  rw [digits]
  split
  · exact List.append_ne_nil_of_left_ne_nil (List.ne_nil_of_length_pos hpos) _
  · rw [List.splitAt_eq]
    apply List.ne_nil_of_length_pos
    rw [List.length_take, List.length_append, List.length_replicate]
    omega

end Decimal

namespace Binary64

/-! ### The nearest float depends on the value only -/

/-- Rounding a ratio does not depend on how it is written. -/
theorem roundDiv_mul_right {k : Nat} (hk : 0 < k) (n d : Nat) :
    roundDiv (n * k) (d * k) = roundDiv n d := by
  have hlt : 2 * (n % d * k) < d * k ↔ 2 * (n % d) < d := by
    rw [← Nat.mul_assoc]
    exact Nat.mul_lt_mul_right hk
  have hgt : d * k < 2 * (n % d * k) ↔ d < 2 * (n % d) := by
    rw [← Nat.mul_assoc]
    exact Nat.mul_lt_mul_right hk
  simp only [roundDiv, Nat.mul_div_mul_right _ _ hk, Nat.mul_mod_mul_right, hlt, hgt]

theorem roundDiv_one (n : Nat) : roundDiv n 1 = n := by
  rw [roundDiv, Nat.div_one, Nat.mod_one]
  rfl

/-- Nor does the nearest float. -/
theorem ofRatio_mul_right {k : Nat} (hk : 0 < k) (n d : Nat) :
    ofRatio (n * k) (d * k) = ofRatio n d := by
  have hscaled : n * k * unit = n * unit * k := Nat.mul_right_comm n k unit
  have hdenominator (e : Nat) : d * k * Nat.pow 2 e = d * Nat.pow 2 e * k := Nat.mul_right_comm d k _
  simp only [ofRatio, hscaled, hdenominator, Nat.mul_div_mul_right _ _ hk, roundDiv_mul_right hk]

/-- A decimal within the bounds is rounded as a ratio, whatever powers of ten the ratio is formed
with. -/
theorem ofDecimal_eq_ofRatio {c a b : Nat} {e : Int} (hc : c ≠ 0) (hhigh : e ≤ 400)
    (hlow : -400 ≤ e + (Nat.toDigits 10 c).length) (he : e = (a : Int) - b) :
    ofDecimal ⟨c, e⟩ = ofRatio (c * 10 ^ a) (10 ^ b) := by
  rw [ofDecimal, if_neg hc, if_neg (Int.not_lt.2 hhigh), if_neg (Int.not_lt.2 hlow)]
  dsimp only
  have hpos (k : Nat) : 0 < 10 ^ k := Nat.pow_pos (by decide)
  split
  · rename_i zeros
    obtain rfl : a = zeros + b := by
      simp only [Int.ofNat_eq_natCast] at he
      omega
    rw [Nat.pow_eq, Nat.pow_add, ← Nat.mul_assoc, ← ofRatio_mul_right (hpos b), Nat.one_mul]
  · rename_i places
    obtain rfl : b = places + 1 + a := by
      simp only [Int.negSucc_eq] at he
      omega
    rw [Nat.pow_eq, Nat.pow_add 10 (places + 1), ofRatio_mul_right (hpos a)]

/-- Every integer is a difference of natural numbers. -/
private theorem exists_eq_sub (e : Int) : ∃ a b : Nat, e = (a : Int) - b :=
  ⟨e.toNat, (-e).toNat, by omega⟩

/-- Powers of ten may be moved between the coefficient and the exponent. -/
theorem ofDecimal_scale (c k : Nat) {e : Int} (h : e + k ≤ 400) :
    ofDecimal ⟨c * 10 ^ k, e⟩ = ofDecimal ⟨c, e + k⟩ := by
  have hpow : 10 ^ k ≠ 0 := Nat.pos_iff_ne_zero.1 (Nat.pow_pos (by decide))
  by_cases hc : c = 0
  · subst hc
    rw [ofDecimal, ofDecimal, if_pos (Nat.zero_mul _), if_pos rfl]
  have hck : c * 10 ^ k ≠ 0 := Nat.mul_ne_zero hc hpow
  have hlength := Decimal.length_toDigits_mul_pow hc k
  by_cases hlow : -400 ≤ e + k + (Nat.toDigits 10 c).length
  · -- Both forms are the same ratio.
    obtain ⟨a, b, hab⟩ := exists_eq_sub e
    rw [ofDecimal_eq_ofRatio (a := a) (b := b) hck (by omega) (by rw [hlength]; omega) hab,
      ofDecimal_eq_ofRatio (a := a + k) (b := b) hc h hlow (by omega), Nat.pow_add,
      Nat.mul_assoc, Nat.mul_comm (10 ^ k)]
  · -- both forms are below every float other than zero
    have hleft : ofDecimal ⟨c * 10 ^ k, e⟩ = 0 := by
      rw [ofDecimal, if_neg hck, if_neg (show ¬400 < e by omega)]
      exact if_pos (by dsimp only; omega)
    have hright : ofDecimal ⟨c, e + k⟩ = 0 := by
      rw [ofDecimal, if_neg hc, if_neg (show ¬400 < e + k by omega)]
      exact if_pos (by dsimp only; omega)
    rw [hleft, hright]

/-- Zeros at the end of a fraction do not count. -/
theorem ofDecimal_append_zeros (whole fraction : List Char) (zeros : Nat) :
    ofDecimal (.ofDigits whole (fraction ++ List.replicate zeros '0') 0) =
      ofDecimal (.ofDigits whole fraction 0) := by
  have hexponent : (0 : Int) - (fraction.length + zeros : Nat) + zeros = 0 - fraction.length := by
    omega
  rw [Decimal.ofDigits, ← List.append_assoc, Decimal.ofDigitList_append_zeros, List.length_append,
    List.length_replicate, ofDecimal_scale _ _ (by omega), hexponent]
  rfl

/-- The digits before and after the point stand for the decimal. -/
theorem ofDecimal_digits {d : Decimal} (h : d.exponent ≤ 400) :
    ofDecimal (.ofDigits d.digits.1 (Decimal.trimFraction d.digits.2) 0) = ofDecimal d := by
  -- The zeros trimmed from the end of the fraction do not change what it denotes.
  have htrim : ofDecimal (.ofDigits d.digits.1 (Decimal.trimFraction d.digits.2) 0) =
      ofDecimal (.ofDigits d.digits.1 d.digits.2 0) := by
    obtain ⟨kept, dropped, hfraction, htrim | htrim⟩ := Decimal.exists_trimFraction d.digits.2
    · rw [htrim, hfraction, ofDecimal_append_zeros]
    · rw [htrim, hfraction, ofDecimal_append_zeros, ofDecimal_append_zeros]
  rw [htrim]
  obtain ⟨c, e⟩ := d
  rw [Decimal.digits]
  cases e with
  | ofNat zeros =>
    have hscale := ofDecimal_scale c zeros (e := 0) (by simpa using h)
    rw [Decimal.ofDigits, List.append_nil, Decimal.ofDigitList_append_zeros,
      Decimal.ofDigitList_toDigits]
    simpa using hscale
  | negSucc places =>
    -- The zeros put in front make the digits long enough to cut off as many as there are places.
    have hlength : (List.replicate (places + 2 - (Nat.toDigits 10 c).length) '0' ++
        Nat.toDigits 10 c).length ≥ places + 2 := by
      rw [List.length_append, List.length_replicate]
      omega
    simp only [List.splitAt_eq]
    rw [Decimal.ofDigits, List.take_append_drop, Decimal.ofDigitList_zeros_append,
      Decimal.ofDigitList_toDigits, List.length_drop]
    congr 2
    rw [Int.negSucc_eq]
    omega

/-! ### Every finite float is nearest to its own value -/

theorem unit_pos : 0 < unit := by
  unfold unit
  -- As a variable the exponent keeps the power from being computed.
  generalize 1074 = k
  exact Nat.two_pow_pos k

theorem magnitude_of_lt {code : Nat} (h : code < step) : magnitude code = code := by
  rw [magnitude, decode, if_pos h]
  dsimp only
  rw [Nat.pow_eq, Nat.pow_zero, Nat.mul_one]

theorem magnitude_of_le {code : Nat} (h : step ≤ code) :
    magnitude code = (code % step + step) * 2 ^ (code / step - 1) := by
  rw [magnitude, decode, if_neg (Nat.not_lt.2 h)]
  rfl

/-- Only the code of zero has the magnitude zero. -/
theorem magnitude_pos {code : Nat} (h : 0 < code) : 0 < magnitude code := by
  rcases Nat.lt_or_ge code step with hsmall | hlarge
  · rwa [magnitude_of_lt hsmall]
  · rw [magnitude_of_le hlarge]
    exact Nat.mul_pos (Nat.add_pos_right _ (Nat.two_pow_pos 52)) (Nat.two_pow_pos _)

/-- The exponent of the first significand, and of the significands below the first step, is zero;
those after it count the steps. -/
theorem log2_magnitude {code : Nat} : (magnitude code).log2 - 52 = code / step - 1 := by
  rcases Nat.lt_or_ge code step with hsmall | hlarge
  · -- A float below the first step is as large as its code, and has no exponent to subtract.
    rw [magnitude_of_lt hsmall, Nat.div_eq_of_lt hsmall]
    by_cases hzero : code = 0
    · rw [hzero]
      rfl
    · have := (Nat.log2_lt hzero).2 hsmall
      omega
  · have hmod : code % step < step := Nat.mod_lt _ (Nat.two_pow_pos 52)
    -- The magnitude is a fraction between one step and two, scaled by the exponent.
    have hlog : (magnitude code).log2 = 52 + (code / step - 1) := by
      rw [Nat.log2_eq_iff (Nat.pos_iff_ne_zero.1 (magnitude_pos (Nat.lt_of_lt_of_le
        (Nat.two_pow_pos 52) hlarge))), magnitude_of_le hlarge, Nat.add_right_comm, Nat.pow_add,
        Nat.pow_add]
      constructor
      · exact Nat.mul_le_mul_right _ (Nat.le_add_left _ _)
      · apply Nat.mul_lt_mul_of_pos_right _ (Nat.two_pow_pos _)
        simp only [step, Nat.pow_eq] at hmod ⊢
        omega
    rw [hlog, Nat.add_sub_cancel_left]

/-- A finite float is nearest to its own magnitude: the ratio is in the range of its exponent, and
nothing is rounded. -/
theorem ofRatio_magnitude {code : Nat} (h : code < infinityCode) :
    ofRatio (magnitude code) unit = code := by
  have hsum : (code / step - 1) * step + roundDiv (magnitude code) (2 ^ (code / step - 1)) = code := by
    rcases Nat.lt_or_ge code step with hsmall | hlarge
    · rw [Nat.div_eq_of_lt hsmall, Nat.zero_sub, Nat.pow_zero, roundDiv_one,
        magnitude_of_lt hsmall, Nat.zero_mul, Nat.zero_add]
    · have hround := roundDiv_mul_right (Nat.two_pow_pos (code / step - 1)) (code % step + step) 1
      rw [Nat.one_mul, roundDiv_one] at hround
      rw [magnitude_of_le hlarge, hround]
      simp only [step, Nat.pow_eq] at hlarge ⊢
      omega
  rw [ofRatio, Nat.mul_div_cancel _ unit_pos, Nat.mul_comm unit, roundDiv_mul_right unit_pos,
    log2_magnitude, Nat.pow_eq, hsum]
  exact Nat.min_eq_left (Nat.le_of_lt h)

/-- The units in which magnitudes are counted are written with 1074 places. -/
theorem ofDecimal_units {m f k : Nat} (hm : 0 < m) (hunit : unit * f = 10 ^ 1074) (hf : 10 ^ k ≤ f)
    (hk : 673 ≤ k) : ofDecimal ⟨m * f, -1074⟩ = ofRatio m unit := by
  have hfpos : 0 < f := Nat.lt_of_lt_of_le (Nat.pow_pos (by decide)) hf
  have hlength : ¬(Nat.toDigits 10 (m * f)).length ≤ k := by
    rw [Nat.length_toDigits_le_iff (by decide) (by omega), Nat.not_lt]
    exact Nat.le_trans hf (Nat.le_mul_of_pos_left _ hm)
  have hratio : ofDecimal ⟨m * f, -1074⟩ = ofRatio (m * f * 10 ^ 0) (10 ^ 1074) :=
    ofDecimal_eq_ofRatio (Nat.pos_iff_ne_zero.1 (Nat.mul_pos hm hfpos)) (by decide) (by omega)
      (by decide)
  rw [hratio, Nat.pow_zero, Nat.mul_one, ← hunit, ofRatio_mul_right hfpos]

/-- All digits of a float read back. -/
theorem ofDecimal_exact {code : Nat} (hpos : 0 < code) (h : code < infinityCode) :
    ofDecimal (exact code) = code := by
  rw [exact, ofDecimal_units (magnitude_pos hpos) (by decide +kernel)
    (by decide +kernel) (Nat.le_refl 673), ofRatio_magnitude h]

/-! ### The text of a float -/

/-- A neighbour is taken only if it reads back. -/
theorem ofDecimal_of_neighbour? {code : Nat} {exponent : Int} {d : Decimal}
    (h : neighbour? code exponent = some d) : ofDecimal d = code := by
  rw [neighbour?] at h
  dsimp only at h
  split at h
  · rename_i hbelow
    split at h
    · rename_i habove
      obtain rfl := Option.some.inj h
      split
      · exact hbelow
      · exact habove
    · obtain rfl := Option.some.inj h
      exact hbelow
  · split at h
    · rename_i habove
      obtain rfl := Option.some.inj h
      exact habove
    · exact nomatch h

/-- Either a short decimal was found that reads back, or all digits are taken. -/
theorem ofDecimal_shortest {code : Nat} (hpos : 0 < code) (h : code < infinityCode) :
    ofDecimal (shortest code) = code := by
  rw [shortest]
  cases hfound : (List.range 17).findSome? fun (k : Nat) =>
      neighbour? code (pointPosition (magnitude code) - (k + 1)) with
  | none => exact ofDecimal_exact hpos h
  | some d =>
    obtain ⟨k, -, hk⟩ := List.exists_of_findSome?_eq_some hfound
    exact ofDecimal_of_neighbour? hk

theorem ofDecimal_zero : ofDecimal ⟨0, 0⟩ = 0 := by
  rw [ofDecimal, if_pos rfl]

/-- A decimal that reads back as a finite float other than zero is not past all floats. -/
theorem exponent_le_of_ofDecimal {d : Decimal} (hpos : 0 < ofDecimal d)
    (h : ofDecimal d < infinityCode) : d.exponent ≤ 400 := by
  apply Int.not_lt.1
  intro hhigh
  rw [ofDecimal] at hpos h
  rw [if_pos hhigh] at h
  split at h
  · rename_i hzero
    rw [if_pos hzero] at hpos
    exact Nat.lt_irrefl _ hpos
  · exact Nat.lt_irrefl _ h

/-- The bits of a float are its sign and its code. -/
theorem bits_isNegative_code (b : UInt64) : bits (isNegative b) (code b) = b := by
  apply UInt64.toNat.inj
  have hlt := b.toNat_lt
  rw [bits, Nat.toUInt64_eq, UInt64.toNat_ofNat', isNegative, code, Nat.pow_eq]
  split
  · rename_i hneg
    have hneg := of_decide_eq_true hneg
    omega
  · rename_i hneg
    have hneg := of_decide_eq_false (Bool.eq_false_iff.2 hneg)
    omega

/-- What is too large is infinite, never more. -/
theorem ofDecimal_le (d : Decimal) : ofDecimal d ≤ infinityCode := by
  rw [ofDecimal]
  split_ifs
  · exact Nat.zero_le _
  · exact Nat.le_refl _
  · exact Nat.zero_le _
  · split <;> exact Nat.min_le_right _ _

theorem code_bits (negative : Bool) {c : Nat} (h : c ≤ infinityCode) : code (bits negative c) = c := by
  have hlt : c < 2 ^ 63 := Nat.lt_of_le_of_lt h (by decide)
  cases negative with
  | true =>
    rw [code, bits, if_pos rfl, UInt64.toNat_ofNat', Nat.pow_eq]
    omega
  | false =>
    rw [code, bits, if_neg (by decide), UInt64.toNat_ofNat', Nat.pow_eq]
    omega

/-- The float is finite or an infinity. -/
def IsNumber (b : UInt64) : Prop :=
  code b ≤ infinityCode

/-- The float is neither an infinity nor not a number. -/
def IsFinite (b : UInt64) : Prop :=
  code b < infinityCode

/-- The text of a finite float has digits on both sides of a point, and they read back as it. -/
theorem exists_text {b : UInt64} (h : IsFinite b) : ∃ whole fraction : List Char,
    (text b).toList = (if isNegative b then ['-'] else []) ++ (whole ++ '.' :: fraction) ∧
      (whole ≠ [] ∧ ∀ c ∈ whole, c.isDigit = true) ∧
      (fraction ≠ [] ∧ ∀ c ∈ fraction, c.isDigit = true) ∧
      bits (isNegative b) (ofDecimal (.ofDigits whole fraction 0)) = b := by
  obtain ⟨d, htext, hread, hexponent⟩ : ∃ d : Decimal,
      text b = (if isNegative b then "-" else "") ++ d.positional ∧ ofDecimal d = code b ∧
        d.exponent ≤ 400 := by
    rw [IsFinite] at h
    rw [text, if_pos h]
    refine ⟨_, rfl, ?_⟩
    -- Zero is written as it stands; any other number is written by the shortest decimal that denotes
    -- it.
    split
    · rename_i hzero
      exact ⟨ofDecimal_zero.trans hzero.symm, by decide⟩
    · rename_i hzero
      have hread := ofDecimal_shortest (Nat.pos_of_ne_zero hzero) h
      refine ⟨hread, exponent_le_of_ofDecimal ?_ ?_⟩
      · rw [hread]
        exact Nat.pos_of_ne_zero hzero
      · rwa [hread]
  obtain ⟨hwhole, hfraction⟩ := d.isDigit_of_mem_digits
  refine ⟨d.digits.1, Decimal.trimFraction d.digits.2, ?_, ⟨d.digits_fst_ne_nil, hwhole⟩,
    ⟨Decimal.trimFraction_ne_nil _, Decimal.isDigit_of_mem_trimFraction hfraction⟩, ?_⟩
  · rw [htext, String.toList_append, Decimal.positional, String.toList_ofList]
    cases isNegative b <;> rfl
  · rw [ofDecimal_digits hexponent, hread, bits_isNegative_code]

end Binary64

end Unguard
