import Unguard.Proofs.Constants

/-!
# Integers at the limits of 64 bits

An integer is written in digits, with a minus sign before them or none (`IntegerLiteral`).  Without a
sign it is read over the unsigned range, with one down to the least signed number, and what is read are
its two's complement bits.  Bits are written as the signed number they stand for.  So the two ranges
overlap: bits from `2 ^ 63` on have two literals, and it is the negative one that is written.

Reading is exact on both ranges and fails on all other literals (`Reader.reads_integerLiteral`,
`Reader.refuses_integerLiteral`), and it undoes writing on every bit pattern (`Reader.integer_exact`).
-/

namespace Unguard.Text

/-- An integer as it is written: a numeral with no superfluous zero, and a minus sign or none. -/
structure IntegerLiteral where
  negative : Bool
  digits : List Char
  isNumeral : Reader.IsNumeral digits

namespace IntegerLiteral

def toList (l : IntegerLiteral) : List Char :=
  (if l.negative then ['-'] else []) ++ l.digits

/-- The number that the digits stand for. -/
def magnitude (l : IntegerLiteral) : Nat :=
  Nat.ofDigitChars 10 l.digits 0

/-- The integer that the literal stands for. -/
def value (l : IntegerLiteral) : Int :=
  if l.negative then -l.magnitude else l.magnitude

/-- The literal with the sign and the digits of a number. -/
def ofSign (negative : Bool) (n : Nat) : IntegerLiteral :=
  ⟨negative, Nat.toDigits 10 n, Reader.isNumeral_toDigits n⟩

@[simp] theorem negative_ofSign (negative : Bool) (n : Nat) : (ofSign negative n).negative = negative :=
  rfl

@[simp] theorem magnitude_ofSign (negative : Bool) (n : Nat) : (ofSign negative n).magnitude = n :=
  Nat.ofDigitChars_ten_toDigits

/-! ### Literals of bits -/

/-- The literal of the signed number that 64 bits stand for. -/
def ofBits (bits : UInt64) : IntegerLiteral :=
  if 2 * bits.toNat < UInt64.size then ofSign false bits.toNat
  else ofSign true (UInt64.size - bits.toNat)

theorem ofList_toList_ofBits (bits : UInt64) :
    String.ofList (ofBits bits).toList = signedText bits := by
  unfold ofBits signedText
  split
  · rw [Nat.repr_eq_ofList_toDigits]
    rfl
  · rw [Nat.repr_eq_ofList_toDigits]
    show String.ofList (['-'] ++ Nat.toDigits 10 _) = _
    rw [String.ofList_append]

theorem value_ofBits (bits : UInt64) : (ofBits bits).value = bits.toInt64.toInt := by
  have hlt := bits.toNat_lt
  have hsize : UInt64.size = 2 ^ 64 := rfl
  have hsigned : bits.toInt64.toInt = if 2 * bits.toNat < 2 ^ 64 then (bits.toNat : Int)
      else bits.toNat - (2 ^ 64 : Nat) := BitVec.toInt_eq_toNat_cond bits.toBitVec
  rw [hsigned]
  unfold ofBits
  show _ = if 2 * bits.toNat < UInt64.size then _ else _
  split
  · simp [value]
  · simp only [value, negative_ofSign, magnitude_ofSign, if_true]
    omega

end IntegerLiteral

namespace Reader

variable {rest : List Char}

/-! ### Reading a literal -/

theorem minus_of_literal (l : IntegerLiteral) :
    minus.Reads (l.toList ++ rest) (l.digits ++ rest) fun a => a = l.negative := by
  obtain ⟨negative, digits, hne, hdigits, hzero⟩ := l
  cases negative with
  | true => exact minus_of_sign
  | false =>
    obtain ⟨c, cs, rfl⟩ := List.exists_cons_of_ne_nil hne
    exact minus_of_digit (hdigits c List.mem_cons_self)

theorem numeral_of_literal (l : IntegerLiteral) (hrest : stops Char.isDigit rest = true) :
    numeral.Reads (l.digits ++ rest) rest fun a => a = l.magnitude := by
  refine (reads_digits l.isNumeral hrest).mono ?_
  intro a ha
  rw [ha, Decimal.ofDigitList_eq, IntegerLiteral.magnitude]

/-- A literal in the range is read as its two's complement bits. -/
theorem reads_integerLiteral (l : IntegerLiteral) (hrest : stops Char.isDigit rest = true)
    (hmin : -2 ^ 63 ≤ l.value) (hmax : l.value < 2 ^ 64) :
    integer.Reads (l.toList ++ rest) rest fun bits => (bits.toNat : Int) = l.value % 2 ^ 64 := by
  have hsize : UInt64.size = 2 ^ 64 := rfl
  refine (minus_of_literal l).bind fun sign hsign => (numeral_of_literal l hrest).bind fun n hn => ?_
  subst hsign hn
  unfold IntegerLiteral.value at hmin hmax ⊢
  cases hsign : l.negative with
  | false =>
    simp only [hsign, Bool.false_eq_true, if_false] at hmin hmax ⊢
    rw [if_pos (by simp; omega)]
    refine reads_pure ?_
    rw [Nat.toUInt64_eq, UInt64.toNat_ofNat']
    omega
  | true =>
    simp only [hsign, if_true] at hmin hmax ⊢
    rw [if_neg (by simp), if_pos (by simp; omega)]
    refine reads_pure ?_
    -- the magnitude may be zero, and then what is stored wraps around to zero
    rw [Nat.toUInt64_eq, UInt64.toNat_ofNat']
    omega

/-- Any other literal is refused. -/
theorem refuses_integerLiteral (l : IntegerLiteral) (hrest : stops Char.isDigit rest = true)
    (hrange : ¬(-2 ^ 63 ≤ l.value ∧ l.value < 2 ^ 64)) : integer.Refuses (l.toList ++ rest) := by
  have hsize : UInt64.size = 2 ^ 64 := rfl
  refine (minus_of_literal l).bind_refuses fun sign hsign => ?_
  refine (numeral_of_literal l hrest).bind_refuses fun n hn => ?_
  subst hsign hn
  unfold IntegerLiteral.value at hrange
  cases hsign : l.negative with
  | false =>
    simp only [hsign, Bool.false_eq_true, if_false] at hrange ⊢
    rw [if_neg (by simp; omega), if_neg (by simp)]
    exact fun offset => ⟨offset, rfl⟩
  | true =>
    simp only [hsign, if_true] at hrange ⊢
    rw [if_neg (by simp), if_neg (by simp; omega)]
    exact fun offset => ⟨offset, rfl⟩

/-- **Integers are exact at the limits of 64 bits.**  Let a literal stand anywhere in a text, with no
digit after it.  It is read to its end, as some bits, exactly if the integer it stands for is from
`-2 ^ 63` up to `2 ^ 64 - 1` and the bits are that integer modulo `2 ^ 64`; any other literal is refused.
The text of an integer attribute is the literal of the signed number that its bits stand for, and is read
as these bits again. -/
theorem integer_exact (offset : Nat) (rest : List Char) (hrest : stops Char.isDigit rest = true) :
    (∀ (l : IntegerLiteral) (bits : UInt64),
      (∃ stop, integer ⟨l.toList ++ rest, offset⟩ = .done bits ⟨rest, stop⟩) ↔
        (-2 ^ 63 ≤ l.value ∧ l.value < 2 ^ 64) ∧ (bits.toNat : Int) = l.value % 2 ^ 64) ∧
    (∀ l : IntegerLiteral, ¬(-2 ^ 63 ≤ l.value ∧ l.value < 2 ^ 64) →
      ∃ stop, integer ⟨l.toList ++ rest, offset⟩ = .failed stop) ∧
    ∀ (t : TypeTable) (bits : UInt64), ∃ l : IntegerLiteral,
      attributeText t (.int bits) = .ok (String.ofList l.toList) ∧ l.value = bits.toInt64.toInt ∧
      ∃ stop, integer ⟨l.toList ++ rest, offset⟩ = .done bits ⟨rest, stop⟩ := by
  refine ⟨fun l bits => ⟨?_, ?_⟩, fun l hrange => refuses_integerLiteral l hrest hrange offset, ?_⟩
  · -- What is read has been in range, or it would have been refused.
    rintro ⟨stop, hdone⟩
    by_cases hrange : -2 ^ 63 ≤ l.value ∧ l.value < 2 ^ 64
    · obtain ⟨bits', stop', hdone', hbits⟩ :=
        reads_integerLiteral l hrest hrange.1 hrange.2 offset
      obtain rfl := (Outcome.done.inj (hdone.symm.trans hdone')).1
      exact ⟨hrange, hbits⟩
    · obtain ⟨stop', hfailed⟩ := refuses_integerLiteral l hrest hrange offset
      rw [hdone] at hfailed
      cases hfailed
  · rintro ⟨⟨hmin, hmax⟩, hbits⟩
    obtain ⟨bits', stop, hdone, hbits'⟩ := reads_integerLiteral l hrest hmin hmax offset
    -- A remainder determines the bits.
    have heq : bits' = bits := by
      apply UInt64.toNat_inj.1
      omega
    exact ⟨stop, heq ▸ hdone⟩
  · -- What is written is in range whatever the bits are.
    intro t bits
    obtain ⟨bits', stop, hdone, rfl⟩ := reads_integer bits hrest offset
    have htext := IntegerLiteral.ofList_toList_ofBits bits'
    refine ⟨.ofBits bits', ?_, IntegerLiteral.value_ofBits bits', stop, ?_⟩
    · rw [htext]
      rfl
    · rw [← htext, String.toList_ofList] at hdone
      exact hdone

/-- The least and the largest integer, a zero with a sign, and the integers just outside. -/
theorem integer_exact_limits :
    (∃ stop, integer (.ofString "-9223372036854775808") = .done 9223372036854775808 ⟨[], stop⟩) ∧
    (∃ stop, integer (.ofString "18446744073709551615") = .done 18446744073709551615 ⟨[], stop⟩) ∧
    (∃ stop, integer (.ofString "-0") = .done 0 ⟨[], stop⟩) ∧
    (∃ stop, integer (.ofString "-9223372036854775809") = .failed stop) ∧
    (∃ stop, integer (.ofString "18446744073709551616") = .failed stop) := by
  have hreads := (integer_exact 0 [] rfl).1
  have hrefuses := (integer_exact 0 [] rfl).2.1
  refine ⟨?_, ?_, ?_, ?_, ?_⟩
  · exact (hreads (.ofSign true 9223372036854775808) _).2 (by decide +kernel)
  · exact (hreads (.ofSign false 18446744073709551615) _).2 (by decide +kernel)
  · exact (hreads (.ofSign true 0) _).2 (by decide +kernel)
  · exact hrefuses (.ofSign true 9223372036854775809) (by decide +kernel)
  · exact hrefuses (.ofSign false 18446744073709551616) (by decide +kernel)

end Reader

end Unguard.Text
