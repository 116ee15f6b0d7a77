import FlowRecovery.Json.Rounding

/-!
# Numerals

A numeral is kept as it is written: with its sign, its fraction and its exponent. Only a numeral
that is written without any of the three is a natural number (`Numeral.natural?`); `-0`, `1.0` and
`1e0` are not.

`Numeral.isFinite` tells whether a numeral has a finite double-precision value. That value is
computed from a significand of 64 bits: as many digits as fit into it are taken in, the others only
count as powers of ten, or as nothing behind the point (`Numeral.decimal`). The significand and the
power of ten are rounded, and so is their product. So a numeral within a few units of the greatest
finite number may be finite or not, whatever its exact value is.
-/

namespace FlowRecovery

/-- A numeral. -/
structure Numeral where
  /-- It has a minus sign. -/
  negative : Bool
  /-- The part before the point. -/
  whole : Nat
  /-- The digits behind the point; none if there is no point. -/
  fraction : List Char
  /-- The exponent, if one is written. -/
  exponent? : Option Int
  deriving DecidableEq

namespace Numeral

/-- The numeral of a natural number. -/
def ofNat (n : Nat) : Numeral := ⟨false, n, [], none⟩

/-- The natural number that a numeral writes, if it writes one. -/
def natural? (n : Numeral) : Option Nat :=
  if n.negative ∨ n.fraction ≠ [] ∨ n.exponent?.isSome then none else some n.whole

theorem natural?_ofNat (n : Nat) : (ofNat n).natural? = some n := rfl

/-! ### Double-precision value -/

/-- A significand is less than this. -/
def significandLimit : Nat := Nat.pow 2 64

/-- Appends digits to a significand up to the first that would make it too great; also counts
them. -/
def absorb (significand : Nat) : List Char → Nat × Nat
  | [] => (significand, 0)
  | c :: rest =>
      if Nat.ofDigitChars 10 [c] significand < significandLimit then
        let p := absorb (Nat.ofDigitChars 10 [c] significand) rest
        (p.1, p.2 + 1)
      else (significand, 0)

/-- The significand, and the power of ten that it is multiplied by. A digit before the point that
is not taken in counts as a power of ten; a digit behind it that is taken in counts as one less. -/
def decimal (n : Numeral) : Nat × Int :=
  let digits := Nat.toDigits 10 n.whole
  let whole := absorb 0 digits
  let all := absorb whole.1 n.fraction
  (all.1, (digits.length - whole.2 : Nat) - (all.2 : Int) + n.exponent?.getD 0)

/-- The numeral has a finite double-precision value. A quotient of a significand always is finite;
a multiple of a power of ten above the 308th never is, unless it is zero. -/
def isFinite (n : Numeral) : Bool :=
  let p := n.decimal
  if p.1 = 0 ∨ p.2 < 0 then true
  else if 308 < p.2 then false
  else Double.nearest p.1 * Double.nearest (Nat.pow 10 p.2.toNat) < Double.overflow

theorem le_ofDigitChars (s : Nat) (cs : List Char) : s ≤ Nat.ofDigitChars 10 cs s := by
  induction cs generalizing s with
  | nil => exact Nat.le_refl s
  | cons c rest ih =>
    rw [Nat.ofDigitChars_cons]
    exact Nat.le_trans (by omega) (ih _)

/-- Digits that fit into a significand are all taken in. -/
theorem absorb_of_lt {s : Nat} {cs : List Char}
    (h : Nat.ofDigitChars 10 cs s < significandLimit) :
    absorb s cs = (Nat.ofDigitChars 10 cs s, cs.length) := by
  induction cs generalizing s with
  | nil => rfl
  | cons c rest ih =>
    have hone : Nat.ofDigitChars 10 (c :: rest) s =
        Nat.ofDigitChars 10 rest (Nat.ofDigitChars 10 [c] s) := by
      rw [← List.singleton_append, Nat.ofDigitChars_append]
    rw [hone] at h ⊢
    unfold absorb
    rw [if_pos (Nat.lt_of_le_of_lt (le_ofDigitChars _ rest) h), ih h, List.length_cons]

theorem decimal_ofNat {n : Nat} (h : n < significandLimit) : (ofNat n).decimal = (n, 0) := by
  have hdigits : Nat.ofDigitChars 10 (Nat.toDigits 10 n) 0 = n :=
    Nat.ofDigitChars_toDigits (by decide) (by decide)
  have habsorb : absorb 0 (Nat.toDigits 10 n) = (n, (Nat.toDigits 10 n).length) := by
    rw [absorb_of_lt (by rwa [hdigits]), hdigits]
  simp [decimal, ofNat, habsorb, absorb]

/-- A natural number that fits into a significand is finite. -/
theorem isFinite_ofNat {n : Nat} (h : n < significandLimit) : (ofNat n).isFinite = true := by
  have hnearest := Double.nearest_le_two_mul n
  have hone : Double.nearest (Nat.pow 10 0) = 1 := Double.nearest_of_lt (by decide)
  have hlimit : 2 * significandLimit < Double.overflow := by decide +kernel
  have hproduct :
      Double.nearest n * Double.nearest (Nat.pow 10 (Int.toNat 0)) < Double.overflow := by
    rw [Int.toNat_zero, hone]
    omega
  simp only [isFinite, decimal_ofNat h]
  split
  · rfl
  · rw [if_neg (by decide), decide_eq_true hproduct]

end Numeral

end FlowRecovery
