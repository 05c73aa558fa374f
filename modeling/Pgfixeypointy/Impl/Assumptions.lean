import Pgfixeypointy.Impl.Literal
import Mathlib.Algebra.Order.Ring.Rat
import Mathlib.Algebra.Order.Field.Basic
import Mathlib.Tactic.FieldSimp
import Mathlib.Tactic.Positivity

namespace FxyptyImpl

structure ExactArithmetic (lib : Libfixeypointy) : Prop where
  add : ∀ x y r, lib.add x y = some r → r.toInt = x.toInt + y.toInt
  subtract : ∀ x y r, lib.subtract x y = some r → r.toInt = x.toInt - y.toInt
  multiply : ∀ x y k r, lib.multiply x y k = some r →
    |(r.toInt : ℚ) - x.toInt * y.toInt / 10 ^ k.toNat| < 1
  divide : ∀ x y k r, y.toInt ≠ 0 → lib.divide x y k = some r →
    |(r.toInt : ℚ) - x.toInt * 10 ^ k.toNat / y.toInt| < 1

def SignCompare (lib : Libfixeypointy) : Prop :=
  ∀ x y, lib.compare x y = some (Int.sign (x.toInt - y.toInt))

structure Commutes (lib : Libfixeypointy) : Prop where
  add : ∀ x y, lib.add x y = lib.add y x
  multiply : ∀ x y k, lib.multiply x y k = lib.multiply y x k

def ReadsLiterals (lib : Libfixeypointy) : Prop :=
  ∀ (l : Literal) (scale : Scale) (r : Raw), l.fractionDigits ≤ scale.toNat →
    (r.toInt : ℚ) = l.value * 10 ^ scale.toNat → lib.ofString l.text scale = some r

def fit (n : Int) : Option Raw :=
  if -2 ^ 127 ≤ n ∧ n < 2 ^ 127 then some (BitVec.ofInt 128 n) else none

def Literal.scaled (l : Literal) (s : Nat) : Int :=
  l.sign.apply (l.magnitude * 10 ^ s / 10 ^ l.fractionDigits)

def truncating : Libfixeypointy where
  ofString input scale := (readLiteral input).bind fun l => fit (l.scaled scale.toNat)
  add x y := fit (x.toInt + y.toInt)
  subtract x y := fit (x.toInt - y.toInt)
  multiply x y k := fit ((x.toInt * y.toInt).tdiv (10 ^ k.toNat))
  divide x y k := if y.toInt = 0 then none else fit ((x.toInt * 10 ^ k.toNat).tdiv y.toInt)
  compare x y := some (Int.sign (x.toInt - y.toInt))

theorem ofInt_toInt_fit {n : Int} (h : -2 ^ 127 ≤ n ∧ n < 2 ^ 127) :
    (BitVec.ofInt 128 n).toInt = n := by
  rw [BitVec.toInt_ofInt, Int.bmod_eq_of_le_mul_two (by omega) (by omega)]

theorem fit_eq_some {n : Int} {r : Raw} : fit n = some r ↔ r.toInt = n := by
  unfold fit
  constructor
  · intro h
    split at h
    · rename_i hn
      cases h
      exact ofInt_toInt_fit hn
    · cases h
  · rintro rfl
    have h1 := BitVec.le_two_mul_toInt (x := r)
    have h2 := BitVec.two_mul_toInt_lt (x := r)
    rw [if_pos (by omega), BitVec.ofInt_toInt]

theorem tdiv_close {n d : Int} (hd : d ≠ 0) : |((n.tdiv d : Int) : ℚ) - n / d| < 1 := by
  have hq : (d : ℚ) ≠ 0 := by exact_mod_cast hd
  have he : (n : ℚ) = n.tmod d + d * n.tdiv d := by exact_mod_cast (Int.tmod_add_mul_tdiv n d).symm
  have hr : ((n.tdiv d : Int) : ℚ) - n / d = -(n.tmod d / d) := by
    rw [he]
    field_simp
    ring
  have hlt : |n.tmod d| < |d| := by
    rw [Int.abs_eq_natAbs, Int.abs_eq_natAbs, Int.natAbs_tmod]
    exact_mod_cast Nat.mod_lt _ (Int.natAbs_pos.mpr hd)
  rw [hr, abs_neg, abs_div, div_lt_one (abs_pos.mpr hq)]
  exact_mod_cast hlt

theorem truncating_exact : ExactArithmetic truncating where
  add x y r h := fit_eq_some.mp h
  subtract x y r h := fit_eq_some.mp h
  multiply x y k r h := by
    rw [fit_eq_some.mp h]
    have hk := tdiv_close (n := x.toInt * y.toInt) (d := 10 ^ k.toNat) (by positivity)
    push_cast at hk
    exact hk
  divide x y k r hy h := by
    have hr : fit ((x.toInt * 10 ^ k.toNat).tdiv y.toInt) = some r := by
      simpa [truncating, hy] using h
    rw [fit_eq_some.mp hr]
    have hk := tdiv_close (n := x.toInt * 10 ^ k.toNat) hy
    push_cast at hk
    exact hk

theorem truncating_compare : SignCompare truncating := fun _ _ => rfl

theorem truncating_commutes : Commutes truncating where
  add x y := by simp only [truncating, Int.add_comm]
  multiply x y k := by simp only [truncating, Int.mul_comm]

theorem Sign.apply_mul (sign : Sign) (m n : Nat) : sign.apply (m * n) = sign.apply m * n := by
  cases sign <;> simp [Sign.apply]

theorem Sign.apply_natAbs (sign : Sign) (n : Nat) : (sign.apply n).natAbs = n := by
  cases sign <;> simp [Sign.apply]

theorem Literal.scaled_exact {l : Literal} {s : Nat} (h : l.fractionDigits ≤ s) :
    l.scaled s = l.sign.apply l.magnitude * (10 ^ (s - l.fractionDigits) : Nat) := by
  rw [scaled, Digits.mul_pow_div (by decide) h, Sign.apply_mul]

theorem Literal.scaled_value {l : Literal} {s : Nat} (h : l.fractionDigits ≤ s) :
    (l.scaled s : ℚ) = l.value * 10 ^ s := by
  rw [scaled_exact h, value, ← pow_mul_pow_sub (10 : ℚ) h]
  push_cast
  field_simp

theorem ten_le_pow {R : Type} [CommRing R] [LinearOrder R] [IsStrictOrderedRing R] {j k : Nat}
    (h : j < k) : (10 : R) ≤ 10 ^ (k - j) := by
  calc (10 : R) = 10 ^ 1 := (pow_one 10).symm
    _ ≤ 10 ^ (k - j) := pow_le_pow_right₀ (by norm_num) (by omega)

theorem truncating_reads : ReadsLiterals truncating := by
  intro l scale r hf hr
  have hv : r.toInt = l.scaled scale.toNat := by
    rw [← Literal.scaled_value hf] at hr
    exact_mod_cast hr
  simp only [truncating, readLiteral_text, Option.bind_some]
  exact fit_eq_some.mpr hv

end FxyptyImpl
