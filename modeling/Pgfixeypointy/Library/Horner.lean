import Mathlib.Data.Nat.Digits.Lemmas
import Mathlib.Tactic.Ring

namespace Horner

variable {w b : Nat}

def value (b : Nat) : Nat → List Nat → Nat
  | acc, [] => acc
  | acc, d :: ds => value b (acc * b + d) ds

theorem value_eq (acc : Nat) (ds : List Nat) :
    value b acc ds = acc * b ^ ds.length + Nat.ofDigits b ds.reverse := by
  induction ds generalizing acc with
  | nil => simp [value]
  | cons d ds ih =>
    simp only [value, ih, List.length_cons, List.reverse_cons, Nat.ofDigits_append,
      List.length_reverse, Nat.ofDigits_singleton]
    ring

theorem value_zero (ds : List Nat) : value b 0 ds = Nat.ofDigits b ds.reverse := by
  simp [value_eq]

theorem value_append (acc : Nat) (ds es : List Nat) :
    value b acc (ds ++ es) = value b (value b acc ds) es := by
  induction ds generalizing acc with
  | nil => rfl
  | cons d ds ih => exact ih _

theorem le_value (hb : 0 < b) (acc : Nat) (ds : List Nat) : acc ≤ value b acc ds := by
  induction ds generalizing acc with
  | nil => exact le_rfl
  | cons d ds ih =>
    calc acc ≤ acc * b := Nat.le_mul_of_pos_right acc hb
      _ ≤ acc * b + d := Nat.le_add_right _ _
      _ ≤ value b (acc * b + d) ds := ih _

def room (base digit acc : BitVec w) : Bool :=
  decide (acc ≤ BitVec.allOnes w / base) && decide (base * acc ≤ BitVec.allOnes w - digit)

theorem room_iff {base digit acc : BitVec w} (hb : 0 < base.toNat) :
    room base digit acc ↔ acc.toNat * base.toNat + digit.toNat < 2 ^ w := by
  have hd := digit.isLt
  have hsub : (BitVec.allOnes w - digit).toNat = 2 ^ w - 1 - digit.toNat := by
    rw [BitVec.toNat_sub_of_le, BitVec.toNat_allOnes]
    rw [BitVec.le_def, BitVec.toNat_allOnes]
    omega
  have hmul : acc.toNat * base.toNat ≤ 2 ^ w - 1 →
      (base * acc).toNat = acc.toNat * base.toNat := by
    intro h
    rw [BitVec.toNat_mul, Nat.mul_comm, Nat.mod_eq_of_lt]
    omega
  simp only [room, Bool.and_eq_true, decide_eq_true_eq, BitVec.le_def, BitVec.toNat_udiv,
    BitVec.toNat_allOnes, hsub, Nat.le_div_iff_mul_le hb]
  constructor
  · rintro ⟨hfit,hrest⟩
    rw [hmul hfit] at hrest
    omega
  · intro h
    have hfit : acc.toNat * base.toNat ≤ 2 ^ w - 1 := by omega
    rw [hmul hfit]
    exact ⟨hfit,by omega⟩

theorem step_toNat (base digit acc : BitVec w) :
    (acc * base + digit).toNat = (acc.toNat * base.toNat + digit.toNat) % 2 ^ w := by
  rw [BitVec.toNat_add, BitVec.toNat_mul, Nat.mod_add_mod]

theorem value_mod {acc acc' m : Nat} (h : acc % m = acc' % m) (ds : List Nat) :
    value b acc ds % m = value b acc' ds % m := by
  have hmod : acc ≡ acc' [MOD m] := h
  rw [value_eq, value_eq]
  exact (hmod.mul_right _).add_right _

end Horner
