import Pgfixeypointy.Extension.Functions
import Pgfixeypointy.Impl.Assumptions

namespace Fxypty

open FxyptyImpl

theorem order_rescale_pos {x y c : ℤ} (hc : 2 ≤ c) (hx : 0 < x) :
    ((x < y ↔ x * c < y) ∧ (y < x ↔ y < x * c)) ↔ y < x ∨ x * c < y := by
  have hxc : x < x * c := by nlinarith
  constructor
  · rintro ⟨hlt,hgt⟩
    by_contra hn
    have h1 : x ≤ y := by omega
    have h2 : ¬x < y := fun h => hn (.inr (hlt.mp h))
    have h3 : y < x * c := by omega
    exact hn (.inl (hgt.mpr h3))
  · rintro (h | h)
    · exact ⟨by omega,by omega⟩
    · exact ⟨by omega,by omega⟩

theorem order_rescale_sign {x y c : ℤ} (hc : 2 ≤ c) (hx : 0 ≤ x) (hy : y ≤ 0) :
    (x < y ↔ x * c < y) ∧ (y < x ↔ y < x * c) := by
  have hxc : x ≤ x * c := by nlinarith
  have hz : x = 0 → x * c = 0 := by
    rintro rfl
    exact zero_mul c
  exact ⟨by omega,by omega⟩

theorem order_rescale_neg {x y c : ℤ} :
    ((-x < -y ↔ -x * c < -y) ∧ (-y < -x ↔ -y < -x * c)) ↔
      ((x < y ↔ x * c < y) ∧ (y < x ↔ y < x * c)) := by
  rw [neg_mul, neg_lt_neg_iff, neg_lt_neg_iff, neg_lt_neg_iff, neg_lt_neg_iff]
  exact and_comm

theorem order_rescale_iff {x y c : ℤ} (hc : 2 ≤ c) :
    ((x < y ↔ x * c < y) ∧ (y < x ↔ y < x * c)) ↔
      x * y ≤ 0 ∨ |y| < |x| ∨ |x| * c < |y| := by
  rcases le_or_gt (x * y) 0 with h | h
  · refine ⟨fun _ => .inl h,fun _ => ?_⟩
    rcases mul_nonpos_iff.mp h with ⟨hx,hy⟩ | ⟨hx,hy⟩
    · exact order_rescale_sign hc hx hy
    · rw [← order_rescale_neg]
      exact order_rescale_sign hc (by omega) (by omega)
  · rw [or_iff_right h.not_ge]
    rcases mul_pos_iff.mp h with ⟨hx,hy⟩ | ⟨hx,hy⟩
    · rw [abs_of_pos hx, abs_of_pos hy]
      exact order_rescale_pos hc hx
    · rw [abs_of_neg hx, abs_of_neg hy, ← order_rescale_neg]
      exact order_rescale_pos hc (by omega)

-- x is the operand of the smaller scale
def KeepsOrder (x y : FxyPtyDecimal) : Prop :=
  x.raw * y.raw ≤ 0 ∨ |y.raw| < |x.raw| ∨
    |x.raw| * 10 ^ (y.scale.toNat - x.scale.toNat) < |y.raw|

def Comparable (a b : FxyPtyDecimal) : Prop :=
  a.scale = b.scale ∨ a.scale.toNat < b.scale.toNat ∧ KeepsOrder a b ∨
    b.scale.toNat < a.scale.toNat ∧ KeepsOrder b a

theorem val_rescale {x y : FxyPtyDecimal} (h : x.scale.toNat ≤ y.scale.toNat) :
    x.val = (x.raw * 10 ^ (y.scale.toNat - x.scale.toNat) : Int) / 10 ^ y.scale.toNat := by
  rw [FxyPtyDecimal.val, ← pow_mul_pow_sub (10 : ℚ) h]
  push_cast
  field_simp

theorem val_lt_iff {x y : FxyPtyDecimal} (h : x.scale.toNat ≤ y.scale.toNat) :
    (x.val < y.val ↔ x.raw * 10 ^ (y.scale.toNat - x.scale.toNat) < y.raw) ∧
    (y.val < x.val ↔ y.raw < x.raw * 10 ^ (y.scale.toNat - x.scale.toNat)) := by
  have hp : (0 : ℚ) < 10 ^ y.scale.toNat := by positivity
  rw [val_rescale h, FxyPtyDecimal.val, div_lt_div_iff_of_pos_right hp,
    div_lt_div_iff_of_pos_right hp, Int.cast_lt, Int.cast_lt]
  exact ⟨Iff.rfl,Iff.rfl⟩

theorem comparable_iff (a b : FxyPtyDecimal) :
    ((a.raw < b.raw ↔ a.val < b.val) ∧ (b.raw < a.raw ↔ b.val < a.val)) ↔ Comparable a b := by
  have htwo {j k : Nat} (h : j < k) : (2 : Int) ≤ 10 ^ (k - j) := le_trans (by decide) (ten_le_pow h)
  unfold Comparable
  rcases lt_trichotomy a.scale.toNat b.scale.toNat with h | h | h
  · have hs : a.scale ≠ b.scale := fun hs => h.ne (congrArg BitVec.toNat hs)
    rw [(val_lt_iff h.le).1, (val_lt_iff h.le).2, order_rescale_iff (htwo h)]
    simp [KeepsOrder, hs, h, h.not_gt]
  · have hs : a.scale = b.scale := BitVec.eq_of_toNat_eq h
    rw [(val_lt_iff h.le).1, (val_lt_iff h.le).2, h, Nat.sub_self, pow_zero, mul_one]
    simp [hs]
  · have hs : a.scale ≠ b.scale := fun hs => h.ne' (congrArg BitVec.toNat hs)
    rw [(val_lt_iff h.le).1, (val_lt_iff h.le).2, and_comm, order_rescale_iff (htwo h)]
    simp [KeepsOrder, hs, h, h.not_gt]

variable {lib : Libfixeypointy}

theorem compare_sign (hl : SignCompare lib) (a b : Datum) :
    compare lib a b = Int.sign (a.decimal.raw - b.decimal.raw) := by
  rw [compare, fxyptyCompare, hl]
  rfl

theorem compare_neg_iff (hl : SignCompare lib) (a b : Datum) :
    compare lib a b < 0 ↔ a.decimal.raw < b.decimal.raw := by
  rw [compare_sign hl, Int.sign_neg_iff]
  omega

theorem compare_pos_iff (hl : SignCompare lib) (a b : Datum) :
    0 < compare lib a b ↔ b.decimal.raw < a.decimal.raw := by
  rw [compare_sign hl, Int.sign_pos_iff]
  omega

structure Orders (lib : Libfixeypointy) (a b : Datum) : Prop where
  lt : fxyptyLt lib a b = true ↔ a.decimal.val < b.decimal.val
  gt : fxyptyGt lib a b = true ↔ b.decimal.val < a.decimal.val
  lte : fxyptyLte lib a b = true ↔ a.decimal.val ≤ b.decimal.val
  gte : fxyptyGte lib a b = true ↔ b.decimal.val ≤ a.decimal.val
  eq : fxyptyEq lib a b = true ↔ a.decimal.val = b.decimal.val
  neq : fxyptyNeq lib a b = true ↔ a.decimal.val ≠ b.decimal.val
  smaller : (fxyptySmaller lib a b = a ∨ fxyptySmaller lib a b = b) ∧
    (fxyptySmaller lib a b).decimal.val = min a.decimal.val b.decimal.val
  larger : (fxyptyLarger lib a b = a ∨ fxyptyLarger lib a b = b) ∧
    (fxyptyLarger lib a b).decimal.val = max a.decimal.val b.decimal.val

theorem orders_of_sign {a b : Datum} (hlt : compare lib a b < 0 ↔ a.decimal.val < b.decimal.val)
    (hgt : 0 < compare lib a b ↔ b.decimal.val < a.decimal.val) : Orders lib a b := by
  have heq : compare lib a b = 0 ↔ a.decimal.val = b.decimal.val := by
    rw [le_antisymm_iff, ← not_lt, ← not_lt, hlt, hgt, not_lt, not_lt, and_comm, ← le_antisymm_iff,
      eq_comm]
  refine ⟨?_,?_,?_,?_,?_,?_,?_,?_⟩
  · simp [fxyptyLt, hlt]
  · simp [fxyptyGt, hgt]
  · simp [fxyptyLte, ← not_lt, hgt]
  · simp [fxyptyGte, ← not_lt, hlt]
  · simp [fxyptyEq, heq]
  · simp [fxyptyNeq, heq]
  · unfold fxyptySmaller
    split
    · exact ⟨.inl rfl,(min_eq_left (hlt.mp ‹_›).le).symm⟩
    · exact ⟨.inr rfl,(min_eq_right (not_lt.mp fun h => ‹¬_› (hlt.mpr h))).symm⟩
  · unfold fxyptyLarger
    split
    · exact ⟨.inl rfl,(max_eq_left (not_lt.mp fun h => not_le.mpr (hlt.mpr h) ‹_›)).symm⟩
    · exact ⟨.inr rfl,(max_eq_right (hlt.mp (not_le.mp ‹_›)).le).symm⟩

theorem orders_iff_comparable (hl : SignCompare lib) (a b : Datum) :
    Orders lib a b ↔ Comparable a.decimal b.decimal := by
  rw [← comparable_iff, ← compare_neg_iff hl, ← compare_pos_iff hl]
  constructor
  · intro h
    exact ⟨by simpa [fxyptyLt] using h.lt,by simpa [fxyptyGt] using h.gt⟩
  · exact fun h => orders_of_sign h.1 h.2

theorem orders_same_scale : Orders truncating (stored 1012 2) (stored 24568 2) :=
  (orders_iff_comparable truncating_compare _ _).mpr (.inl (by rw [stored_decimal, stored_decimal]; rfl))

theorem order_of_mixed_scales :
    fxyptyLt truncating (stored 15 1) (stored 125 2) = true ∧
    (stored 125 2).decimal.val < (stored 15 1).decimal.val ∧
    ¬Orders truncating (stored 15 1) (stored 125 2) := by
  have hlt : fxyptyLt truncating (stored 15 1) (stored 125 2) = true := by decide
  have h15 : (FxyPtyDecimal.wrap 15 1).raw = 15 := by decide
  have h125 : (FxyPtyDecimal.wrap 125 2).raw = 125 := by decide
  have hs1 : BitVec.toNat (1 : Scale) = 1 := rfl
  have hs2 : BitVec.toNat (2 : Scale) = 2 := rfl
  have hval : (stored 125 2).decimal.val < (stored 15 1).decimal.val := by
    norm_num [stored_decimal, FxyPtyDecimal.val, h15, h125, hs1, hs2]
  exact ⟨hlt,hval,fun h => lt_asymm hval (h.lt.mp hlt)⟩

end Fxypty
