import Pgfixeypointy.Library.Rounding
import Pgfixeypointy.Impl.Assumptions

namespace FxyptyImpl

open Rounding

def Approximates (r a : FxyPtyDecimal) (exact : ℚ) : Prop :=
  r.scale = a.scale ∧ |r.val - exact| < (10 ^ a.scale.toNat)⁻¹

def Faithful (op : Libfixeypointy → FxyPtyDecimal → FxyPtyDecimal → Option FxyPtyDecimal)
    (a b : FxyPtyDecimal) (exact : ℚ) : Prop :=
  ∀ lib, ExactArithmetic lib → ∀ r, op lib a b = some r → Approximates r a exact

abbrev least : Int := -2 ^ 127

abbrev greatest : Int := 2 ^ 127 - 1

def Representable (x : ℚ) : Prop := ∃ q : ℤ, least ≤ q ∧ q ≤ greatest ∧ Near q x

theorem in_range_iff {q : Int} : least ≤ q ∧ q ≤ greatest ↔ -2 ^ 127 ≤ q ∧ q < 2 ^ 127 :=
  and_congr_right fun _ => Int.le_sub_one_iff

theorem raw_bounds (x : FxyPtyDecimal) : least ≤ x.raw ∧ x.raw ≤ greatest := by
  have h1 := BitVec.le_two_mul_toInt (x := pack128 x)
  have h2 := BitVec.two_mul_toInt_lt (x := pack128 x)
  simp only [FxyPtyDecimal.raw, least, greatest]
  omega

theorem wrap_raw {q : Int} (h : least ≤ q ∧ q ≤ greatest) (scale : Scale) :
    (FxyPtyDecimal.wrap (BitVec.ofInt 128 q) scale).raw = q := by
  rw [FxyPtyDecimal.raw, pack128_wrap]
  exact ofInt_toInt_fit (in_range_iff.mp h)

theorem pow_ten_pos (s : Nat) : (0 : ℚ) < 10 ^ s := by positivity

theorem approximates_iff {r a : FxyPtyDecimal} (hs : r.scale = a.scale) (exact : ℚ) :
    Approximates r a exact ↔ Near r.raw (exact * 10 ^ a.scale.toNat) := by
  have hp := pow_ten_pos a.scale.toNat
  have he : r.val - exact = (r.raw - exact * 10 ^ a.scale.toNat) * (10 ^ a.scale.toNat)⁻¹ := by
    rw [FxyPtyDecimal.val, hs]
    field_simp
  rw [Approximates, Near, he, abs_mul, abs_of_pos (inv_pos.mpr hp), mul_lt_iff_lt_one_left (inv_pos.mpr hp)]
  exact ⟨fun h => h.2,fun h => ⟨hs,h⟩⟩

theorem fit_isSome {z : Int} (h : least ≤ z ∧ z ≤ greatest) :
    fit z = some (BitVec.ofInt 128 z) := if_pos (in_range_iff.mp h)

theorem representable_cast {z : Int} : Representable z ↔ least ≤ z ∧ z ≤ greatest := by
  constructor
  · rintro ⟨q,h1,h2,hq⟩
    rw [near_cast hq] at h1 h2
    exact ⟨h1,h2⟩
  · exact fun h => ⟨z,h.1,h.2,by simp [Near]⟩

theorem operate_exact_iff (op : Libfixeypointy → Raw → Raw → Option Raw) (f : Int → Int → Int)
    (hop : ∀ lib, ExactArithmetic lib → ∀ x y r, op lib x y = some r → r.toInt = f x.toInt y.toInt)
    (ht : ∀ x y, op truncating x y = fit (f x.toInt y.toInt)) (a b : FxyPtyDecimal) (exact : ℚ) :
    Faithful (fun lib => operate fun x y _ => op lib x y) a b exact ↔
      (Representable (f a.raw b.raw : Int) → Near (f a.raw b.raw) (exact * 10 ^ a.scale.toNat)) := by
  constructor
  · intro h hr
    have hb := representable_cast.mp hr
    have hrun : operate (fun x y _ => op truncating x y) a b =
        some (.wrap (BitVec.ofInt 128 (f a.raw b.raw)) a.scale) :=
      operate_eq_some.mpr ⟨by rw [pack128_wrap, ht]; exact fit_isSome hb,rfl⟩
    have ha := (approximates_iff (wrap_scale _ _) exact).mp (h truncating truncating_exact _ hrun)
    rwa [wrap_raw hb] at ha
  · intro h lib hl r hr
    obtain ⟨hq,hs⟩ := operate_eq_some.mp hr
    have hv : r.raw = f a.raw b.raw := hop lib hl _ _ _ hq
    rw [approximates_iff hs, hv]
    exact h (representable_cast.mpr (hv ▸ raw_bounds r))

theorem operate_near_iff {op : Libfixeypointy → Raw → Raw → Scale → Option Raw}
    {a b : FxyPtyDecimal} {x : ℚ}
    (hop : ∀ lib, ExactArithmetic lib → ∀ r,
      op lib (pack128 a) (pack128 b) a.scale = some r → Near r.toInt x)
    (hlib : ∀ q : ℤ, least ≤ q → q ≤ greatest → Near q x → ∃ lib, ExactArithmetic lib ∧
      op lib (pack128 a) (pack128 b) a.scale = some (BitVec.ofInt 128 q)) (exact : ℚ) :
    Faithful (fun lib => operate (op lib)) a b exact ↔
      Within least greatest x (exact * 10 ^ a.scale.toNat) := by
  constructor
  · intro h q h1 h2 hq
    obtain ⟨lib,hl,hrun⟩ := hlib q h1 h2 hq
    have hr : operate (op lib) a b = some (.wrap (BitVec.ofInt 128 q) a.scale) :=
      operate_eq_some.mpr ⟨by rw [pack128_wrap, hrun],rfl⟩
    have ha := (approximates_iff (wrap_scale _ _) exact).mp (h lib hl _ hr)
    rwa [wrap_raw ⟨h1,h2⟩] at ha
  · intro h lib hl r hr
    obtain ⟨hq,hs⟩ := operate_eq_some.mp hr
    rw [approximates_iff hs]
    exact h r.raw (raw_bounds r).1 (raw_bounds r).2 (hop lib hl _ hq)

theorem scale_trichotomy (a b : FxyPtyDecimal) :
    a.scale = b.scale ∨ a.scale.toNat < b.scale.toNat ∨ b.scale.toNat < a.scale.toNat := by
  rcases lt_trichotomy a.scale.toNat b.scale.toNat with h | h | h
  · exact .inr (.inl h)
  · exact .inl (BitVec.eq_of_toNat_eq h)
  · exact .inr (.inr h)

def DriftFree (a b : FxyPtyDecimal) : Prop :=
  a.scale = b.scale ∨ b.raw = 0 ∨ a.scale.toNat < b.scale.toNat ∧ b.raw.natAbs = 1

theorem drift_iff (a b : FxyPtyDecimal) :
    |(b.raw : ℚ) - b.val * 10 ^ a.scale.toNat| < 1 ↔ DriftFree a b := by
  have hp := (pow_ten_pos b.scale.toNat).ne'
  have hq := (pow_ten_pos a.scale.toNat).ne'
  unfold DriftFree FxyPtyDecimal.val
  rcases scale_trichotomy a b with h | h | h
  · rw [h, div_mul_cancel₀ _ hp, sub_self, abs_zero]
    exact ⟨fun _ => .inl rfl,fun _ => one_pos⟩
  · have hc : (10 : ℚ) ≤ _ := ten_le_pow h
    have he : (b.raw : ℚ) / 10 ^ b.scale.toNat * 10 ^ a.scale.toNat =
        b.raw / 10 ^ (b.scale.toNat - a.scale.toNat) := by
      rw [← pow_mul_pow_sub (10 : ℚ) h.le]
      field_simp
    rw [he, drift_down_iff (by linarith), Int.abs_eq_natAbs]
    constructor
    · intro hb
      rcases Nat.eq_zero_or_pos b.raw.natAbs with h0 | h0
      · exact .inr (.inl (Int.natAbs_eq_zero.mp h0))
      · exact .inr (.inr ⟨h,by omega⟩)
    · rintro (hs | h0 | ⟨-,h1⟩)
      · rw [hs] at h
        exact absurd h (lt_irrefl _)
      · simp [h0]
      · omega
  · have hc : (10 : ℚ) ≤ _ := ten_le_pow h
    have he : (b.raw : ℚ) / 10 ^ b.scale.toNat * 10 ^ a.scale.toNat =
        b.raw * 10 ^ (a.scale.toNat - b.scale.toNat) := by
      rw [← pow_mul_pow_sub (10 : ℚ) h.le]
      field_simp
    rw [he, drift_up_iff (by linarith)]
    constructor
    · exact fun h0 => .inr (.inl h0)
    · rintro (hs | h0 | ⟨hlt,-⟩)
      · rw [hs] at h
        exact absurd h (lt_irrefl _)
      · exact h0
      · omega

theorem val_scaled (a : FxyPtyDecimal) : a.val * 10 ^ a.scale.toNat = a.raw :=
  div_mul_cancel₀ _ (pow_ten_pos _).ne'

theorem add_faithful (a b : FxyPtyDecimal) : Faithful fxyptyAdd a b (a.val + b.val) ↔
    (Representable (a.raw + b.raw : Int) → DriftFree a b) := by
  have h := operate_exact_iff Libfixeypointy.add (· + ·)
    (fun lib hl => hl.add) (fun _ _ => rfl) a b (a.val + b.val)
  have hn : Near (a.raw + b.raw) ((a.val + b.val) * 10 ^ a.scale.toNat) ↔ DriftFree a b := by
    rw [← drift_iff, Near, add_mul, val_scaled, Int.cast_add, add_sub_add_left_eq_sub]
  rw [← hn]
  exact h

theorem subtract_faithful (a b : FxyPtyDecimal) : Faithful fxyptySubtract a b (a.val - b.val) ↔
    (Representable (a.raw - b.raw : Int) → DriftFree a b) := by
  have h := operate_exact_iff Libfixeypointy.subtract (· - ·)
    (fun lib hl => hl.subtract) (fun _ _ => rfl) a b (a.val - b.val)
  have hn : Near (a.raw - b.raw) ((a.val - b.val) * 10 ^ a.scale.toNat) ↔ DriftFree a b := by
    rw [← drift_iff, Near, sub_mul, val_scaled, Int.cast_sub, sub_sub_sub_cancel_left, abs_sub_comm]
  rw [← hn]
  exact h

theorem within_rescale (x : ℚ) (j k : Nat) :
    Within least greatest x (x * 10 ^ j / 10 ^ k) ↔ (Representable x →
      j = k ∨ j < k ∧ |x| ≤ 1 ∨ k < j ∧ |x * 10 ^ (j - k)| < 1) := by
  have hvac : (Representable x → Within least greatest x (x * 10 ^ j / 10 ^ k)) ↔
      Within least greatest x (x * 10 ^ j / 10 ^ k) :=
    ⟨fun h q h1 h2 hq => h ⟨q,h1,h2,hq⟩ q h1 h2 hq,fun h _ => h⟩
  rw [← hvac]
  refine imp_congr_right fun hx => ?_
  have hp := (pow_ten_pos j).ne'
  rcases lt_trichotomy j k with h | h | h
  · have he : x * 10 ^ j / 10 ^ k = x / 10 ^ (k - j) := by
      rw [← pow_mul_pow_sub (10 : ℚ) h.le]
      field_simp
    have hc : (10 : ℚ) ≤ _ := ten_le_pow h
    rw [he, within_down_iff (by linarith) (by norm_num) (by norm_num) hx]
    simp [h, h.ne, h.not_gt]
  · have he : x * 10 ^ j / 10 ^ k = x := by
      rw [← h]
      field_simp
    rw [he]
    exact ⟨fun _ => .inl h,fun _ q _ _ hq => hq⟩
  · have he : x * 10 ^ j / 10 ^ k = x * 10 ^ (j - k) := by
      rw [← pow_mul_pow_sub (10 : ℚ) h.le]
      have hk := (pow_ten_pos k).ne'
      field_simp
    have hc : (10 : ℚ) ≤ _ := ten_le_pow h
    rw [he, within_up_iff (by linarith) (by norm_num) (by norm_num) hx]
    simp [h, h.ne', h.not_gt]

def ProductFits (a b : FxyPtyDecimal) : Prop :=
  a.scale = b.scale ∨
    a.scale.toNat < b.scale.toNat ∧ |a.raw * b.raw| ≤ 10 ^ a.scale.toNat ∨
    b.scale.toNat < a.scale.toNat ∧ |a.raw * b.raw| < 10 ^ b.scale.toNat

def QuotientFits (a b : FxyPtyDecimal) : Prop :=
  a.scale = b.scale ∨
    a.scale.toNat < b.scale.toNat ∧ |a.raw| * 10 ^ b.scale.toNat < |b.raw| ∨
    b.scale.toNat < a.scale.toNat ∧ |a.raw| * 10 ^ a.scale.toNat ≤ |b.raw|

theorem scale_eq_iff {a b : FxyPtyDecimal} : a.scale.toNat = b.scale.toNat ↔ a.scale = b.scale :=
  BitVec.toNat_inj

theorem product_fits_iff (a b : FxyPtyDecimal) : ProductFits a b ↔
    a.scale.toNat = b.scale.toNat ∨
      a.scale.toNat < b.scale.toNat ∧ |(a.raw : ℚ) * b.raw / 10 ^ a.scale.toNat| ≤ 1 ∨
      b.scale.toNat < a.scale.toNat ∧
        |(a.raw : ℚ) * b.raw / 10 ^ a.scale.toNat * 10 ^ (a.scale.toNat - b.scale.toNat)| < 1 := by
  rw [ProductFits, scale_eq_iff]
  refine or_congr_right (or_congr (and_congr_right fun _ => ?_) (and_congr_right fun h => ?_))
  · have hp := pow_ten_pos a.scale.toNat
    rw [abs_div, abs_of_pos hp, div_le_one hp]
    norm_cast
  · have hp := pow_ten_pos b.scale.toNat
    have he : (a.raw : ℚ) * b.raw / 10 ^ a.scale.toNat * 10 ^ (a.scale.toNat - b.scale.toNat) =
        a.raw * b.raw / 10 ^ b.scale.toNat := by
      rw [← pow_mul_pow_sub (10 : ℚ) h.le]
      field_simp
    rw [he, abs_div, abs_of_pos hp, div_lt_one hp]
    norm_cast

theorem quotient_fits_iff (a b : FxyPtyDecimal) (hb : b.raw ≠ 0) : QuotientFits a b ↔
    b.scale.toNat = a.scale.toNat ∨
      b.scale.toNat < a.scale.toNat ∧ |(a.raw : ℚ) * 10 ^ a.scale.toNat / b.raw| ≤ 1 ∨
      a.scale.toNat < b.scale.toNat ∧
        |(a.raw : ℚ) * 10 ^ a.scale.toNat / b.raw * 10 ^ (b.scale.toNat - a.scale.toNat)| < 1 := by
  have hq : (0 : ℚ) < |(b.raw : ℚ)| := abs_pos.mpr (by exact_mod_cast hb)
  rw [QuotientFits, scale_eq_iff, eq_comm (a := b.scale), or_comm (a := _ ∧ _)]
  refine or_congr_right (or_congr (and_congr_right fun _ => ?_) (and_congr_right fun h => ?_))
  · rw [abs_div, div_le_one hq, abs_mul, abs_of_pos (pow_ten_pos a.scale.toNat)]
    norm_cast
  · have he : (a.raw : ℚ) * 10 ^ a.scale.toNat / b.raw * 10 ^ (b.scale.toNat - a.scale.toNat) =
        a.raw * 10 ^ b.scale.toNat / b.raw := by
      rw [← pow_mul_pow_sub (10 : ℚ) h.le]
      ring
    rw [he, abs_div, div_lt_one hq, abs_mul, abs_of_pos (pow_ten_pos b.scale.toNat)]
    norm_cast

theorem multiply_faithful (a b : FxyPtyDecimal) : Faithful fxyptyMultiply a b (a.val * b.val) ↔
    (Representable ((a.raw : ℚ) * b.raw / 10 ^ a.scale.toNat) → ProductFits a b) := by
  have hlib : ∀ q : ℤ, least ≤ q → q ≤ greatest →
      Near q ((a.raw : ℚ) * b.raw / 10 ^ a.scale.toNat) → ∃ lib, ExactArithmetic lib ∧
        lib.multiply (pack128 a) (pack128 b) a.scale = some (BitVec.ofInt 128 q) := by
    intro q h1 h2 hq
    refine ⟨{ truncating with
      multiply := fun x y k =>
        if x = pack128 a ∧ y = pack128 b ∧ k = a.scale then some (BitVec.ofInt 128 q) else none },
      { truncating_exact with multiply := ?_ },by simp⟩
    intro x y k r hr
    obtain ⟨⟨rfl,rfl,rfl⟩,hr'⟩ := Option.ite_none_right_eq_some.mp hr
    rw [← Option.some.inj hr', ofInt_toInt_fit (in_range_iff.mp ⟨h1,h2⟩)]
    exact hq
  have hexact : a.val * b.val * 10 ^ a.scale.toNat =
      (a.raw : ℚ) * b.raw / 10 ^ a.scale.toNat * 10 ^ a.scale.toNat / 10 ^ b.scale.toNat := by
    simp only [FxyPtyDecimal.val]
    field_simp
  rw [product_fits_iff, ← within_rescale, ← hexact]
  exact operate_near_iff (fun lib hl r => hl.multiply _ _ _ r) hlib _

theorem divide_faithful (a b : FxyPtyDecimal) (hb : b.raw ≠ 0) :
    Faithful fxyptyDivide a b (a.val / b.val) ↔
      (Representable ((a.raw : ℚ) * 10 ^ a.scale.toNat / b.raw) → QuotientFits a b) := by
  have hlib : ∀ q : ℤ, least ≤ q → q ≤ greatest →
      Near q ((a.raw : ℚ) * 10 ^ a.scale.toNat / b.raw) → ∃ lib, ExactArithmetic lib ∧
        lib.divide (pack128 a) (pack128 b) a.scale = some (BitVec.ofInt 128 q) := by
    intro q h1 h2 hq
    refine ⟨{ truncating with
      divide := fun x y k =>
        if x = pack128 a ∧ y = pack128 b ∧ k = a.scale then some (BitVec.ofInt 128 q) else none },
      { truncating_exact with divide := ?_ },by simp⟩
    intro x y k r hy hr
    obtain ⟨⟨rfl,rfl,rfl⟩,hr'⟩ := Option.ite_none_right_eq_some.mp hr
    rw [← Option.some.inj hr', ofInt_toInt_fit (in_range_iff.mp ⟨h1,h2⟩)]
    exact hq
  have hexact : a.val / b.val * 10 ^ a.scale.toNat =
      (a.raw : ℚ) * 10 ^ a.scale.toNat / b.raw * 10 ^ b.scale.toNat / 10 ^ a.scale.toNat := by
    have hb' : (b.raw : ℚ) ≠ 0 := by exact_mod_cast hb
    simp only [FxyPtyDecimal.val]
    field_simp
  rw [quotient_fits_iff a b hb, ← within_rescale, ← hexact]
  exact operate_near_iff (fun lib hl r => hl.divide _ _ _ r hb) hlib _

theorem arithmetic_faithful_iff (a b : FxyPtyDecimal) :
    (Faithful fxyptyAdd a b (a.val + b.val) ↔
      (Representable (a.raw + b.raw : Int) → DriftFree a b)) ∧
    (Faithful fxyptySubtract a b (a.val - b.val) ↔
      (Representable (a.raw - b.raw : Int) → DriftFree a b)) ∧
    (Faithful fxyptyMultiply a b (a.val * b.val) ↔
      (Representable ((a.raw : ℚ) * b.raw / 10 ^ a.scale.toNat) → ProductFits a b)) ∧
    (b.raw ≠ 0 → (Faithful fxyptyDivide a b (a.val / b.val) ↔
      (Representable ((a.raw : ℚ) * 10 ^ a.scale.toNat / b.raw) → QuotientFits a b))) :=
  ⟨add_faithful a b,subtract_faithful a b,multiply_faithful a b,divide_faithful a b⟩

theorem arithmetic_faithful_same_scale :
    Faithful fxyptyAdd (.wrap 24568 2) (.wrap 1012 2)
      ((FxyPtyDecimal.wrap 24568 2).val + (FxyPtyDecimal.wrap 1012 2).val) ∧
    Faithful fxyptyDivide (.wrap 24568 2) (.wrap 1012 2)
      ((FxyPtyDecimal.wrap 24568 2).val / (FxyPtyDecimal.wrap 1012 2).val) :=
  ⟨(arithmetic_faithful_iff (.wrap 24568 2) (.wrap 1012 2)).1.mpr fun _ => .inl rfl,
    ((arithmetic_faithful_iff (.wrap 24568 2) (.wrap 1012 2)).2.2.2 (by decide)).mpr
      fun _ => .inl rfl⟩

theorem sum_of_mixed_scales :
    fxyptyAdd truncating (.wrap 15 1) (.wrap 125 2) = some (.wrap 140 1) ∧
    (FxyPtyDecimal.wrap 15 1).val + (FxyPtyDecimal.wrap 125 2).val = 11 / 4 ∧
    (FxyPtyDecimal.wrap 140 1).val = 14 ∧
    ¬ Faithful fxyptyAdd (.wrap 15 1) (.wrap 125 2)
      ((FxyPtyDecimal.wrap 15 1).val + (FxyPtyDecimal.wrap 125 2).val) := by
  have h15 : (FxyPtyDecimal.wrap 15 1).raw = 15 := by decide
  have h125 : (FxyPtyDecimal.wrap 125 2).raw = 125 := by decide
  have h140 : (FxyPtyDecimal.wrap 140 1).raw = 140 := by decide
  have h1 : BitVec.toNat (1 : Scale) = 1 := rfl
  have h2 : BitVec.toNat (2 : Scale) = 2 := rfl
  refine ⟨by decide,by norm_num [FxyPtyDecimal.val, h15, h125, h1, h2],
    by norm_num [FxyPtyDecimal.val, h140, h1],fun h => ?_⟩
  rcases (add_faithful _ _).mp h (representable_cast.mpr (by decide)) with hs | h0 | ⟨-,h1⟩
  · exact absurd hs (by decide)
  · exact absurd h0 (by decide)
  · exact absurd h1 (by decide)

end FxyptyImpl
