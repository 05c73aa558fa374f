import Pgfixeypointy.Impl.Numeral

namespace FxyptyImpl

theorem narrow_toInt (x : Raw) : (x.setWidth 64).toInt = x.toInt.bmod (2 ^ 64) := by
  rw [BitVec.toInt_setWidth, BitVec.toInt_eq_toNat_bmod x,
    Int.bmod_bmod_of_dvd (Nat.pow_dvd_pow 2 (by decide))]

theorem narrow_of_lt {x : Raw} (hl : -2 ^ 63 ≤ x.toInt) (hu : x.toInt < 2 ^ 63) :
    (x.setWidth 64).toInt = x.toInt := by
  rw [narrow_toInt, Int.bmod_eq_of_le_mul_two (by omega) (by omega)]

theorem powerOfTen_toInt : (powerOfTen 18).toInt = 10 ^ 18 := by decide

theorem hi_bounds (x : FxyPtyDecimal) : -2 ^ 63 ≤ hi x ∧ hi x < 2 ^ 63 := by
  have h1 := BitVec.le_two_mul_toInt (x := ((absValue x).sdiv (powerOfTen 18)).setWidth 64)
  have h2 := BitVec.two_mul_toInt_lt (x := ((absValue x).sdiv (powerOfTen 18)).setWidth 64)
  unfold hi
  omega

theorem lo_tmod (x : FxyPtyDecimal) : lo x = (absValue x).toInt.tmod (10 ^ 18) := by
  have hr : ((absValue x).srem (powerOfTen 18)).toInt = (absValue x).toInt.tmod (10 ^ 18) := by
    rw [BitVec.toInt_srem, powerOfTen_toInt]
  have h1 := Int.lt_tmod_of_pos (absValue x).toInt (show (0 : Int) < 10 ^ 18 by decide)
  have h2 := Int.tmod_lt_of_pos (absValue x).toInt (show (0 : Int) < 10 ^ 18 by decide)
  rw [← hr] at h1 h2 ⊢
  exact narrow_of_lt (by omega) (by omega)

theorem bounded_halves {x : FxyPtyDecimal} (hs : x.scale.toNat ≤ 38) :
    Bounded (hi x) (lo x) x.scale where
  hi_lt := by
    have := (hi_bounds x).2
    norm_num
    omega
  lo_lt := by
    rw [lo_tmod]
    exact Int.tmod_lt_of_pos (absValue x).toInt (show (0 : Int) < 10 ^ 18 by decide)
  scale_le := hs

theorem fxyptyOut_layout (rows : Int → Buffer Byte 4) (tmp out : Buffer Byte 42)
    {x : FxyPtyDecimal} (hs : x.scale.toNat ≤ 38) :
    ∃ h, fxyptyOut (fun i => .ok (rows i)) tmp out x =
      .ok (out.put 0 (layout rows (isNegative x) (hi x) (lo x) x.scale.toNat ++ [0]) h) :=
  emit_run (serves_total rows) tmp out (isNegative x) (bounded_halves hs) trivial trivial

-- rows is whatever memory a FOUR_DIGITS lookup reads
theorem output_within_buffers (rows : Int → Buffer Byte 4) (tmp out : Buffer Byte 42)
    (x : FxyPtyDecimal) (hs : x.scale.toNat ≤ 38) :
    ∃ text h, fxyptyOut (fun i => .ok (rows i)) tmp out x =
      .ok (out.put 0 (text ++ [0]) h) :=
  ⟨_,fxyptyOut_layout rows tmp out hs⟩

theorem output_within_buffers_tight :
    ∃ text h, fxyptyOut (fun i => .ok (tableRows i)) zeroed zeroed (.wrap (-1) 38) =
      .ok (zeroed.put 0 (text ++ [0]) h) :=
  output_within_buffers tableRows zeroed zeroed (.wrap (-1) 38) (by decide)

theorem emit_numeral (tmp out : Buffer Byte 42) (isNegative : Bool) (hi lo : Nat) {scale : Scale}
    (hhi : hi < 10 ^ 19) (hlo : lo < 10 ^ 18) (hs : scale.toNat ≤ 38) :
    ∃ h, emit fourDigits tmp out isNegative hi lo scale =
      .ok (out.put 0 (numeral isNegative (hi * 10 ^ 18 + lo) scale.toNat ++ [0]) h) := by
  have hb : Bounded hi lo scale := ⟨by exact_mod_cast hhi,by exact_mod_cast hlo,hs⟩
  rw [← layout_numeral isNegative hlo]
  exact emit_run serves_fourDigits tmp out isNegative hb (Int.natCast_nonneg hi)
    (Int.natCast_nonneg lo)

theorem emit_canonical (tmp out : Buffer Byte 42) (isNegative : Bool) (hi lo : Int)
    (scale : Scale) (hhi0 : 0 ≤ hi) (hhi : hi < 2 ^ 63) (hlo0 : 0 ≤ lo) (hlo : lo < 10 ^ 18)
    (hs : scale.toNat ≤ 38) :
    ∃ h, emit fourDigits tmp out isNegative hi lo scale =
      .ok (out.put 0 (numeral isNegative (hi * 10 ^ 18 + lo).toNat scale.toNat ++ [0]) h) := by
  obtain ⟨n,rfl⟩ := Int.eq_ofNat_of_zero_le hhi0
  obtain ⟨m,rfl⟩ := Int.eq_ofNat_of_zero_le hlo0
  have hv : ((n : Int) * 10 ^ 18 + m).toNat = n * 10 ^ 18 + m := by omega
  rw [hv]
  exact emit_numeral tmp out isNegative n m (by omega) (by omega) hs

theorem emit_canonical_power :
    ∃ h, emit fourDigits zeroed zeroed true 10000 5 20 =
      .ok (zeroed.put 0 (numeral true (10000 * 10 ^ 18 + 5) 20 ++ [0]) h) :=
  emit_canonical zeroed zeroed true 10000 5 20 (by decide) (by decide) (by decide) (by decide)
    (by decide)

end FxyptyImpl
