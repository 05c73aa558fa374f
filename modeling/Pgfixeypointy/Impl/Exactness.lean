import Pgfixeypointy.Impl.Narrowing

namespace FxyptyImpl

theorem layout_stray_ne {b : Bool} {hi lo : Int} {n s : Nat} (hhi : hi < 0) (hn : 10 ^ 18 ≤ n) :
    layout strayRows b hi lo s ≠ numeral b n s := by
  have hlead (x : Int) (hx : x < 0) : leadText strayRows x.toNat = [] := by
    rw [show x.toNat = 0 by omega, leadText_zero]
  have hone : 1 ≤ (Digits.whole 10 (n / 10 ^ s)).length :=
    List.length_pos_iff.mpr (Digits.whole_ne_nil _)
  intro h
  have hlen := congrArg List.length h
  rw [numeral_length] at hlen
  by_cases hs : 18 < s
  · rw [layout_eq_hi hhi.ne hs] at h hlen
    by_cases hx : hi.tdiv (10 ^ (s - 18) : Nat) = 0
    · rw [body, if_pos hx, numeral] at h
      have hsuf := (List.append_inj' (List.append_cancel_left h) (by
        simp only [List.length_cons, List.length_append, fixedText_length, List.length_map,
          Digits.fixed_length]
        omega)).2
      obtain ⟨c,hc,hd⟩ := fixedText_stray hhi hx
      have hm : c ∈ (Digits.fixed 10 s (n % 10 ^ s)).map digitByte := by
        rw [← (List.cons.inj hsuf).2]
        exact List.mem_append_left _ hc
      exact hd (isDigit_map (fixed_lt_ten _ _) c hm)
    · have hneg : hi.tdiv (10 ^ (s - 18) : Nat) < 0 := by
        have := Int.tdiv_nonneg (a := -hi) (by omega) (Int.natCast_nonneg (10 ^ (s - 18)))
        rw [Int.neg_tdiv] at this
        omega
      rw [body, if_neg hx, hlead _ hneg] at hlen
      simp only [List.length_append, List.length_cons, List.length_nil, fixedText_length] at hlen
      omega
  · have hq : 10 ^ (18 - s) ≤ n / 10 ^ s := by
      rw [Nat.le_div_iff_mul_le (Nat.pow_pos (by decide)), ← Nat.pow_add,
        Nat.sub_add_cancel (by omega)]
      exact hn
    have hw := Digits.whole_length_gt (b := 10) (by decide) hq
    rw [layout_eq_lo hhi.ne hs, hlead _ hhi] at hlen
    simp only [List.length_append, List.length_cons, List.length_nil, fixedText_length] at hlen
    omega

theorem isNegative_raw (x : FxyPtyDecimal) : isNegative x = decide (x.raw < 0) := rfl

theorem absValue_toInt {x : FxyPtyDecimal} (hx : x.raw.natAbs < 2 ^ 127) :
    (absValue x).toInt = x.raw.natAbs := by
  have hne : pack128 x ≠ BitVec.intMin 128 := by
    intro h
    have hr : x.raw = (BitVec.intMin 128).toInt := congrArg BitVec.toInt h
    rw [hr] at hx
    revert hx
    decide
  unfold absValue
  rw [isNegative_raw]
  split
  · rename_i hn
    rw [BitVec.toInt_neg_of_ne_intMin hne]
    have := of_decide_eq_true hn
    change -x.raw = _
    omega
  · rename_i hn
    have := of_decide_eq_false (Bool.eq_false_iff.mpr hn)
    change x.raw = _
    omega

theorem lo_small {x : FxyPtyDecimal} (hx : x.raw.natAbs < 2 ^ 127) :
    lo x = (x.raw.natAbs % 10 ^ 18 : Nat) := by
  rw [lo_tmod, absValue_toInt hx, Int.ofNat_tmod]
  rfl

theorem hi_small {x : FxyPtyDecimal} (hx : x.raw.natAbs < 2 ^ 127) :
    hi x = ((x.raw.natAbs / 10 ^ 18 : Nat) : Int).bmod (2 ^ 64) := by
  have hd : ((absValue x).sdiv (powerOfTen 18)).toInt = (x.raw.natAbs / 10 ^ 18 : Nat) := by
    rw [BitVec.toInt_sdiv, powerOfTen_toInt, absValue_toInt hx, Int.ofNat_tdiv]
    change (((x.raw.natAbs : Int).tdiv (10 ^ 18 : Nat)).bmod (2 ^ 128)) = _
    rw [← Int.ofNat_tdiv, Int.bmod_eq_of_le_mul_two (by omega) (by omega)]
  rw [hi, narrow_toInt, hd]

theorem hi_exact {x : FxyPtyDecimal} (hx : x.raw.natAbs < 2 ^ 63 * 10 ^ 18) :
    hi x = (x.raw.natAbs / 10 ^ 18 : Nat) := by
  rw [hi_small (by omega), Int.bmod_eq_of_le_mul_two (by omega) (by omega)]

def PrintsExactly (x : FxyPtyDecimal) : Prop :=
  ∀ tmp out, ∃ h, fxyptyOut fourDigits tmp out x =
    .ok (out.put 0 (numeral (decide (x.raw < 0)) x.raw.natAbs x.scale.toNat ++ [0]) h)

theorem fxyptyOut_exact {x : FxyPtyDecimal} (hx : x.raw.natAbs < 2 ^ 63 * 10 ^ 18)
    (hs : x.scale.toNat ≤ 38) : PrintsExactly x := by
  intro tmp out
  have hd : x.raw.natAbs / 10 ^ 18 * 10 ^ 18 + x.raw.natAbs % 10 ^ 18 = x.raw.natAbs :=
    Nat.div_add_mod' _ _
  have hrun := emit_numeral tmp out (isNegative x) (x.raw.natAbs / 10 ^ 18)
    (x.raw.natAbs % 10 ^ 18) (by omega) (Nat.mod_lt _ (by decide)) hs
  rw [hd, ← hi_exact hx, ← lo_small (by omega)] at hrun
  exact hrun

theorem fxyptyOut_fault {tmp out : Buffer Byte 42} {x : FxyPtyDecimal} {fault : Fault}
    (hs : x.scale.toNat ≤ 38) (h : fxyptyOut fourDigits tmp out x = .error fault) :
    fault = .lookup ∧ 2 ^ 63 * 10 ^ 18 ≤ x.raw.natAbs := by
  constructor
  · obtain ⟨hlen,hlay⟩ := fxyptyOut_layout strayRows tmp out hs
    rcases emit_related falls_closed fourDigits_falls tmp out (isNegative x) (hi x) (lo x) x.scale
      with he | he
    · exact absurd (h.symm.trans (he.trans hlay)) (by simp)
    · exact Except.error.inj (h.symm.trans he)
  · by_contra hsmall
    obtain ⟨hlen,hout⟩ := fxyptyOut_exact (not_le.mp hsmall) hs tmp out
    rw [h] at hout
    cases hout

theorem ones_ne_zero : (0 : Byte) ∉ (⟨List.replicate 42 1,rfl⟩ : Buffer Byte 42).cells := by decide

theorem fxyptyOut_inexact {x : FxyPtyDecimal} (hx : x.raw.natAbs < 2 ^ 127)
    (hb : 2 ^ 63 * 10 ^ 18 ≤ x.raw.natAbs) (hs : x.scale.toNat ≤ 38) : ¬PrintsExactly x := by
  intro hp
  obtain ⟨h,hrun⟩ := hp zeroed ⟨List.replicate 42 1,rfl⟩
  have hz : (0 : Byte) ∉ numeral (decide (x.raw < 0)) x.raw.natAbs x.scale.toNat :=
    fun hm => numeral_ne_zero _ _ _ 0 hm rfl
  rcases lt_or_ge (hi x) 0 with hn | hn
  · have hbelow := emit_strayRows hrun
    obtain ⟨h',hlay⟩ := fxyptyOut_layout strayRows zeroed ⟨List.replicate 42 1,rfl⟩ hs
    have he := Except.ok.inj (hlay.symm.trans hbelow)
    exact layout_stray_ne hn (by omega) (Buffer.put_terminated_inj hz ones_ne_zero he)
  · obtain ⟨q,hq⟩ := Int.eq_ofNat_of_zero_le hn
    have hq63 := (hi_bounds x).2
    obtain ⟨h',hnum⟩ := emit_numeral zeroed ⟨List.replicate 42 1,rfl⟩ (isNegative x) q
      (x.raw.natAbs % 10 ^ 18) (by omega) (Nat.mod_lt _ (by decide)) hs
    rw [← hq, ← lo_small hx] at hnum
    have he := Except.ok.inj (hnum.symm.trans hrun)
    have hv := (numeral_inj (Buffer.put_terminated_inj hz ones_ne_zero he)).2
    omega

theorem cString_numeral (out : Buffer Byte 42) (b : Bool) (n s : Nat) (h) :
    cString (out.put 0 (numeral b n s ++ [0]) h) = numeral b n s :=
  cString_terminated (fun hm => numeral_ne_zero b n s 0 hm rfl) out h

theorem text_determines_raw {x y : FxyPtyDecimal} {tmp tmp' out out' b b' : Buffer Byte 42}
    (hx : x.raw.natAbs < 2 ^ 63 * 10 ^ 18) (hy : y.raw.natAbs < 2 ^ 63 * 10 ^ 18)
    (hs : x.scale.toNat ≤ 38) (hxy : x.scale = y.scale)
    (hbx : fxyptyOut fourDigits tmp out x = .ok b)
    (hby : fxyptyOut fourDigits tmp' out' y = .ok b') (h : cString b = cString b') :
    x.raw = y.raw := by
  obtain ⟨h1,hr1⟩ := fxyptyOut_exact hx hs tmp out
  obtain ⟨h2,hr2⟩ := fxyptyOut_exact hy (hxy ▸ hs) tmp' out'
  obtain rfl := Except.ok.inj (hbx.symm.trans hr1)
  obtain rfl := Except.ok.inj (hby.symm.trans hr2)
  rw [cString_numeral, cString_numeral, hxy] at h
  obtain ⟨hsign,habs⟩ := numeral_inj h
  have := decide_eq_decide.mp hsign
  omega

theorem prints_exactly_iff (x : FxyPtyDecimal) (hx : x.raw.natAbs < 10 ^ 38)
    (hs : x.scale.toNat ≤ 38) :
    (PrintsExactly x ↔ x.raw.natAbs < 2 ^ 63 * 10 ^ 18) ∧
    ∀ (y : FxyPtyDecimal) (tmp tmp' out out' b b' : Buffer Byte 42),
      x.raw.natAbs < 2 ^ 63 * 10 ^ 18 → y.raw.natAbs < 2 ^ 63 * 10 ^ 18 → x.scale = y.scale →
      fxyptyOut fourDigits tmp out x = .ok b → fxyptyOut fourDigits tmp' out' y = .ok b' →
      cString b = cString b' → x.raw = y.raw := by
  refine ⟨⟨fun hp => ?_,fun hb => fxyptyOut_exact hb hs⟩,?_⟩
  · by_contra hb
    exact fxyptyOut_inexact (by omega) (not_lt.mp hb) hs hp
  · exact fun y tmp tmp' out out' b b' hb hy hxy => text_determines_raw hb hy hs hxy

theorem prints_exactly_cases :
    PrintsExactly (.wrap (-1012) 2) ∧ ¬PrintsExactly (.wrap (.ofNat 128 (10 ^ 37)) 38) ∧
      ∀ tmp tmp' out out' b b', fxyptyOut fourDigits tmp out (.wrap 1012 2) = .ok b →
        fxyptyOut fourDigits tmp' out' (.wrap (-1012) 2) = .ok b' → cString b ≠ cString b' := by
  refine ⟨(prints_exactly_iff _ (by decide) (by decide)).1.mpr (by decide),
    fun hp => absurd ((prints_exactly_iff _ (by decide) (by decide)).1.mp hp) (by decide),?_⟩
  intro tmp tmp' out out' b b' hb hb' htext
  have hraw := (prints_exactly_iff (.wrap 1012 2) (by decide) (by decide)).2 (.wrap (-1012) 2)
    tmp tmp' out out' b b' (by decide) (by decide) rfl hb hb' htext
  exact absurd hraw (by decide)

theorem quotient_narrowed :
    (FxyPtyDecimal.wrap (.ofNat 128 (10 ^ 37)) 0).raw.natAbs < 10 ^ 38 ∧
      (fxyptyOut fourDigits zeroed zeroed (.wrap (.ofNat 128 (10 ^ 37)) 0)).toOption.map cString =
        some (List.replicate 18 (ch '0') ++ [ch '.']) ∧
      ¬PrintsExactly (.wrap (.ofNat 128 (10 ^ 37)) 0) :=
  ⟨by decide,by decide,fxyptyOut_inexact (by decide) (by decide) (by decide)⟩

end FxyptyImpl
