import Pgfixeypointy.Library.Ball
import Pgfixeypointy.Impl.Arithmetic
import Pgfixeypointy.Extension.Evaluation

namespace Fxypty

open FxyptyImpl Expression

def unit (s : Scale) : ℚ := (10 ^ s.toNat)⁻¹

def Operator.onNumbers : Operator → ℚ → ℚ → Except Unit ℚ
  | .add, x, y => .ok (x + y)
  | .subtract, x, y => .ok (x - y)
  | .multiply, x, y => .ok (x * y)
  | .divide, x, y => if y = 0 then .error () else .ok (x / y)

def Operator.onBalls (u : ℚ) : Operator → Ball ℚ → Ball ℚ → Except Unit (Ball ℚ)
  | .add, a, b => .ok (a.add b)
  | .subtract, a, b => .ok (a.sub b)
  | .multiply, a, b => .ok ((a.mul b).widen u)
  | .divide, a, b =>
      match a.div b with
      | none => .error ()
      | some c => .ok (c.widen u)

def exactValue {s : Scale} (e : Tree (OfScale s)) : Except Unit ℚ :=
  e.evaluate (·.val.decimal.val) fun op x y => op.1.onNumbers x y

def accuracy {s : Scale} (e : Tree (OfScale s)) : Except Unit (Ball ℚ) :=
  e.evaluate (Ball.point ·.val.decimal.val) fun op a b => op.1.onBalls (unit s) a b

variable {lib : Libfixeypointy} {s : Scale}

theorem val_eq (x : FxyPtyDecimal) : x.val = x.raw * unit x.scale := by
  rw [FxyPtyDecimal.val, unit, div_eq_mul_inv]

theorem unit_pos (s : Scale) : 0 < unit s := by
  rw [unit]
  positivity

theorem wrapped_ok {op : Operator} {padding : Buffer Byte 4} {d e r : Datum}
    (h : op.wrapped lib padding d e = .ok r) :
    op.raw lib d.decimal.scale (pack128 d.decimal) (pack128 e.decimal) =
      some (pack128 r.decimal) ∧ r.decimal.scale = d.decimal.scale := by
  have hop {f : Raw → Raw → Scale → Option Raw} (hf : operator (operate f) padding d e = .ok r) :
      f (pack128 d.decimal) (pack128 e.decimal) d.decimal.scale = some (pack128 r.decimal) ∧
        r.decimal.scale = d.decimal.scale := by
    obtain ⟨x,hx,rfl⟩ := operator_ok hf
    rw [Datum.decimal_ofDecimal]
    exact operate_eq_some.mp hx
  cases op with
  | add => exact hop h
  | subtract => exact hop h
  | multiply => exact hop h
  | divide => exact hop h

theorem within_unit {r : FxyPtyDecimal} (hr : r.scale = s) {x : ℚ} (h : |(r.raw : ℚ) - x| < 1) :
    |r.val - x * unit s| ≤ unit s := by
  have hu := unit_pos s
  rw [val_eq, hr, ← sub_mul, abs_mul, abs_of_pos hu]
  exact mul_le_of_le_one_left hu.le h.le

theorem onBalls_covers (hl : ExactArithmetic lib) {op : Operator} {padding : Buffer Byte 4}
    {d e r : Datum} {a b c : Ball ℚ} (hd : d.decimal.scale = s) (he : e.decimal.scale = s)
    (ha : a.Covers d.decimal.val) (hb : b.Covers e.decimal.val)
    (hr : op.wrapped lib padding d e = .ok r) (hc : op.onBalls (unit s) a b = .ok c) :
    r.decimal.scale = s ∧ c.Covers r.decimal.val := by
  obtain ⟨hraw,hscale⟩ := wrapped_ok hr
  have hs := hscale.trans hd
  have hu : (10 : ℚ) ^ s.toNat * unit s = 1 := mul_inv_cancel₀ (pow_ten_pos _).ne'
  refine ⟨hs,?_⟩
  cases op with
  | add =>
    obtain rfl := Except.ok.inj hc
    have hsum : r.decimal.val = d.decimal.val + e.decimal.val := by
      have h : r.decimal.raw = d.decimal.raw + e.decimal.raw := hl.add _ _ _ hraw
      rw [val_eq, val_eq, val_eq, hs, hd, he, h, Int.cast_add, add_mul]
    rw [hsum]
    exact ha.add hb
  | subtract =>
    obtain rfl := Except.ok.inj hc
    have hsub : r.decimal.val = d.decimal.val - e.decimal.val := by
      have h : r.decimal.raw = d.decimal.raw - e.decimal.raw := hl.subtract _ _ _ hraw
      rw [val_eq, val_eq, val_eq, hs, hd, he, h, Int.cast_sub, sub_mul]
    rw [hsub]
    exact ha.sub hb
  | multiply =>
    obtain rfl := Except.ok.inj hc
    have h := within_unit hs (hl.multiply _ _ _ _ hraw)
    have hp : (d.decimal.raw : ℚ) * e.decimal.raw / 10 ^ d.decimal.scale.toNat * unit s =
        d.decimal.val * e.decimal.val := by
      rw [val_eq, val_eq, hd, he, unit]
      ring
    exact (ha.mul hb).widen (hp ▸ h)
  | divide =>
    simp only [Operator.onBalls] at hc
    split at hc
    · cases hc
    · rename_i q hq
      obtain rfl := Except.ok.inj hc
      obtain ⟨hapart,rfl⟩ := Ball.div_eq_some hq
      have hcovers := ha.quotient hb hapart
      have hne := (hb.apart hapart).1
      have hzero : e.decimal.raw ≠ 0 := fun hz => hne (by rw [val_eq, hz, Int.cast_zero, zero_mul])
      have h := within_unit hs (hl.divide _ _ _ _ hzero hraw)
      have hp : (d.decimal.raw : ℚ) * 10 ^ d.decimal.scale.toNat / e.decimal.raw * unit s =
          d.decimal.val / e.decimal.val := by
        rw [val_eq, val_eq, hd, he, unit]
        have hz : (e.decimal.raw : ℚ) ≠ 0 := Int.cast_ne_zero.mpr hzero
        field_simp
      exact hcovers.widen (hp ▸ h)

theorem onBalls_center {u : ℚ} {op : Operator} {a b c : Ball ℚ}
    (hc : op.onBalls u a b = .ok c) : op.onNumbers a.center b.center = .ok c.center := by
  cases op with
  | add =>
    obtain rfl := Except.ok.inj hc
    rfl
  | subtract =>
    obtain rfl := Except.ok.inj hc
    rfl
  | multiply =>
    obtain rfl := Except.ok.inj hc
    rfl
  | divide =>
    simp only [Operator.onBalls] at hc
    split at hc
    · cases hc
    · rename_i q hq
      obtain rfl := Except.ok.inj hc
      obtain ⟨hapart,rfl⟩ := Ball.div_eq_some hq
      exact if_neg (abs_pos.mp (Ball.center_pos hapart))

theorem accuracy_center {e : Tree (OfScale s)} {b : Ball ℚ} (hb : accuracy e = .ok b) :
    exactValue e = .ok b.center := by
  obtain ⟨x,hx,rfl⟩ := evaluate_imp (R := fun (b : Ball ℚ) x => b.center = x) (fun _ => rfl)
    (fun op a b c x y ha hb hc => ⟨_,by rw [← ha, ← hb]; exact onBalls_center hc,rfl⟩) hb
  exact hx

theorem evaluated_covers (hl : ExactArithmetic lib) {e : Tree (OfScale s)} {d : Datum} {b : Ball ℚ}
    (hd : evaluateWrapped lib e = .ok d) (hb : accuracy e = .ok b) :
    d.decimal.scale = s ∧ b.Covers d.decimal.val := by
  let R (d : Datum) (b : Ball ℚ) : Prop := d.decimal.scale = s ∧ b.Covers d.decimal.val
  have hleaf : ∀ d : OfScale s, R d.val (.point d.val.decimal.val) :=
    fun d => ⟨d.property,Ball.point_covers _⟩
  have hnode (op : Operator × Buffer Byte 4) (d e r : Datum) (a b c : Ball ℚ) (ha : R d a)
      (hb : R e b) (hr : op.1.wrapped lib op.2 d e = .ok r)
      (hc : op.1.onBalls (unit s) a b = .ok c) : R r c :=
    onBalls_covers hl ha.1 hb.1 ha.2 hb.2 hr hc
  exact evaluate_both hleaf hnode hd hb

theorem evaluated_within (hl : ExactArithmetic lib) {e : Tree (OfScale s)} {d : Datum} {b : Ball ℚ}
    (hd : evaluateWrapped lib e = .ok d) (hb : accuracy e = .ok b) :
    ∃ x, exactValue e = .ok x ∧ d.decimal.scale = s ∧ |d.decimal.val - x| ≤ b.radius :=
  ⟨b.center,accuracy_center hb,evaluated_covers hl hd hb⟩

def productOverFactor : Tree (OfScale 2) :=
  .node (.add, blank)
    (.node (.divide, blank) (.node (.multiply, blank) (.leaf (cents 1012)) (.leaf (cents 24568)))
      (.leaf (cents 1012)))
    (.leaf (cents 1))

theorem evaluated_within_product : ∃ d b x, evaluateWrapped truncating productOverFactor = .ok d ∧
    accuracy productOverFactor = .ok b ∧ exactValue productOverFactor = .ok x ∧
    d.decimal.raw = 24568 ∧ b.radius = 139 / 12650 ∧ |d.decimal.val - x| ≤ b.radius := by
  have hradius : (accuracy productOverFactor).toOption.map Ball.radius = some (139 / 12650) := by
    decide +kernel
  cases hb : accuracy productOverFactor with
  | error u =>
    rw [hb] at hradius
    cases hradius
  | ok b =>
    rw [hb] at hradius
    have hd : evaluateWrapped truncating productOverFactor = .ok (stored 24568 2) := rfl
    obtain ⟨x,hx,-,hwithin⟩ := evaluated_within truncating_exact hd hb
    exact ⟨_,b,x,hd,rfl,hx,by decide,Option.some.inj hradius,hwithin⟩

end Fxypty
