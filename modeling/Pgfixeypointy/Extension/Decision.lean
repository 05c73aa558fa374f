import Pgfixeypointy.Extension.Accuracy
import Pgfixeypointy.Extension.Planner

namespace Fxypty

open FxyptyImpl Expression

def Relation.onNumbers : Relation → ℚ → ℚ → Bool
  | .eq, x, y => x = y
  | .neq, x, y => x ≠ y
  | .lt, x, y => x < y
  | .gt, x, y => x > y
  | .lte, x, y => x ≤ y
  | .gte, x, y => x ≥ y

variable {s : Scale}

def Condition.exactly : Condition (OfScale s) → Except Unit Bool
  | .compare r a b => do
      let x ← exactValue a
      let y ← exactValue b
      .ok (r.onNumbers x y)
  | .not p => do
      let b ← exactly p
      .ok !b
  | .and p q => do
      let b ← exactly p
      let c ← exactly q
      .ok (b && c)
  | .or p q => do
      let b ← exactly p
      let c ← exactly q
      .ok (b || c)

def Apart (a b : Ball ℚ) : Prop :=
  a.radius + b.radius < |a.center - b.center| ∨ a.radius + b.radius = 0

instance (a b : Ball ℚ) : Decidable (Apart a b) := inferInstanceAs (Decidable (_ ∨ _))

def Condition.apart : Condition (OfScale s) → Bool
  | .compare _ a b =>
      match accuracy a, accuracy b with
      | .ok x, .ok y => Apart x y
      | _, _ => false
  | .not p => apart p
  | .and p q => apart p && apart q
  | .or p q => apart p && apart q

variable {lib : Libfixeypointy}

theorem ofSign_onNumbers {n : Int} {x y : ℚ} (hlt : n < 0 ↔ x < y) (hgt : 0 < n ↔ y < x)
    (r : Relation) : r.ofSign n = r.onNumbers x y := by
  cases r with
  | eq =>
    refine decide_eq_decide.mpr ⟨fun h => ?_,fun h => ?_⟩
    · exact le_antisymm (not_lt.mp (hgt.not.mp (by omega))) (not_lt.mp (hlt.not.mp (by omega)))
    · have h1 := hlt.not.mpr h.not_lt
      have h2 := hgt.not.mpr h.not_gt
      omega
  | neq =>
    refine decide_eq_decide.mpr ⟨fun h => ?_,fun h => ?_⟩
    · rcases lt_or_gt_of_ne h with h | h
      · exact (hlt.mp h).ne
      · exact (hgt.mp h).ne'
    · rcases lt_or_gt_of_ne h with h | h
      · exact (hlt.mpr h).ne
      · exact (hgt.mpr h).ne'
  | lt => exact decide_eq_decide.mpr hlt
  | gt => exact decide_eq_decide.mpr hgt
  | lte => exact decide_eq_decide.mpr (by rw [← not_lt, ← not_lt, hgt])
  | gte => exact decide_eq_decide.mpr (by rw [ge_iff_le, ge_iff_le, ← not_lt, ← not_lt, hlt])

theorem onNumbers_congr {x y x' y' : ℚ} (hlt : x < y ↔ x' < y') (hgt : y < x ↔ y' < x')
    (r : Relation) : r.onNumbers x y = r.onNumbers x' y' := by
  have heq : x = y ↔ x' = y' := by
    rw [le_antisymm_iff, le_antisymm_iff, ← not_lt, ← not_lt, ← not_lt, ← not_lt, hlt, hgt]
  cases r with
  | eq => exact decide_eq_decide.mpr heq
  | neq => exact decide_eq_decide.mpr heq.not
  | lt => exact decide_eq_decide.mpr hlt
  | gt => exact decide_eq_decide.mpr hgt
  | lte => exact decide_eq_decide.mpr (by rw [← not_lt, ← not_lt, hgt])
  | gte => exact decide_eq_decide.mpr (by rw [ge_iff_le, ge_iff_le, ← not_lt, ← not_lt, hlt])

theorem val_lt_raw {x y : FxyPtyDecimal} (h : x.scale = y.scale) : x.val < y.val ↔ x.raw < y.raw := by
  rw [val_eq, val_eq, h, mul_lt_mul_iff_left₀ (unit_pos _), Int.cast_lt]

theorem holds_onNumbers (hc : SignCompare lib) {d e : Datum} (hs : d.decimal.scale = e.decimal.scale)
    (r : Relation) : r.holds lib d e = r.onNumbers d.decimal.val e.decimal.val := by
  rw [holds_ofSign]
  refine ofSign_onNumbers ?_ ?_ r
  · rw [compare_neg_iff hc, val_lt_raw hs]
  · rw [compare_pos_iff hc, val_lt_raw hs.symm]

theorem apart_order {a b : Ball ℚ} {x y : ℚ} (h : Apart a b) (ha : a.Covers x) (hb : b.Covers y) :
    (x < y ↔ a.center < b.center) ∧ (y < x ↔ b.center < a.center) := by
  obtain ⟨ha1,ha2⟩ := abs_le.mp ha
  obtain ⟨hb1,hb2⟩ := abs_le.mp hb
  have hra := a.radius_nonneg
  have hrb := b.radius_nonneg
  rcases h with h | h
  · rcases lt_abs.mp h with h | h
    · constructor <;> constructor <;> intro hlt <;> linarith
    · constructor <;> constructor <;> intro hlt <;> linarith
  · constructor <;> constructor <;> intro hlt <;> linarith

theorem compared_exactly (hl : ExactArithmetic lib) (hc : SignCompare lib) (r : Relation)
    {a b : Tree (OfScale s)} (h : (Condition.compare r a b).apart = true) {t : Bool}
    (ht : (Condition.compare r a b).decide lib = .ok t) :
    (Condition.compare r a b).exactly = .ok t := by
  rw [Condition.apart] at h
  split at h
  · rename_i x y hx hy
    obtain ⟨d,e,hd,he,rfl⟩ := both_ok ht
    obtain ⟨hds,hdx⟩ := evaluated_covers hl hd hx
    obtain ⟨hes,hey⟩ := evaluated_covers hl he hy
    obtain ⟨hlt,hgt⟩ := apart_order (of_decide_eq_true h) hdx hey
    rw [Condition.exactly, accuracy_center hx, accuracy_center hy,
      holds_onNumbers hc (hds.trans hes.symm), onNumbers_congr hlt hgt]
    rfl
  · cases h

theorem decided_exactly (hl : ExactArithmetic lib) (hc : SignCompare lib) {p : Condition (OfScale s)}
    (h : p.apart = true) {t : Bool} (ht : p.decide lib = .ok t) : p.exactly = .ok t := by
  induction p generalizing t with
  | compare r a b => exact compared_exactly hl hc r h ht
  | not p ih =>
    obtain ⟨b,hb,rfl⟩ := map_ok ht
    rw [Condition.exactly, ih h hb]
    rfl
  | and p q ihp ihq =>
    obtain ⟨hp,hq⟩ := Bool.and_eq_true_iff.mp h
    obtain ⟨b,c,hb,hc,rfl⟩ := both_ok ht
    rw [Condition.exactly, ihp hp hb, ihq hq hc]
    rfl
  | or p q ihp ihq =>
    obtain ⟨hp,hq⟩ := Bool.and_eq_true_iff.mp h
    obtain ⟨b,c,hb,hc,rfl⟩ := both_ok ht
    rw [Condition.exactly, ihp hp hb, ihq hq hc]
    rfl

def large : Condition (OfScale 2) :=
  .and (.compare .gt productOverFactor (.leaf (cents 24567)))
    (.not (.compare .eq (.leaf (cents 1)) (.leaf (cents 2))))

theorem decided_exactly_large : large.decide truncating = .ok true ∧ large.exactly = .ok true ∧
    (Condition.compare .eq productOverFactor (.leaf (cents 24568))).apart = false := by
  have ht : large.decide truncating = .ok true := rfl
  exact ⟨ht,decided_exactly truncating_exact truncating_compare (by decide +kernel) ht,
    by decide +kernel⟩

end Fxypty
