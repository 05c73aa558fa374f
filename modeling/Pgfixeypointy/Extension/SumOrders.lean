import Pgfixeypointy.Library.PartialSums
import Pgfixeypointy.Impl.Arithmetic
import Pgfixeypointy.Extension.Aggregates

namespace Fxypty

open FxyptyImpl Aggregate PartialSums

-- Add is exact and throws where the sum leaves 128 bits, and only there
def CheckedAdd (lib : Libfixeypointy) : Prop := ∀ x y, lib.add x y = fit (x.toInt + y.toInt)

def amount (row : Option Datum) : Int := row.elim 0 (·.decimal.raw)

variable {lib : Libfixeypointy}

theorem fxyptyAdd_fit (hl : CheckedAdd lib) (padding : Buffer Byte 4) {a b : Datum}
    (h : least ≤ a.decimal.raw + b.decimal.raw ∧ a.decimal.raw + b.decimal.raw ≤ greatest) :
    ∃ r, fxyptyAdd lib padding a b = .ok r ∧ r.decimal.raw = a.decimal.raw + b.decimal.raw := by
  have hr : FxyptyImpl.fxyptyAdd lib a.decimal b.decimal =
      some (.wrap (BitVec.ofInt 128 (a.decimal.raw + b.decimal.raw)) a.decimal.scale) :=
    operate_eq_some.mpr ⟨by rw [hl, pack128_wrap]; exact fit_isSome h,rfl⟩
  refine ⟨_,by rw [fxyptyAdd, operator, hr],?_⟩
  rw [Datum.decimal_ofDecimal]
  exact wrap_raw h _

theorem fxyptyAdd_overflow (hl : CheckedAdd lib) (padding : Buffer Byte 4) {a b : Datum}
    (h : ¬(least ≤ a.decimal.raw + b.decimal.raw ∧ a.decimal.raw + b.decimal.raw ≤ greatest)) :
    fxyptyAdd lib padding a b = .error runtimeErrors := by
  have hr : FxyptyImpl.fxyptyAdd lib a.decimal b.decimal = none :=
    operate_eq_none.mpr (by rw [hl]; exact if_neg fun hz => h (in_range_iff.mpr hz))
  rw [fxyptyAdd, operator, hr]

theorem fold_sum_iff (hl : CheckedAdd lib) (padding : Nat → Buffer Byte 4) (n : Nat) (x : Datum)
    (rows : List (Option Datum)) :
    (∃ r, fold (fun n => fxyptyAdd lib (padding n)) n (some x) rows = .ok r) ↔
      Within least greatest amount x.decimal.raw rows := by
  have hx := raw_bounds x.decimal
  induction rows generalizing n x with
  | nil => exact ⟨fun _ => within_nil.mpr hx,fun _ => ⟨some x,rfl⟩⟩
  | cons row rows ih =>
    rw [within_cons, and_iff_right hx]
    cases row with
    | none =>
      rw [show x.decimal.raw + amount none = x.decimal.raw from add_zero _]
      exact ih n x hx
    | some a =>
      by_cases hsum : least ≤ x.decimal.raw + a.decimal.raw ∧ x.decimal.raw + a.decimal.raw ≤ greatest
      · obtain ⟨y,hy,hraw⟩ := fxyptyAdd_fit hl (padding n) hsum
        rw [fold, hy]
        change (∃ r, fold _ (n + 1) (some y) rows = .ok r) ↔ _
        rw [show x.decimal.raw + amount (some a) = y.decimal.raw from hraw.symm]
        exact ih (n + 1) y (raw_bounds _)
      · rw [fold, fxyptyAdd_overflow hl (padding n) hsum]
        constructor
        · rintro ⟨r,hr⟩
          cases hr
        · intro hw
          have h0 := hw 0
          rw [List.take_zero, List.map_nil, List.sum_nil, add_zero] at h0
          exact absurd h0 hsum

theorem sumAggregate_iff (hl : CheckedAdd lib) (padding : Nat → Buffer Byte 4)
    (rows : List (Option Datum)) :
    (∃ r, sumAggregate lib padding rows = .ok r) ↔ Within least greatest amount 0 rows := by
  have h0 : least ≤ 0 ∧ (0 : Int) ≤ greatest := by decide
  induction rows with
  | nil => exact ⟨fun _ => within_nil.mpr h0,fun _ => ⟨none,rfl⟩⟩
  | cons row rows ih =>
    rw [within_cons, and_iff_right h0, zero_add]
    cases row with
    | none => exact ih
    | some a => exact fold_sum_iff hl padding 0 a rows

theorem sum_every_order_iff (hl : CheckedAdd lib) (rows : List (Option Datum)) :
    (∀ rows', rows.Perm rows' → ∀ padding, ∃ r, sumAggregate lib padding rows' = .ok r) ↔
      least ≤ negatives amount rows ∧ positives amount rows ≤ greatest := by
  rw [← within_perm_iff]
  constructor
  · exact fun h ys hp => (sumAggregate_iff hl (fun _ => blank) ys).mp (h ys hp _)
  · exact fun h ys hp padding => (sumAggregate_iff hl padding ys).mpr (h ys hp)

def nearlyFull : List (Option Datum) :=
  [some (stored (.ofInt 128 greatest) 0), none, some (stored (-1) 0), some (stored 1 2)]

theorem sum_every_order_full :
    (∀ rows', amounts.Perm rows' →
      ∀ padding, ∃ r, sumAggregate truncating padding rows' = .ok r) ∧
    (∃ r, sumAggregate truncating (fun _ => blank) nearlyFull = .ok r) ∧
    ¬∀ rows', nearlyFull.Perm rows' →
      ∀ padding, ∃ r, sumAggregate truncating padding rows' = .ok r := by
  have hl : CheckedAdd truncating := fun _ _ => rfl
  refine ⟨(sum_every_order_iff hl amounts).mpr (by decide),⟨_,rfl⟩,fun h => ?_⟩
  exact absurd ((sum_every_order_iff hl nearlyFull).mp h) (by decide)

end Fxypty
