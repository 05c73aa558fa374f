import Mathlib.Algebra.Order.Field.Basic
import Mathlib.Algebra.BigOperators.Group.List.Basic
import Mathlib.Algebra.Order.Group.Abs
import Mathlib.Data.List.Forall2
import Mathlib.Tactic.FieldSimp
import Mathlib.Tactic.GCongr
import Mathlib.Tactic.Linarith
import Mathlib.Tactic.Positivity
import Mathlib.Tactic.Ring

structure Ball (K : Type) [Field K] [LinearOrder K] where
  center : K
  radius : K
  radius_nonneg : 0 ≤ radius

namespace Ball

section

variable {K : Type} [Field K] [LinearOrder K]

def Covers (a : Ball K) (x : K) : Prop := |x - a.center| ≤ a.radius

def point (x : K) : Ball K := ⟨x,0,le_rfl⟩

theorem center_pos {b : Ball K} (h : b.radius < |b.center|) : 0 < |b.center| :=
  b.radius_nonneg.trans_lt h

variable [IsStrictOrderedRing K]

def widen (e : K) (a : Ball K) : Ball K :=
  ⟨a.center,a.radius + |e|,add_nonneg a.radius_nonneg (abs_nonneg e)⟩

def add (a b : Ball K) : Ball K :=
  ⟨a.center + b.center,a.radius + b.radius,add_nonneg a.radius_nonneg b.radius_nonneg⟩

def sub (a b : Ball K) : Ball K :=
  ⟨a.center - b.center,a.radius + b.radius,add_nonneg a.radius_nonneg b.radius_nonneg⟩

def sum (as : List (Ball K)) : Ball K := as.foldr add (point 0)

def mul (a b : Ball K) : Ball K where
  center := a.center * b.center
  radius := |a.center| * b.radius + |b.center| * a.radius + a.radius * b.radius
  radius_nonneg := by
    have ha := a.radius_nonneg
    have hb := b.radius_nonneg
    positivity

def quotient (a b : Ball K) (h : b.radius < |b.center|) : Ball K where
  center := a.center / b.center
  radius := (|a.center| * b.radius + |b.center| * a.radius) / (|b.center| * (|b.center| - b.radius))
  radius_nonneg := by
    have ha := a.radius_nonneg
    have hb := b.radius_nonneg
    have hgap := sub_pos.mpr h
    positivity

-- none where the divisor is not known to differ from zero
def div (a b : Ball K) : Option (Ball K) :=
  if h : b.radius < |b.center| then some (a.quotient b h) else none

end

section

variable {K : Type} [Field K] [LinearOrder K] [IsStrictOrderedRing K] {a b : Ball K} {x y z : K}

theorem point_covers (x : K) : (point x).Covers x := by simp [Covers, point]

theorem Covers.widen (h : a.Covers x) {e : K} (hz : |z - x| ≤ e) : (a.widen e).Covers z := by
  have ht := abs_sub_le z x a.center
  have he := le_abs_self e
  rw [Covers] at h
  change |z - a.center| ≤ a.radius + |e|
  linarith

theorem Covers.add (ha : a.Covers x) (hb : b.Covers y) : (a.add b).Covers (x + y) := by
  change |x + y - (a.center + b.center)| ≤ a.radius + b.radius
  rw [add_sub_add_comm]
  exact (abs_add_le _ _).trans (add_le_add ha hb)

theorem Covers.sub (ha : a.Covers x) (hb : b.Covers y) : (a.sub b).Covers (x - y) := by
  change |x - y - (a.center - b.center)| ≤ a.radius + b.radius
  rw [sub_sub_sub_comm]
  exact (abs_sub _ _).trans (add_le_add ha hb)

theorem Covers.sum {as : List (Ball K)} {xs : List K} (h : List.Forall₂ Covers as xs) :
    (sum as).Covers xs.sum := by
  induction h with
  | nil => exact point_covers 0
  | cons h _ ih => exact h.add ih

theorem sum_center (as : List (Ball K)) : (sum as).center = (as.map center).sum := by
  induction as with
  | nil => rfl
  | cons a as ih =>
    rw [List.map_cons, List.sum_cons, ← ih]
    rfl

theorem Covers.mul (ha : a.Covers x) (hb : b.Covers y) : (a.mul b).Covers (x * y) := by
  have hr := a.radius_nonneg
  have he : x * y - a.center * b.center =
      a.center * (y - b.center) + b.center * (x - a.center) +
        (x - a.center) * (y - b.center) := by ring
  rw [Covers] at ha hb
  change |x * y - a.center * b.center| ≤
    |a.center| * b.radius + |b.center| * a.radius + a.radius * b.radius
  rw [he]
  calc |a.center * (y - b.center) + b.center * (x - a.center) + (x - a.center) * (y - b.center)|
      ≤ |a.center * (y - b.center)| + |b.center * (x - a.center)| +
          |(x - a.center) * (y - b.center)| := abs_add_three _ _ _
    _ = |a.center| * |y - b.center| + |b.center| * |x - a.center| +
          |x - a.center| * |y - b.center| := by rw [abs_mul, abs_mul, abs_mul]
    _ ≤ _ := by gcongr

theorem Covers.apart (hb : b.Covers y) (h : b.radius < |b.center|) :
    y ≠ 0 ∧ |b.center| - b.radius ≤ |y| := by
  have ht := abs_sub_abs_le_abs_sub b.center y
  rw [abs_sub_comm] at ht
  have hle : |b.center| - b.radius ≤ |y| := by
    rw [Covers] at hb
    linarith
  exact ⟨abs_pos.mp (by linarith),hle⟩

theorem Covers.quotient (ha : a.Covers x) (hb : b.Covers y) (h : b.radius < |b.center|) :
    (a.quotient b h).Covers (x / y) := by
  obtain ⟨hy,hle⟩ := hb.apart h
  have hpos := center_pos h
  have hne : b.center ≠ 0 := abs_pos.mp hpos
  have he : x / y - a.center / b.center =
      (b.center * (x - a.center) - a.center * (y - b.center)) / (b.center * y) := by
    field_simp
    ring
  have hnum : |b.center * (x - a.center) - a.center * (y - b.center)| ≤
      |a.center| * b.radius + |b.center| * a.radius := by
    calc |b.center * (x - a.center) - a.center * (y - b.center)|
        ≤ |b.center * (x - a.center)| + |a.center * (y - b.center)| := abs_sub _ _
      _ = |a.center| * |y - b.center| + |b.center| * |x - a.center| := by
        rw [abs_mul, abs_mul, add_comm]
      _ ≤ _ := by
        rw [Covers] at ha hb
        gcongr
  have hgap : 0 < |b.center| - b.radius := sub_pos.mpr h
  have hnonneg := (abs_nonneg _).trans hnum
  change |x / y - a.center / b.center| ≤
    (|a.center| * b.radius + |b.center| * a.radius) / (|b.center| * (|b.center| - b.radius))
  rw [he, abs_div, abs_mul b.center y]
  gcongr

theorem div_eq_some {c : Ball K} (h : a.div b = some c) :
    ∃ hr : b.radius < |b.center|, c = a.quotient b hr := by
  unfold div at h
  split at h
  · rename_i hr
    exact ⟨hr,(Option.some.inj h).symm⟩
  · cases h

end

end Ball
