import Mathlib.Algebra.Order.Floor.Ring
import Mathlib.Data.Rat.Floor
import Mathlib.Tactic.Linarith
import Mathlib.Tactic.FieldSimp

namespace Rounding

def Near (q : ℤ) (x : ℚ) : Prop := |(q : ℚ) - x| < 1

theorem near_iff {q : ℤ} {x : ℚ} : Near q x ↔ x - 1 < q ∧ (q : ℚ) < x + 1 := by
  rw [Near, abs_lt]
  constructor
  · rintro ⟨h1,h2⟩
    exact ⟨by linarith,by linarith⟩
  · rintro ⟨h1,h2⟩
    exact ⟨by linarith,by linarith⟩

theorem near_neg {q : ℤ} {x : ℚ} : Near (-q) (-x) ↔ Near q x := by
  rw [Near, Near, ← abs_neg]
  push_cast
  rw [show -(-(q : ℚ) - -x) = q - x by ring]

theorem near_cast {q n : ℤ} (h : Near q n) : q = n := by
  rw [near_iff] at h
  have h1 : n - 1 < q := by exact_mod_cast h.1
  have h2 : q < n + 1 := by exact_mod_cast h.2
  omega

def toward (x : ℚ) : ℤ := if 0 ≤ x then ⌊x⌋ else ⌈x⌉

theorem toward_neg (x : ℚ) : toward (-x) = -toward x := by
  unfold toward
  rcases lt_trichotomy x 0 with h | rfl | h
  · rw [if_pos (by linarith), if_neg (by linarith), Int.floor_neg]
  · simp
  · rw [if_neg (by linarith), if_pos h.le, Int.ceil_neg]

theorem toward_near (x : ℚ) : Near (toward x) x := by
  have h1 := Int.floor_le x
  have h2 := Int.lt_floor_add_one x
  have h3 := Int.le_ceil x
  have h4 := Int.ceil_lt_add_one x
  rw [near_iff, toward]
  split
  · exact ⟨by linarith,by linarith⟩
  · exact ⟨by linarith,by linarith⟩

theorem toward_between {x : ℚ} {q m n : ℤ} (hq : Near q x) (hm : m ≤ q) (hn : q ≤ n) (hm0 : m ≤ 0)
    (hn0 : 0 ≤ n) : m ≤ toward x ∧ toward x ≤ n := by
  rw [near_iff] at hq
  unfold toward
  split
  · rename_i h0
    have hf : 0 ≤ ⌊x⌋ := Int.floor_nonneg.mpr h0
    have hle : ⌊x⌋ ≤ q := by
      have h1 := Int.floor_le x
      have h2 : (⌊x⌋ : ℚ) < q + 1 := by linarith
      have h3 : ⌊x⌋ < q + 1 := by exact_mod_cast h2
      omega
    exact ⟨by omega,by omega⟩
  · rename_i h0
    have hc : ⌈x⌉ ≤ 0 := Int.ceil_le.mpr (by push_cast; linarith)
    have hle : q ≤ ⌈x⌉ := by
      have h1 := Int.le_ceil x
      have h2 : (q : ℚ) < ⌈x⌉ + 1 := by linarith
      have h3 : q < ⌈x⌉ + 1 := by exact_mod_cast h2
      omega
    exact ⟨by omega,by omega⟩

theorem toward_mono {x y : ℚ} (h : x ≤ y) : toward x ≤ toward y := by
  unfold toward
  rcases le_or_gt 0 x with hx | hx
  · rw [if_pos hx, if_pos (hx.trans h)]
    exact Int.floor_mono h
  · rw [if_neg (not_le.mpr hx)]
    rcases le_or_gt 0 y with hy | hy
    · rw [if_pos hy]
      calc ⌈x⌉ ≤ 0 := Int.ceil_le.mpr (by simpa using hx.le)
        _ ≤ ⌊y⌋ := Int.floor_nonneg.mpr hy
    · rw [if_neg (not_le.mpr hy)]
      exact Int.ceil_mono h

theorem toward_natCast (m n : Nat) : toward ((m : ℚ) / n) = (m / n : Nat) := by
  rw [toward, if_pos (by positivity), Rat.floor_natCast_div_natCast]
  rfl

theorem toward_div (m n : ℤ) : toward ((m : ℚ) / n) = m.tdiv n := by
  have h (k l : Nat) : toward (((k : ℤ) : ℚ) / ((l : ℤ) : ℚ)) = (k : ℤ).tdiv l := by
    rw [Int.cast_natCast, Int.cast_natCast, toward_natCast]
    rfl
  obtain ⟨k,rfl | rfl⟩ := m.eq_nat_or_neg <;> obtain ⟨l,rfl | rfl⟩ := n.eq_nat_or_neg
  · exact h k l
  · rw [Int.cast_neg, div_neg, toward_neg, h, Int.tdiv_neg]
  · rw [Int.cast_neg, neg_div, toward_neg, h, Int.neg_tdiv]
  · rw [Int.cast_neg, Int.cast_neg, neg_div_neg_eq, h, Int.neg_tdiv, Int.tdiv_neg, neg_neg]

variable {m n : ℤ} {x y c : ℚ}

def Within (m n : ℤ) (x y : ℚ) : Prop := ∀ q : ℤ, m ≤ q → q ≤ n → Near q x → Near q y

theorem within_neg : Within m n x y ↔ Within (-n) (-m) (-x) (-y) := by
  constructor
  · intro h q h1 h2 hq
    rw [← neg_neg q, near_neg] at hq ⊢
    exact h (-q) (by omega) (by omega) hq
  · intro h q h1 h2 hq
    rw [← near_neg] at hq ⊢
    exact h (-q) (by omega) (by omega) hq

theorem near_of_pos {q : ℤ} (hx : 0 < x) (hx1 : x ≤ 1) (hy : 0 < y) (hy1 : y < 1)
    (hq : Near q x) : Near q y := by
  rw [near_iff] at hq ⊢
  have h1 : (-1 : ℚ) < q := by linarith
  have h2 : (q : ℚ) < 2 := by linarith
  have h1' : (-1 : ℤ) < q := by exact_mod_cast h1
  have h2' : q < 2 := by exact_mod_cast h2
  have h0 : (0 : ℚ) ≤ q := by exact_mod_cast (by omega : 0 ≤ q)
  have h3 : (q : ℚ) ≤ 1 := by exact_mod_cast (by omega : q ≤ 1)
  exact ⟨by linarith,by linarith⟩

theorem within_of_small (hx : |x| ≤ 1) (hy : |y| < 1) (hp : 0 < x ↔ 0 < y) (hn : x < 0 ↔ y < 0) :
    Within m n x y := by
  intro q _ _ hq
  rw [abs_le] at hx
  rw [abs_lt] at hy
  rcases lt_trichotomy x 0 with h | h | h
  · rw [← near_neg] at hq ⊢
    have := hn.mp h
    exact near_of_pos (by linarith) (by linarith) (by linarith) (by linarith) hq
  · have h1 : ¬0 < y := fun hc => (hp.mpr hc).ne h.symm
    have h2 : ¬y < 0 := fun hc => (hn.mpr hc).ne h
    rwa [show y = x by linarith]
  · exact near_of_pos h hx.2 (hp.mp h) hy.2 hq

theorem within_up_of_lt (hc : 1 ≤ c) (h : |x * c| < 1) : Within m n x (x * c) := by
  have hc0 : 0 < c := by linarith
  have hx : |x| ≤ |x * c| := by
    rw [abs_mul, abs_of_pos hc0]
    exact le_mul_of_one_le_right (abs_nonneg x) hc
  exact within_of_small (hx.trans h.le) h (mul_pos_iff_of_pos_right hc0).symm
    ⟨fun h => mul_neg_of_neg_of_pos h hc0,fun h => neg_of_mul_neg_left h hc0.le⟩

theorem lt_of_within_up (hc : 2 ≤ c) (hx : 0 ≤ x) (h : Near (toward x) (x * c)) : |x * c| < 1 := by
  have hxc : 2 * x ≤ x * c := by nlinarith
  rw [toward, if_pos hx, near_iff] at h
  have h1 := Int.floor_le x
  have hx1 : x < 1 := by linarith
  rw [Int.floor_eq_zero_iff.mpr ⟨hx,hx1⟩] at h
  have h2 := h.1
  rw [Int.cast_zero] at h2
  rw [abs_of_nonneg (by linarith)]
  linarith

theorem within_up_iff (hc : 2 ≤ c) (hm : m ≤ 0) (hn : 0 ≤ n)
    (hx : ∃ q : ℤ, m ≤ q ∧ q ≤ n ∧ Near q x) : Within m n x (x * c) ↔ |x * c| < 1 := by
  constructor
  · intro h
    obtain ⟨q,hmq,hqn,hq⟩ := hx
    have hb := toward_between hq hmq hqn hm hn
    have hnear := h _ hb.1 hb.2 (toward_near x)
    rcases le_or_gt 0 x with h0 | h0
    · exact lt_of_within_up hc h0 hnear
    · rw [← near_neg, ← toward_neg, ← neg_mul] at hnear
      have := lt_of_within_up hc (by linarith) hnear
      rwa [neg_mul, abs_neg] at this
  · exact within_up_of_lt (by linarith)

theorem within_down_of_le (hc : 1 < c) (h : |x| ≤ 1) : Within m n x (x / c) := by
  have hc0 : 0 < c := by linarith
  have hy : |x / c| < 1 := by
    rw [abs_div, abs_of_pos hc0, div_lt_one hc0]
    linarith
  exact within_of_small h hy (div_pos_iff_of_pos_right hc0).symm
    ⟨fun h => div_neg_of_neg_of_pos h hc0,fun h => by
      have := mul_neg_of_neg_of_pos h hc0
      rwa [div_mul_cancel₀ x hc0.ne'] at this⟩

theorem le_of_within_down (hc : 3 ≤ c) (hn : 2 ≤ n) (hm : m ≤ 0) {q : ℤ} (hmq : m ≤ q)
    (hqn : q ≤ n) (hq : Near q x) (h : Within m n x (x / c)) : x ≤ 1 := by
  by_contra hx
  have hx1 : 1 < x := not_le.mp hx
  have hc0 : 0 < c := by linarith
  have hdiv : x / c ≤ x / 3 := div_le_div_of_nonneg_left (by linarith) (by norm_num) hc
  rcases lt_or_ge x 2 with h2 | h2
  · have hnear : Near 2 (x / c) := h 2 (by omega) hn (near_iff.mpr ⟨by push_cast; linarith,by push_cast; linarith⟩)
    have := (near_iff.mp hnear).2
    push_cast at this
    linarith
  · have hb := toward_between hq hmq hqn hm (by omega)
    have hnear := (near_iff.mp (h _ hb.1 hb.2 (toward_near x))).2
    rw [toward, if_pos (by linarith)] at hnear
    have hf : (2 : ℤ) ≤ ⌊x⌋ := Int.le_floor.mpr (by push_cast; linarith)
    have hf' : (2 : ℚ) ≤ ⌊x⌋ := by exact_mod_cast hf
    have := Int.lt_floor_add_one x
    linarith

theorem within_down_iff (hc : 3 ≤ c) (hm : m ≤ -2) (hn : 2 ≤ n)
    (hx : ∃ q : ℤ, m ≤ q ∧ q ≤ n ∧ Near q x) : Within m n x (x / c) ↔ |x| ≤ 1 := by
  constructor
  · intro h
    obtain ⟨q,hmq,hqn,hq⟩ := hx
    have hpos := le_of_within_down hc hn (by omega) hmq hqn hq h
    have hneg : -x ≤ 1 := by
      have h' : Within (-n) (-m) (-x) (-x / c) := by
        rw [neg_div]
        exact within_neg.mp h
      exact le_of_within_down hc (by omega) (by omega) (by omega) (by omega) (near_neg.mpr hq) h'
    exact abs_le.mpr ⟨by linarith,hpos⟩
  · exact within_down_of_le (by linarith)

theorem drift_up_iff {b : ℤ} (hc : 2 ≤ c) : |(b : ℚ) - b * c| < 1 ↔ b = 0 := by
  constructor
  · intro h
    by_contra hb
    have h1 : (1 : ℚ) ≤ |(b : ℚ)| := by exact_mod_cast Int.one_le_abs hb
    have he : (b : ℚ) - b * c = -(b * (c - 1)) := by ring
    rw [he, abs_neg, abs_mul, abs_of_nonneg (show 0 ≤ c - 1 by linarith)] at h
    nlinarith
  · rintro rfl
    simp

theorem drift_down_iff {b : ℤ} (hc : 2 ≤ c) : |(b : ℚ) - b / c| < 1 ↔ |b| ≤ 1 := by
  have hc0 : 0 < c := by linarith
  have he : (b : ℚ) - b / c = b * (1 - 1 / c) := by ring
  have h1 : 1 / c ≤ 1 / 2 := one_div_le_one_div_of_le (by norm_num) hc
  have h0 : 0 < 1 / c := by positivity
  have hcast : ((|b| : ℤ) : ℚ) = |(b : ℚ)| := by push_cast; rfl
  rw [he, abs_mul, abs_of_nonneg (show 0 ≤ 1 - 1 / c by linarith), ← hcast]
  constructor
  · intro h
    by_contra hb
    have h2 : (2 : ℚ) ≤ (|b| : ℤ) := by exact_mod_cast (by omega : (2 : ℤ) ≤ |b|)
    nlinarith
  · intro h
    have h2 : ((|b| : ℤ) : ℚ) ≤ 1 := by exact_mod_cast h
    have h3 : (0 : ℚ) ≤ (|b| : ℤ) := by exact_mod_cast abs_nonneg b
    nlinarith

end Rounding
