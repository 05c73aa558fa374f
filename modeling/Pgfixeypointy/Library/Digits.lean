import Mathlib.Data.Nat.Digits.Lemmas
import Mathlib.Tactic.Ring

namespace Digits

variable {b : Nat}

def fixed (b : Nat) : Nat → Nat → List Nat
  | 0, _ => []
  | k + 1, n => fixed b k (n / b) ++ [n % b]

def whole (b n : Nat) : List Nat :=
  if n = 0 then [0] else (Nat.digits b n).reverse

theorem fixed_length (k n : Nat) : (fixed b k n).length = k := by
  induction k generalizing n with
  | zero => rfl
  | succ k ih => simp [fixed, ih]

theorem fixed_add (j k n : Nat) : fixed b (j + k) n = fixed b j (n / b ^ k) ++ fixed b k n := by
  induction k generalizing n with
  | zero => simp [fixed]
  | succ k ih =>
    have hn : n / b / b ^ k = n / b ^ (k + 1) := by
      rw [Nat.div_div_eq_div_mul, Nat.pow_succ, Nat.mul_comm b]
    rw [← Nat.add_assoc, fixed, fixed, ih, hn, List.append_assoc]

theorem fixed_mod (k n : Nat) : fixed b k (n % b ^ k) = fixed b k n := by
  induction k generalizing n with
  | zero => rfl
  | succ k ih =>
    have hd : n % b ^ (k + 1) / b = n / b % b ^ k := by
      rw [Nat.pow_succ, Nat.mul_comm, Nat.mod_mul_right_div_self]
    have hm : n % b ^ (k + 1) % b = n % b := Nat.mod_mod_of_dvd n ⟨b ^ k, by rw [Nat.pow_succ, Nat.mul_comm]⟩
    rw [fixed, fixed, hd, hm, ih]

theorem fixed_add_mul (k n m : Nat) : fixed b k (n + b ^ k * m) = fixed b k n := by
  rw [← fixed_mod, Nat.add_mul_mod_self_left, fixed_mod]

theorem fixed_lt (hb : 0 < b) (k n : Nat) : ∀ d ∈ fixed b k n, d < b := by
  induction k generalizing n with
  | zero => simp [fixed]
  | succ k ih =>
    intro d hd
    rcases List.mem_append.mp hd with hd | hd
    · exact ih _ d hd
    · rw [List.mem_singleton.mp hd]
      exact Nat.mod_lt n hb

theorem fixed_value (k n : Nat) : Nat.ofDigits b (fixed b k n).reverse = n % b ^ k := by
  induction k generalizing n with
  | zero => simp [fixed, Nat.mod_one]
  | succ k ih =>
    rw [fixed, List.reverse_append, List.reverse_singleton, List.singleton_append,
      Nat.ofDigits_cons, ih, Nat.pow_succ, Nat.mul_comm (b ^ k), Nat.mod_mul]

theorem fixed_inj {k n m : Nat} (hn : n < b ^ k) (hm : m < b ^ k)
    (h : fixed b k n = fixed b k m) : n = m := by
  have hv := congrArg (fun l => Nat.ofDigits b l.reverse) h
  simpa only [fixed_value, Nat.mod_eq_of_lt hn, Nat.mod_eq_of_lt hm] using hv

theorem whole_pos {n : Nat} (h : n ≠ 0) : whole b n = (Nat.digits b n).reverse := if_neg h

theorem whole_ne_nil (n : Nat) : whole b n ≠ [] := by
  unfold whole
  split
  · simp
  · simpa [Nat.digits_ne_nil_iff_ne_zero] using ‹¬n = 0›

theorem whole_lt (hb : 1 < b) (n : Nat) : ∀ d ∈ whole b n, d < b := by
  intro d hd
  unfold whole at hd
  split at hd
  · rw [List.mem_singleton.mp hd]
    omega
  · exact Nat.digits_lt_base hb (List.mem_reverse.mp hd)

theorem whole_value (n : Nat) : Nat.ofDigits b (whole b n).reverse = n := by
  unfold whole
  split
  · simp [‹n = 0›]
  · rw [List.reverse_reverse, Nat.ofDigits_digits]

theorem whole_inj {n m : Nat} (h : whole b n = whole b m) : n = m := by
  have hv := congrArg (fun l => Nat.ofDigits b l.reverse) h
  simpa only [whole_value] using hv

theorem digits_append (hb : 1 < b) (k : Nat) {n : Nat} (h : n / b ^ k ≠ 0) :
    (Nat.digits b n).reverse = (Nat.digits b (n / b ^ k)).reverse ++ fixed b k n := by
  induction k generalizing n with
  | zero => simp [fixed]
  | succ k ih =>
    have hn : n / b / b ^ k = n / b ^ (k + 1) := by
      rw [Nat.div_div_eq_div_mul, Nat.pow_succ, Nat.mul_comm b]
    have h0 : n ≠ 0 := by
      rintro rfl
      simp at h
    rw [Nat.digits_def' hb (Nat.pos_of_ne_zero h0), List.reverse_cons, fixed,
      ih (by rwa [hn]), hn, List.append_assoc]

theorem whole_append (hb : 1 < b) (k : Nat) {n : Nat} (h : n / b ^ k ≠ 0) :
    whole b n = whole b (n / b ^ k) ++ fixed b k n := by
  have h0 : n ≠ 0 := by
    rintro rfl
    simp at h
  rw [whole_pos h0, whole_pos h, digits_append hb k h]

theorem digits_length_le {k n : Nat} (hb : 1 < b) (h : n < b ^ k) : (Nat.digits b n).length ≤ k :=
  (Nat.digits_length_le_iff hb n).mpr h

theorem whole_length_gt {k n : Nat} (hb : 1 < b) (h : b ^ k ≤ n) : k < (whole b n).length := by
  have h0 : n ≠ 0 := by
    have := Nat.pow_pos (n := k) (show 0 < b by omega)
    omega
  rw [whole_pos h0, List.length_reverse]
  exact (Nat.lt_digits_length_iff hb n).mpr h

theorem mul_pow_div (hb : 0 < b) {j k : Nat} (h : j ≤ k) (n : Nat) :
    n * b ^ k / b ^ j = n * b ^ (k - j) := by
  rw [← pow_mul_pow_sub b h, Nat.mul_left_comm]
  exact Nat.mul_div_cancel_left _ (Nat.pow_pos hb)

theorem tdiv_tdiv (x : Int) (j k : Nat) : (x.tdiv j).tdiv k = x.tdiv (j * k : Nat) := by
  have hn (n : Nat) : ((n : Int).tdiv j).tdiv k = (n : Int).tdiv (j * k : Nat) := by
    simp only [← Int.ofNat_tdiv, Nat.div_div_eq_div_mul]
  rcases Int.natAbs_eq x with hx | hx
  · rw [hx, hn]
  · rw [hx, Int.neg_tdiv, Int.neg_tdiv, Int.neg_tdiv, hn]

theorem tdiv_pow_add (x : Int) (j k : Nat) :
    (x.tdiv (b ^ j : Nat)).tdiv (b ^ k : Nat) = x.tdiv (b ^ (j + k) : Nat) := by
  rw [tdiv_tdiv, Nat.pow_add]

end Digits
