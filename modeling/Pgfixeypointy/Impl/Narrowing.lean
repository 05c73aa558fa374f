import Pgfixeypointy.Impl.Lookup

namespace FxyptyImpl

theorem not_isDigit_digit {x : Int} (hx : x < 0) (h : x.tmod 10 ≠ 0) : ¬isDigit (digit x) := by
  have h1 := Int.lt_tmod_of_pos x (show (0 : Int) < 10 by decide)
  have h2 : x.tmod 10 ≤ 0 := by
    have := Int.tmod_nonneg (a := -x) 10 (by omega)
    rw [Int.neg_tmod] at this
    omega
  have hd : digit x = BitVec.ofInt 8 (x.tmod 10 + 48) := rfl
  rw [hd]
  generalize x.tmod 10 = r at *
  interval_cases r <;> first | decide | exact absurd rfl h

theorem tdiv_neg_of_tmod {x : Int} {n : Nat} (hx : x < 0) (h : x.tmod n = 0) : x.tdiv n < 0 := by
  have he := Int.tmod_add_mul_tdiv x n
  rw [h, Int.zero_add] at he
  by_contra hn
  have := Int.mul_nonneg (Int.natCast_nonneg n) (not_lt.mp hn)
  omega

theorem singlesText_stray {k : Nat} {x : Int} (hx : x < 0) (hz : x.tdiv (10 ^ k : Nat) = 0) :
    ∃ c ∈ singlesText k x, ¬isDigit c := by
  induction k generalizing x with
  | zero =>
    rw [Nat.pow_zero, Nat.cast_one, Int.tdiv_one] at hz
    omega
  | succ k ih =>
    by_cases h : x.tmod (10 : Nat) = 0
    · obtain ⟨c,hc,hd⟩ := ih (tdiv_neg_of_tmod hx h)
        (by rw [Digits.tdiv_tdiv, ← Nat.pow_succ', hz])
      exact ⟨c,List.mem_append_left _ hc,hd⟩
    · exact ⟨digit x,List.mem_append_right _ List.mem_cons_self,not_isDigit_digit hx h⟩

theorem blocksText_stray {m : Nat} {x : Int} (hx : x < 0) (hz : x.tdiv (10000 ^ m : Nat) = 0) :
    ∃ c ∈ blocksText strayRows m x, ¬isDigit c := by
  induction m generalizing x with
  | zero =>
    rw [Nat.pow_zero, Nat.cast_one, Int.tdiv_one] at hz
    omega
  | succ m ih =>
    by_cases h : x.tmod (10000 : Nat) = 0
    · obtain ⟨c,hc,hd⟩ := ih (tdiv_neg_of_tmod hx h)
        (by rw [Digits.tdiv_tdiv, ← Nat.pow_succ', hz])
      exact ⟨c,List.mem_append_left _ hc,hd⟩
    · have hn : ¬0 ≤ x.tmod 10000 := by
        have := Int.tmod_nonneg (a := -x) 10000 (by omega)
        rw [Int.neg_tmod] at this
        change x.tmod 10000 ≠ 0 at h
        omega
      refine ⟨ch '!',List.mem_append_right _ ?_,by decide⟩
      rw [strayRows, if_neg hn]
      exact List.mem_cons_self

theorem fixedText_stray {k : Nat} {x : Int} (hx : x < 0) (hz : x.tdiv (10 ^ k : Nat) = 0) :
    ∃ c ∈ fixedText strayRows k x, ¬isDigit c := by
  have hpow : (10000 : Nat) ^ (k / 4) = 10 ^ (4 * (k / 4)) := by rw [Nat.pow_mul]
  have hsplit : (x.tdiv (10 ^ (k % 4) : Nat)).tdiv (10000 ^ (k / 4) : Nat) = 0 := by
    rw [hpow, Digits.tdiv_pow_add, Nat.mod_add_div, hz]
  rcases lt_trichotomy (x.tdiv (10 ^ (k % 4) : Nat)) 0 with h | h | h
  · obtain ⟨c,hc,hd⟩ := blocksText_stray h hsplit
    exact ⟨c,List.mem_append_left _ hc,hd⟩
  · obtain ⟨c,hc,hd⟩ := singlesText_stray hx h
    exact ⟨c,List.mem_append_right _ hc,hd⟩
  · have := Int.tdiv_nonneg (a := -x) (by omega) (Int.natCast_nonneg (10 ^ (k % 4)))
    rw [Int.neg_tdiv] at this
    omega

end FxyptyImpl
