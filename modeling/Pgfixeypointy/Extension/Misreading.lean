import Pgfixeypointy.Extension.Cast

namespace Fxypty

open FxyptyImpl LittleEndian

structure SpelledBy (v : Int) (space : List Byte) (l : Literal) : Prop where
  blank : ∀ c ∈ space, isSpace c = true
  low : v % (256 ^ (space ++ l.text).length : Nat) = decode (space ++ l.text)

variable {v : Int} {space : List Byte} {l : Literal} {g : Nat}

theorem numeralChar_bounds : ∀ c : Byte, Literal.isNumeralChar c → 43 ≤ c.toNat ∧ c.toNat ≤ 57 := by
  decide

theorem SpelledBy.large (h : SpelledBy v space l) :
    43 * 256 ^ ((space ++ l.text).length - 1) ≤ v.natAbs := by
  have hne := text_ne_nil l
  have hc := numeralChar_bounds _ (Literal.isNumeralChar_text l _ (List.getLast_mem hne))
  have hsplit : space ++ l.text = (space ++ l.text.dropLast) ++ [l.text.getLast hne] := by
    rw [List.append_assoc, List.dropLast_concat_getLast]
  have hb := decode_concat_bounds (space ++ l.text.dropLast) (l.text.getLast hne)
  have hl : (space ++ l.text).length = (space ++ l.text.dropLast).length + 1 := by
    rw [hsplit, List.length_append]
    rfl
  have hlow := h.low
  rw [hl] at hlow ⊢
  rw [Nat.add_sub_cancel]
  rw [hsplit] at hlow
  generalize (space ++ l.text.dropLast).length = n at hlow hb
  have h1 : 43 * 256 ^ n ≤ (l.text.getLast hne).toNat * 256 ^ n := Nat.mul_le_mul_right _ hc.1
  have h2 : ((l.text.getLast hne).toNat + 1) * 256 ^ n ≤ 58 * 256 ^ n :=
    Nat.mul_le_mul_right _ (by omega)
  exact le_natAbs_of_emod hlow (h1.trans hb.1) (by rw [Nat.pow_succ]; omega)

theorem magnitude_lt_text (l : Literal) : l.magnitude < 10 ^ l.text.length :=
  l.magnitude_lt.trans_le (Nat.pow_le_pow_right (by decide) (text_length l).1)

theorem pow_le_large (k n : Nat) (h : k ≤ n + 1) : 10 ^ k ≤ 43 * 256 ^ n := by
  calc 10 ^ k ≤ 10 ^ (n + 1) := Nat.pow_le_pow_right (by decide) h
    _ = 10 * 10 ^ n := by rw [Nat.pow_succ, Nat.mul_comm]
    _ ≤ 43 * 256 ^ n := Nat.mul_le_mul (by decide) (Nat.pow_le_pow_left (by decide) n)

theorem SpelledBy.exceeds (h : SpelledBy v space l) : l.magnitude < v.natAbs := by
  have hp := pow_le_large l.text.length ((space ++ l.text).length - 1) (by
    rw [List.length_append]
    omega)
  exact (magnitude_lt_text l).trans_le (hp.trans h.large)

theorem SpelledBy.size_lt (h : SpelledBy v space l)
    (hv : v = l.sign.apply l.magnitude * 10 ^ g) :
    43 * 256 ^ (space.length + l.text.length - 1) < 10 ^ (l.text.length + g) := by
  have hn : v.natAbs = l.magnitude * 10 ^ g := by
    rw [hv, Int.natAbs_mul, Sign.apply_natAbs, Int.natAbs_pow]
    rfl
  have hl := h.large
  rw [List.length_append, hn] at hl
  calc _ ≤ l.magnitude * 10 ^ g := hl
    _ < 10 ^ l.text.length * 10 ^ g :=
      Nat.mul_lt_mul_of_pos_right (magnitude_lt_text l) (Nat.pow_pos (by decide))
    _ = 10 ^ (l.text.length + g) := (Nat.pow_add _ _ _).symm

theorem SpelledBy.first_byte (h : SpelledBy v space l) {c : Byte} {rest : List Byte}
    (hc : space ++ l.text = c :: rest) : v % 256 = c.toNat := by
  have hlow := h.low
  have hlt := c.isLt
  rw [hc, List.length_cons, Nat.pow_succ, decode_cons] at hlow
  have hm : v % 256 = v % (256 ^ rest.length * 256 : Nat) % 256 :=
    (Int.emod_emod_of_dvd v ⟨256 ^ rest.length,by push_cast; ring⟩).symm
  rw [hm, hlow]
  omega

theorem dvd_first_byte {c : Byte} (h : v % 256 = c.toNat) (hv : ∃ z : Int, v = z * 10 ^ g) {j : Nat}
    (hj : j ≤ g) (hj8 : j ≤ 8) : 2 ^ j ∣ c.toNat := by
  obtain ⟨z,rfl⟩ := hv
  have h1 : (2 ^ j : Int) ∣ z * 10 ^ g := by
    have h2 : (2 ^ j : Int) ∣ 10 ^ g :=
      (pow_dvd_pow 2 hj).trans (pow_dvd_pow_of_dvd (by norm_num) g)
    exact h2.mul_left z
  have h3 : (2 ^ j : Int) ∣ 256 := (pow_dvd_pow (2 : Int) hj8).trans (by norm_num)
  have h4 : (2 ^ j : Int) ∣ z * 10 ^ g % 256 := by
    rw [Int.emod_def]
    exact dvd_sub h1 (h3.mul_right _)
  rw [h] at h4
  exact_mod_cast h4

def numeralChars : List Byte :=
  [ch '0', ch '1', ch '2', ch '3', ch '4', ch '5', ch '6', ch '7', ch '8', ch '9', ch '+', ch '-',
    ch '.']

theorem mem_numeralChars : ∀ c : Byte, Literal.isNumeralChar c → c ∈ numeralChars := by decide

def refuted (space token : List Byte) (g : Nat) : Bool :=
  match readLiteral token with
  | none => true
  | some l => l.sign.apply l.magnitude * 10 ^ g % (256 ^ (space ++ token).length : Nat) ≠
      decode (space ++ token)

theorem SpelledBy.not_refuted (h : SpelledBy v space l)
    (hv : v = l.sign.apply l.magnitude * 10 ^ g) : refuted space l.text g = false := by
  have hlow := h.low
  rw [hv] at hlow
  simp only [refuted, readLiteral_text, hlow, ne_eq, not_true_eq_false, decide_false]

theorem refuted_one : ∀ a ∈ numeralChars, ∀ g ∈ [1, 2, 3, 4, 5], refuted [] [a] g = true := by
  decide +kernel

theorem refuted_two : ∀ a ∈ numeralChars, ∀ b ∈ numeralChars, ∀ g ∈ [3, 4, 5],
    refuted [] [a, b] g = true := by decide +kernel

theorem refuted_three : ∀ a ∈ numeralChars, ∀ b ∈ numeralChars,
    refuted [] [ch '0', a, b] 4 = true := by decide +kernel

theorem refuted_space_one : ∀ a ∈ numeralChars, ∀ g ∈ [4, 5], refuted [32] [a] g = true := by
  decide +kernel

theorem refuted_space_two : ∀ a ∈ numeralChars, ∀ b ∈ numeralChars,
    refuted [32] [a, b] 5 = true := by decide +kernel

theorem size_cases {w k g : Nat} (hk : 1 ≤ k) (hg : 1 ≤ g) (hg5 : g ≤ 5)
    (h : 43 * 256 ^ (w + k - 1) < 10 ^ (k + g)) :
    w = 0 ∧ k = 1 ∨ w = 0 ∧ k = 2 ∧ 3 ≤ g ∨ w = 0 ∧ k = 3 ∧ 4 ≤ g ∨ w = 0 ∧ k = 4 ∧ g = 5 ∨
      w = 1 ∧ k = 1 ∧ 4 ≤ g ∨ w = 1 ∧ k = 2 ∧ g = 5 := by
  have hlen : w + k ≤ 4 := by
    by_contra hn
    obtain ⟨n,hn'⟩ : ∃ n, w + k = n + 5 := ⟨w + k - 5,by omega⟩
    have h1 : 10 ^ (k + g) ≤ 10 ^ (n + 10) := Nat.pow_le_pow_right (by decide) (by omega)
    have h2 : 10 ^ (n + 10) ≤ 43 * 256 ^ (n + 4) := by
      rw [Nat.pow_add, Nat.pow_add, ← Nat.mul_assoc, Nat.mul_comm 43, Nat.mul_assoc]
      exact Nat.mul_le_mul (Nat.pow_le_pow_left (by decide) n) (by decide)
    rw [hn'] at h
    exact absurd h (not_lt.mpr (h1.trans h2))
  have hw : w ≤ 3 := by omega
  have hk4 : k ≤ 4 := by omega
  interval_cases w <;> interval_cases k <;> interval_cases g <;> omega

theorem first_byte_cases : ∀ c : Byte, isSpace c = true ∨ Literal.isNumeralChar c →
    ¬2 ^ 6 ∣ c.toNat ∧ (2 ^ 4 ∣ c.toNat → c = 32 ∨ c = ch '0') ∧ (2 ^ 5 ∣ c.toNat → c = 32) := by
  decide

theorem numeralChar_not_space : ∀ c : Byte, Literal.isNumeralChar c → c ≠ 32 := by decide

theorem SpelledBy.false_of_refuted (h : SpelledBy v space l)
    (hv : v = l.sign.apply l.magnitude * 10 ^ g) {token : List Byte} (ht : l.text = token)
    (hr : (∀ c ∈ token, c ∈ numeralChars) → refuted space token g = true) : False := by
  subst ht
  have hn := hr fun c hc => mem_numeralChars c (Literal.isNumeralChar_text l c hc)
  rw [h.not_refuted hv] at hn
  exact Bool.noConfusion hn

theorem SpelledBy.first_byte_kind (h : SpelledBy v space l) {c : Byte} {rest : List Byte}
    (hc : space ++ l.text = c :: rest) : isSpace c = true ∨ Literal.isNumeralChar c := by
  have hm : c ∈ space ++ l.text := hc ▸ List.mem_cons_self
  exact (List.mem_append.mp hm).imp (h.blank c) (Literal.isNumeralChar_text l c)

theorem SpelledBy.exponent_le (h : SpelledBy v space l)
    (hv : v = l.sign.apply l.magnitude * 10 ^ g) : g ≤ 5 := by
  by_contra hg
  have hk : 0 < l.text.length := List.length_pos_iff.mpr (text_ne_nil l)
  obtain ⟨c,rest,hc⟩ := List.exists_cons_of_length_pos (l := space ++ l.text)
    (by rw [List.length_append]; omega)
  exact (first_byte_cases c (h.first_byte_kind hc)).1
    (dvd_first_byte (h.first_byte hc) ⟨_,hv⟩ (by omega) (by decide))

theorem SpelledBy.first_digit (h : SpelledBy v [] l) (hv : v = l.sign.apply l.magnitude * 10 ^ g)
    {a : Byte} {rest : List Byte} (ha : l.text = a :: rest) (hg : 4 ≤ g) : a = ch '0' ∧ g = 4 := by
  have hne : a ≠ 32 :=
    numeralChar_not_space a (Literal.isNumeralChar_text l a (ha ▸ List.mem_cons_self))
  have hcases := first_byte_cases a (h.first_byte_kind ha)
  have hdvd {j : Nat} (hj : j ≤ g) (hj8 : j ≤ 8) : 2 ^ j ∣ a.toNat :=
    dvd_first_byte (h.first_byte ha) ⟨_,hv⟩ hj hj8
  refine ⟨(hcases.2.1 (hdvd hg (by decide))).resolve_left hne,?_⟩
  by_contra h5
  exact hne (hcases.2.2 (hdvd (by omega) (by decide)))

theorem SpelledBy.first_space {x : Byte} (h : SpelledBy v [x] l)
    (hv : v = l.sign.apply l.magnitude * 10 ^ g) (hg : 4 ≤ g) : x = 32 := by
  have hx : isSpace x = true := h.blank x (List.mem_singleton_self x)
  refine ((first_byte_cases x (.inl hx)).2.1
    (dvd_first_byte (h.first_byte rfl) ⟨_,hv⟩ hg (by decide))).resolve_right ?_
  rintro rfl
  exact absurd hx (by decide)

theorem no_scaled_reading (h : SpelledBy v space l) (hg : 1 ≤ g)
    (hv : v = l.sign.apply l.magnitude * 10 ^ g) : False := by
  have hk : 1 ≤ l.text.length := List.length_pos_iff.mpr (text_ne_nil l)
  rcases size_cases hk hg (h.exponent_le hv) (h.size_lt hv) with
    ⟨hw,hk⟩ | ⟨hw,hk,hg⟩ | ⟨hw,hk,hg⟩ | ⟨hw,hk,rfl⟩ | ⟨hw,hk,hg⟩ | ⟨hw,hk,rfl⟩
  · obtain rfl := List.length_eq_zero_iff.mp hw
    obtain ⟨a,ha⟩ := List.length_eq_one_iff.mp hk
    have hg5 := h.exponent_le hv
    exact h.false_of_refuted hv ha fun hm => refuted_one a (hm a (by simp)) g (by simp; omega)
  · obtain rfl := List.length_eq_zero_iff.mp hw
    obtain ⟨a,b,ha⟩ := List.length_eq_two.mp hk
    have hg5 := h.exponent_le hv
    exact h.false_of_refuted hv ha fun hm =>
      refuted_two a (hm a (by simp)) b (hm b (by simp)) g (by simp; omega)
  · obtain rfl := List.length_eq_zero_iff.mp hw
    obtain ⟨a,b,c,ha⟩ := List.length_eq_three.mp hk
    obtain ⟨rfl,rfl⟩ := h.first_digit hv ha hg
    exact h.false_of_refuted hv ha fun hm => refuted_three b (hm b (by simp)) c (hm c (by simp))
  · obtain rfl := List.length_eq_zero_iff.mp hw
    obtain ⟨a,rest,ha⟩ := List.exists_cons_of_length_pos (l := l.text) (by omega)
    exact absurd (h.first_digit hv ha (by decide)).2 (by decide)
  · obtain ⟨x,rfl⟩ := List.length_eq_one_iff.mp hw
    obtain ⟨a,ha⟩ := List.length_eq_one_iff.mp hk
    have hg5 := h.exponent_le hv
    obtain rfl := h.first_space hv hg
    exact h.false_of_refuted hv ha fun hm => refuted_space_one a (hm a (by simp)) g (by simp; omega)
  · obtain ⟨x,rfl⟩ := List.length_eq_one_iff.mp hw
    obtain ⟨a,b,ha⟩ := List.length_eq_two.mp hk
    obtain rfl := h.first_space hv (by decide)
    exact h.false_of_refuted hv ha fun hm => refuted_space_two a (hm a (by simp)) b (hm b (by simp))

end Fxypty
