import Pgfixeypointy.Impl.Layout

namespace FxyptyImpl

variable {rows : Int → Buffer Byte 4}

def numeral (isNegative : Bool) (n s : Nat) : List Byte :=
  signText isNegative ++ ((Digits.whole 10 (n / 10 ^ s)).map digitByte ++
    ch '.' :: (Digits.fixed 10 s (n % 10 ^ s)).map digitByte)

abbrev tableRows (i : Int) : Buffer Byte 4 := fourDigitsRow i.toNat

theorem row_cells (x : Nat) :
    (tableRows (x % 10000 : Nat)).cells = (Digits.fixed 10 4 x).map digitByte := by
  have h3 : x % 10000 / 1000 % 10 = x / 10 / 10 / 10 % 10 := by omega
  have h2 : x % 10000 / 100 % 10 = x / 10 / 10 % 10 := by omega
  have h1 : x % 10000 / 10 % 10 = x / 10 % 10 := by omega
  have h0 : x % 10000 % 10 = x % 10 := by omega
  simp only [tableRows, fourDigitsRow, Int.toNat_natCast, h3, h2, h1, h0, Digits.fixed,
    List.nil_append, List.cons_append, List.map_cons, List.map_nil]

theorem singlesText_natCast (k x : Nat) :
    singlesText k x = (Digits.fixed 10 k x).map digitByte := by
  induction k generalizing x with
  | zero => rfl
  | succ k ih =>
    rw [singlesText, ← Int.ofNat_tdiv, ih, digit_natCast, Digits.fixed, List.map_append]
    rfl

theorem blocksText_natCast (m x : Nat) :
    blocksText tableRows m x = (Digits.fixed 10 (4 * m) x).map digitByte := by
  induction m generalizing x with
  | zero => rfl
  | succ m ih =>
    have hr : tableRows ((x : Int).tmod 10000) = tableRows (x % 10000 : Nat) := rfl
    rw [blocksText, ← Int.ofNat_tdiv, ih, hr, row_cells, ← List.map_append, Nat.mul_succ,
      Digits.fixed_add]
    rfl

theorem fixedText_natCast (k x : Nat) :
    fixedText tableRows k x = (Digits.fixed 10 k x).map digitByte := by
  rw [fixedText, ← Int.ofNat_tdiv, blocksText_natCast, singlesText_natCast, ← List.map_append,
    ← Digits.fixed_add, Nat.div_add_mod]

theorem leadText_natCast (n : Nat) : leadText tableRows n = digitsText n := by
  induction n using Nat.strong_induction_on with
  | _ n ih =>
    rw [leadText]
    split
    · have hd : n / 10 ^ 4 ≠ 0 := by omega
      rw [ih _ (by omega), row_cells, digitsText, digitsText,
        Digits.digits_append (b := 10) (by decide) 4 hd, List.map_append]
      rfl
    · rfl

theorem digitsText_whole {n : Nat} (h : n ≠ 0) :
    digitsText n = (Digits.whole 10 n).map digitByte := by
  rw [Digits.whole_pos h, digitsText]

theorem body_natCast (fraction : List Byte) (n : Nat) :
    body tableRows fraction n = (Digits.whole 10 n).map digitByte ++ ch '.' :: fraction := by
  unfold body
  split
  · have h : n = 0 := by omega
    subst h
    rfl
  · rw [Int.toNat_natCast, leadText_natCast, digitsText_whole (by omega)]

theorem halves_div {hi lo s : Nat} (hs : 18 ≤ s) (hlo : lo < 10 ^ 18) :
    (hi * 10 ^ 18 + lo) / 10 ^ s = hi / 10 ^ (s - 18) := by
  have hd : (hi * 10 ^ 18 + lo) / 10 ^ 18 = hi := by omega
  rw [← Nat.add_sub_cancel' hs, Nat.pow_add, ← Nat.div_div_eq_div_mul, hd,
    Nat.add_sub_cancel_left]

theorem halves_div_lo {hi lo s : Nat} (hs : s ≤ 18) :
    (hi * 10 ^ 18 + lo) / 10 ^ s = hi * 10 ^ (18 - s) + lo / 10 ^ s := by
  have hp : (10 : Nat) ^ 18 = 10 ^ s * 10 ^ (18 - s) := (pow_mul_pow_sub 10 hs).symm
  rw [hp, show hi * (10 ^ s * 10 ^ (18 - s)) + lo = lo + 10 ^ s * (hi * 10 ^ (18 - s)) by ring,
    Nat.add_mul_div_left _ _ (Nat.pow_pos (by decide)), Nat.add_comm]

theorem layout_numeral (isNegative : Bool) {hi lo s : Nat} (hlo : lo < 10 ^ 18) :
    layout tableRows isNegative hi lo s = numeral isNegative (hi * 10 ^ 18 + lo) s := by
  rw [numeral, Digits.fixed_mod]
  by_cases h0 : hi = 0
  · subst h0
    rw [layout_eq_zero (Nat.cast_zero : ((0 : Nat) : Int) = 0), fixedText_natCast,
      ← Int.ofNat_tdiv, body_natCast, Nat.zero_mul, Nat.zero_add]
  · have hz : (hi : Int) ≠ 0 := by omega
    by_cases hs : 18 < s
    · have hd : (hi * 10 ^ 18 + lo) / 10 ^ 18 = hi := by omega
      have hf : Digits.fixed 10 s (hi * 10 ^ 18 + lo) =
          Digits.fixed 10 (s - 18) hi ++ Digits.fixed 10 18 lo := by
        conv_lhs => rw [← Nat.sub_add_cancel hs.le, Digits.fixed_add, hd, Nat.add_comm,
          Nat.mul_comm, Digits.fixed_add_mul]
      rw [layout_eq_hi hz hs, fixedText_natCast, fixedText_natCast, ← Int.ofNat_tdiv, body_natCast,
        halves_div hs.le hlo, hf, List.map_append]
    · have hs' : s ≤ 18 := by omega
      have hlt : lo / 10 ^ s < 10 ^ (18 - s) := by
        apply Nat.div_lt_of_lt_mul
        rwa [← Nat.pow_add, Nat.add_sub_cancel' hs']
      have hq : (hi * 10 ^ (18 - s) + lo / 10 ^ s) / 10 ^ (18 - s) = hi := by
        rw [Nat.mul_comm, Nat.mul_add_div (Nat.pow_pos (by decide)), Nat.div_eq_of_lt hlt,
          Nat.add_zero]
      have hw : Digits.whole 10 (hi * 10 ^ (18 - s) + lo / 10 ^ s) =
          Digits.whole 10 hi ++ Digits.fixed 10 (18 - s) (lo / 10 ^ s) := by
        rw [Digits.whole_append (by decide) (18 - s) (by rw [hq]; exact h0), hq, Nat.add_comm,
          Nat.mul_comm, Digits.fixed_add_mul]
      have hf : Digits.fixed 10 s (hi * 10 ^ 18 + lo) = Digits.fixed 10 s lo := by
        rw [show hi * 10 ^ 18 + lo = lo + 10 ^ s * (hi * 10 ^ (18 - s)) by
          rw [← Nat.mul_assoc, Nat.mul_right_comm, ← Nat.pow_add, Nat.add_sub_cancel' hs']
          ring]
        exact Digits.fixed_add_mul _ _ _
      rw [layout_eq_lo hz hs, Int.toNat_natCast, leadText_natCast, digitsText_whole h0,
        ← Int.ofNat_tdiv, fixedText_natCast, fixedText_natCast, halves_div_lo hs', hw, hf,
        List.map_append, List.append_assoc]

theorem numeral_length (isNegative : Bool) (n s : Nat) :
    (numeral isNegative n s).length =
      (signText isNegative).length + ((Digits.whole 10 (n / 10 ^ s)).length + (s + 1)) := by
  simp [numeral, Digits.fixed_length]

def byteDigit (c : Byte) : Nat := c.toNat - 48

theorem byteDigit_digitByte {d : Nat} (h : d < 10) : byteDigit (digitByte d) = d := by
  simp only [byteDigit, digitByte, BitVec.toNat_ofNat]
  omega

theorem map_digitByte_inj {xs ys : List Nat} (hx : ∀ d ∈ xs, d < 10) (hy : ∀ d ∈ ys, d < 10)
    (h : xs.map digitByte = ys.map digitByte) : xs = ys := by
  have hinv (l : List Nat) (hl : ∀ d ∈ l, d < 10) : (l.map digitByte).map byteDigit = l := by
    rw [List.map_map]
    exact (List.map_congr_left fun d hd => byteDigit_digitByte (hl d hd)).trans (List.map_id l)
  rw [← hinv xs hx, h, hinv ys hy]

theorem digitByte_ne {d : Nat} (h : d < 10) : digitByte d ≠ 0 ∧ digitByte d ≠ ch '-' := by
  interval_cases d <;> decide

theorem map_digitByte_ne {xs : List Nat} (hx : ∀ d ∈ xs, d < 10) :
    ∀ c ∈ xs.map digitByte, c ≠ 0 ∧ c ≠ ch '-' := by
  intro c hc
  obtain ⟨d,hd,rfl⟩ := List.mem_map.mp hc
  exact digitByte_ne (hx d hd)

theorem whole_lt_ten (n : Nat) : ∀ d ∈ Digits.whole 10 n, d < 10 :=
  Digits.whole_lt (by decide) n

theorem fixed_lt_ten (k n : Nat) : ∀ d ∈ Digits.fixed 10 k n, d < 10 :=
  Digits.fixed_lt (by decide) k n

def isDigit (c : Byte) : Prop := 48 ≤ c.toNat ∧ c.toNat ≤ 57

instance (c : Byte) : Decidable (isDigit c) := inferInstanceAs (Decidable (_ ∧ _))

theorem isDigit_digitByte {d : Nat} (h : d < 10) : isDigit (digitByte d) := by
  interval_cases d <;> decide

theorem isDigit_map {xs : List Nat} (h : ∀ d ∈ xs, d < 10) : ∀ c ∈ xs.map digitByte, isDigit c := by
  intro c hc
  obtain ⟨d,hd,rfl⟩ := List.mem_map.mp hc
  exact isDigit_digitByte (h d hd)

theorem numeral_ne_zero (isNegative : Bool) (n s : Nat) : ∀ c ∈ numeral isNegative n s, c ≠ 0 := by
  intro c hc
  simp only [numeral, List.mem_append, List.mem_cons] at hc
  rcases hc with hc | hc | rfl | hc
  · cases isNegative
    · simp [signText] at hc
    · rw [List.mem_singleton.mp hc]
      decide
  · exact (map_digitByte_ne (whole_lt_ten _) c hc).1
  · decide
  · exact (map_digitByte_ne (fixed_lt_ten _ _) c hc).1

theorem signText_append_inj {b b' : Bool} {xs ys : List Byte}
    (hx : ∃ c t, xs = c :: t ∧ c ≠ ch '-') (hy : ∃ c t, ys = c :: t ∧ c ≠ ch '-')
    (h : signText b ++ xs = signText b' ++ ys) : b = b' ∧ xs = ys := by
  obtain ⟨c,t,rfl,hc⟩ := hx
  obtain ⟨c',t',rfl,hc'⟩ := hy
  cases b <;> cases b' <;> simp only [signText, Bool.false_eq_true, if_true, if_false,
    List.nil_append, List.singleton_append, List.cons.injEq] at h ⊢
  · exact ⟨trivial,h⟩
  · exact absurd h.1 hc
  · exact absurd h.1.symm hc'
  · exact ⟨trivial,h.2⟩

theorem whole_text_head (n : Nat) (text : List Byte) :
    ∃ c t, (Digits.whole 10 n).map digitByte ++ text = c :: t ∧ c ≠ ch '-' := by
  have hne := Digits.whole_ne_nil (b := 10) n
  have hlt := whole_lt_ten n
  cases hw : Digits.whole 10 n with
  | nil => exact absurd hw hne
  | cons d ds =>
    rw [hw] at hlt
    exact ⟨digitByte d,ds.map digitByte ++ text,rfl,(digitByte_ne (hlt d List.mem_cons_self)).2⟩

theorem numeral_inj {b b' : Bool} {n n' s : Nat} (h : numeral b n s = numeral b' n' s) :
    b = b' ∧ n = n' := by
  obtain ⟨hb,ht⟩ := signText_append_inj (whole_text_head _ _) (whole_text_head _ _) h
  obtain ⟨hw,hf⟩ := List.append_inj' ht (by simp [Digits.fixed_length])
  have hq : n / 10 ^ s = n' / 10 ^ s :=
    Digits.whole_inj (map_digitByte_inj (whole_lt_ten _) (whole_lt_ten _) hw)
  have hp : 0 < 10 ^ s := Nat.pow_pos (by decide)
  have hr : n % 10 ^ s = n' % 10 ^ s :=
    Digits.fixed_inj (Nat.mod_lt n hp) (Nat.mod_lt n' hp)
      (map_digitByte_inj (fixed_lt_ten _ _) (fixed_lt_ten _ _) (List.cons.inj hf).2)
  exact ⟨hb,by rw [← Nat.div_add_mod n (10 ^ s), hq, hr, Nat.div_add_mod]⟩

end FxyptyImpl
