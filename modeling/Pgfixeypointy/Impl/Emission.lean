import Pgfixeypointy.Library.Digits
import Pgfixeypointy.Impl.Output

namespace FxyptyImpl

def singlesText : Nat → Int → List Byte
  | 0, _ => []
  | k + 1, x => singlesText k (x.tdiv (10 : Nat)) ++ [digit x]

theorem singlesText_length (k : Nat) (x : Int) : (singlesText k x).length = k := by
  induction k generalizing x with
  | zero => rfl
  | succ k ih => simp [singlesText, ih]

theorem count_tmod (m r : Nat) : ((4 * m + r : Nat) : Int).tmod 4 = (r % 4 : Nat) := by
  change ((4 * m + r : Nat) : Int).tmod (4 : Nat) = _
  rw [← Int.ofNat_tmod, Nat.mul_add_mod]

theorem singles_run {r : Nat} (m : Nat) (hr : r < 4) (cur : Nat) (hc : r ≤ cur) (h42 : cur ≤ 42)
    (tmp : Buffer Byte 42) (rest : Int) :
    ∃ tmp', singles cur tmp rest (4 * m + r : Nat) =
        .ok ⟨tmp', cur - r, rest.tdiv (10 ^ r : Nat), (4 * m : Nat)⟩ ∧
      tmp'.tail (cur - r) = singlesText r rest ++ tmp.tail cur := by
  induction r generalizing cur tmp rest with
  | zero =>
    have hs : ((4 * m + 0 : Nat) : Int).tmod 4 = 0 := by simp
    refine ⟨tmp,?_,rfl⟩
    cases cur <;> simp only [singles, if_pos hs] <;> simp
  | succ r ih =>
    obtain ⟨cur,rfl⟩ : ∃ k, cur = k + 1 := ⟨cur - 1,by omega⟩
    have hs : ((4 * m + (r + 1) : Nat) : Int).tmod 4 ≠ 0 := by
      rw [count_tmod, Nat.mod_eq_of_lt hr]
      omega
    have hd : ((4 * m + (r + 1) : Nat) : Int) - 1 = (4 * m + r : Nat) := by omega
    have hp : cur + [digit rest].length ≤ 42 := by simpa using h42
    obtain ⟨tmp',hrun,htail⟩ := ih (by omega) cur (by omega) (by omega)
      (tmp.put cur [digit rest] hp) (rest.tdiv (10 : Nat))
    refine ⟨tmp',?_,?_⟩
    · simp only [singles, if_neg hs, Buffer.store_ok _ _ _ _ hp, hd]
      rw [Digits.tdiv_tdiv, ← Nat.pow_succ'] at hrun
      rw [Nat.add_sub_add_right]
      exact hrun
    · rw [Nat.add_sub_add_right, htail, Buffer.tail_put, singlesText, List.append_assoc]
      rfl

section

variable {table : Int → Except Fault (Buffer Byte 4)} {rows : Int → Buffer Byte 4}
  {dom : Int → Prop}

structure Serves (table : Int → Except Fault (Buffer Byte 4)) (rows : Int → Buffer Byte 4)
    (dom : Int → Prop) : Prop where
  row : ∀ x, dom x → table (x.tmod 10000) = .ok (rows (x.tmod 10000))
  tdiv : ∀ x (n : Nat), dom x → dom (x.tdiv n)

theorem serves_total (rows : Int → Buffer Byte 4) :
    Serves (fun i => .ok (rows i)) rows (fun _ => True) :=
  ⟨fun _ _ => rfl,fun _ _ _ => trivial⟩

theorem serves_fourDigits : Serves fourDigits (fun i => fourDigitsRow i.toNat) (0 ≤ ·) where
  row x hx := by
    have h0 : 0 ≤ x.tmod 10000 := Int.tmod_nonneg _ hx
    have h1 : x.tmod 10000 < 10000 := Int.tmod_lt_of_pos x (by decide)
    exact if_pos ⟨h0,h1⟩
  tdiv x n hx := Int.tdiv_nonneg hx (Int.natCast_nonneg n)

def blocksText (rows : Int → Buffer Byte 4) : Nat → Int → List Byte
  | 0, _ => []
  | m + 1, x => blocksText rows m (x.tdiv (10000 : Nat)) ++ (rows (x.tmod 10000)).cells

theorem blocksText_length (m : Nat) (x : Int) : (blocksText rows m x).length = 4 * m := by
  induction m generalizing x with
  | zero => rfl
  | succ m ih =>
    rw [blocksText, List.length_append, ih, Buffer.size]
    omega

theorem blocks_run (hv : Serves table rows dom) (m cur : Nat) (hc : 4 * m ≤ cur) (h42 : cur ≤ 42)
    (tmp : Buffer Byte 42) {rest : Int} (hx : dom rest) :
    ∃ tmp', blocks table cur tmp rest (4 * m : Nat) =
        .ok ⟨tmp', cur - 4 * m, rest.tdiv (10000 ^ m : Nat), 0⟩ ∧
      tmp'.tail (cur - 4 * m) = blocksText rows m rest ++ tmp.tail cur := by
  induction m generalizing cur tmp rest with
  | zero =>
    refine ⟨tmp,?_,rfl⟩
    match cur with
    | 0 | 1 | 2 | 3 => simp [blocks]
    | cur + 4 => simp [blocks]
  | succ m ih =>
    obtain ⟨cur,rfl⟩ : ∃ k, cur = k + 4 := ⟨cur - 4,by omega⟩
    have hs : ((4 * (m + 1) : Nat) : Int) > 0 := by omega
    have hd : ((4 * (m + 1) : Nat) : Int) - 4 = (4 * m : Nat) := by omega
    have hp : cur + (rows (rest.tmod 10000)).cells.length ≤ 42 := by
      rw [Buffer.size]
      exact h42
    obtain ⟨tmp',hrun,htail⟩ := ih cur (by omega) (by omega)
      (tmp.put cur (rows (rest.tmod 10000)).cells hp) (hv.tdiv _ 10000 hx)
    have hcur : cur + 4 - 4 * (m + 1) = cur - 4 * m := by omega
    refine ⟨tmp',?_,?_⟩
    · simp only [blocks, if_pos hs, hv.row _ hx, hd, hcur]
      rw [Digits.tdiv_tdiv, ← Nat.pow_succ'] at hrun
      change (do
        let tmp ← tmp.store Fault.overrun cur (rows (rest.tmod 10000)).cells
        blocks table cur tmp (rest.tdiv 10000) (4 * m : Nat)) = _
      rw [Buffer.store_ok _ _ _ _ hp]
      exact hrun
    · rw [hcur, htail, Buffer.tail_put, Buffer.size, blocksText, List.append_assoc]

def fixedText (rows : Int → Buffer Byte 4) (k : Nat) (x : Int) : List Byte :=
  blocksText rows (k / 4) (x.tdiv (10 ^ (k % 4) : Nat)) ++ singlesText (k % 4) x

theorem fixedText_length (k : Nat) (x : Int) : (fixedText rows k x).length = k := by
  rw [fixedText, List.length_append, blocksText_length, singlesText_length]
  omega

theorem deplete_run (hv : Serves table rows dom) (k cur : Nat) (hc : k ≤ cur) (h42 : cur ≤ 42)
    (tmp : Buffer Byte 42) {rest : Int} (hx : dom rest) :
    ∃ tmp', deplete table cur tmp rest (k : Nat) =
        .ok ⟨tmp', cur - k, rest.tdiv (10 ^ k : Nat), 0⟩ ∧
      tmp'.tail (cur - k) = fixedText rows k rest ++ tmp.tail cur := by
  obtain ⟨t1,hrun1,htail1⟩ := singles_run (r := k % 4) (k / 4) (by omega) cur (by omega)
    h42 tmp rest
  obtain ⟨t2,hrun2,htail2⟩ := blocks_run hv (k / 4) (cur - k % 4) (by omega) (by omega)
    t1 (hv.tdiv _ (10 ^ (k % 4)) hx)
  have hcur : cur - k % 4 - 4 * (k / 4) = cur - k := by omega
  have hpow : (10000 : Nat) ^ (k / 4) = 10 ^ (4 * (k / 4)) := by rw [Nat.pow_mul]
  rw [hcur, hpow, Digits.tdiv_pow_add, Nat.mod_add_div] at hrun2
  refine ⟨t2,?_,?_⟩
  · rw [Nat.div_add_mod] at hrun1
    simp only [deplete, hrun1]
    exact hrun2
  · rw [← hcur, htail2, htail1, fixedText, List.append_assoc]

theorem digit_natCast (n : Nat) : digit n = digitByte (n % 10) := by
  change BitVec.ofInt 8 ((n : Int).tmod (10 : Nat) + (48 : Nat)) = _
  rw [← Int.ofNat_tmod, ← Int.natCast_add, BitVec.ofInt_natCast]
  rfl

def digitsText (n : Nat) : List Byte := (Nat.digits 10 n).reverse.map digitByte

theorem digitsText_succ {n : Nat} (h : 0 < n) : digitsText n = digitsText (n / 10) ++ [digit n] := by
  rw [digitsText, Nat.digits_def' (by decide) h, List.reverse_cons, List.map_append, digit_natCast]
  rfl

theorem leadingSingles_run (n cur : Nat) (hc : (digitsText n).length ≤ cur) (h42 : cur ≤ 42)
    (tmp : Buffer Byte 42) :
    ∃ tmp', leadingSingles cur tmp n = .ok ⟨tmp', cur - (digitsText n).length, 0, 0⟩ ∧
      tmp'.tail (cur - (digitsText n).length) = digitsText n ++ tmp.tail cur := by
  induction n using Nat.strong_induction_on generalizing cur tmp with
  | _ n ih =>
    rcases Nat.eq_zero_or_pos n with rfl | hn
    · refine ⟨tmp,?_,by simp [digitsText]⟩
      cases cur <;> simp [leadingSingles, digitsText]
    · have hl : (digitsText n).length = (digitsText (n / 10)).length + 1 := by
        rw [digitsText_succ hn, List.length_append, List.length_singleton]
      obtain ⟨cur,rfl⟩ : ∃ k, cur = k + 1 := ⟨cur - 1,by omega⟩
      have hs : (n : Int) > 0 := by omega
      have hp : cur + [digit n].length ≤ 42 := by simpa using h42
      obtain ⟨tmp',hrun,htail⟩ := ih (n / 10) (by omega) cur (by omega) (by omega)
        (tmp.put cur [digit n] hp)
      rw [hl, Nat.add_sub_add_right]
      refine ⟨tmp',?_,?_⟩
      · simp only [leadingSingles, if_pos hs, Buffer.store_ok _ _ _ _ hp]
        exact hrun
      · rw [htail, Buffer.tail_put, digitsText_succ hn, List.append_assoc]
        rfl

def leadText (rows : Int → Buffer Byte 4) (n : Nat) : List Byte :=
  if 10000 < n then leadText rows (n / 10000) ++ (rows (n % 10000 : Nat)).cells else digitsText n
termination_by n
decreasing_by omega

theorem leadText_length (n : Nat) : (leadText rows n).length = (Nat.digits 10 n).length := by
  induction n using Nat.strong_induction_on with
  | _ n ih =>
    rw [leadText]
    split
    · have hd : n / 10 ^ 4 ≠ 0 := by omega
      have ha := congrArg List.length (Digits.digits_append (b := 10) (by decide) 4 hd)
      simp only [List.length_append, List.length_reverse, Digits.fixed_length] at ha
      rw [List.length_append, ih _ (by omega), Buffer.size, ha]
      rfl
    · simp [digitsText]

theorem leading_step (hv : Serves table rows dom) {n cur : Nat} (hn : 10000 < n)
    (tmp : Buffer Byte 42) (hx : dom n) (hp : cur + (rows (n % 10000 : Nat)).cells.length ≤ 42) :
    leading table (cur + 4) tmp n =
      leading table cur (tmp.put cur (rows (n % 10000 : Nat)).cells hp) (n / 10000 : Nat) := by
  have hs : (n : Int) > 10000 := by omega
  have hr : table ((n : Int).tmod 10000) = .ok (rows (n % 10000 : Nat)) := hv.row n hx
  simp only [leading, leadingBlocks, if_pos hs, hr]
  change (do
    let c ← (do
      let tmp ← tmp.store Fault.overrun cur (rows (n % 10000 : Nat)).cells
      leadingBlocks table cur tmp ((n : Int).tdiv 10000))
    leadingSingles c.curDigit c.tmp c.rest) = _
  rw [Buffer.store_ok _ _ _ _ hp]
  rfl

theorem leading_stop {x : Int} (hx : ¬x > 10000) (cur : Nat) (tmp : Buffer Byte 42) :
    leading table cur tmp x = leadingSingles cur tmp x := by
  match cur with
  | 0 | 1 | 2 | 3 => simp only [leading, leadingBlocks, if_neg hx]; rfl
  | cur + 4 => simp only [leading, leadingBlocks, if_neg hx]; rfl

theorem leading_run (hv : Serves table rows dom) (n cur : Nat)
    (hc : (leadText rows n).length ≤ cur) (h42 : cur ≤ 42) (tmp : Buffer Byte 42) (hx : dom n) :
    ∃ tmp', leading table cur tmp n = .ok ⟨tmp', cur - (leadText rows n).length, 0, 0⟩ ∧
      tmp'.tail (cur - (leadText rows n).length) = leadText rows n ++ tmp.tail cur := by
  induction n using Nat.strong_induction_on generalizing cur tmp with
  | _ n ih =>
    rw [leadText] at hc ⊢
    split
    · rename_i hn
      rw [if_pos hn, List.length_append, Buffer.size] at hc
      obtain ⟨cur,rfl⟩ : ∃ k, cur = k + 4 := ⟨cur - 4,by omega⟩
      have hp : cur + (rows (n % 10000 : Nat)).cells.length ≤ 42 := by
        rw [Buffer.size]
        exact h42
      obtain ⟨tmp',hrun,htail⟩ := ih (n / 10000) (by omega) cur (by omega) (by omega)
        (tmp.put cur (rows (n % 10000 : Nat)).cells hp) (hv.tdiv _ 10000 hx)
      rw [List.length_append, Buffer.size, Nat.add_sub_add_right]
      refine ⟨tmp',?_,?_⟩
      · rw [leading_step hv hn tmp hx hp, hrun]
      · rw [htail, Buffer.tail_put, Buffer.size, List.append_assoc]
    · rename_i hn
      rw [if_neg hn] at hc
      rw [leading_stop (by omega)]
      exact leadingSingles_run n cur hc h42 tmp

theorem leading_nonpos {x : Int} (hx : x ≤ 0) (cur : Nat) (tmp : Buffer Byte 42) :
    leading table cur tmp x = .ok ⟨tmp, cur, x, 0⟩ := by
  rw [leading_stop (by omega)]
  have hs : ¬x > 0 := by omega
  cases cur <;> simp only [leadingSingles, if_neg hs]

theorem leadText_zero : leadText rows 0 = [] := by
  rw [leadText]
  rfl

end

end FxyptyImpl
