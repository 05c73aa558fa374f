import Pgfixeypointy.Library.Digits

namespace LittleEndian

def encode (k n : Nat) : List (BitVec 8) := (Digits.fixed 256 k n).reverse.map (BitVec.ofNat 8)

def decode (bytes : List (BitVec 8)) : Nat := Nat.ofDigits 256 (bytes.map BitVec.toNat)

theorem encode_length (k n : Nat) : (encode k n).length = k := by
  simp [encode, Digits.fixed_length]

theorem encode_toNat (k n : Nat) :
    (encode k n).map BitVec.toNat = (Digits.fixed 256 k n).reverse := by
  rw [encode, List.map_map]
  refine (List.map_congr_left fun d hd => ?_).trans (List.map_id _)
  have hlt := Digits.fixed_lt (b := 256) (by decide) k n d (List.mem_reverse.mp hd)
  simp only [Function.comp_apply, BitVec.toNat_ofNat, id_eq]
  exact Nat.mod_eq_of_lt hlt

theorem decode_encode (k n : Nat) : decode (encode k n) = n % 256 ^ k := by
  rw [decode, encode_toNat, Digits.fixed_value]

theorem encode_add (j k n : Nat) : encode (j + k) n = encode j n ++ encode k (n / 256 ^ j) := by
  rw [encode, encode, encode, ← List.map_append, ← List.reverse_append, ← Digits.fixed_add,
    Nat.add_comm]

theorem encode_mod (k n : Nat) : encode k (n % 256 ^ k) = encode k n := by
  rw [encode, encode, Digits.fixed_mod]

theorem take_encode {j k : Nat} (h : j ≤ k) (n : Nat) : (encode k n).take j = encode j n := by
  rw [← Nat.add_sub_cancel' h, encode_add]
  exact List.take_left' (encode_length j n)

theorem decode_append (xs ys : List (BitVec 8)) :
    decode (xs ++ ys) = decode xs + 256 ^ xs.length * decode ys := by
  rw [decode, List.map_append, Nat.ofDigits_append, List.length_map]
  rfl

theorem decode_lt (bytes : List (BitVec 8)) : decode bytes < 256 ^ bytes.length := by
  have h := Nat.ofDigits_lt_base_pow_length (b := 256) (l := bytes.map BitVec.toNat) (by decide) (by
    intro d hd
    obtain ⟨c,-,rfl⟩ := List.mem_map.mp hd
    exact c.isLt)
  rwa [List.length_map] at h

theorem decode_inj {xs ys : List (BitVec 8)} (hl : xs.length = ys.length)
    (h : decode xs = decode ys) : xs = ys := by
  have hlt (bytes : List (BitVec 8)) : ∀ d ∈ bytes.map BitVec.toNat, d < 256 := by
    intro d hd
    obtain ⟨c,-,rfl⟩ := List.mem_map.mp hd
    exact c.isLt
  have hmap := Nat.ofDigits_inj_of_len_eq (by decide) (by rw [List.length_map, List.length_map, hl])
    (hlt xs) (hlt ys) h
  exact List.map_injective_iff.mpr (fun _ _ he => BitVec.eq_of_toNat_eq he) hmap

theorem decode_cons (c : BitVec 8) (bytes : List (BitVec 8)) :
    decode (c :: bytes) = c.toNat + 256 * decode bytes := Nat.ofDigits_cons

theorem decode_concat_bounds (bytes : List (BitVec 8)) (c : BitVec 8) :
    c.toNat * 256 ^ bytes.length ≤ decode (bytes ++ [c]) ∧
      decode (bytes ++ [c]) < (c.toNat + 1) * 256 ^ bytes.length := by
  have hlt := decode_lt bytes
  have hd : decode (bytes ++ [c]) = decode bytes + c.toNat * 256 ^ bytes.length := by
    rw [decode_append, decode_cons, Nat.mul_comm (256 ^ bytes.length)]
    rfl
  rw [hd, Nat.add_mul, Nat.one_mul]
  exact ⟨Nat.le_add_left _ _,by omega⟩

theorem le_decode {bytes : List (BitVec 8)} {i : Nat} {c : BitVec 8} (h : bytes[i]? = some c) :
    256 ^ i * c.toNat ≤ decode bytes := by
  induction bytes generalizing i with
  | nil => simp at h
  | cons a bytes ih =>
    rw [decode_cons]
    cases i with
    | zero =>
      simp only [List.getElem?_cons_zero, Option.some.injEq] at h
      rw [h, Nat.pow_zero, Nat.one_mul]
      exact Nat.le_add_right _ _
    | succ i =>
      have hi := ih (by simpa using h)
      calc 256 ^ (i + 1) * c.toNat = 256 * (256 ^ i * c.toNat) := by
            rw [Nat.pow_succ, Nat.mul_comm _ 256, Nat.mul_assoc]
        _ ≤ 256 * decode bytes := Nat.mul_le_mul_left _ hi
        _ ≤ a.toNat + 256 * decode bytes := Nat.le_add_left _ _

theorem le_natAbs_of_emod {v : Int} {m n a : Nat} (h : v % m = n) (ha : a ≤ n) (hn : n + a ≤ m) :
    a ≤ v.natAbs := by
  have hv := Int.emod_add_mul_ediv v m
  rw [h] at hv
  rcases le_or_gt 0 (v / m) with hq | hq
  · have hp : 0 ≤ (m : Int) * (v / m) := mul_nonneg (Int.natCast_nonneg m) hq
    omega
  · have hp : (m : Int) * (v / m) ≤ m * (-1) :=
      mul_le_mul_of_nonneg_left (by omega) (Int.natCast_nonneg m)
    omega

end LittleEndian
