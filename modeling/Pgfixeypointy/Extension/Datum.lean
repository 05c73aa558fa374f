import Pgfixeypointy.Library.LittleEndian
import Pgfixeypointy.Impl.Output

namespace Fxypty

open FxyptyImpl LittleEndian

-- the memory behind a fxypty pointer: a FxyPty_Decimal, or the 42 bytes of fxypty_in
structure Datum where
  bytes : List Byte
  room : 24 ≤ bytes.length
deriving DecidableEq

namespace Datum

def decimal (d : Datum) : FxyPtyDecimal where
  bytes0 := BitVec.ofNat 64 (decode (d.bytes.take 8))
  bytes1 := BitVec.ofNat 64 (decode ((d.bytes.drop 8).take 8))
  scale := BitVec.ofNat 32 (decode ((d.bytes.drop 16).take 4))

def ofDecimal (x : FxyPtyDecimal) (padding : Buffer Byte 4) : Datum where
  bytes := encode 8 x.bytes0.toNat ++ (encode 8 x.bytes1.toNat ++
    (encode 4 x.scale.toNat ++ padding.cells))
  room := by simp [encode_length, padding.size]

theorem decode_encode_toNat {w : Nat} (k : Nat) (x : BitVec w) (h : 2 ^ w = 256 ^ k) :
    BitVec.ofNat w (decode (encode k x.toNat)) = x := by
  have hlt := x.isLt
  rw [decode_encode, Nat.mod_eq_of_lt (h ▸ hlt), BitVec.ofNat_toNat, BitVec.setWidth_eq]

theorem decimal_ofDecimal (x : FxyPtyDecimal) (padding : Buffer Byte 4) :
    (ofDecimal x padding).decimal = x := by
  have h8 (n : Nat) (rest : List Byte) : (encode 8 n ++ rest).take 8 = encode 8 n :=
    List.take_left' (encode_length 8 n)
  have d8 (n : Nat) (rest : List Byte) : (encode 8 n ++ rest).drop 8 = rest :=
    List.drop_left' (encode_length 8 n)
  have h4 (n : Nat) (rest : List Byte) : (encode 4 n ++ rest).take 4 = encode 4 n :=
    List.take_left' (encode_length 4 n)
  have d16 (bytes : List Byte) : bytes.drop 16 = (bytes.drop 8).drop 8 := by rw [List.drop_drop]
  have w8 (v : BitVec 64) : BitVec.ofNat 64 (decode (encode 8 v.toNat)) = v :=
    decode_encode_toNat 8 v rfl
  have w4 (v : BitVec 32) : BitVec.ofNat 32 (decode (encode 4 v.toNat)) = v :=
    decode_encode_toNat 4 v rfl
  simp only [decimal, ofDecimal, d16, h8, d8, h4, w8, w4]

theorem decimal_congr {a b : Datum} (h : a.bytes.take 24 = b.bytes.take 24) :
    a.decimal = b.decimal := by
  have hpart (i k : Nat) (hik : i + k ≤ 24) :
      (a.bytes.drop i).take k = (b.bytes.drop i).take k := by
    have ht := congrArg (fun bytes => (List.drop i bytes).take k) h
    simpa only [List.drop_take, List.take_take, show min k (24 - i) = k by omega] using ht
  have h0 := hpart 0 8 (by decide)
  rw [List.drop_zero, List.drop_zero] at h0
  simp only [decimal, h0, hpart 8 8 (by decide), hpart 16 4 (by decide)]

theorem pack128_toNat (x : FxyPtyDecimal) :
    (pack128 x).toNat = x.bytes0.toNat + 256 ^ 8 * x.bytes1.toNat := by
  have hor := Nat.two_pow_add_eq_or_of_lt x.bytes0.isLt x.bytes1.toNat
  rw [pack128_append, BitVec.toNat_append, Nat.shiftLeft_eq, Nat.mul_comm, ← hor, Nat.add_comm]
  norm_num

theorem ofDecimal_bytes (x : FxyPtyDecimal) (padding : Buffer Byte 4) :
    (ofDecimal x padding).bytes =
      encode 16 (pack128 x).toNat ++ (encode 4 x.scale.toNat ++ padding.cells) := by
  have h0 : x.bytes0.toNat < 256 ^ 8 := x.bytes0.isLt
  have hlo : (pack128 x).toNat % 256 ^ 8 = x.bytes0.toNat := by
    rw [pack128_toNat, Nat.add_mul_mod_self_left, Nat.mod_eq_of_lt h0]
  have hhi : (pack128 x).toNat / 256 ^ 8 = x.bytes1.toNat := by
    rw [pack128_toNat, Nat.add_mul_div_left _ _ (by decide), Nat.div_eq_of_lt h0, Nat.zero_add]
  rw [encode_add 8 8, hhi, ← encode_mod 8 (pack128 x).toNat, hlo, List.append_assoc, ofDecimal]

theorem pack128_decimal (d : Datum) : (pack128 d.decimal).toNat = decode (d.bytes.take 16) := by
  have hroom := d.room
  have hword (bytes : List Byte) (h : bytes.length = 8) :
      (BitVec.ofNat 64 (decode bytes)).toNat = decode bytes := by
    have hlt := decode_lt bytes
    rw [h] at hlt
    rw [BitVec.toNat_ofNat, Nat.mod_eq_of_lt (hlt.trans_le (by decide))]
  have h0 : (d.bytes.take 8).length = 8 := by
    rw [List.length_take]
    omega
  have h1 : ((d.bytes.drop 8).take 8).length = 8 := by
    rw [List.length_take, List.length_drop]
    omega
  rw [pack128_toNat, decimal, hword _ h0, hword _ h1, show (16 : Nat) = 8 + 8 from rfl,
    List.take_add, decode_append, h0]

end Datum

theorem encode_scale {t : Nat} (ht : t < 256) : encode 4 t = BitVec.ofNat 8 t :: 0 :: [0, 0] := by
  rw [encode_add 1 3, Nat.pow_one, Nat.div_eq_of_lt ht]
  simp [encode, Digits.fixed, Nat.mod_eq_of_lt ht]

def blank : Buffer Byte 4 := ⟨List.replicate 4 0,rfl⟩

def stored (value : Raw) (scale : Scale) : Datum := .ofDecimal (.wrap value scale) blank

theorem stored_decimal (value : Raw) (scale : Scale) :
    (stored value scale).decimal = .wrap value scale := Datum.decimal_ofDecimal _ _

end Fxypty
