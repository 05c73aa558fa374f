import Pgfixeypointy.Extension.Datum
import Pgfixeypointy.Extension.Scanner

namespace Fxypty

open FxyptyImpl

abbrev Typmod := BitVec 32

def messageText (bytes : List Byte) : String :=
  String.ofList (bytes.map fun c => Char.ofNat c.toNat)

def syntaxError (str : List Byte) : Fault :=
  .ereport .invalidTextRepresentation
    ("invalid syntax for type fxypty: \"" ++ messageText (str.takeWhile (· ≠ 0)) ++ "\"")

def runtimeErrors : Fault := .ereport .internalError "The operation returns runtime errors."

def wrongResult : Fault := .ereport .internalError "Wrong result is generated."

def invalidModifier : Fault := .ereport .invalidParameterValue "invalid type modifier"

-- tl[0] and tl[1] are read before n is tested
def fxyptyTypmodIn (tl : List (BitVec 32)) : Except Fault Typmod :=
  match tl with
  | numberOfDigits :: numberOfFractionalDigits :: rest =>
      if rest.isEmpty then
        if (38#32).slt numberOfDigits ∨ numberOfDigits.slt 0 ∨
            (numberOfDigits - numberOfFractionalDigits).slt 0 then
          .error invalidModifier
        else .ok ((numberOfDigits <<< 16) ||| numberOfFractionalDigits)
      else .error invalidModifier
  | _ => .error .overrun

def decodeTypmod (typmod : Typmod) : BitVec 32 × BitVec 32 :=
  if typmod ≠ -1 then (typmod.sshiftRight 16 &&& 0xFFFF, typmod &&& 0xFFFF) else (38, 12)

-- stack is input_buffer before the scan
def fxyptyIn (stack : Buffer Byte 42) (str : List Byte) : Except Fault Datum := do
  match ← sscanf str stack with
  | none => .error (syntaxError str)
  | some inputBuffer => .ok ⟨inputBuffer.cells,by rw [inputBuffer.size]; decide⟩

def fxyptyOut (tmp : Buffer Byte 42) (decimal : Datum) : Except Fault (Buffer Byte 42) :=
  FxyptyImpl.fxyptyOut fourDigits tmp zeroed decimal.decimal

-- the datum itself is handed on as a char pointer
def fxyptyOutCasted (decimal : Datum) : List Byte := decimal.bytes

section

variable (lib : Libfixeypointy)

def fxyptyInCasted (stack : Buffer Byte 42) (padding : Buffer Byte 4) (str : List Byte)
    (typmod : Typmod) : Except Fault Datum := do
  let numberOfFractionalDigits := (decodeTypmod typmod).2
  match ← sscanf str stack with
  | none => .error (syntaxError str)
  | some inputBuffer =>
      match FxyptyImpl.fxyptyIn lib (cString inputBuffer)
          (numberOfFractionalDigits.signExtend 64) with
      | none => .error runtimeErrors
      | some result => .ok (.ofDecimal result padding)

def fxypty (stack : Buffer Byte 42) (padding : Buffer Byte 4) (decimal : Datum)
    (typmod : Typmod) : Except Fault Datum := do
  let result ←
    if typmod ≠ -1 then
      (fxyptyInCasted lib stack padding (fxyptyOutCasted decimal) typmod).map some
    else .ok none
  match result with
  | none => .error wrongResult
  | some result => .ok result

def operator (op : FxyPtyDecimal → FxyPtyDecimal → Option FxyPtyDecimal) (padding : Buffer Byte 4)
    (a b : Datum) : Except Fault Datum :=
  match op a.decimal b.decimal with
  | none => .error runtimeErrors
  | some result => .ok (.ofDecimal result padding)

def fxyptyAdd : Buffer Byte 4 → Datum → Datum → Except Fault Datum :=
  operator (FxyptyImpl.fxyptyAdd lib)

def fxyptySubtract : Buffer Byte 4 → Datum → Datum → Except Fault Datum :=
  operator (FxyptyImpl.fxyptySubtract lib)

def fxyptyMultiply : Buffer Byte 4 → Datum → Datum → Except Fault Datum :=
  operator (FxyptyImpl.fxyptyMultiply lib)

def fxyptyDivide : Buffer Byte 4 → Datum → Datum → Except Fault Datum :=
  operator (FxyptyImpl.fxyptyDivide lib)

def compare (a b : Datum) : Int := fxyptyCompare lib a.decimal b.decimal

def fxyptyEq (a b : Datum) : Bool := compare lib a b = 0

def fxyptyNeq (a b : Datum) : Bool := compare lib a b ≠ 0

def fxyptyLt (a b : Datum) : Bool := compare lib a b < 0

def fxyptyGt (a b : Datum) : Bool := compare lib a b > 0

def fxyptyLte (a b : Datum) : Bool := compare lib a b ≤ 0

def fxyptyGte (a b : Datum) : Bool := compare lib a b ≥ 0

def fxyptySmaller (a b : Datum) : Datum := if compare lib a b < 0 then a else b

def fxyptyLarger (a b : Datum) : Datum := if compare lib a b ≥ 0 then a else b

end

variable {lib : Libfixeypointy}

theorem operator_ok {op : FxyPtyDecimal → FxyPtyDecimal → Option FxyPtyDecimal}
    {padding : Buffer Byte 4} {a b r : Datum} (h : operator op padding a b = .ok r) :
    ∃ x, op a.decimal b.decimal = some x ∧ r = .ofDecimal x padding := by
  unfold operator at h
  cases hx : op a.decimal b.decimal with
  | none =>
    rw [hx] at h
    cases h
  | some x =>
    rw [hx] at h
    exact ⟨x,rfl,(Except.ok.inj h).symm⟩

theorem smaller_operand (a b : Datum) : fxyptySmaller lib a b = a ∨ fxyptySmaller lib a b = b := by
  unfold fxyptySmaller
  split
  · exact .inl rfl
  · exact .inr rfl

theorem larger_operand (a b : Datum) : fxyptyLarger lib a b = a ∨ fxyptyLarger lib a b = b := by
  unfold fxyptyLarger
  split
  · exact .inl rfl
  · exact .inr rfl

def typmodOf (p s : Nat) : Typmod := (BitVec.ofNat 32 p <<< 16) ||| BitVec.ofNat 32 s

theorem typmodOf_toNat {p s : Nat} (hp : p < 2 ^ 15) (hs : s < 2 ^ 16) :
    (typmodOf p s).toNat = 2 ^ 16 * p + s := by
  have hor := Nat.two_pow_add_eq_or_of_lt hs p
  rw [typmodOf, BitVec.toNat_or, BitVec.toNat_shiftLeft, BitVec.toNat_ofNat, BitVec.toNat_ofNat,
    Nat.shiftLeft_eq, hor, Nat.mod_eq_of_lt (show s < 2 ^ 32 by omega),
    Nat.mod_eq_of_lt (show p < 2 ^ 32 by omega), Nat.mul_comm, Nat.mod_eq_of_lt (by omega)]

theorem typmodOf_ne {p s : Nat} (hp : p < 2 ^ 15) (hs : s < 2 ^ 16) : typmodOf p s ≠ -1 := by
  intro h
  have ht := typmodOf_toNat hp hs
  have hm : (-1 : Typmod).toNat = 2 ^ 32 - 1 := rfl
  rw [h, hm] at ht
  omega

theorem typmodOf_scale {p s : Nat} (hp : p < 2 ^ 15) (hs : s < 2 ^ 16) :
    (decodeTypmod (typmodOf p s)).2 = BitVec.ofNat 32 s := by
  rw [decodeTypmod, if_pos (typmodOf_ne hp hs)]
  apply BitVec.eq_of_toNat_eq
  rw [BitVec.toNat_and, typmodOf_toNat hp hs]
  have hm : BitVec.toNat (0xFFFF : BitVec 32) = 2 ^ 16 - 1 := rfl
  rw [hm, Nat.and_two_pow_sub_one_eq_mod, Nat.mul_add_mod, BitVec.toNat_ofNat]
  omega

theorem fxyptyTypmodIn_typmodOf {p s : Nat} (hsp : s ≤ p) (hp : p ≤ 38) :
    fxyptyTypmodIn [BitVec.ofNat 32 p, BitVec.ofNat 32 s] = .ok (typmodOf p s) := by
  have hn (n : Nat) (h : n ≤ 38) : (BitVec.ofNat 32 n).toInt = n := by
    rw [BitVec.toInt_ofNat', Int.bmod_eq_of_le_mul_two (by omega) (by omega)]
  have hd : BitVec.ofNat 32 p - BitVec.ofNat 32 s = BitVec.ofNat 32 (p - s) := by
    rw [BitVec.ofNat_sub_ofNat_of_le]
    · omega
    · omega
  have h38 : (38#32).toInt = 38 := rfl
  have h0 : BitVec.toInt (0 : BitVec 32) = 0 := rfl
  have hc : ¬((38#32).slt (BitVec.ofNat 32 p) ∨ (BitVec.ofNat 32 p).slt 0 ∨
      (BitVec.ofNat 32 p - BitVec.ofNat 32 s).slt 0) := by
    rw [hd]
    simp only [BitVec.slt, hn p hp, hn (p - s) (by omega), h38, h0, decide_eq_true_eq]
    omega
  simp only [fxyptyTypmodIn, List.isEmpty_nil, if_true, if_neg hc, typmodOf]

end Fxypty
