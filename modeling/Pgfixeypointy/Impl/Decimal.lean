import Pgfixeypointy.Library.Buffer
import Mathlib.Data.Rat.Defs
import Mathlib.Data.Rat.Cast.Defs

namespace FxyptyImpl

abbrev Byte := BitVec 8

abbrev Raw := BitVec 128

abbrev Scale := BitVec 32

inductive ErrorCode where
  | internalError
  | invalidTextRepresentation
  | invalidParameterValue
deriving DecidableEq, Repr

-- overrun and lookup are accesses outside an array; C gives them no meaning
inductive Fault where
  | overrun
  | lookup
  | ereport (code : ErrorCode) (message : String)
deriving DecidableEq, Repr

structure FxyPtyDecimal where
  bytes0 : BitVec 64
  bytes1 : BitVec 64
  scale : Scale
deriving DecidableEq, Repr

def pack128 (x : FxyPtyDecimal) : Raw :=
  ((x.bytes0.signExtend 128 <<< 0) &&& 0xFFFFFFFFFFFFFFFF#128) |||
    (x.bytes1.signExtend 128 <<< 64)

-- memcpy of a 16-byte Decimal into bytes[2] on a little-endian host
def FxyPtyDecimal.wrap (value : Raw) (scale : Scale) : FxyPtyDecimal where
  bytes0 := value.extractLsb' 0 64
  bytes1 := value.extractLsb' 64 64
  scale := scale

def FxyPtyDecimal.raw (x : FxyPtyDecimal) : Int := (pack128 x).toInt

def FxyPtyDecimal.val (x : FxyPtyDecimal) : ℚ := x.raw / 10 ^ x.scale.toNat

theorem mask_getLsbD (i : Nat) : (0xFFFFFFFFFFFFFFFF#128).getLsbD i = decide (i < 64) := by
  rw [show (0xFFFFFFFFFFFFFFFF#128) = (BitVec.allOnes 64).setWidth 128 from rfl,
    BitVec.getLsbD_setWidth, BitVec.getLsbD_allOnes]
  by_cases h : i < 64
  · simp only [h, decide_true, Bool.and_true, decide_eq_true_eq]
    omega
  · simp [h]

theorem pack128_append (x : FxyPtyDecimal) : pack128 x = x.bytes1 ++ x.bytes0 := by
  apply BitVec.eq_of_getLsbD_eq
  intro i hi
  simp only [pack128, BitVec.getLsbD_or, BitVec.getLsbD_and, BitVec.getLsbD_shiftLeft,
    BitVec.getLsbD_signExtend, BitVec.getLsbD_append, BitVec.shiftLeft_zero, mask_getLsbD]
  by_cases h : i < 64
  · simp [h, hi]
  · have h' : i - 64 < 64 := by omega
    have h'' : i - 64 < 128 := by omega
    simp [h, hi, h', h'']

@[simp] theorem pack128_wrap (value : Raw) (scale : Scale) :
    pack128 (.wrap value scale) = value := by
  rw [pack128_append]
  apply BitVec.eq_of_getLsbD_eq
  intro i hi
  simp only [FxyPtyDecimal.wrap, BitVec.getLsbD_append, BitVec.getLsbD_extractLsb']
  by_cases h : i < 64
  · simp [h]
  · have h' : i - 64 < 64 := by omega
    simp [h, h', show 64 + (i - 64) = i by omega]

@[simp] theorem wrap_scale (value : Raw) (scale : Scale) :
    (FxyPtyDecimal.wrap value scale).scale = scale := rfl

theorem wrap_pack128 (x : FxyPtyDecimal) : .wrap (pack128 x) x.scale = x := by
  cases x with
  | mk b0 b1 scale =>
    simp only [pack128_append, FxyPtyDecimal.wrap, FxyPtyDecimal.mk.injEq, and_true]
    exact ⟨BitVec.extractLsb'_append_eq_right, BitVec.extractLsb'_append_eq_left⟩

-- none is a thrown std::runtime_error
structure Libfixeypointy where
  ofString : List Byte → Scale → Option Raw
  add : Raw → Raw → Option Raw
  subtract : Raw → Raw → Option Raw
  multiply : Raw → Raw → Scale → Option Raw
  divide : Raw → Raw → Scale → Option Raw
  compare : Raw → Raw → Option Int

variable (lib : Libfixeypointy)

def fxyptyIn (input : List Byte) (scale : BitVec 64) : Option FxyPtyDecimal :=
  (lib.ofString input (scale.setWidth 32)).map (.wrap · (scale.setWidth 32))

def operate (op : Raw → Raw → Scale → Option Raw) (a b : FxyPtyDecimal) : Option FxyPtyDecimal :=
  (op (pack128 a) (pack128 b) a.scale).map (.wrap · a.scale)

def fxyptyAdd : FxyPtyDecimal → FxyPtyDecimal → Option FxyPtyDecimal :=
  operate fun x y _ => lib.add x y

def fxyptySubtract : FxyPtyDecimal → FxyPtyDecimal → Option FxyPtyDecimal :=
  operate fun x y _ => lib.subtract x y

def fxyptyMultiply : FxyPtyDecimal → FxyPtyDecimal → Option FxyPtyDecimal :=
  operate lib.multiply

def fxyptyDivide : FxyPtyDecimal → FxyPtyDecimal → Option FxyPtyDecimal :=
  operate lib.divide

def fxyptyCompare (a b : FxyPtyDecimal) : Int :=
  match lib.compare (pack128 a) (pack128 b) with
  | some result => result
  | none => 0

theorem operate_eq_some {op : Raw → Raw → Scale → Option Raw} {a b r : FxyPtyDecimal} :
    operate op a b = some r ↔
      op (pack128 a) (pack128 b) a.scale = some (pack128 r) ∧ r.scale = a.scale := by
  simp only [operate, Option.map_eq_some_iff]
  constructor
  · rintro ⟨q,hq,rfl⟩
    exact ⟨by rw [pack128_wrap, hq],rfl⟩
  · rintro ⟨hq,hs⟩
    exact ⟨pack128 r,hq,by rw [← hs, wrap_pack128]⟩

theorem operate_eq_none {op : Raw → Raw → Scale → Option Raw} {a b : FxyPtyDecimal} :
    operate op a b = none ↔ op (pack128 a) (pack128 b) a.scale = none := by
  simp [operate]

end FxyptyImpl
