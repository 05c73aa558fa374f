import Pgfixeypointy.Library.Expression
import Pgfixeypointy.Extension.Functions
import Pgfixeypointy.Impl.Assumptions

namespace Fxypty

open FxyptyImpl Expression

inductive Operator where
  | add
  | subtract
  | multiply
  | divide
deriving DecidableEq, Repr

variable (lib : Libfixeypointy)

def Operator.wrapped : Operator → Buffer Byte 4 → Datum → Datum → Except Fault Datum
  | .add => fxyptyAdd lib
  | .subtract => fxyptySubtract lib
  | .multiply => fxyptyMultiply lib
  | .divide => fxyptyDivide lib

def Operator.raw : Operator → Scale → Raw → Raw → Option Raw
  | .add, _, x, y => lib.add x y
  | .subtract, _, x, y => lib.subtract x y
  | .multiply, s, x, y => lib.multiply x y s
  | .divide, s, x, y => lib.divide x y s

-- each node is given the memory palloc leaves behind its result
abbrev Tree (A : Type) := Expression (Operator × Buffer Byte 4) A

abbrev OfScale (s : Scale) := {d : Datum // d.decimal.scale = s}

def evaluateWrapped {s : Scale} (e : Tree (OfScale s)) : Except Fault Datum :=
  e.evaluate Subtype.val fun op a b => op.1.wrapped lib op.2 a b

def evaluateDirect {s : Scale} (e : Tree (OfScale s)) : Except Unit Raw :=
  e.evaluate (pack128 ·.val.decimal) fun op x y =>
    match op.1.raw lib s x y with
    | none => .error ()
    | some r => .ok r

def Denotes (s : Scale) (d : Datum) (x : Raw) : Prop := d.decimal.scale = s ∧ pack128 d.decimal = x

theorem operator_agree {s : Scale} {op : Raw → Raw → Scale → Option Raw} (padding : Buffer Byte 4)
    {a b : Datum} {x y : Raw} (ha : Denotes s a x) (hb : Denotes s b y) :
    Agree (Denotes s) (fun fault _ => fault = runtimeErrors)
      (operator (operate op) padding a b)
      (match op x y s with | none => .error () | some r => .ok r) := by
  obtain ⟨rfl,rfl⟩ := ha
  obtain ⟨-,rfl⟩ := hb
  unfold operator
  cases hop : op (pack128 a.decimal) (pack128 b.decimal) a.decimal.scale with
  | none =>
    rw [operate_eq_none.mpr hop]
    exact .error rfl
  | some r =>
    have hr : operate op a.decimal b.decimal = some (.wrap r a.decimal.scale) :=
      operate_eq_some.mpr ⟨by rw [pack128_wrap, hop],rfl⟩
    rw [hr]
    exact .ok ⟨by rw [Datum.decimal_ofDecimal, wrap_scale],
      by rw [Datum.decimal_ofDecimal, pack128_wrap]⟩

theorem evaluate_denotes {s : Scale} (e : Tree (OfScale s)) :
    Agree (Denotes s) (fun fault _ => fault = runtimeErrors) (evaluateWrapped lib e)
      (evaluateDirect lib e) := by
  refine evaluate_agree (fun d => ⟨d.property,rfl⟩) ?_ e
  rintro ⟨op,padding⟩ a b x y ha hb
  cases op with
  | add => exact operator_agree padding ha hb
  | subtract => exact operator_agree padding ha hb
  | multiply => exact operator_agree padding ha hb
  | divide => exact operator_agree padding ha hb

theorem wrapper_transparent {s : Scale} (e : Tree (OfScale s)) :
    ((∃ fault, evaluateWrapped lib e = .error fault) ↔ ∃ u, evaluateDirect lib e = .error u) ∧
    ∀ d, evaluateWrapped lib e = .ok d →
      d.decimal.scale = s ∧ evaluateDirect lib e = .ok (pack128 d.decimal) := by
  have h := evaluate_denotes lib e
  refine ⟨h.error_iff,fun d hd => ?_⟩
  obtain ⟨x,hx,hs,rfl⟩ := h.ok_imp hd
  exact ⟨hs,hx⟩

def cents (value : Raw) : OfScale 2 := ⟨stored value 2,by rw [stored_decimal, wrap_scale]⟩

theorem wrapper_transparent_sum :
    ∃ d, evaluateWrapped truncating (.node (.add, blank) (.leaf (cents 1012)) (.leaf (cents 24568))) =
        .ok d ∧ d.decimal.scale = 2 ∧
      evaluateDirect truncating (.node (.add, blank) (.leaf (cents 1012)) (.leaf (cents 24568))) =
        .ok (pack128 d.decimal) :=
  ⟨_,rfl,(wrapper_transparent truncating
    (.node (.add, blank) (.leaf (cents 1012)) (.leaf (cents 24568)))).2 _ rfl⟩

end Fxypty
