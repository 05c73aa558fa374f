import Mathlib.Logic.Relation
import Pgfixeypointy.Library.Rewriting
import Pgfixeypointy.Extension.OperatorLaws
import Pgfixeypointy.Extension.Session

namespace Fxypty

open FxyptyImpl Expression

-- the COMMUTATOR and NEGATOR clauses of the script, as the planner looks them up
def Operator.commutes : Operator → Bool
  | .add => true
  | .subtract => false
  | .multiply => true
  | .divide => false

def Relation.commutator : Relation → Relation
  | .eq => .eq
  | .neq => .neq
  | .lt => .gt
  | .gt => .lt
  | .lte => .gte
  | .gte => .lte

def Relation.negator : Relation → Relation
  | .eq => .neq
  | .neq => .eq
  | .lt => .gte
  | .gt => .lte
  | .lte => .gt
  | .gte => .lt

-- a call may also find other memory after the rewriting than before
inductive Declared {A : Type} : Tree A → Tree A → Prop where
  | commute {op padding l r} (padding' : Buffer Byte 4) (h : Operator.commutes op = true) :
      Declared (.node (op, padding) l r) (.node (op, padding') r l)
  | remember {op padding l r} (padding' : Buffer Byte 4) :
      Declared (.node (op, padding) l r) (.node (op, padding') l r)

inductive Condition (A : Type) where
  | compare (r : Relation) (left right : Tree A)
  | not (p : Condition A)
  | and (p q : Condition A)
  | or (p q : Condition A)

inductive Planned {A : Type} : Condition A → Condition A → Prop where
  | left {r a a' b} (h : Rewrite Declared a a') : Planned (.compare r a b) (.compare r a' b)
  | right {r a b b'} (h : Rewrite Declared b b') : Planned (.compare r a b) (.compare r a b')
  | commute {r a b} : Planned (.compare r a b) (.compare r.commutator b a)
  | negate {r a b} : Planned (.not (.compare r a b)) (.compare r.negator a b)
  | not {p p'} (h : Planned p p') : Planned (.not p) (.not p')
  | andLeft {p p' q} (h : Planned p p') : Planned (.and p q) (.and p' q)
  | andRight {p q q'} (h : Planned q q') : Planned (.and p q) (.and p q')
  | orLeft {p p' q} (h : Planned p p') : Planned (.or p q) (.or p' q)
  | orRight {p q q'} (h : Planned q q') : Planned (.or p q) (.or p q')

variable (lib : Libfixeypointy) {s : Scale}

def Condition.decide : Condition (OfScale s) → Except Fault Bool
  | .compare r a b => do
      let x ← evaluateWrapped lib a
      let y ← evaluateWrapped lib b
      .ok (r.holds lib x y)
  | .not p => do
      let b ← decide p
      .ok !b
  | .and p q => do
      let b ← decide p
      let c ← decide q
      .ok (b && c)
  | .or p q => do
      let b ← decide p
      let c ← decide q
      .ok (b || c)

def output (tmp : Buffer Byte 42) (e : Tree (OfScale s)) : Except Fault (List Byte) := do
  let d ← evaluateWrapped lib e
  (fxyptyOut tmp d).map cString

variable {lib}

def SameDecimal (a b : Datum) : Prop := a.decimal = b.decimal

theorem SameDecimal.refl (d : Datum) : SameDecimal d d := rfl

theorem holds_ofSign (r : Relation) (a b : Datum) :
    r.holds lib a b = r.ofSign (compare lib a b) := by
  cases r <;> rfl

theorem holds_commutator (hl : SignCompare lib) (r : Relation) (a b : Datum) :
    r.commutator.holds lib b a = r.holds lib a b := by
  rw [holds_ofSign, holds_ofSign, compare_swap hl a b]
  cases r <;> simp [Relation.commutator, Relation.ofSign]

theorem decide_negated {p q : Prop} [Decidable p] [Decidable q] (h : p ↔ ¬q) :
    decide p = !decide q := by
  rw [← decide_not]
  exact decide_eq_decide.mpr h

theorem holds_negator (r : Relation) (a b : Datum) :
    r.negator.holds lib a b = !r.holds lib a b := by
  rw [holds_ofSign, holds_ofSign]
  cases r <;> exact decide_negated (by omega)

theorem evaluated_error {e : Tree (OfScale s)} {fault : Fault}
    (h : evaluateWrapped lib e = .error fault) : fault = runtimeErrors := by
  obtain ⟨_,-,hfault⟩ := (evaluate_denotes lib e).error_imp h
  exact hfault

theorem evaluated_scale {e : Tree (OfScale s)} {d : Datum}
    (h : evaluateWrapped lib e = .ok d) : d.decimal.scale = s := by
  obtain ⟨_,-,hs,-⟩ := (evaluate_denotes lib e).ok_imp h
  exact hs

theorem operator_same (op : FxyPtyDecimal → FxyPtyDecimal → Option FxyPtyDecimal)
    (padding padding' : Buffer Byte 4) {a a' b b' : Datum} (ha : SameDecimal a a')
    (hb : SameDecimal b b') :
    Agree SameDecimal Eq (operator op padding a b) (operator op padding' a' b') := by
  rw [operator, operator, ← ha, ← hb]
  cases op a.decimal b.decimal with
  | none => exact .error rfl
  | some x => exact .ok (by rw [SameDecimal, Datum.decimal_ofDecimal, Datum.decimal_ofDecimal])

theorem wrapped_same (op : Operator) (padding padding' : Buffer Byte 4) {a a' b b' : Datum}
    (ha : SameDecimal a a') (hb : SameDecimal b b') :
    Agree SameDecimal Eq (op.wrapped lib padding a b) (op.wrapped lib padding' a' b') := by
  cases op <;> exact operator_same _ padding padding' ha hb

theorem wrapped_swap (hc : Commutes lib) {op : Operator} (h : op.commutes = true)
    (padding padding' : Buffer Byte 4) {a b : Datum} (hs : a.decimal.scale = b.decimal.scale) :
    Agree SameDecimal Eq (op.wrapped lib padding a b) (op.wrapped lib padding' b a) := by
  cases op with
  | add => exact operator_swap (fun _ _ hr => hr) (fun _ => rfl) (fun x y _ => hc.add x y) hs _ _
  | multiply => exact operator_swap (fun _ _ hr => hr) (fun _ => rfl) hc.multiply hs _ _
  | subtract => cases h
  | divide => cases h

theorem agree_of_error {x y : Except Fault Datum} (hx : ∀ fault, x = .error fault → fault = runtimeErrors)
    (hy : ∀ fault, y = .error fault → fault = runtimeErrors) {f g : Datum → Datum → Except Fault Datum}
    (hfg : ∀ a b, x = .ok a → y = .ok b → Agree SameDecimal Eq (f a b) (g b a)) :
    Agree SameDecimal Eq (do let a ← x; let b ← y; f a b) (do let b ← y; let a ← x; g b a) := by
  rw [bind_swap hy hx]
  cases x with
  | error fault => exact .error rfl
  | ok a =>
    cases y with
    | error fault => exact .error rfl
    | ok b => exact hfg a b rfl rfl

theorem declared_same (hc : Commutes lib) {e e' : Tree (OfScale s)} (h : Declared e e') :
    Agree SameDecimal Eq (evaluateWrapped lib e) (evaluateWrapped lib e') := by
  cases h with
  | @commute op padding l r padding' h =>
    refine agree_of_error (fun _ => evaluated_error) (fun _ => evaluated_error) fun a b ha hb => ?_
    exact wrapped_swap hc h padding padding' ((evaluated_scale ha).trans (evaluated_scale hb).symm)
  | @remember op padding l r padding' =>
    exact (Agree.same SameDecimal.refl _).bind fun a a' ha =>
      (Agree.same SameDecimal.refl _).bind fun b b' hb => wrapped_same op padding padding' ha hb

theorem rewritten_same (hc : Commutes lib) {e e' : Tree (OfScale s)} (h : Rewrite Declared e e') :
    Agree SameDecimal Eq (evaluateWrapped lib e) (evaluateWrapped lib e') :=
  h.evaluate SameDecimal.refl (fun op _ _ _ _ ha hb => wrapped_same op.1 op.2 op.2 ha hb)
    fun _ _ => declared_same hc

theorem holds_same (r : Relation) {a a' b b' : Datum} (ha : SameDecimal a a')
    (hb : SameDecimal b b') : r.holds lib a b = r.holds lib a' b' := by
  rw [holds_ofSign, holds_ofSign, compare, compare, ha, hb]

theorem compared_same (r : Relation) {a a' b b' : Tree (OfScale s)}
    (ha : Agree SameDecimal Eq (evaluateWrapped lib a) (evaluateWrapped lib a'))
    (hb : Agree SameDecimal Eq (evaluateWrapped lib b) (evaluateWrapped lib b')) :
    (Condition.compare r a b).decide lib = (Condition.compare r a' b').decide lib := by
  refine (ha.bind (Q := Eq) fun x x' hx => hb.bind fun y y' hy => ?_).eq
  exact .ok (holds_same r hx hy)

theorem planned_step (hc : Commutes lib) (hl : SignCompare lib) {p q : Condition (OfScale s)}
    (h : Planned p q) : p.decide lib = q.decide lib := by
  induction h with
  | left h => exact compared_same _ (rewritten_same hc h) (Agree.same SameDecimal.refl _)
  | right h => exact compared_same _ (Agree.same SameDecimal.refl _) (rewritten_same hc h)
  | @commute r a b =>
    rw [Condition.decide, Condition.decide,
      bind_swap (fun _ => evaluated_error) (fun _ => evaluated_error)]
    simp only [holds_commutator hl]
  | @negate r a b =>
    simp only [Condition.decide, bind_assoc, holds_negator]
    rfl
  | not _ ih => rw [Condition.decide, Condition.decide, ih]
  | andLeft _ ih => rw [Condition.decide, Condition.decide, ih]
  | andRight _ ih => rw [Condition.decide, Condition.decide, ih]
  | orLeft _ ih => rw [Condition.decide, Condition.decide, ih]
  | orRight _ ih => rw [Condition.decide, Condition.decide, ih]

theorem output_same {e e' : Tree (OfScale s)}
    (h : Agree SameDecimal Eq (evaluateWrapped lib e) (evaluateWrapped lib e'))
    (tmp tmp' : Buffer Byte 42) : output lib tmp e = output lib tmp' e' := by
  refine (h.bind (Q := Eq) fun d d' hd => ?_).eq
  rw [fxyptyOut, fxyptyOut, hd, fxyptyOut_alike tmp tmp']
  exact Agree.refl _

theorem planner_preserves (hc : Commutes lib) (hl : SignCompare lib) :
    (∀ p q : Condition (OfScale s), Relation.EqvGen Planned p q → p.decide lib = q.decide lib) ∧
    ∀ e e' : Tree (OfScale s), Relation.EqvGen (Rewrite Declared) e e' →
      ∀ tmp tmp', output lib tmp e = output lib tmp' e' := by
  constructor
  · intro p q h
    induction h with
    | rel p q h => exact planned_step hc hl h
    | refl p => rfl
    | symm p q _ ih => exact ih.symm
    | trans p q r _ _ ihp ihq => exact ihp.trans ihq
  · intro e e' h
    induction h with
    | rel e e' h => exact output_same (rewritten_same hc h)
    | refl e => exact output_same (Agree.same SameDecimal.refl _)
    | symm e e' _ ih => exact fun tmp tmp' => (ih tmp' tmp).symm
    | trans e e' e'' _ _ ih ih' => exact fun tmp tmp' => (ih tmp tmp).trans (ih' tmp tmp')

def written : Condition (OfScale 2) :=
  .not (.compare .lt (.node (.add, blank) (.leaf (cents 1012)) (.leaf (cents 24568)))
    (.leaf (cents 1)))

def executed : Condition (OfScale 2) :=
  .compare .lte (.leaf (cents 1)) (.node (.add, blank) (.leaf (cents 24568)) (.leaf (cents 1012)))

theorem planner_preserves_written :
    written.decide truncating = executed.decide truncating ∧ executed.decide truncating = .ok true :=
  ⟨(planner_preserves truncating_commutes truncating_compare).1 written executed
      (.trans _ _ _ (.rel _ _ .negate)
        (.trans _ _ _ (.rel _ _ .commute) (.rel _ _ (.right (.root (.commute blank rfl)))))),
    rfl⟩

end Fxypty
