import Mathlib.Algebra.BigOperators.Group.List.Basic
import Pgfixeypointy.Extension.Accuracy

namespace Fxypty

open FxyptyImpl Expression

def evaluateMixed (lib : Libfixeypointy) (e : Tree Datum) : Except Fault Datum :=
  e.evaluate id fun op a b => op.1.wrapped lib op.2 a b

def denoted (e : Tree Datum) : Except Unit ℚ :=
  e.evaluate (·.decimal.val) fun op x y => op.1.onNumbers x y

def lead : Tree Datum → Datum
  | .leaf d => d
  | .node _ left _ => lead left

def Additive : Tree Datum → Prop
  | .leaf _ => True
  | .node op left right => (op.1 = .add ∨ op.1 = .subtract) ∧ Additive left ∧ Additive right

def additive : (e : Tree Datum) → Decidable (Additive e)
  | .leaf _ => isTrue trivial
  | .node op left right =>
      have := additive left
      have := additive right
      inferInstanceAs (Decidable ((op.1 = .add ∨ op.1 = .subtract) ∧ Additive left ∧ Additive right))

instance : DecidablePred Additive := additive

def terms : Int → Tree Datum → List (Int × Datum)
  | k, .leaf d => [(k, d)]
  | k, .node op left right => terms k left ++ terms (if op.1 = .subtract then -k else k) right

def total (f : Datum → ℚ) (ts : List (Int × Datum)) : ℚ := (ts.map fun t => t.1 * f t.2).sum

def drift (s : Scale) (d : Datum) : ℚ := d.decimal.raw * (unit s - unit d.decimal.scale)

variable {lib : Libfixeypointy}

theorem total_append (f : Datum → ℚ) (ts us : List (Int × Datum)) :
    total f (ts ++ us) = total f ts + total f us := by
  rw [total, List.map_append, List.sum_append]
  rfl

theorem total_terms (f : Datum → ℚ) (k : Int) (e : Tree Datum) :
    total f (terms k e) = k * total f (terms 1 e) := by
  induction e generalizing k with
  | leaf d => simp [terms, total]
  | node op left right ihl ihr =>
    rw [terms, terms, total_append, total_append, ihl k, mul_add]
    by_cases hop : op.1 = .subtract
    · rw [if_pos hop, if_pos hop, ihr (-k), ihr (-1)]
      push_cast
      ring
    · rw [if_neg hop, if_neg hop, ihr k]

theorem total_sub (f g : Datum → ℚ) (ts : List (Int × Datum)) :
    total f ts - total g ts = total (fun d => f d - g d) ts := by
  induction ts with
  | nil => simp [total]
  | cons t ts ih =>
    simp only [total, List.map_cons, List.sum_cons] at ih ⊢
    rw [← ih]
    ring

theorem total_mul (f : Datum → ℚ) (c : ℚ) (ts : List (Int × Datum)) :
    total f ts * c = total (fun d => f d * c) ts := by
  induction ts with
  | nil => simp [total]
  | cons t ts ih =>
    simp only [total, List.map_cons, List.sum_cons] at ih ⊢
    rw [← ih]
    ring

theorem mixed_scale {e : Tree Datum} {d : Datum} (h : evaluateMixed lib e = .ok d) :
    d.decimal.scale = (lead e).decimal.scale := by
  induction e generalizing d with
  | leaf a =>
    obtain rfl := Except.ok.inj h
    rfl
  | node op left right ihl _ =>
    obtain ⟨a,b,ha,-,hr⟩ := evaluate_node h
    exact (wrapped_ok hr).2.trans (ihl ha)

theorem denoted_total {e : Tree Datum} (ha : Additive e) :
    denoted e = .ok (total (·.decimal.val) (terms 1 e)) := by
  induction e with
  | leaf d => simp [denoted, evaluate, terms, total]
  | node op left right ihl ihr =>
    obtain ⟨hop,hleft,hright⟩ := ha
    have hl := ihl hleft
    have hr := ihr hright
    rw [denoted] at hl hr
    rw [denoted, evaluate, hl, hr, terms, total_append, total_terms _ (if op.1 = .subtract then -1 else 1) right]
    rcases hop with hop | hop
    · simp [hop, bind, Except.bind, Operator.onNumbers]
    · simp [hop, bind, Except.bind, Operator.onNumbers, sub_eq_add_neg]

theorem mixed_raw (hl : ExactArithmetic lib) {e : Tree Datum} (ha : Additive e) {d : Datum}
    (h : evaluateMixed lib e = .ok d) :
    (d.decimal.raw : ℚ) = total (·.decimal.raw) (terms 1 e) := by
  induction e generalizing d with
  | leaf a =>
    obtain rfl := Except.ok.inj h
    simp [terms, total]
  | node op left right ihl ihr =>
    obtain ⟨hop,hleft,hright⟩ := ha
    obtain ⟨a,b,hea,heb,hr⟩ := evaluate_node h
    obtain ⟨hraw,-⟩ := wrapped_ok hr
    rw [terms, total_append, total_terms _ (if op.1 = .subtract then -1 else 1) right, ← ihl hleft hea, ← ihr hright heb]
    rcases hop with hop | hop
    · rw [hop] at hraw
      have hsum : d.decimal.raw = a.decimal.raw + b.decimal.raw := hl.add _ _ _ hraw
      simp [hop, hsum]
    · rw [hop] at hraw
      have hsub : d.decimal.raw = a.decimal.raw - b.decimal.raw := hl.subtract _ _ _ hraw
      simp [hop, hsub, sub_eq_add_neg]

theorem mixed_sum_drift (hl : ExactArithmetic lib) {e : Tree Datum} (ha : Additive e) {d : Datum}
    (h : evaluateMixed lib e = .ok d) :
    d.decimal.scale = (lead e).decimal.scale ∧
    (d.decimal.raw : ℚ) = total (·.decimal.raw) (terms 1 e) ∧
    ∃ x, denoted e = .ok x ∧
      d.decimal.val - x = total (drift (lead e).decimal.scale) (terms 1 e) ∧
      (d.decimal.val = x ↔ total (drift (lead e).decimal.scale) (terms 1 e) = 0) := by
  have hscale := mixed_scale h
  have hraw := mixed_raw hl ha h
  have hdrift : d.decimal.val - total (·.decimal.val) (terms 1 e) =
      total (drift (lead e).decimal.scale) (terms 1 e) := by
    rw [val_eq, hraw, hscale, total_mul, total_sub]
    congr 1
    funext a
    rw [drift, val_eq, mul_sub]
  refine ⟨hscale,hraw,_,denoted_total ha,hdrift,?_⟩
  rw [← hdrift, sub_eq_zero]

def mixed : Tree Datum :=
  .node (.subtract, blank) (.leaf (stored 15 1))
    (.node (.add, blank) (.leaf (stored 125 2)) (.leaf (stored 5 1)))

theorem mixed_sum_drift_quarter : ∃ d x, evaluateMixed truncating mixed = .ok d ∧
    denoted mixed = .ok x ∧ d.decimal.raw = -115 ∧ d.decimal.val - x = -45 / 4 := by
  have hd : evaluateMixed truncating mixed = .ok (stored (-115) 1) := rfl
  obtain ⟨-,-,x,hx,hdrift,-⟩ := mixed_sum_drift truncating_exact (by decide) hd
  refine ⟨_,x,hd,hx,by decide,?_⟩
  rw [hdrift]
  decide +kernel

end Fxypty
