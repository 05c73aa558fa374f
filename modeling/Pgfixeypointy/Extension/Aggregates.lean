import Pgfixeypointy.Library.Aggregate
import Pgfixeypointy.Extension.Comparison
import Mathlib.Algebra.BigOperators.Group.List.Basic

namespace Fxypty

open FxyptyImpl Aggregate

def ExactAdd (lib : Libfixeypointy) : Prop :=
  ∀ x y r, lib.add x y = some r → r.toInt = x.toInt + y.toInt

-- the aggregates of the script; padding is what palloc leaves behind the result of each call
def sumAggregate (lib : Libfixeypointy) (padding : Nat → Buffer Byte 4)
    (rows : List (Option Datum)) : Except Fault (Option Datum) :=
  fold (fun n => fxyptyAdd lib (padding n)) 0 none rows

def minAggregate (lib : Libfixeypointy) (rows : List (Option Datum)) : Except Fault (Option Datum) :=
  fold (fun _ state row => .ok (fxyptySmaller lib state row)) 0 none rows

def maxAggregate (lib : Libfixeypointy) (rows : List (Option Datum)) : Except Fault (Option Datum) :=
  fold (fun _ state row => .ok (fxyptyLarger lib state row)) 0 none rows

def rawLe (d e : Datum) : Prop := d.decimal.raw ≤ e.decimal.raw

def rawGe (d e : Datum) : Prop := e.decimal.raw ≤ d.decimal.raw

variable {lib : Libfixeypointy}

theorem smaller_le (hl : SignCompare lib) (a b : Datum) :
    rawLe (fxyptySmaller lib a b) a ∧ rawLe (fxyptySmaller lib a b) b := by
  have h := compare_neg_iff hl a b
  unfold rawLe fxyptySmaller
  split <;> omega

theorem larger_ge (hl : SignCompare lib) (a b : Datum) :
    rawGe (fxyptyLarger lib a b) a ∧ rawGe (fxyptyLarger lib a b) b := by
  have h := compare_neg_iff hl a b
  unfold rawGe fxyptyLarger
  split <;> omega

theorem smaller_chooses (hl : SignCompare lib) : Chooses rawLe (fxyptySmaller lib) :=
  ⟨smaller_operand,fun a b => (smaller_le hl a b).1,fun a b => (smaller_le hl a b).2⟩

theorem larger_chooses (hl : SignCompare lib) : Chooses rawGe (fxyptyLarger lib) :=
  ⟨larger_operand,fun a b => (larger_ge hl a b).1,fun a b => (larger_ge hl a b).2⟩

theorem fxyptyAdd_ok (hadd : ExactAdd lib) {padding : Buffer Byte 4} {a b r : Datum}
    (h : fxyptyAdd lib padding a b = .ok r) :
    r.decimal.scale = a.decimal.scale ∧ r.decimal.raw = a.decimal.raw + b.decimal.raw := by
  obtain ⟨x,hx,rfl⟩ := operator_ok h
  obtain ⟨hraw,hscale⟩ := operate_eq_some.mp hx
  rw [Datum.decimal_ofDecimal]
  exact ⟨hscale,hadd _ _ _ hraw⟩

def exactSum (rows : List (Option Datum)) : Int := (rows.reduceOption.map (·.decimal.raw)).sum

def Totals (s : Scale) (seen : List Datum) (d : Datum) : Prop :=
  (∀ b ∈ seen, b.decimal.scale = s) →
    d.decimal.scale = s ∧ d.decimal.raw = (seen.map (·.decimal.raw)).sum

theorem sum_totals (hadd : ExactAdd lib) {padding : Nat → Buffer Byte 4} {s : Scale}
    {rows : List (Option Datum)} {r : Option Datum} (hs : ∀ d, some d ∈ rows → d.decimal.scale = s)
    (hne : rows.reduceOption ≠ []) (h : sumAggregate lib padding rows = .ok r) :
    ∃ d, r = some d ∧ d.decimal.scale = s ∧ d.decimal.raw = exactSum rows := by
  have hone (a : Datum) : Totals s [a] a :=
    fun hs => ⟨hs a (List.mem_singleton_self a),by simp⟩
  have hstep (n : Nat) (seen : List Datum) (x a y : Datum) (hx : Totals s seen x)
      (hy : fxyptyAdd lib (padding n) x a = .ok y) : Totals s (seen ++ [a]) y := by
    intro hs
    obtain ⟨hscale,hraw⟩ := fxyptyAdd_ok hadd hy
    obtain ⟨hxs,hxr⟩ := hx fun b hb => hs b (List.mem_append_left _ hb)
    refine ⟨hscale.trans hxs,?_⟩
    rw [hraw, hxr, List.map_append, List.sum_append, List.map_singleton, List.sum_singleton]
  obtain ⟨d,hr,hd⟩ := fold_invariant hone hstep hne h
  exact ⟨d,hr,hd fun b hb => hs b (List.reduceOption_mem_iff.mp hb)⟩

structure Extremum (le : ℚ → ℚ → Prop) (s : Scale) (rows : List (Option Datum)) (d : Datum) :
    Prop where
  row : some d ∈ rows
  scale : d.decimal.scale = s
  bound : ∀ e, some e ∈ rows → le d.decimal.val e.decimal.val

def OrderFree (le : ℚ → ℚ → Prop) (s : Scale)
    (aggregate : List (Option Datum) → Except Fault (Option Datum))
    (rows rows' : List (Option Datum)) : Prop :=
  ∃ d d', aggregate rows = .ok (some d) ∧ aggregate rows' = .ok (some d') ∧
    d.decimal.raw = d'.decimal.raw ∧ Extremum le s rows d ∧ Extremum le s rows d'

theorem val_le_val {x y : FxyPtyDecimal} (h : x.scale = y.scale) (hr : x.raw ≤ y.raw) :
    x.val ≤ y.val := by
  have hp : (0 : ℚ) < 10 ^ y.scale.toNat := by positivity
  rw [FxyPtyDecimal.val, FxyPtyDecimal.val, h, div_le_div_iff_of_pos_right hp]
  exact_mod_cast hr

theorem order_free_of_chooses {raw : Datum → Datum → Prop} {choose : Datum → Datum → Datum}
    (h : Chooses raw choose) (hrefl : ∀ d, raw d d) (htrans : ∀ d e f, raw d e → raw e f → raw d f)
    (hanti : ∀ d e, raw d e → raw e d → d.decimal.raw = e.decimal.raw) {le : ℚ → ℚ → Prop}
    (hle : ∀ d e, d.decimal.scale = e.decimal.scale → raw d e → le d.decimal.val e.decimal.val)
    {s : Scale} {rows rows' : List (Option Datum)} (hs : ∀ d, some d ∈ rows → d.decimal.scale = s)
    (hne : rows.reduceOption ≠ []) (hperm : rows.Perm rows') :
    OrderFree le s (fold (fun _ x a => .ok (choose x a)) 0 none) rows rows' := by
  have hp : rows'.reduceOption.Perm rows.reduceOption := hperm.symm.filterMap id
  have hne' : rows'.reduceOption ≠ [] := fun hnil => hne (List.nil_perm.mp (hnil ▸ hp))
  have hextremum {d : Datum} (hd : Least raw rows.reduceOption d) : Extremum le s rows d := by
    have hrow := List.reduceOption_mem_iff.mp hd.1
    refine ⟨hrow,hs d hrow,fun e he => hle d e ((hs d hrow).trans (hs e he).symm) ?_⟩
    exact hd.2 e (List.reduceOption_mem_iff.mpr he)
  obtain ⟨d,hrun,hd⟩ := h.fold_least (E := Fault) hrefl htrans hne
  obtain ⟨d',hrun',hd'⟩ := h.fold_least (E := Fault) hrefl htrans hne'
  obtain ⟨hle1,hle2⟩ := hd.both (hd'.perm hp)
  exact ⟨d,d',hrun,hrun',hanti d d' hle1 hle2,hextremum hd,hextremum (hd'.perm hp)⟩

def amounts : List (Option Datum) := [some (stored 1012 2), none, some (stored (-24568) 2)]

theorem aggregates_order_free (hadd : ExactAdd lib) (hl : SignCompare lib) {s : Scale}
    {rows rows' : List (Option Datum)} (hs : ∀ d, some d ∈ rows → d.decimal.scale = s)
    (hne : ∃ d, some d ∈ rows) (hperm : rows.Perm rows') :
    OrderFree (· ≤ ·) s (minAggregate lib) rows rows' ∧
    OrderFree (· ≥ ·) s (maxAggregate lib) rows rows' ∧
    ∀ padding padding' r r', sumAggregate lib padding rows = .ok r →
      sumAggregate lib padding' rows' = .ok r' → ∃ d d', r = some d ∧ r' = some d' ∧
        d.decimal.scale = s ∧ d'.decimal.scale = s ∧
        d.decimal.raw = exactSum rows ∧ d'.decimal.raw = exactSum rows := by
  obtain ⟨a,ha⟩ := hne
  have hne : rows.reduceOption ≠ [] := List.ne_nil_of_mem (List.reduceOption_mem_iff.mpr ha)
  have hp : rows.reduceOption.Perm rows'.reduceOption := hperm.filterMap id
  have hne' : rows'.reduceOption ≠ [] :=
    List.ne_nil_of_mem (List.reduceOption_mem_iff.mpr (hperm.mem_iff.mp ha))
  refine ⟨?_,?_,fun padding padding' r r' h h' => ?_⟩
  · exact order_free_of_chooses (smaller_chooses hl) (fun _ => le_rfl) (fun _ _ _ => le_trans)
      (fun _ _ => le_antisymm) (fun _ _ hscale h => val_le_val hscale h) hs hne hperm
  · exact order_free_of_chooses (larger_chooses hl) (fun _ => le_rfl) (fun _ _ _ h h' => le_trans h' h)
      (fun _ _ h h' => le_antisymm h' h)
      (fun d e hscale h => val_le_val (x := e.decimal) (y := d.decimal) hscale.symm h) hs hne hperm
  · obtain ⟨d,hr,hscale,hraw⟩ := sum_totals hadd hs hne h
    obtain ⟨d',hr',hscale',hraw'⟩ :=
      sum_totals hadd (fun d hd => hs d (hperm.mem_iff.mpr hd)) hne' h'
    have hsum : exactSum rows' = exactSum rows := (hp.symm.map _).sum_eq
    exact ⟨d,d',hr,hr',hscale,hscale',hraw,hraw'.trans hsum⟩

theorem aggregates_order_free_amounts :
    OrderFree (· ≤ ·) 2 (minAggregate truncating) amounts amounts.reverse ∧
    OrderFree (· ≥ ·) 2 (maxAggregate truncating) amounts amounts.reverse ∧
    ∃ d d', sumAggregate truncating (fun _ => blank) amounts = .ok (some d) ∧
      sumAggregate truncating (fun _ => blank) amounts.reverse = .ok (some d') ∧
      d.decimal.raw = exactSum amounts ∧ d'.decimal.raw = exactSum amounts := by
  have hs : ∀ d, some d ∈ amounts → d.decimal.scale = 2 := by
    intro d hd
    simp only [amounts, List.mem_cons, Option.some.injEq, reduceCtorEq, List.not_mem_nil,
      false_or, or_false] at hd
    rcases hd with rfl | rfl <;> rw [stored_decimal, wrap_scale]
  obtain ⟨hmin,hmax,hsum⟩ := aggregates_order_free truncating_exact.add truncating_compare hs
    ⟨_,List.mem_cons_self⟩ (List.reverse_perm amounts).symm
  obtain ⟨d,d',hr,hr',-,-,hraw,hraw'⟩ := hsum (fun _ => blank) (fun _ => blank)
    (some (stored (-23556) 2)) (some (stored (-23556) 2)) rfl rfl
  exact ⟨hmin,hmax,d,d',congrArg Except.ok hr,congrArg Except.ok hr',hraw,hraw'⟩

end Fxypty
