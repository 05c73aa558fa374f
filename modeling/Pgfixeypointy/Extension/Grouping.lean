import Pgfixeypointy.Library.Lockstep
import Pgfixeypointy.Extension.Aggregates

namespace Fxypty

open FxyptyImpl Aggregate Lockstep

def grouped (aggregate : Nat → List (Option Datum) → Except Fault (Option Datum))
    (groups : List (List (Option Datum))) : Except Fault (Option Datum) := do
  let parts ← forEach (fun n g => aggregate (n + 1) g) 0 groups
  aggregate 0 parts

variable {lib : Libfixeypointy} {s : Scale}

theorem decimal_ext {x y : FxyPtyDecimal} (hs : x.scale = y.scale) (hr : x.raw = y.raw) : x = y := by
  rw [← wrap_pack128 x, ← wrap_pack128 y, BitVec.toInt_inj.mp hr, hs]

theorem choice_grouping_free {raw : Datum → Datum → Prop} {choose : Datum → Datum → Datum}
    (h : Chooses raw choose) (hrefl : ∀ d, raw d d) (htrans : ∀ d e f, raw d e → raw e f → raw d f)
    (hanti : ∀ d e, raw d e → raw e d → d.decimal.raw = e.decimal.raw)
    {groups : List (List (Option Datum))} {rows : List (Option Datum)}
    (hp : groups.flatten.Perm rows) (hs : ∀ d, some d ∈ rows → d.decimal.scale = s) :
    ∃ r r', grouped (fun _ => fold (fun _ x a => .ok (choose x a)) 0 none) groups = .ok r ∧
      fold (fun _ x a => (.ok (choose x a) : Except Fault Datum)) 0 none rows = .ok r' ∧
      r.map Datum.decimal = r'.map Datum.decimal := by
  obtain ⟨parts,hparts,hall⟩ := forEach_ok (E := Fault)
    (fun (n : Nat) g (_ : g ∈ groups) => h.fold_part (E := Fault) hrefl htrans g) 0
  obtain ⟨r,hr,hpart⟩ := h.fold_part (E := Fault) hrefl htrans parts
  obtain ⟨r',hr',hpart'⟩ := h.fold_part (E := Fault) hrefl htrans rows
  have hflat := (Part.flatten htrans hall hpart).perm hp
  refine ⟨r,r',by rw [grouped, hparts]; exact hr,hr',?_⟩
  have hboth := hflat.both hpart'
  cases hboth with
  | none => rfl
  | some hde =>
    have hscale := (hs _ hflat.mem).trans (hs _ hpart'.mem).symm
    exact congrArg some (decimal_ext hscale (hanti _ _ hde.1 hde.2))

inductive Totalled (s : Scale) (rows : List (Option Datum)) : Option Datum → Prop where
  | empty (h : rows.reduceOption = []) : Totalled s rows none
  | total {d} (hne : rows.reduceOption ≠ []) (hs : d.decimal.scale = s)
      (hr : d.decimal.raw = exactSum rows) : Totalled s rows (some d)

theorem sum_totalled (hadd : ExactAdd lib) {padding : Nat → Buffer Byte 4}
    {rows : List (Option Datum)} {r : Option Datum} (hs : ∀ d, some d ∈ rows → d.decimal.scale = s)
    (h : sumAggregate lib padding rows = .ok r) : Totalled s rows r := by
  by_cases hne : rows.reduceOption = []
  · rw [sumAggregate, fold_empty hne] at h
    obtain rfl := Except.ok.inj h
    exact .empty hne
  · obtain ⟨d,rfl,hds,hdr⟩ := sum_totals hadd hs hne h
    exact .total hne hds hdr

theorem exactSum_append (rows rows' : List (Option Datum)) :
    exactSum (rows ++ rows') = exactSum rows + exactSum rows' := by
  rw [exactSum, List.reduceOption_append, List.map_append, List.sum_append]
  rfl

theorem totals_combine {groups : List (List (Option Datum))} {parts : List (Option Datum)}
    (h : List.Forall₂ (Totalled s) groups parts) :
    exactSum parts = exactSum groups.flatten ∧
      (∀ d, some d ∈ parts → d.decimal.scale = s) ∧
      (parts.reduceOption = [] ↔ groups.flatten.reduceOption = []) := by
  induction h with
  | nil => simp
  | @cons g r groups parts hgr _ ih =>
    obtain ⟨hsum,hscale,hnil⟩ := ih
    rw [List.flatten_cons, exactSum_append, ← hsum, List.reduceOption_append,
      List.append_eq_nil_iff, ← hnil]
    cases hgr with
    | empty hg =>
      have hz : exactSum g = 0 := by rw [exactSum, hg]; rfl
      refine ⟨?_,fun d hd => hscale d (by simpa using hd),by simp [hg]⟩
      rw [hz, zero_add]
      rfl
    | @total d hne hs hr =>
      refine ⟨?_,fun e he => ?_,by simp [hne]⟩
      · rw [← hr]
        rfl
      · rcases List.mem_cons.mp he with he | he
        · obtain rfl := Option.some.inj he
          exact hs
        · exact hscale e he

theorem Totalled.flatten {groups : List (List (Option Datum))} {parts : List (Option Datum)}
    {r : Option Datum} (h : List.Forall₂ (Totalled s) groups parts) (hr : Totalled s parts r) :
    Totalled s groups.flatten r := by
  obtain ⟨hsum,-,hnil⟩ := totals_combine h
  cases hr with
  | empty hr => exact .empty (hnil.mp hr)
  | total hne hs hr => exact .total (hnil.not.mp hne) hs (hr.trans hsum)

theorem Totalled.same {rows rows' : List (Option Datum)} {r r' : Option Datum}
    (hp : rows.Perm rows') (h : Totalled s rows r) (h' : Totalled s rows' r') :
    r.map Datum.decimal = r'.map Datum.decimal := by
  have hp' : rows.reduceOption.Perm rows'.reduceOption := hp.filterMap id
  cases h with
  | empty h =>
    cases h' with
    | empty _ => rfl
    | total hne _ _ => exact absurd (List.nil_perm.mp (h ▸ hp')) hne
  | total hne hs hr =>
    cases h' with
    | empty h' => exact absurd (List.perm_nil.mp (h' ▸ hp')) hne
    | total _ hs' hr' =>
      have hsum : exactSum rows = exactSum rows' := (hp'.map _).sum_eq
      exact congrArg some (decimal_ext (hs.trans hs'.symm) (hr.trans (hsum.trans hr'.symm)))

theorem grouped_sum (hadd : ExactAdd lib) {padding : Nat → Nat → Buffer Byte 4}
    {groups : List (List (Option Datum))} {r : Option Datum}
    (hs : ∀ d, some d ∈ groups.flatten → d.decimal.scale = s)
    (hr : grouped (fun n => sumAggregate lib (padding n)) groups = .ok r) :
    Totalled s groups.flatten r := by
  obtain ⟨parts,hparts,hr⟩ := Expression.bind_eq_ok hr
  have hall : List.Forall₂ (Totalled s) groups parts := by
    refine forEach_each (fun n g hg r hsum => ?_) hparts
    exact sum_totalled hadd (fun d hd => hs d (List.mem_flatten.mpr ⟨g,hg,hd⟩)) hsum
  exact .flatten hall (sum_totalled hadd (totals_combine hall).2.1 hr)

theorem grouping_free (hadd : ExactAdd lib) (hl : SignCompare lib)
    {groups : List (List (Option Datum))} {rows : List (Option Datum)}
    (hp : groups.flatten.Perm rows) (hs : ∀ d, some d ∈ rows → d.decimal.scale = s) :
    (∃ r r', grouped (fun _ => minAggregate lib) groups = .ok r ∧ minAggregate lib rows = .ok r' ∧
      r.map Datum.decimal = r'.map Datum.decimal) ∧
    (∃ r r', grouped (fun _ => maxAggregate lib) groups = .ok r ∧ maxAggregate lib rows = .ok r' ∧
      r.map Datum.decimal = r'.map Datum.decimal) ∧
    ∀ (padding : Nat → Nat → Buffer Byte 4) padding' r r',
      grouped (fun n => sumAggregate lib (padding n)) groups = .ok r →
      sumAggregate lib padding' rows = .ok r' → r.map Datum.decimal = r'.map Datum.decimal := by
  refine ⟨?_,?_,fun padding padding' r r' hr hr' => ?_⟩
  · exact choice_grouping_free (smaller_chooses hl) (fun _ => le_rfl) (fun _ _ _ => le_trans)
      (fun _ _ => le_antisymm) hp hs
  · exact choice_grouping_free (larger_chooses hl) (fun _ => le_rfl)
      (fun _ _ _ h h' => le_trans h' h) (fun _ _ h h' => le_antisymm h' h) hp hs
  · have hflat : ∀ d, some d ∈ groups.flatten → d.decimal.scale = s :=
      fun d hd => hs d (hp.mem_iff.mp hd)
    exact (grouped_sum hadd hflat hr).same hp (sum_totalled hadd hs hr')

theorem grouping_free_amounts :
    grouped (fun _ => sumAggregate truncating fun _ => blank) [[some (stored 1 2)], [], amounts] =
      .ok (some (stored (-23555) 2)) ∧
    ∀ rows, ([[some (stored 1 2)], [], amounts].flatten).Perm rows → ∀ r,
      sumAggregate truncating (fun _ => blank) rows = .ok r →
        some (FxyPtyDecimal.wrap (-23555) 2) = r.map Datum.decimal := by
  have hrun : grouped (fun _ => sumAggregate truncating fun _ => blank)
      [[some (stored 1 2)], [], amounts] = .ok (some (stored (-23555) 2)) := rfl
  refine ⟨hrun,fun rows hp r hr => ?_⟩
  have hs : ∀ d, some d ∈ rows → d.decimal.scale = 2 := by
    intro d hd
    have hm := hp.mem_iff.mpr hd
    simp only [amounts, List.flatten_cons, List.flatten_nil, List.nil_append, List.append_nil,
      List.singleton_append, List.mem_cons, Option.some.injEq, reduceCtorEq, List.not_mem_nil,
      false_or, or_false] at hm
    rcases hm with rfl | rfl | rfl <;> rw [stored_decimal, wrap_scale]
  have h := (grouping_free truncating_exact.add truncating_compare hp hs).2.2 (fun _ _ => blank) _ _ _
    hrun hr
  rwa [Option.map_some, stored_decimal] at h

end Fxypty
