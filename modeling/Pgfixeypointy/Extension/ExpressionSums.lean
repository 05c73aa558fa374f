import Pgfixeypointy.Extension.Accuracy
import Pgfixeypointy.Extension.Grouping

namespace Fxypty

open FxyptyImpl Expression Lockstep Aggregate

variable {lib : Libfixeypointy} {s : Scale}

def sumOf (lib : Libfixeypointy) (padding : Nat → Buffer Byte 4) (es : List (Tree (OfScale s))) :
    Except Fault (Option Datum) := do
  let rows ← forEach (fun _ e => evaluateWrapped lib e) 0 es
  sumAggregate lib padding (rows.map some)

def exactValues (es : List (Tree (OfScale s))) : Except Unit (List ℚ) :=
  forEach (fun _ e => exactValue e) 0 es

def accuracies (es : List (Tree (OfScale s))) : Except Unit (List (Ball ℚ)) :=
  forEach (fun _ e => accuracy e) 0 es

theorem accuracies_center {es : List (Tree (OfScale s))} {bs : List (Ball ℚ)}
    (hb : accuracies es = .ok bs) : exactValues es = .ok (bs.map Ball.center) :=
  forEach_image (fun _ _ _ => accuracy_center) hb

theorem rows_covered (hl : ExactArithmetic lib) {es : List (Tree (OfScale s))} {rows : List Datum}
    {bs : List (Ball ℚ)} (hb : accuracies es = .ok bs)
    (hrows : forEach (fun _ e => evaluateWrapped lib e) 0 es = .ok rows) :
    List.Forall₂ (fun (b : Ball ℚ) d => d.decimal.scale = s ∧ b.Covers d.decimal.val) bs rows :=
  forEach_both (fun _ _ _ _ hb hd => evaluated_covers hl hd hb) hb hrows

theorem scales_of_covered {bs : List (Ball ℚ)} {rows : List Datum}
    (h : List.Forall₂ (fun (b : Ball ℚ) d => d.decimal.scale = s ∧ b.Covers d.decimal.val) bs rows) :
    (∀ d ∈ rows, d.decimal.scale = s) ∧ List.Forall₂ Ball.Covers bs (rows.map (·.decimal.val)) := by
  induction h with
  | nil => exact ⟨fun d hd => absurd hd List.not_mem_nil,.nil⟩
  | cons h _ ih =>
    refine ⟨fun d hd => ?_,.cons h.2 ih.2⟩
    rcases List.mem_cons.mp hd with rfl | hd
    · exact h.1
    · exact ih.1 d hd

theorem vals_sum {rows : List Datum} (h : ∀ d ∈ rows, d.decimal.scale = s) :
    (rows.map (·.decimal.val)).sum = ((rows.map (·.decimal.raw)).sum : Int) * unit s := by
  induction rows with
  | nil => simp
  | cons d rows ih =>
    rw [List.map_cons, List.sum_cons, List.map_cons, List.sum_cons,
      ih fun d hd => h d (List.mem_cons_of_mem _ hd), val_eq, h d List.mem_cons_self, Int.cast_add,
      add_mul]

theorem sum_of_within (hl : ExactArithmetic lib) {padding : Nat → Buffer Byte 4}
    {es : List (Tree (OfScale s))} (hne : es ≠ []) {r : Option Datum}
    (hr : sumOf lib padding es = .ok r) {bs : List (Ball ℚ)} (hb : accuracies es = .ok bs) :
    ∃ d xs, r = some d ∧ exactValues es = .ok xs ∧ d.decimal.scale = s ∧
      |d.decimal.val - xs.sum| ≤ (Ball.sum bs).radius := by
  obtain ⟨rows,hrows,hr⟩ := bind_eq_ok hr
  have hall := rows_covered hl hb hrows
  obtain ⟨hscales,hcovers⟩ := scales_of_covered hall
  have hscale : ∀ d, some d ∈ rows.map some → d.decimal.scale = s := by
    intro d hd
    obtain ⟨d,hm,⟨⟩⟩ := List.mem_map.mp hd
    exact hscales d hm
  have hsome : (rows.map some).reduceOption ≠ [] := by
    rw [reduceOption_some]
    cases es with
    | nil => exact absurd rfl hne
    | cons e es =>
      obtain ⟨d,rows,rfl,-,-⟩ := forEach_cons hrows
      exact List.cons_ne_nil d rows
  obtain ⟨d,rfl,hds,hdr⟩ := sum_totals hl.add hscale hsome hr
  refine ⟨d,_,rfl,accuracies_center hb,hds,?_⟩
  have hsum := Ball.Covers.sum hcovers
  rw [Ball.Covers, Ball.sum_center, vals_sum hscales] at hsum
  rwa [val_eq, hds, hdr, exactSum, reduceOption_some]

def products : List (Tree (OfScale 2)) :=
  [.node (.multiply, blank) (.leaf (cents 1012)) (.leaf (cents 245)),
    .node (.subtract, blank)
      (.node (.multiply, blank) (.leaf (cents 245)) (.leaf (cents 245))) (.leaf (cents 1012))]

theorem sum_of_within_products : ∃ d xs bs,
    sumOf truncating (fun _ => blank) products = .ok (some d) ∧ exactValues products = .ok xs ∧
    accuracies products = .ok bs ∧ d.decimal.raw = 2067 ∧ (Ball.sum bs).radius = 2 / 100 ∧
    |d.decimal.val - xs.sum| ≤ (Ball.sum bs).radius := by
  have hradius : (accuracies products).toOption.map (fun bs => (Ball.sum bs).radius) =
      some (2 / 100) := by decide +kernel
  cases hb : accuracies products with
  | error u =>
    rw [hb] at hradius
    cases hradius
  | ok bs =>
    rw [hb] at hradius
    have hd : sumOf truncating (fun _ => blank) products = .ok (some (stored 2067 2)) := rfl
    obtain ⟨_,xs,⟨⟩,hxs,-,hwithin⟩ := sum_of_within truncating_exact (List.cons_ne_nil _ _) hd hb
    exact ⟨_,xs,bs,hd,hxs,rfl,by decide,Option.some.inj hradius,hwithin⟩

end Fxypty
