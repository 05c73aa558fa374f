import Pgfixeypointy.Library.Expression
import Pgfixeypointy.Impl.Exactness
import Pgfixeypointy.Impl.StackFree
import Pgfixeypointy.Extension.Comparison

namespace Fxypty

open FxyptyImpl Expression

variable {lib : Libfixeypointy}

-- text compares prints over any two stacks, prints compares them over one
structure Interchangeable (lib : Libfixeypointy) (r r' : Datum) : Prop where
  eq : fxyptyEq lib r r' = true
  prints : ∀ tmp, (fxyptyOut tmp r).map cString = (fxyptyOut tmp r').map cString
  text : ∀ tmp tmp' b b', fxyptyOut tmp r = .ok b → fxyptyOut tmp' r' = .ok b' →
    cString b = cString b'

abbrev Commute (lib : Libfixeypointy) : Except Fault Datum → Except Fault Datum → Prop :=
  Agree (Interchangeable lib) fun _ _ => True

-- the COMMUTATOR and NEGATOR clauses of the script
structure DeclaredLaws (lib : Libfixeypointy) (a b : Datum) : Prop where
  add : ∀ padding padding', Commute lib (fxyptyAdd lib padding a b) (fxyptyAdd lib padding' b a)
  multiply : ∀ padding padding',
    Commute lib (fxyptyMultiply lib padding a b) (fxyptyMultiply lib padding' b a)
  eq_comm : fxyptyEq lib a b = fxyptyEq lib b a
  neq_comm : fxyptyNeq lib a b = fxyptyNeq lib b a
  lt_gt : fxyptyLt lib a b = fxyptyGt lib b a
  gt_lt : fxyptyGt lib a b = fxyptyLt lib b a
  lte_gte : fxyptyLte lib a b = fxyptyGte lib b a
  gte_lte : fxyptyGte lib a b = fxyptyLte lib b a
  not_eq : fxyptyNeq lib a b = !fxyptyEq lib a b
  not_lt : fxyptyGte lib a b = !fxyptyLt lib a b
  not_gt : fxyptyLte lib a b = !fxyptyGt lib a b

theorem compare_swap (hl : SignCompare lib) (a b : Datum) : compare lib b a = -compare lib a b := by
  rw [compare_sign hl, compare_sign hl, ← Int.sign_neg, neg_sub]

theorem interchangeable_of_decimal (hl : SignCompare lib) {r r' : Datum}
    (h : r.decimal = r'.decimal) : Interchangeable lib r r' where
  eq := by simp [fxyptyEq, compare_sign hl, h]
  prints tmp := by simp only [fxyptyOut, h]
  text tmp tmp' b b' hb hb' := by
    rw [fxyptyOut, ← h, fxyptyOut_alike tmp' tmp] at hb'
    rw [Except.ok.inj (hb.symm.trans hb')]

theorem operator_swap {R : Datum → Datum → Prop} {S : Fault → Fault → Prop}
    (hR : ∀ r r' : Datum, r.decimal = r'.decimal → R r r') (hS : ∀ fault, S fault fault)
    {op : Raw → Raw → Scale → Option Raw} (hop : ∀ x y k, op x y k = op y x k) {a b : Datum}
    (h : a.decimal.scale = b.decimal.scale) (padding padding' : Buffer Byte 4) :
    Agree R S (operator (operate op) padding a b) (operator (operate op) padding' b a) := by
  have hr : operate op b.decimal a.decimal = operate op a.decimal b.decimal := by
    rw [operate, operate, hop, h]
  rw [operator, operator, hr]
  cases operate op a.decimal b.decimal with
  | none => exact .error (hS _)
  | some r => exact .ok (hR _ _ (by rw [Datum.decimal_ofDecimal, Datum.decimal_ofDecimal]))

theorem operator_commute (hl : SignCompare lib) {op : Raw → Raw → Scale → Option Raw}
    (hop : ∀ x y k, op x y k = op y x k) {a b : Datum} (h : a.decimal.scale = b.decimal.scale)
    (padding padding' : Buffer Byte 4) :
    Commute lib (operator (operate op) padding a b) (operator (operate op) padding' b a) :=
  operator_swap (fun _ _ => interchangeable_of_decimal hl) (fun _ => trivial) hop h padding padding'

theorem declared_laws (hc : Commutes lib) (hl : SignCompare lib) {a b : Datum}
    (h : a.decimal.scale = b.decimal.scale) : DeclaredLaws lib a b := by
  have hcmp := compare_swap hl a b
  refine ⟨operator_commute hl (fun x y _ => hc.add x y) h,operator_commute hl hc.multiply h,
    ?_,?_,?_,?_,?_,?_,?_,?_,?_⟩
  · simp [fxyptyEq, hcmp]
  · simp [fxyptyNeq, hcmp]
  · simp [fxyptyLt, fxyptyGt, hcmp]
  · simp [fxyptyLt, fxyptyGt, hcmp]
  · simp [fxyptyLte, fxyptyGte, hcmp]
  · simp [fxyptyLte, fxyptyGte, hcmp]
  · simp [fxyptyEq, fxyptyNeq]
  · rw [fxyptyGte, fxyptyLt, ← decide_not]
    simp
  · rw [fxyptyLte, fxyptyGt, ← decide_not]
    simp

def vanishing : Libfixeypointy := { truncating with add := fun _ _ => some 0 }

theorem vanishing_commutes : Commutes vanishing :=
  { truncating_commutes with add := fun _ _ => rfl }

theorem vanishing_add (a b : Datum) :
    fxyptyAdd vanishing blank a b = .ok (stored 0 a.decimal.scale) := by
  have h : FxyptyImpl.fxyptyAdd vanishing a.decimal b.decimal = some (.wrap 0 a.decimal.scale) := rfl
  rw [fxyptyAdd, operator, h]
  rfl

theorem stored_zero_text {s : Scale} (hs : s.toNat ≤ 38) :
    ∃ out, fxyptyOut zeroed (stored 0 s) = .ok out ∧ cString out = numeral false 0 s.toNat := by
  have hz : (FxyPtyDecimal.wrap 0 s).raw = 0 := by
    rw [FxyPtyDecimal.raw, pack128_wrap]
    rfl
  have hsmall : (FxyPtyDecimal.wrap 0 s).raw.natAbs < 2 ^ 63 * 10 ^ 18 := by
    rw [hz]
    decide
  obtain ⟨hlen,hout⟩ := fxyptyOut_exact hsmall hs zeroed zeroed
  rw [fxyptyOut, stored_decimal, hout]
  exact ⟨_,rfl,by rw [cString_numeral, hz]; rfl⟩

theorem declared_laws_iff {a b : Datum} (ha : a.decimal.scale.toNat ≤ 38)
    (hb : b.decimal.scale.toNat ≤ 38) :
    (∀ lib, Commutes lib → SignCompare lib → DeclaredLaws lib a b) ↔
      a.decimal.scale = b.decimal.scale := by
  constructor
  · intro h
    obtain ⟨out,hout,htext⟩ := stored_zero_text ha
    obtain ⟨out',hout',htext'⟩ := stored_zero_text hb
    have hadd := (h vanishing vanishing_commutes truncating_compare).add blank blank
    rw [vanishing_add, vanishing_add] at hadd
    cases hadd with
    | ok hi =>
      have hlen := congrArg List.length (hi.text _ _ _ _ hout hout')
      rw [htext, htext', numeral_length, numeral_length, Nat.zero_div, Nat.zero_div] at hlen
      exact BitVec.eq_of_toNat_eq (by omega)
  · exact fun h lib hc hl => declared_laws hc hl h

theorem declared_laws_same_scale : DeclaredLaws truncating (stored 1012 2) (stored 24568 2) :=
  (declared_laws_iff (by decide) (by decide)).mpr (by rw [stored_decimal, stored_decimal]; rfl)
    truncating truncating_commutes truncating_compare

theorem sums_print_differently :
    fxyptyAdd truncating blank (stored 10 1) (stored 100 2) = .ok (stored 110 1) ∧
    fxyptyAdd truncating blank (stored 100 2) (stored 10 1) = .ok (stored 110 2) ∧
    (fxyptyOut zeroed (stored 110 1)).toOption.map cString =
      some [ch '1', ch '1', ch '.', ch '0'] ∧
    (fxyptyOut zeroed (stored 110 2)).toOption.map cString =
      some [ch '1', ch '.', ch '1', ch '0'] ∧
    ¬DeclaredLaws truncating (stored 10 1) (stored 100 2) := by
  have h1 : fxyptyAdd truncating blank (stored 10 1) (stored 100 2) = .ok (stored 110 1) := rfl
  have h2 : fxyptyAdd truncating blank (stored 100 2) (stored 10 1) = .ok (stored 110 2) := rfl
  have t1 : (fxyptyOut zeroed (stored 110 1)).toOption.map cString =
      some [ch '1', ch '1', ch '.', ch '0'] := by decide
  have t2 : (fxyptyOut zeroed (stored 110 2)).toOption.map cString =
      some [ch '1', ch '.', ch '1', ch '0'] := by decide
  refine ⟨h1,h2,t1,t2,fun h => ?_⟩
  have hadd := h.add blank blank
  rw [h1, h2] at hadd
  cases hadd with
  | ok hi =>
    have ht := congrArg Except.toOption (hi.prints zeroed)
    have hmap (r : Except Fault (Buffer Byte 42)) :
        (r.map cString).toOption = r.toOption.map cString := by cases r <;> rfl
    rw [hmap, hmap, t1, t2] at ht
    exact absurd ht (by decide)

end Fxypty
