import Pgfixeypointy.Extension.Restore
import Pgfixeypointy.Extension.SumOrders

namespace Fxypty

open FxyptyImpl Lockstep PartialSums Aggregate

def sumText (lib : Libfixeypointy) (padding : Nat → Buffer Byte 4) (tmp : Buffer Byte 42)
    (rows : List Datum) : Except Fault (Option (List Byte)) := do
  match ← sumAggregate lib padding (rows.map some) with
  | none => .ok none
  | some d => ((fxyptyOut tmp d).map cString).map some

def ledger (lib : Libfixeypointy) (memory : Nat → Memory) (copied : Bool) (m : Modifier)
    (padding : Nat → Buffer Byte 4) (tmp : Buffer Byte 42) (ls : List Literal) :
    Except Fault (Option (List Byte)) := do
  let rows ← restore lib memory copied m (ls.map literalText)
  sumText lib padding tmp rows

def scaledSum (s : Nat) (ls : List Literal) : Int := (ls.map (·.scaled s)).sum

def totalLiteral (s : Nat) (ls : List Literal) : Literal :=
  printed (decide (scaledSum s ls < 0)) (scaledSum s ls).natAbs s

structure Entries (copied : Bool) (s : Nat) (ls : List Literal) : Prop where
  some_entry : ls ≠ []
  digits : ∀ l ∈ ls, l.fractionDigits ≤ s
  length : ∀ l ∈ ls, l.text.length < if copied then 24 else 42
  fits : ∀ l ∈ ls, least ≤ l.scaled s ∧ l.scaled s ≤ greatest
  partial_sums : Within least greatest (·.scaled s) 0 ls

def Balances (lib : Libfixeypointy) (copied : Bool) (m : Modifier) (ls : List Literal) : Prop :=
  ∀ memory padding tmp,
    ledger lib memory copied m padding tmp ls = .ok (some (totalLiteral m.fraction ls).text)

variable {lib : Libfixeypointy} {m : Modifier} {copied : Bool} {ls : List Literal}

theorem totalLiteral_value (h : Entries copied m.fraction ls) :
    (totalLiteral m.fraction ls).value = (ls.map Literal.value).sum := by
  have hp := (pow_ten_pos m.fraction).ne'
  have hsum : ∀ ls : List Literal, (∀ l ∈ ls, l.fractionDigits ≤ m.fraction) →
      ((scaledSum m.fraction ls : Int) : ℚ) = (ls.map Literal.value).sum * 10 ^ m.fraction := by
    intro ls hd
    induction ls with
    | nil => simp [scaledSum]
    | cons l ls ih =>
      have hl := Literal.scaled_value (hd l List.mem_cons_self)
      have hrest := ih fun l hm => hd l (List.mem_cons_of_mem _ hm)
      rw [scaledSum, List.map_cons, List.sum_cons, List.map_cons, List.sum_cons, Int.cast_add, hl,
        add_mul, ← hrest]
      rfl
  rw [totalLiteral, printed_signed, hsum ls h.digits, mul_div_cancel_right₀ _ hp]

theorem insert_literals (hr : ReadsLiterals lib) (h : Entries copied m.fraction ls)
    (memory : Nat → Memory) : ∃ rows, restore lib memory copied m (ls.map literalText) = .ok rows ∧
      List.Forall₂ (fun l r => r.decimal.scale = m.scale ∧ r.decimal.raw = l.scaled m.fraction)
        ls rows := by
  refine forEach_ok_of ?_ 0
  rw [List.forall₂_map_right_iff, List.forall₂_same]
  intro l hl n
  obtain ⟨hlen,hcopy⟩ := lengths_of_copied (h.length l hl)
  exact insert_literal hr (h.digits l hl) (in_range_iff.mp (h.fits l hl)) hlen hcopy (memory n)

theorem sum_rows (hl : CheckedAdd lib) (h : Entries copied m.fraction ls) {rows : List Datum}
    (hrows : List.Forall₂ (fun l r => r.decimal.scale = m.scale ∧ r.decimal.raw = l.scaled m.fraction)
      ls rows) (padding : Nat → Buffer Byte 4) :
    ∃ d, sumAggregate lib padding (rows.map some) = .ok (some d) ∧ d.decimal.scale = m.scale ∧
      d.decimal.raw = scaledSum m.fraction ls := by
  have hraws : rows.map (·.decimal.raw) = ls.map (·.scaled m.fraction) :=
    forEach_map (hrows.imp fun _ _ hlr => hlr.2)
  have hscales : rows.map (·.decimal.scale) = ls.map fun _ => m.scale :=
    forEach_map (hrows.imp fun _ _ hlr => hlr.1)
  have hscale : ∀ d, some d ∈ rows.map some → d.decimal.scale = m.scale := by
    intro d hd
    obtain ⟨d,hmem,⟨⟩⟩ := List.mem_map.mp hd
    have hs := List.mem_map_of_mem (f := fun d : Datum => d.decimal.scale) hmem
    rw [hscales] at hs
    obtain ⟨_,-,heq⟩ := List.mem_map.mp hs
    exact heq.symm
  have hne : (rows.map some).reduceOption ≠ [] := by
    rw [reduceOption_some]
    rintro rfl
    exact h.some_entry (List.forall₂_nil_right_iff.mp hrows)
  have hw : Within least greatest amount 0 (rows.map some) := by
    refine (within_congr ?_).mpr h.partial_sums
    rw [List.map_map]
    exact hraws
  obtain ⟨r,hr⟩ := (sumAggregate_iff hl padding (rows.map some)).mpr hw
  have hexact : ExactAdd lib := fun x y r hadd => fit_eq_some.mp (hl x y ▸ hadd)
  obtain ⟨d,rfl,hds,hdr⟩ := sum_totals hexact hscale hne hr
  refine ⟨d,hr,hds,?_⟩
  rw [hdr, exactSum, reduceOption_some, hraws]
  rfl

theorem printedOf_total {d : Datum} (hs : d.decimal.scale = m.scale)
    (hr : d.decimal.raw = scaledSum m.fraction ls) :
    printedOf d.decimal = totalLiteral m.fraction ls := by
  rw [printedOf, hs, hr, m.decoded.2.1]
  rfl

theorem ledger_eq (hr : ReadsLiterals lib) (hl : CheckedAdd lib) (h : Entries copied m.fraction ls)
    (memory : Nat → Memory) (padding : Nat → Buffer Byte 4) (tmp : Buffer Byte 42) :
    ∃ d, ledger lib memory copied m padding tmp ls =
        ((fxyptyOut tmp d).map cString).map some ∧ d.decimal.scale = m.scale ∧
      d.decimal.raw = scaledSum m.fraction ls := by
  obtain ⟨rows,hrows,hall⟩ := insert_literals hr h memory
  obtain ⟨d,hd,hds,hdr⟩ := sum_rows hl h hall padding
  refine ⟨d,?_,hds,hdr⟩
  rw [ledger, hrows]
  change sumText lib padding tmp rows = _
  rw [sumText, hd]
  rfl

theorem ledger_of_small (hr : ReadsLiterals lib) (hl : CheckedAdd lib)
    (h : Entries copied m.fraction ls) (hx : (scaledSum m.fraction ls).natAbs < 2 ^ 63 * 10 ^ 18) :
    Balances lib copied m ls := by
  intro memory padding tmp
  obtain ⟨d,hd,hds,hdr⟩ := ledger_eq hr hl h memory padding tmp
  have h38 := m.scale_le
  rw [← hds] at h38
  rw [← hdr] at hx
  obtain ⟨t,ht,htext,-⟩ := dump_row hx h38 tmp
  obtain ⟨b,hb,hprinted⟩ := printed_ok ht
  rw [hd, fxyptyOut, hb, ← printedOf_total hds hdr, ← htext, hprinted]
  rfl

theorem small_of_ledger (h : Entries copied m.fraction ls) (hb : Balances truncating copied m ls) :
    (scaledSum m.fraction ls).natAbs < 2 ^ 63 * 10 ^ 18 := by
  by_contra hge
  have hl : CheckedAdd truncating := fun _ _ => rfl
  obtain ⟨d,hd,hds,hdr⟩ := ledger_eq truncating_reads hl h (fun _ => untidy) (fun _ => blank) zeroed
  have h38 := m.scale_le
  rw [← hds] at h38
  rw [← hdr] at hge
  rw [hb, fxyptyOut, ← printedOf_total hds hdr] at hd
  cases hout : FxyptyImpl.fxyptyOut fourDigits zeroed zeroed d.decimal with
  | error fault =>
    rw [hout] at hd
    cases hd
  | ok b =>
    rw [hout] at hd
    have htext : (printedOf d.decimal).text = cString b := Option.some.inj (Except.ok.inj hd)
    have hread := readLiteral_text (printedOf d.decimal)
    rw [htext] at hread
    exact misprint (not_lt.mp hge) h38 hout hread (printedOf_scaled _)

def entries : List Literal :=
  [tenAndTwelve, ⟨.minus,finDigits [0],some (finDigits [5]),by decide⟩]

end Fxypty
