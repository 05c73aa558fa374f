import Pgfixeypointy.Extension.Isolation

namespace Fxypty

open FxyptyImpl Expression

variable {lib : Libfixeypointy} {l : Literal} {t : Text} {copied : Bool} {m : Modifier} {r : Raw}

def literalText (l : Literal) : Text := ⟨l.text,(plain_text l).ne_zero⟩

theorem token_text (l : Literal) : token l.text = l.text :=
  token_plain (List.forall_mem_nil _) (plain_text l) (text_ne_nil l)

theorem readText_literal (hr : ReadsLiterals lib) {scale : Scale}
    (hf : l.fractionDigits ≤ scale.toNat) (hraw : r.toInt = l.scaled scale.toNat)
    (hlen : l.text.length < 42) : readText lib l.text scale = .ok (.wrap r scale) := by
  have hread := hr l scale r hf (by rw [hraw, Literal.scaled_value hf])
  rw [readText, token_text, if_neg (text_ne_nil l), if_neg (by omega), hread]

theorem literal_uncut (ht : t.val = l.text) (hcopy : copied = true → l.text.length < 24) :
    (Command.literal t copied m).Uncut := by
  cases copied with
  | false => trivial
  | true =>
    change (token t.val).length < 24
    rw [ht, token_text]
    exact hcopy rfl

theorem literal_inserted (hr : ReadsLiterals lib) (ht : t.val = l.text)
    (hf : l.fractionDigits ≤ m.scale.toNat) (hraw : r.toInt = l.scaled m.scale.toNat)
    (hlen : l.text.length < 42) (hcopy : copied = true → l.text.length < 24) (memory : Memory) :
    ∃ d, (server lib memory).literal t copied m = .ok d ∧ d.decimal = .wrap r m.scale := by
  have hvalue : (onValues lib).literal t copied m = .ok (.wrap r m.scale) := by
    simp only [onValues, ht]
    exact readText_literal hr hf hraw hlen
  obtain ⟨d,hrun,hholds⟩ := (literal_holds memory t copied m (literal_uncut ht hcopy)).ok_of hvalue
  exact ⟨d,hrun,hholds.decimal⟩

theorem insert_literal (hr : ReadsLiterals lib) (hf : l.fractionDigits ≤ m.fraction)
    (hfits : -2 ^ 127 ≤ l.scaled m.fraction ∧ l.scaled m.fraction < 2 ^ 127)
    (hlen : l.text.length < 42) (hcopy : copied = true → l.text.length < 24) (memory : Memory) :
    ∃ d, (server lib memory).literal (literalText l) copied m = .ok d ∧
      d.decimal.scale = m.scale ∧ d.decimal.raw = l.scaled m.fraction := by
  have hs := m.decoded.2.1
  have hraw := ofInt_toInt_fit hfits
  obtain ⟨d,hrun,hdec⟩ := literal_inserted hr (t := literalText l) rfl (by rwa [hs]) (by rwa [hs])
    hlen hcopy memory
  refine ⟨d,hrun,?_,?_⟩
  · rw [hdec, wrap_scale]
  · rw [hdec, FxyPtyDecimal.raw, pack128_wrap, hraw]

theorem lengths_of_copied {n : Nat} (h : n < if copied then 24 else 42) :
    n < 42 ∧ (copied = true → n < 24) := by
  cases copied with
  | false => exact ⟨h,nofun⟩
  | true =>
    have h24 : n < 24 := h
    exact ⟨by omega,fun _ => h24⟩

end Fxypty
