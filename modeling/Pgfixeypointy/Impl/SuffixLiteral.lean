import Pgfixeypointy.Impl.Suffix

namespace FxyptyImpl

inductive Radix where
  | decimal
  | octal
  | hexadecimal (upper : Bool)
  | binary (upper : Bool)
deriving DecidableEq, Repr

def Radix.base : Radix → Nat
  | .decimal => 10
  | .octal => 8
  | .hexadecimal _ => 16
  | .binary _ => 2

def Radix.lead : Radix → List Byte
  | .decimal => []
  | .octal => [ch '0']
  | .hexadecimal upper => [ch '0', if upper then ch 'X' else ch 'x']
  | .binary upper => [ch '0', if upper then ch 'B' else ch 'b']

inductive Symbol (b : Nat) where
  | separator
  | digit (d : Fin b) (upper : Bool)
deriving DecidableEq

def hexDigit (d : Nat) (upper : Bool) : Byte :=
  if d < 10 then digitByte d else (if upper then ch 'A' else ch 'a') + BitVec.ofNat 8 (d - 10)

def Symbol.byte {b : Nat} : Symbol b → Byte
  | .separator => FxyptyImpl.separator
  | .digit d upper => hexDigit d upper

def Symbol.digit? {b : Nat} : Symbol b → Option Nat
  | .separator => none
  | .digit d _ => some d.val

-- an integer literal; a decimal one does not begin with 0
structure IntegerLiteral where
  radix : Radix
  body : List (Symbol radix.base)
  leads : radix = .decimal → ∃ d ∈ body.head?.bind Symbol.digit?, d ≠ 0

namespace IntegerLiteral

def text (l : IntegerLiteral) : List Byte := l.radix.lead ++ l.body.map Symbol.byte

def digits (l : IntegerLiteral) : List Nat := l.body.filterMap Symbol.digit?

def value (l : IntegerLiteral) : Nat := Nat.ofDigits l.radix.base l.digits.reverse

end IntegerLiteral

theorem hexDigit_value (d : Fin 16) (upper : Bool) :
    charValue (hexDigit d upper) = BitVec.ofNat 128 d ∧ hexDigit d upper ≠ separator := by
  revert d upper
  decide

theorem Radix.base_le (r : Radix) : r.base ≤ 16 := by
  cases r <;> simp [Radix.base]

theorem Radix.base_toNat (r : Radix) : (BitVec.ofNat 128 r.base).toNat = r.base := by
  cases r <;> rfl

theorem Radix.base_pos (r : Radix) : 0 < r.base := by
  cases r <;> simp [Radix.base]

theorem charValues_body {b : Nat} (hb : b ≤ 16) (body : List (Symbol b)) :
    charValues (body.map Symbol.byte) = body.filterMap Symbol.digit? := by
  induction body with
  | nil => rfl
  | cons s body ih =>
    cases s with
    | separator => exact (charValues_separator _).trans ih
    | digit d upper =>
      obtain ⟨hv,hne⟩ := hexDigit_value ⟨d,d.isLt.trans_le hb⟩ upper
      have hd : d.val % 2 ^ 128 = d.val := Nat.mod_eq_of_lt (by omega)
      simp only [List.map_cons, Symbol.byte, charValues_cons hne, hv, BitVec.toNat_ofNat, hd, ih,
        Symbol.digit?, List.filterMap_cons]

theorem specialise_decimal {c : Byte} (h : c ≠ ch '0') (cs : List Byte) :
    specialise (c :: cs) = (10,c :: cs) := by
  cases cs <;> simp [specialise, h]

theorem specialise_octal {cs : List Byte}
    (h : ∀ c ∈ cs.head?, c ∉ [ch 'x', ch 'X', ch 'b', ch 'B']) :
    specialise (ch '0' :: cs) = (8,cs) := by
  cases cs with
  | nil => rfl
  | cons c cs =>
    have hc := h c rfl
    simp only [List.mem_cons, List.not_mem_nil, or_false, not_or] at hc
    obtain ⟨hx,hX,hb,hB⟩ := hc
    simp only [specialise, if_true, hx, hX, hb, hB, or_self, if_false]

theorem specialise_text (l : IntegerLiteral) :
    specialise l.text = (BitVec.ofNat 128 l.radix.base,l.body.map Symbol.byte) := by
  obtain ⟨radix,body,leads⟩ := l
  cases radix with
  | decimal =>
    obtain ⟨d,hd,hne⟩ := leads rfl
    cases body with
    | nil => cases hd
    | cons s body =>
      cases s with
      | separator => cases hd
      | digit d upper =>
        have hdigit : ∀ d : Fin 10, ∀ upper, d.val ≠ 0 → hexDigit d upper ≠ ch '0' := by decide
        obtain rfl := Option.some.inj hd
        exact specialise_decimal (hdigit d upper hne) _
  | octal =>
    refine specialise_octal ?_
    cases body with
    | nil => simp
    | cons s body =>
      cases s with
      | separator =>
        have hseparator : separator ∉ [ch 'x', ch 'X', ch 'b', ch 'B'] := by decide
        rintro _ ⟨⟩
        exact hseparator
      | digit d upper =>
        have hdigit : ∀ d : Fin 8, ∀ upper,
            hexDigit d upper ∉ [ch 'x', ch 'X', ch 'b', ch 'B'] := by decide
        rintro _ ⟨⟩
        exact hdigit d upper
  | hexadecimal upper => cases upper <;> rfl
  | binary upper => cases upper <;> rfl

theorem value_text (l : IntegerLiteral) : Horner.value (BitVec.ofNat 128 l.radix.base).toNat 0
    (charValues (l.body.map Symbol.byte)) = l.value := by
  rw [charValues_body l.radix.base_le, Radix.base_toNat, Horner.value_zero]
  rfl

theorem base_toNat_pos (l : IntegerLiteral) : 0 < (BitVec.ofNat 128 l.radix.base).toNat := by
  rw [Radix.base_toNat]
  exact l.radix.base_pos

theorem suffix128_text (l : IntegerLiteral) : suffix128 l.text = fit l.value := by
  rw [suffix128_eq (specialise_text l) (base_toNat_pos l), value_text]

theorem suffixU128_text (l : IntegerLiteral) : suffixU128 l.text =
    if l.value < 2 ^ 128 then some (BitVec.ofNat 128 l.value) else none := by
  rw [suffixU128_eq (specialise_text l) (base_toNat_pos l), value_text]

def oneDigit : Symbol 10 := .digit ⟨1,by decide⟩ false

def zeroDigit : Symbol 10 := .digit ⟨0,by decide⟩ false

def powerLiteral (i : Nat) : IntegerLiteral where
  radix := .decimal
  body := oneDigit :: List.replicate i zeroDigit
  leads _ := ⟨1,rfl,Nat.one_ne_zero⟩

theorem powerLiteral_value (i : Nat) : (powerLiteral i).value = 10 ^ i := by
  have hzeros : (List.replicate i zeroDigit).filterMap Symbol.digit? =
      List.replicate i 0 := List.filterMap_replicate_of_some rfl
  have hd : (powerLiteral i).digits = 1 :: List.replicate i 0 := congrArg (1 :: ·) hzeros
  rw [IntegerLiteral.value, hd, List.reverse_cons, List.reverse_replicate, Nat.ofDigits_append,
    Nat.ofDigits_replicate_zero, List.length_replicate, Nat.ofDigits_singleton, Nat.zero_add,
    Nat.mul_one]
  rfl

theorem powerLiteral_text (i : Nat) :
    (powerLiteral i).text = ch '1' :: List.replicate i (ch '0') := by
  have hzeros : (List.replicate i zeroDigit).map Symbol.byte =
      List.replicate i (ch '0') := List.map_replicate
  exact congrArg (ch '1' :: ·) hzeros

theorem powers_evaluate :
    powerInitialisers.map suffix128 = (List.range 38).map fun i => some (powerOfTen i) := by
  rw [powerInitialisers, List.map_map]
  refine List.map_congr_left fun i hi => ?_
  have hlt : 10 ^ i < 2 ^ 127 :=
    calc 10 ^ i ≤ 10 ^ 37 := Nat.pow_le_pow_right (by decide) (by simp at hi; omega)
      _ < 2 ^ 127 := by decide
  have hfits : -2 ^ 127 ≤ ((10 ^ i : Nat) : Int) ∧ ((10 ^ i : Nat) : Int) < 2 ^ 127 :=
    ⟨le_trans (by decide) (Int.natCast_nonneg _),by exact_mod_cast hlt⟩
  rw [Function.comp_apply, ← powerLiteral_text, suffix128_text, powerLiteral_value, fit,
    if_pos hfits, BitVec.ofInt_natCast]
  rfl

theorem suffix_evaluates : (∀ l : IntegerLiteral, suffix128 l.text = fit l.value ∧
      suffixU128 l.text =
        if l.value < 2 ^ 128 then some (BitVec.ofNat 128 l.value) else none) ∧
    powerInitialisers.map suffix128 = (List.range 38).map fun i => some (powerOfTen i) :=
  ⟨fun l => ⟨suffix128_text l,suffixU128_text l⟩,powers_evaluate⟩

-- M e E of a floating literal: the letter is taken for the digit 14
def exponentText (mantissa exponent : List (Fin 10)) (upper : Bool) : List Byte :=
  Literal.digitsText mantissa ++ (if upper then ch 'E' else ch 'e') :: Literal.digitsText exponent

def digitsValue (ds : List (Fin 10)) : Nat := Nat.ofDigits 10 (ds.map Fin.val).reverse

def exponentReading (mantissa exponent : List (Fin 10)) : Nat :=
  (digitsValue mantissa * 10 + 14) * 10 ^ exponent.length + digitsValue exponent

theorem charValues_digits (ds : List (Fin 10)) :
    charValues (Literal.digitsText ds) = ds.map Fin.val := by
  have hdigit : ∀ d : Fin 10, digitByte d ≠ separator ∧ (charValue (digitByte d)).toNat = d := by
    decide
  induction ds with
  | nil => rfl
  | cons d ds ih =>
    obtain ⟨hne,hv⟩ := hdigit d
    rw [Literal.digitsText, List.map_cons, charValues_cons hne, hv, List.map_cons]
    exact congrArg (d.val :: ·) ih

theorem charValues_append (cs ds : List Byte) :
    charValues (cs ++ ds) = charValues cs ++ charValues ds := by
  simp [charValues]

theorem digitsValue_lt (ds : List (Fin 10)) : digitsValue ds < 10 ^ ds.length := by
  have h := Nat.ofDigits_lt_base_pow_length (b := 10) (l := (ds.map Fin.val).reverse) (by decide)
    (by simp)
  simpa [digitsValue] using h

theorem exponent_value (mantissa exponent : List (Fin 10)) (upper : Bool) :
    Horner.value 10 0 (charValues (exponentText mantissa exponent upper)) =
      exponentReading mantissa exponent := by
  have hletter : ∀ upper : Bool, (if upper then ch 'E' else ch 'e') ≠ separator ∧
      (charValue (if upper then ch 'E' else ch 'e')).toNat = 14 := by decide
  obtain ⟨hne,hv⟩ := hletter upper
  rw [exponentText, charValues_append, charValues_cons hne, hv, charValues_digits,
    charValues_digits, Horner.value_append, Horner.value_zero, Horner.value, Horner.value_eq,
    List.length_map]
  rfl

theorem exponent_value_ne {m e k : Nat} (hm : 0 < m) (he : e < 10 ^ k) :
    (m * 10 + 14) * 10 ^ k + e ≠ m * 10 ^ e := by
  rcases Nat.lt_or_ge e (k + 2) with h | h
  · refine ne_of_gt ?_
    calc m * 10 ^ e ≤ m * 10 ^ (k + 1) :=
          Nat.mul_le_mul_left m (Nat.pow_le_pow_right (by decide) (by omega))
      _ = (m * 10) * 10 ^ k := by ring
      _ < (m * 10 + 14) * 10 ^ k :=
          Nat.mul_lt_mul_of_pos_right (by omega) (Nat.pow_pos (by decide))
      _ ≤ (m * 10 + 14) * 10 ^ k + e := Nat.le_add_right _ _
  · refine ne_of_lt ?_
    calc (m * 10 + 14) * 10 ^ k + e < (m * 10 + 14) * 10 ^ k + 10 ^ k :=
          Nat.add_lt_add_left he _
      _ = (m * 10 + 15) * 10 ^ k := by ring
      _ ≤ (m * 100) * 10 ^ k := Nat.mul_le_mul_right _ (by omega)
      _ = m * 10 ^ (k + 2) := by ring
      _ ≤ m * 10 ^ e := Nat.mul_le_mul_left m (Nat.pow_le_pow_right (by decide) h)

theorem digitsValue_pos {d : Fin 10} (h : d ≠ 0) (ds : List (Fin 10)) :
    0 < digitsValue (d :: ds) := by
  have hd : 0 < 0 * 10 + d.val := by
    have := Fin.val_ne_of_ne h
    simp at this
    omega
  calc 0 < 0 * 10 + d.val := hd
    _ ≤ Horner.value 10 (0 * 10 + d.val) (ds.map Fin.val) := Horner.le_value (by decide) _ _
    _ = digitsValue (d :: ds) := Horner.value_zero ((d :: ds).map Fin.val)

theorem exponent_misread {mantissa exponent : List (Fin 10)} (upper : Bool)
    (h : ∃ d ∈ mantissa.head?, d ≠ 0) :
    suffix128 (exponentText mantissa exponent upper) = fit (exponentReading mantissa exponent) ∧
    exponentReading mantissa exponent ≠ digitsValue mantissa * 10 ^ digitsValue exponent := by
  obtain ⟨d,hd,hne⟩ := h
  cases mantissa with
  | nil => cases hd
  | cons d' mantissa =>
    obtain rfl := Option.some.inj hd
    have hdigit : ∀ d : Fin 10, d ≠ 0 → digitByte d ≠ ch '0' := by decide
    have hs : specialise (exponentText (d' :: mantissa) exponent upper) =
        (10,exponentText (d' :: mantissa) exponent upper) := specialise_decimal (hdigit d' hne) _
    refine ⟨?_,exponent_value_ne (digitsValue_pos hne mantissa) (digitsValue_lt exponent)⟩
    exact (suffix128_eq hs (by decide)).trans (congrArg _ (congrArg _ (exponent_value _ _ upper)))

theorem exponent_misread_million :
    suffix128 (exponentText [1] [6] false) = some 246 ∧ 246 ≠ digitsValue [1] * 10 ^ digitsValue [6] := by
  have hreading : exponentReading [1] [6] = 246 := by decide
  have hfit : fit (246 : Nat) = some 246 := by decide
  obtain ⟨hs,hne⟩ := @exponent_misread [1] [6] false ⟨1,rfl,by decide⟩
  rw [hreading] at hs hne
  exact ⟨hs.trans hfit,hne⟩

end FxyptyImpl
