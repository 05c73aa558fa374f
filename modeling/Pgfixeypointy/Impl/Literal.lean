import Pgfixeypointy.Impl.Numeral

namespace FxyptyImpl

inductive Sign where
  | none
  | plus
  | minus
deriving DecidableEq, Repr

def Sign.text : Sign → List Byte
  | .none => []
  | .plus => [ch '+']
  | .minus => [ch '-']

def Sign.apply (sign : Sign) (n : Nat) : Int := if sign = .minus then -n else n

structure Literal where
  sign : Sign
  whole : List (Fin 10)
  fraction : Option (List (Fin 10))
  digits_pos : 0 < whole.length + (fraction.getD []).length
deriving DecidableEq

namespace Literal

def digits (l : Literal) : List (Fin 10) := l.whole ++ l.fraction.getD []

def fractionDigits (l : Literal) : Nat := (l.fraction.getD []).length

def magnitude (l : Literal) : Nat := Nat.ofDigits 10 (l.digits.reverse.map Fin.val)

def value (l : Literal) : ℚ := l.sign.apply l.magnitude / 10 ^ l.fractionDigits

def digitsText (ds : List (Fin 10)) : List Byte := ds.map fun d : Fin 10 => digitByte d.val

def pointText : Option (List (Fin 10)) → List Byte
  | none => []
  | some ds => ch '.' :: digitsText ds

def text (l : Literal) : List Byte := l.sign.text ++ (digitsText l.whole ++ pointText l.fraction)

theorem magnitude_lt (l : Literal) : l.magnitude < 10 ^ l.digits.length := by
  have h := Nat.ofDigits_lt_base_pow_length (b := 10) (l := l.digits.reverse.map Fin.val)
    (by decide) (by
      intro d hd
      obtain ⟨e,-,rfl⟩ := List.mem_map.mp hd
      exact e.isLt)
  simpa [magnitude] using h

theorem isDigit_text (ds : List (Fin 10)) : ∀ c ∈ digitsText ds, isDigit c := by
  intro c hc
  obtain ⟨d,-,rfl⟩ := List.mem_map.mp hc
  exact isDigit_digitByte d.isLt

def isNumeralChar (c : Byte) : Prop := isDigit c ∨ c = ch '+' ∨ c = ch '-' ∨ c = ch '.'

instance (c : Byte) : Decidable (isNumeralChar c) := inferInstanceAs (Decidable (_ ∨ _ ∨ _ ∨ _))

theorem isNumeralChar_text (l : Literal) : ∀ c ∈ l.text, isNumeralChar c := by
  intro c hc
  simp only [text, List.mem_append] at hc
  rcases hc with hc | hc | hc
  · cases hs : l.sign with
    | none => simp [hs, Sign.text] at hc
    | plus => exact .inr (.inl (by simpa [hs, Sign.text] using hc))
    | minus => exact .inr (.inr (.inl (by simpa [hs, Sign.text] using hc)))
  · exact .inl (isDigit_text _ c hc)
  · cases hf : l.fraction with
    | none => simp [hf, pointText] at hc
    | some ds =>
      rw [hf, pointText, List.mem_cons] at hc
      rcases hc with rfl | hc
      · exact .inr (.inr (.inr rfl))
      · exact .inl (isDigit_text _ c hc)

end Literal

def digitOf (c : Byte) : Option (Fin 10) :=
  if h : isDigit c then some ⟨c.toNat - 48,by have := h.2; omega⟩ else none

theorem digitOf_digitByte (d : Fin 10) : digitOf (digitByte d) = some d := by
  revert d
  decide

theorem digitOf_none {c : Byte} (h : ¬isDigit c) : digitOf c = none := dif_neg h

def spanDigits : List Byte → List (Fin 10) × List Byte
  | [] => ([], [])
  | c :: cs =>
      match digitOf c with
      | some d => (d :: (spanDigits cs).1, (spanDigits cs).2)
      | none => ([], c :: cs)

theorem spanDigits_append (ds : List (Fin 10)) {rest : List Byte}
    (h : ∀ c ∈ rest.head?, ¬isDigit c) :
    spanDigits (Literal.digitsText ds ++ rest) = (ds, rest) := by
  induction ds with
  | nil =>
    cases rest with
    | nil => rfl
    | cons c cs =>
      have hc : digitOf c = none := digitOf_none (h c rfl)
      simp [Literal.digitsText, spanDigits, hc]
  | cons d ds ih =>
    have hd : Literal.digitsText (d :: ds) ++ rest =
        digitByte d :: (Literal.digitsText ds ++ rest) := rfl
    rw [hd, spanDigits, digitOf_digitByte, ih]

def readSign : List Byte → Sign × List Byte
  | [] => (.none, [])
  | c :: cs => if c = ch '-' then (.minus, cs) else if c = ch '+' then (.plus, cs) else (.none, c :: cs)

def readFraction : List Byte → Option (Option (List (Fin 10)))
  | [] => some none
  | c :: cs => if c = ch '.' ∧ (spanDigits cs).2 = [] then some (some (spanDigits cs).1) else none

def readLiteral (input : List Byte) : Option Literal :=
  let (sign, unsigned) := readSign input
  let (whole, rest) := spanDigits unsigned
  match readFraction rest with
  | none => none
  | some fraction =>
      if h : 0 < whole.length + (fraction.getD []).length then some ⟨sign,whole,fraction,h⟩
      else none

theorem readFraction_text (fraction : Option (List (Fin 10))) :
    readFraction (Literal.pointText fraction) = some fraction := by
  cases fraction with
  | none => rfl
  | some ds =>
    have h : spanDigits (Literal.digitsText ds ++ []) = (ds, []) := spanDigits_append ds (by simp)
    rw [List.append_nil] at h
    simp [Literal.pointText, readFraction, h]

theorem unsigned_head (l : Literal) :
    ∀ c ∈ (Literal.digitsText l.whole ++ Literal.pointText l.fraction).head?,
      c ≠ ch '-' ∧ c ≠ ch '+' := by
  intro c hc
  cases hw : l.whole with
  | nil =>
    cases hf : l.fraction with
    | none => simp [hw, hf, Literal.digitsText, Literal.pointText] at hc
    | some ds =>
      simp only [hw, hf, Literal.digitsText, Literal.pointText, List.map_nil, List.nil_append,
        List.head?_cons, Option.mem_some_iff] at hc
      subst hc
      decide
  | cons d ds =>
    simp only [hw, Literal.digitsText, List.map_cons, List.cons_append, List.head?_cons,
      Option.mem_some_iff] at hc
    subst hc
    have hd : ∀ d : Fin 10, digitByte d.val ≠ ch '-' ∧ digitByte d.val ≠ ch '+' := by decide
    exact hd d

theorem readSign_text (l : Literal) :
    readSign l.text = (l.sign, Literal.digitsText l.whole ++ Literal.pointText l.fraction) := by
  have hh := unsigned_head l
  unfold Literal.text
  cases hs : l.sign with
  | minus => simp [Sign.text, readSign]
  | plus =>
    have hne : ch '+' ≠ ch '-' := by decide
    simp [Sign.text, readSign, hne]
  | none =>
    rw [Sign.text, List.nil_append]
    cases ht : Literal.digitsText l.whole ++ Literal.pointText l.fraction with
    | nil => rfl
    | cons c cs =>
      rw [ht] at hh
      have hc := hh c rfl
      simp [readSign, hc.1, hc.2]

theorem readLiteral_text (l : Literal) : readLiteral l.text = some l := by
  have hp : ∀ c ∈ (Literal.pointText l.fraction).head?, ¬isDigit c := by
    intro c hc
    cases hf : l.fraction with
    | none => simp [hf, Literal.pointText] at hc
    | some ds =>
      simp only [hf, Literal.pointText, List.head?_cons, Option.mem_some_iff] at hc
      subst hc
      decide
  simp only [readLiteral, readSign_text, spanDigits_append l.whole hp, readFraction_text]
  rw [dif_pos l.digits_pos]

theorem digitOf_eq_some {c : Byte} {d : Fin 10} (h : digitOf c = some d) : c = digitByte d.val := by
  unfold digitOf at h
  split at h
  · rename_i hc
    obtain rfl := Option.some.inj h
    apply BitVec.eq_of_toNat_eq
    rw [digitByte, Nat.sub_add_cancel hc.1, BitVec.ofNat_toNat, BitVec.setWidth_eq]
  · cases h

theorem spanDigits_text (input : List Byte) :
    Literal.digitsText (spanDigits input).1 ++ (spanDigits input).2 = input := by
  induction input with
  | nil => rfl
  | cons c cs ih =>
    rw [spanDigits]
    cases hc : digitOf c with
    | none => rfl
    | some d =>
      rw [digitOf_eq_some hc]
      exact congrArg (digitByte d.val :: ·) ih

theorem readSign_append (input : List Byte) :
    (readSign input).1.text ++ (readSign input).2 = input := by
  cases input with
  | nil => rfl
  | cons c cs =>
    rw [readSign]
    by_cases hm : c = ch '-'
    · rw [if_pos hm, hm]
      rfl
    · by_cases hp : c = ch '+'
      · rw [if_neg hm, if_pos hp, hp]
        rfl
      · rw [if_neg hm, if_neg hp]
        rfl

theorem readFraction_eq_some {input : List Byte} {fraction : Option (List (Fin 10))}
    (h : readFraction input = some fraction) : Literal.pointText fraction = input := by
  cases input with
  | nil =>
    obtain rfl := Option.some.inj h
    rfl
  | cons c cs =>
    rw [readFraction] at h
    split at h
    · rename_i hc
      obtain rfl := Option.some.inj h
      have ht := spanDigits_text cs
      rw [hc.2, List.append_nil] at ht
      rw [Literal.pointText, ht, hc.1]
    · cases h

theorem readLiteral_eq_some {input : List Byte} {l : Literal} (h : readLiteral input = some l) :
    l.text = input := by
  simp only [readLiteral] at h
  split at h
  · cases h
  · rename_i fraction hf
    split at h
    · obtain rfl := Option.some.inj h
      rw [Literal.text, readFraction_eq_some hf, spanDigits_text, readSign_append]
    · cases h

def finDigits (ds : List Nat) : List (Fin 10) := ds.map (Fin.ofNat 10)

theorem finDigits_val {ds : List Nat} (h : ∀ d ∈ ds, d < 10) : (finDigits ds).map Fin.val = ds := by
  rw [finDigits, List.map_map]
  exact (List.map_congr_left fun d hd => Nat.mod_eq_of_lt (h d hd)).trans (List.map_id ds)

theorem digitsText_finDigits {ds : List Nat} (h : ∀ d ∈ ds, d < 10) :
    Literal.digitsText (finDigits ds) = ds.map digitByte := by
  have hv := congrArg (List.map digitByte) (finDigits_val h)
  rwa [List.map_map] at hv

def printed (isNegative : Bool) (n s : Nat) : Literal where
  sign := if isNegative then .minus else .none
  whole := finDigits (Digits.whole 10 (n / 10 ^ s))
  fraction := some (finDigits (Digits.fixed 10 s (n % 10 ^ s)))
  digits_pos := by
    have h := List.length_pos_iff.mpr (Digits.whole_ne_nil (b := 10) (n / 10 ^ s))
    rw [finDigits, List.length_map]
    omega

theorem printed_text (isNegative : Bool) (n s : Nat) :
    (printed isNegative n s).text = numeral isNegative n s := by
  rw [Literal.text, printed, digitsText_finDigits (whole_lt_ten _), numeral, Literal.pointText,
    digitsText_finDigits (fixed_lt_ten _ _)]
  cases isNegative <;> rfl

theorem printed_magnitude (isNegative : Bool) (n s : Nat) :
    (printed isNegative n s).magnitude = n := by
  have hd : (printed isNegative n s).digits.reverse.map Fin.val =
      (Digits.fixed 10 s (n % 10 ^ s)).reverse ++ (Digits.whole 10 (n / 10 ^ s)).reverse := by
    rw [Literal.digits, printed, Option.getD_some, List.map_reverse, List.map_append,
      finDigits_val (whole_lt_ten _), finDigits_val (fixed_lt_ten _ _), List.reverse_append]
  rw [Literal.magnitude, hd, Nat.ofDigits_append, Digits.fixed_value, Digits.whole_value,
    List.length_reverse, Digits.fixed_length, Nat.mod_mod, Nat.mod_add_div]

theorem printed_fractionDigits (b : Bool) (n s : Nat) : (printed b n s).fractionDigits = s := by
  rw [Literal.fractionDigits, printed, Option.getD_some, finDigits, List.length_map,
    Digits.fixed_length]

theorem printed_value (isNegative : Bool) (n s : Nat) : (printed isNegative n s).value =
    (if isNegative then -(n : Int) else n : Int) / 10 ^ s := by
  rw [Literal.value, printed_fractionDigits, printed_magnitude]
  cases isNegative <;> rfl

theorem printed_signed (v : Int) (s : Nat) :
    (printed (decide (v < 0)) v.natAbs s).value = v / 10 ^ s := by
  have habs : (if decide (v < 0) then -(v.natAbs : Int) else v.natAbs) = v := by
    by_cases h : v < 0
    · rw [decide_eq_true h, if_pos rfl]
      omega
    · rw [decide_eq_false h, if_neg Bool.false_ne_true]
      omega
  rw [printed_value, habs]

end FxyptyImpl
