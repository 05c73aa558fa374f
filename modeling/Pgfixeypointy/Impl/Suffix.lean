import Pgfixeypointy.Impl.Assumptions
import Pgfixeypointy.Library.Horner

namespace FxyptyImpl

-- an int promoted to unsigned __int128
def charValue (c : Byte) : Raw :=
  BitVec.ofInt 128 <|
    if (ch '0').sle c ∧ c.sle (ch '9') then c.toInt - (ch '0').toInt
    else if (ch 'a').sle c ∧ c.sle (ch 'f') then 10 + (c.toInt - (ch 'a').toInt)
    else 10 + (c.toInt - (ch 'A').toInt)

def max128 : Raw := ~~~0

-- '\''
def separator : Byte := 39

def validateU128Helper (base : Raw) : List Byte → Raw → Bool
  | [], _ => true
  | c :: cs, accumulate =>
      if c = separator then validateU128Helper base cs accumulate
      else decide (accumulate ≤ max128 / base) &&
        decide (base * accumulate ≤ max128 - charValue c) &&
        validateU128Helper base cs (accumulate * base + charValue c)

def validateU128 (base : Raw) (cs : List Byte) : Bool := validateU128Helper base cs 0

def makeU128Helper (base : Raw) : List Byte → Raw → Raw
  | [], result => result
  | c :: cs, result =>
      makeU128Helper base cs (if c = separator then result else result * base + charValue c)

def makeU128 (base : Raw) (cs : List Byte) : Raw := makeU128Helper base cs 0

-- the specialisation that CS selects, as its BASE and the characters left
def specialise : List Byte → Raw × List Byte
  | c :: d :: cs =>
      if c = ch '0' then
        if d = ch 'x' ∨ d = ch 'X' then (16, cs)
        else if d = ch 'b' ∨ d = ch 'B' then (2, cs)
        else (8, d :: cs)
      else (10, c :: d :: cs)
  | [c] => if c = ch '0' then (8, []) else (10, [c])
  | [] => (10, [])

structure Static where
  isValid : Bool
  payload : Raw
deriving DecidableEq

def staticU128 (cs : List Byte) : Static where
  isValid := validateU128 (specialise cs).1 (specialise cs).2
  payload := makeU128 (specialise cs).1 (specialise cs).2

def signedLimit : Raw := (1 <<< 127) - 1

def static128 (cs : List Byte) : Static where
  isValid := validateU128 (specialise cs).1 (specialise cs).2 &&
    decide (makeU128 (specialise cs).1 (specialise cs).2 ≤ signedLimit)
  payload := makeU128 (specialise cs).1 (specialise cs).2

-- none where the static_assert fails
def suffixU128 (cs : List Byte) : Option Raw :=
  if (staticU128 cs).isValid then some (staticU128 cs).payload else none

def suffix128 (cs : List Byte) : Option Raw :=
  if (static128 cs).isValid then some (static128 cs).payload else none

-- the initialisers 1_128, 10_128, ..
def powerInitialisers : List (List Byte) :=
  (List.range 38).map fun i => ch '1' :: List.replicate i (ch '0')

def charValues (cs : List Byte) : List Nat :=
  (cs.filter (· ≠ separator)).map fun c => (charValue c).toNat

theorem charValues_separator (cs : List Byte) :
    charValues (separator :: cs) = charValues cs := by
  simp [charValues]

theorem charValues_cons {c : Byte} (h : c ≠ separator) (cs : List Byte) :
    charValues (c :: cs) = (charValue c).toNat :: charValues cs := by
  simp [charValues, h]

theorem validate_cons {base acc : Raw} {c : Byte} (h : c ≠ separator) (cs : List Byte) :
    validateU128Helper base (c :: cs) acc = (Horner.room base (charValue c) acc &&
      validateU128Helper base cs (acc * base + charValue c)) := by
  rw [validateU128Helper, if_neg h]
  rfl

theorem validate_iff {base : Raw} (hb : 0 < base.toNat) (cs : List Byte) (acc : Raw) :
    validateU128Helper base cs acc ↔
      Horner.value base.toNat acc.toNat (charValues cs) < 2 ^ 128 := by
  induction cs generalizing acc with
  | nil => simp [validateU128Helper, charValues, Horner.value, acc.isLt]
  | cons c cs ih =>
    by_cases hc : c = separator
    · subst hc
      rw [validateU128Helper, if_pos rfl, charValues_separator, ih]
    · rw [validate_cons hc, charValues_cons hc, Horner.value, Bool.and_eq_true,
        Horner.room_iff hb, ih, Horner.step_toNat]
      constructor
      · rintro ⟨hroom,hrest⟩
        rwa [Nat.mod_eq_of_lt hroom] at hrest
      · intro h
        have hroom := (Horner.le_value hb _ _).trans_lt h
        rw [Nat.mod_eq_of_lt hroom]
        exact ⟨hroom,h⟩

theorem make_toNat (base : Raw) (cs : List Byte) (acc : Raw) :
    (makeU128Helper base cs acc).toNat =
      Horner.value base.toNat acc.toNat (charValues cs) % 2 ^ 128 := by
  induction cs generalizing acc with
  | nil => exact (Nat.mod_eq_of_lt acc.isLt).symm
  | cons c cs ih =>
    by_cases hc : c = separator
    · subst hc
      rw [makeU128Helper, if_pos rfl, charValues_separator, ih]
    · rw [makeU128Helper, if_neg hc, charValues_cons hc, ih, Horner.value]
      exact Horner.value_mod (by rw [Horner.step_toNat, Nat.mod_mod]) _

theorem validate_and_make {base : Raw} (hb : 0 < base.toNat) (ds : List Byte) :
    (validateU128 base ds ↔ Horner.value base.toNat 0 (charValues ds) < 2 ^ 128) ∧
    (makeU128 base ds).toNat = Horner.value base.toNat 0 (charValues ds) % 2 ^ 128 :=
  ⟨validate_iff hb ds 0,make_toNat base ds 0⟩

theorem suffixU128_eq {base : Raw} {cs ds : List Byte} (hs : specialise cs = (base,ds))
    (hb : 0 < base.toNat) :
    suffixU128 cs = if Horner.value base.toNat 0 (charValues ds) < 2 ^ 128 then
      some (BitVec.ofNat 128 (Horner.value base.toNat 0 (charValues ds))) else none := by
  obtain ⟨hv,hm⟩ := validate_and_make hb ds
  simp only [suffixU128, staticU128, hs, hv]
  refine if_congr Iff.rfl (congrArg some ?_) rfl
  rw [← BitVec.toNat_inj, hm, BitVec.toNat_ofNat]

theorem suffix128_eq {base : Raw} {cs ds : List Byte} (hs : specialise cs = (base,ds))
    (hb : 0 < base.toNat) :
    suffix128 cs = fit (Horner.value base.toNat 0 (charValues ds)) := by
  obtain ⟨hv,hm⟩ := validate_and_make hb ds
  have hlimit : signedLimit.toNat = 2 ^ 127 - 1 := by decide
  simp only [suffix128, static128, hs, Bool.and_eq_true, decide_eq_true_eq, hv, fit,
    BitVec.le_def, hm, hlimit]
  generalize Horner.value base.toNat 0 (charValues ds) = n at hm
  refine if_congr ?_ (congrArg some ?_) rfl
  · omega
  · rw [← BitVec.toNat_inj, hm, BitVec.ofInt_natCast, BitVec.toNat_ofNat]

end FxyptyImpl
