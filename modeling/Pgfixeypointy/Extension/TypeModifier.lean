import Pgfixeypointy.Impl.Literal
import Pgfixeypointy.Extension.Functions

namespace Fxypty

open FxyptyImpl

def invalidTypmod : Fault :=
  .ereport .invalidTextRepresentation "invalid typmod for type fxypty"

-- "%d"
def integerText (n : BitVec 32) : List Byte :=
  signText (n.slt 0) ++ (Digits.whole 10 n.toInt.natAbs).map digitByte

-- "(%d,%d)"
def modifierText (numberOfDigits numberOfFractionalDigits : BitVec 32) : List Byte :=
  ch '(' :: (integerText numberOfDigits ++
    ch ',' :: (integerText numberOfFractionalDigits ++ [ch ')']))

-- of a text over 63 characters the first 63 are kept
def snprintf (result : Buffer Byte 64) (text : List Byte) : Except Fault (Buffer Byte 64) :=
  result.store .overrun 0 (text.take 63 ++ [0])

-- result is the memory palloc returns
def fxyptyTypmodOut (result : Buffer Byte 64) (typmod : Typmod) : Except Fault (Buffer Byte 64) :=
  let numberOfDigits := typmod.sshiftRight 16 &&& 0xFFFF
  let numberOfFractionalDigits := typmod &&& 0xFFFF
  if typmod = -1 then .error invalidTypmod
  else if (0 : Typmod).sle typmod then
    snprintf result (modifierText numberOfDigits numberOfFractionalDigits)
  else result.store .overrun 0 [0]

-- a constant of a modifier list, as ArrayGetIntegerTypmods reads it
def readInteger (text : List Byte) : Option (BitVec 32) :=
  (readLiteral text).bind fun l =>
    let n := l.sign.apply l.magnitude
    if l.fraction = none ∧ -2 ^ 31 ≤ n ∧ n < 2 ^ 31 then some (BitVec.ofInt 32 n) else none

def readModifier : List Byte → Option (List (BitVec 32))
  | [] => none
  | c :: rest =>
      if c = ch '(' ∧ rest.getLast? = some (ch ')') then
        (rest.dropLast.splitOn (ch ',')).mapM readInteger
      else none

def decimalInteger (n : BitVec 32) : Literal where
  sign := if n.slt 0 then .minus else .none
  whole := finDigits (Digits.whole 10 n.toInt.natAbs)
  fraction := none
  digits_pos := by
    have h := List.length_pos_iff.mpr (Digits.whole_ne_nil (b := 10) n.toInt.natAbs)
    rw [finDigits, List.length_map]
    omega

theorem decimalInteger_text (n : BitVec 32) : (decimalInteger n).text = integerText n := by
  rw [Literal.text, decimalInteger, digitsText_finDigits (whole_lt_ten _), integerText,
    Literal.pointText, List.append_nil]
  cases n.slt 0 <;> rfl

theorem decimalInteger_magnitude (n : BitVec 32) : (decimalInteger n).magnitude = n.toInt.natAbs := by
  rw [Literal.magnitude, Literal.digits, decimalInteger, Option.getD_none, List.append_nil,
    List.map_reverse, finDigits_val (whole_lt_ten _), Digits.whole_value]

theorem slt_zero_iff (n : BitVec 32) : n.slt 0 = true ↔ n.toInt < 0 := by
  rw [BitVec.slt_iff_toInt_lt]
  rfl

theorem decimalInteger_apply (n : BitVec 32) :
    (decimalInteger n).sign.apply (decimalInteger n).magnitude = n.toInt := by
  rw [decimalInteger_magnitude, decimalInteger]
  by_cases h : n.slt 0 = true
  · have := (slt_zero_iff n).mp h
    simp only [h, if_true, Sign.apply]
    omega
  · have := mt (slt_zero_iff n).mpr h
    simp only [h, Bool.false_eq_true, if_false, Sign.apply, reduceCtorEq]
    omega

theorem readInteger_text (n : BitVec 32) : readInteger (integerText n) = some n := by
  have h1 := BitVec.le_two_mul_toInt (x := n)
  have h2 := BitVec.two_mul_toInt_lt (x := n)
  have hin : -2 ^ 31 ≤ n.toInt ∧ n.toInt < 2 ^ 31 := by omega
  rw [readInteger, ← decimalInteger_text, readLiteral_text, Option.bind_some]
  simp only [decimalInteger_apply]
  rw [if_pos ⟨rfl,hin⟩, BitVec.ofInt_toInt]

theorem comma_notMem (n : BitVec 32) : ch ',' ∉ integerText n := by
  rw [← decimalInteger_text]
  intro h
  rcases Literal.isNumeralChar_text _ _ h with h | h | h | h <;> exact absurd h (by decide)

theorem readModifier_text (p s : BitVec 32) : readModifier (modifierText p s) = some [p, s] := by
  have hsplit : (integerText p ++ ch ',' :: integerText s).splitOn (ch ',') =
      [integerText p, integerText s] := by
    rw [List.splitOn_append_cons_self_of_not_mem (comma_notMem p),
      List.splitOn_eq_singleton (comma_notMem s)]
  have hlast : integerText p ++ ch ',' :: (integerText s ++ [ch ')']) =
      (integerText p ++ ch ',' :: integerText s) ++ [ch ')'] := by
    rw [List.append_assoc, List.cons_append]
  rw [modifierText, readModifier, hlast, List.getLast?_concat, if_pos ⟨rfl,rfl⟩,
    List.dropLast_concat, hsplit]
  simp [readInteger_text]

theorem integerText_length (n : BitVec 32) : (integerText n).length ≤ 11 := by
  have h1 := BitVec.le_two_mul_toInt (x := n)
  have h2 := BitVec.two_mul_toInt_lt (x := n)
  have hdigits : (Digits.whole 10 n.toInt.natAbs).length ≤ 10 := by
    by_cases h : n.toInt.natAbs = 0
    · rw [h]
      decide
    · rw [Digits.whole_pos h, List.length_reverse]
      exact Digits.digits_length_le (by decide) (by omega)
  have hsign := signText_length (n.slt 0)
  rw [integerText, List.length_append, List.length_map]
  omega

theorem modifierText_length (p s : BitVec 32) : (modifierText p s).length ≤ 25 := by
  have hp := integerText_length p
  have hs := integerText_length s
  simp only [modifierText, List.length_cons, List.length_append, List.length_nil]
  omega

theorem modifierText_room (p s : BitVec 32) : 0 + (modifierText p s ++ [0]).length ≤ 64 := by
  have h := modifierText_length p s
  rw [List.length_append, List.length_singleton]
  omega

theorem snprintf_modifier (result : Buffer Byte 64) (p s : BitVec 32) :
    snprintf result (modifierText p s) =
      .ok (result.put 0 (modifierText p s ++ [0]) (modifierText_room p s)) := by
  have h := modifierText_length p s
  rw [snprintf, List.take_of_length_le (by omega)]
  exact Buffer.store_ok _ _ _ _ (modifierText_room p s)

theorem fxyptyTypmodOut_eq {typmod : Typmod} (h : 0 ≤ typmod.toInt) (result : Buffer Byte 64) :
    fxyptyTypmodOut result typmod = .ok (result.put 0
      (modifierText (decodeTypmod typmod).1 (decodeTypmod typmod).2 ++ [0])
      (modifierText_room _ _)) := by
  have hne : typmod ≠ -1 := by
    rintro rfl
    exact absurd h (by decide)
  have hle : (0 : Typmod).sle typmod = true := by
    rw [BitVec.sle_iff_toInt_le]
    exact h
  simp only [fxyptyTypmodOut, decodeTypmod, if_neg hne, if_pos hne, if_pos hle]
  exact snprintf_modifier _ _ _

-- what the three tests of fxypty_typmod_in let through, the subtraction having wrapped
def Admitted (p s : BitVec 32) : Prop :=
  0 ≤ p.toInt ∧ p.toInt ≤ 38 ∧ s.toInt ≤ p.toInt ∧ p.toInt - s.toInt < 2 ^ 31

instance (p s : BitVec 32) : Decidable (Admitted p s) := inferInstanceAs (Decidable (_ ∧ _))

theorem fxyptyTypmodIn_eq (p s : BitVec 32) : fxyptyTypmodIn [p, s] =
    if Admitted p s then .ok ((p <<< 16) ||| s) else .error invalidModifier := by
  have h38 : (38#32).toInt = 38 := rfl
  have hs1 := BitVec.le_two_mul_toInt (x := s)
  have hs2 := BitVec.two_mul_toInt_lt (x := s)
  have htests : ((38#32).slt p ∨ p.slt 0 ∨ (p - s).slt 0) ↔ ¬Admitted p s := by
    rw [slt_zero_iff, slt_zero_iff, BitVec.slt_iff_toInt_lt, h38, BitVec.toInt_sub, Int.bmod_def,
      Admitted]
    split <;> omega
  simp only [fxyptyTypmodIn, List.isEmpty_nil, if_true]
  by_cases h : Admitted p s
  · rw [if_pos h, if_neg (fun ht => htests.mp ht h)]
  · rw [if_neg h, if_pos (htests.mpr h)]

theorem typmodOf_digits {p s : Nat} (hp : p < 2 ^ 15) (hs : s < 2 ^ 16) :
    (decodeTypmod (typmodOf p s)).1 = BitVec.ofNat 32 p := by
  have hmsb : (typmodOf p s).msb = false := by
    rw [BitVec.msb_eq_decide, typmodOf_toNat hp hs, decide_eq_false_iff_not]
    omega
  rw [decodeTypmod, if_pos (typmodOf_ne hp hs), BitVec.sshiftRight_eq_of_msb_false hmsb]
  apply BitVec.eq_of_toNat_eq
  have hm : BitVec.toNat (0xFFFF : BitVec 32) = 2 ^ 16 - 1 := rfl
  rw [BitVec.toNat_and, BitVec.toNat_ushiftRight, typmodOf_toNat hp hs, hm,
    Nat.and_two_pow_sub_one_eq_mod, Nat.shiftRight_eq_div_pow, BitVec.toNat_ofNat]
  omega

structure RoundTrips (p s : BitVec 32) (typmod : Typmod) : Prop where
  nonneg : 0 ≤ typmod.toInt
  decoded : decodeTypmod typmod = (p, s)
  printed : ∀ result, ∃ h,
    fxyptyTypmodOut result typmod = .ok (result.put 0 (modifierText p s ++ [0]) h)
  reparsed : (readModifier (modifierText p s)).map fxyptyTypmodIn = some (.ok typmod)

structure CodecSound (p s : BitVec 32) : Prop where
  rejects : ¬(0 ≤ s.toInt ∧ s.toInt ≤ p.toInt ∧ p.toInt ≤ 38) →
    fxyptyTypmodIn [p, s] = .error invalidModifier
  roundTrips : ∀ typmod, fxyptyTypmodIn [p, s] = .ok typmod → RoundTrips p s typmod

theorem typmodOf_roundTrips {p s : Nat} (hsp : s ≤ p) (hp : p ≤ 38) :
    RoundTrips (BitVec.ofNat 32 p) (BitVec.ofNat 32 s) (typmodOf p s) := by
  have hdecoded : decodeTypmod (typmodOf p s) = (BitVec.ofNat 32 p, BitVec.ofNat 32 s) :=
    Prod.ext (typmodOf_digits (by omega) (by omega)) (typmodOf_scale (by omega) (by omega))
  have hnonneg : 0 ≤ (typmodOf p s).toInt := by
    rw [BitVec.toInt_eq_toNat_cond, typmodOf_toNat (by omega) (by omega), if_pos (by omega)]
    exact Int.natCast_nonneg _
  refine ⟨hnonneg,hdecoded,fun result => ?_,?_⟩
  · have hout := fxyptyTypmodOut_eq hnonneg result
    rw [hdecoded] at hout
    exact ⟨_,hout⟩
  · rw [readModifier_text, Option.map_some, fxyptyTypmodIn_typmodOf hsp hp]

theorem toInt_nonneg_toNat {n : BitVec 32} (h : 0 ≤ n.toInt) : (n.toNat : Int) = n.toInt := by
  rw [BitVec.toInt_eq_toNat_cond] at h ⊢
  have := n.isLt
  split <;> omega

theorem roundTrips_of_nonneg {p s : BitVec 32} (hs : 0 ≤ s.toInt) {typmod : Typmod}
    (h : fxyptyTypmodIn [p, s] = .ok typmod) : RoundTrips p s typmod := by
  rw [fxyptyTypmodIn_eq] at h
  split at h
  · rename_i ha
    obtain rfl := Except.ok.inj h
    have hp := toInt_nonneg_toNat ha.1
    have hs' := toInt_nonneg_toNat hs
    obtain ⟨-,h38,hsp,-⟩ := ha
    have hrun := typmodOf_roundTrips (p := p.toNat) (s := s.toNat) (by omega) (by omega)
    simpa only [typmodOf, BitVec.ofNat_toNat, BitVec.setWidth_eq] using hrun
  · cases h

theorem codecSound_of_nonneg {p s : BitVec 32} (hs : 0 ≤ s.toInt) : CodecSound p s where
  rejects h := by
    rw [fxyptyTypmodIn_eq, if_neg fun ha => h ⟨hs,ha.2.2.1,ha.2.1⟩]
  roundTrips _ := roundTrips_of_nonneg hs

theorem codecSound_of_refused {p s : BitVec 32} (h : ¬Admitted p s) : CodecSound p s where
  rejects _ := by rw [fxyptyTypmodIn_eq, if_neg h]
  roundTrips typmod hrun := by
    rw [fxyptyTypmodIn_eq, if_neg h] at hrun
    cases hrun

theorem modifier_codec_iff (p s : BitVec 32) :
    (CodecSound p s ↔
      0 ≤ s.toInt ∨ p.toInt < 0 ∨ 38 < p.toInt ∨ 2 ^ 31 ≤ p.toInt - s.toInt) ∧
    ∀ p' s' typmod, 0 ≤ s.toInt → 0 ≤ s'.toInt → fxyptyTypmodIn [p, s] = .ok typmod →
      fxyptyTypmodIn [p', s'] = .ok typmod → p = p' ∧ s = s' := by
  refine ⟨⟨fun hsound => ?_,fun h => ?_⟩,fun p' s' typmod hs hs' h h' => ?_⟩
  · by_contra hn
    have hrej := hsound.rejects (by omega)
    rw [fxyptyTypmodIn_eq, if_pos (by unfold Admitted; omega)] at hrej
    cases hrej
  · rcases h with hs | h
    · exact codecSound_of_nonneg hs
    · refine codecSound_of_refused fun ha => ?_
      obtain ⟨h0,h38,-,hd⟩ := ha
      omega
  · have hd := (roundTrips_of_nonneg hs h).decoded
    rw [(roundTrips_of_nonneg hs' h').decoded] at hd
    obtain ⟨hp,hs⟩ := Prod.mk.inj hd
    exact ⟨hp.symm,hs.symm⟩

theorem modifier_codec_cases : CodecSound 10 2 ∧ CodecSound 10 (BitVec.intMin 32) ∧
    ¬CodecSound 10 (-5) ∧ fxyptyTypmodIn [10, 2] ≠ fxyptyTypmodIn [10, 3] := by
  refine ⟨(modifier_codec_iff 10 2).1.mpr (by decide),
    (modifier_codec_iff 10 (BitVec.intMin 32)).1.mpr (by decide),
    fun h => absurd ((modifier_codec_iff 10 (-5)).1.mp h) (by decide),fun h => ?_⟩
  have hinj := (modifier_codec_iff 10 2).2 10 3 _ (by decide) (by decide) rfl (h.symm.trans rfl)
  exact absurd hinj.2 (by decide)

theorem negative_scale_admitted :
    fxyptyTypmodIn [10, -1] = .ok (-1) ∧ fxyptyTypmodIn [38, -1] = .ok (-1) ∧
      (fxyptyTypmodOut ⟨List.replicate 64 0,rfl⟩ (-1)) = .error invalidTypmod ∧
      ¬CodecSound 10 (-1) := by
  have h : fxyptyTypmodIn [10, -1] = .ok (-1) := by decide
  refine ⟨h,by decide,by decide,fun hsound => ?_⟩
  rw [hsound.rejects (by decide)] at h
  cases h

end Fxypty
