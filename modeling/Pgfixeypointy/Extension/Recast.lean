import Pgfixeypointy.Extension.Misreading

namespace Fxypty

open FxyptyImpl LittleEndian

variable {x : FxyPtyDecimal} {padding : Buffer Byte 4} {text : List Byte} {l : Literal}

theorem struct_bytes (padding : Buffer Byte 4) (ht : x.scale.toNat < 256) :
    ∃ rest, (Datum.ofDecimal x padding).bytes =
      encode 16 (pack128 x).toNat ++ (BitVec.ofNat 8 x.scale.toNat :: 0 :: rest) := by
  rw [Datum.ofDecimal_bytes, encode_scale ht]
  exact ⟨_,rfl⟩

theorem token_prefix (h : readString (Datum.ofDecimal x padding).bytes = .ok text) :
    ∃ rest, (Datum.ofDecimal x padding).bytes = text.takeWhile isSpace ++ token text ++ rest := by
  obtain ⟨htext,-⟩ := readString_ok h
  have hb : (Datum.ofDecimal x padding).bytes =
      text ++ (Datum.ofDecimal x padding).bytes.dropWhile (· ≠ 0) := by
    rw [htext, List.takeWhile_append_dropWhile]
  refine ⟨remainder text ++ (Datum.ofDecimal x padding).bytes.dropWhile (· ≠ 0),?_⟩
  rw [List.append_assoc, ← List.append_assoc (token text), ← List.append_assoc, ← text_split]
  exact hb

theorem prefix_before {value u rest tail : List Byte} {c : Byte}
    (h : value ++ c :: 0 :: tail = u ++ rest) (hz : 0 ∉ u) (hc : u.getLast? ≠ some c) :
    ∃ after, value = u ++ after := by
  rcases List.append_eq_append_iff.mp h with ⟨a,ha,hr⟩ | ⟨a,ha,-⟩
  · cases a with
    | nil => exact ⟨[],by rw [ha, List.append_nil, List.append_nil]⟩
    | cons d a =>
      obtain ⟨rfl,hr'⟩ := List.cons.inj hr
      cases a with
      | nil => exact absurd (by rw [ha, List.getLast?_concat]) hc
      | cons e a =>
        obtain ⟨rfl,-⟩ := List.cons.inj hr'
        exact absurd (by rw [ha]; simp) hz
  · exact ⟨a,ha⟩

-- the scale byte is below every numeral character, so the token ends inside the value
theorem token_within_value (ht : x.scale.toNat ≤ 38)
    (h : readString (Datum.ofDecimal x padding).bytes = .ok text) (hl : token text = l.text) :
    ∃ after, encode 16 (pack128 x).toNat = (text.takeWhile isSpace ++ l.text) ++ after := by
  obtain ⟨tail,htail⟩ := struct_bytes padding (show x.scale.toNat < 256 by omega)
  obtain ⟨rest,hrest⟩ := token_prefix h
  rw [hl, htail] at hrest
  refine prefix_before hrest ?_ ?_
  · intro hm
    rcases List.mem_append.mp hm with hm | hm
    · exact absurd (List.mem_takeWhile_imp hm) (by decide)
    · exact (plain_text l).ne_zero hm
  · intro hlast
    rw [List.getLast?_append_of_ne_nil _ (text_ne_nil l)] at hlast
    have hb := numeralChar_bounds _
      (Literal.isNumeralChar_text l _ (List.mem_of_getLast? hlast))
    rw [BitVec.toNat_ofNat] at hb
    omega

theorem raw_emod {n : Nat} (hn : n ≤ 16) : x.raw % (256 ^ n : Nat) = (pack128 x).toNat % 256 ^ n := by
  have hd : ((256 ^ n : Nat) : Int) ∣ (2 ^ 128 : Nat) := by
    exact_mod_cast Nat.pow_dvd_pow 256 hn
  rw [← Int.emod_emod_of_dvd _ hd, FxyPtyDecimal.raw, BitVec.toInt_eq_toNat_bmod, Int.bmod_emod,
    Int.emod_emod_of_dvd _ hd]
  push_cast
  rfl

theorem spelledBy_struct (ht : x.scale.toNat ≤ 38)
    (h : readString (Datum.ofDecimal x padding).bytes = .ok text) (hl : token text = l.text) :
    SpelledBy x.raw (text.takeWhile isSpace) l where
  blank c hc := List.mem_takeWhile_imp hc
  low := by
    obtain ⟨rest,hrest⟩ := token_within_value ht h hl
    have hlen : (text.takeWhile isSpace ++ l.text).length ≤ 16 := by
      have hc := congrArg List.length hrest
      rw [encode_length, List.length_append] at hc
      omega
    have htake := take_encode hlen (pack128 x).toNat
    rw [hrest, List.take_left] at htake
    rw [raw_emod hlen]
    nth_rewrite 2 [htake]
    rw [decode_encode]
    push_cast
    rfl

theorem scaled_ne {v : Int} {space : List Byte} {l : Literal} {t s : Nat} (hts : t ≤ s)
    (h : SpelledBy v space l) : l.scaled s ≠ v * 10 ^ (s - t) := by
  intro hv
  have hp (n : Nat) : 0 < 10 ^ n := Nat.pow_pos (by decide)
  rcases le_or_gt t l.fractionDigits with hf | hf
  · have habs : v.natAbs * 10 ^ (s - t) ≤ l.magnitude * 10 ^ (s - t) := by
      have hn := congrArg Int.natAbs hv
      rw [Literal.scaled, Sign.apply_natAbs, Int.natAbs_mul, Int.natAbs_pow] at hn
      calc v.natAbs * 10 ^ (s - t) = l.magnitude * 10 ^ s / 10 ^ l.fractionDigits := hn.symm
        _ ≤ l.magnitude * 10 ^ s / 10 ^ t :=
          Nat.div_le_div_left (Nat.pow_le_pow_right (by decide) hf) (hp t)
        _ = l.magnitude * 10 ^ (s - t) := Digits.mul_pow_div (by decide) hts _
    exact absurd (Nat.le_of_mul_le_mul_right habs (hp _)) (not_le.mpr h.exceeds)
  · have hsplit : 10 ^ (s - l.fractionDigits) = 10 ^ (t - l.fractionDigits) * 10 ^ (s - t) := by
      rw [← Nat.pow_add]
      congr 1
      omega
    rw [Literal.scaled_exact (hf.le.trans hts), hsplit] at hv
    push_cast at hv
    rw [← mul_assoc] at hv
    have hz : (10 : Int) ^ (s - t) ≠ 0 := by positivity
    exact no_scaled_reading h (g := t - l.fractionDigits) (by omega) (mul_right_cancel₀ hz hv).symm

-- one lucky stack and padding would be enough
def Recasts (lib : Libfixeypointy) (x : FxyPtyDecimal) (s : Nat) (typmod : Typmod) : Prop :=
  ∃ stack padding padding' r, fxypty lib stack padding' (.ofDecimal x padding) typmod = .ok r ∧
    r.decimal.scale.toNat = s ∧ r.decimal.raw = x.raw * 10 ^ (s - x.scale.toNat)

theorem truncating_recast {x : FxyPtyDecimal} {p s : Nat} (hts : x.scale.toNat ≤ s) (hsp : s ≤ p)
    (hp : p ≤ 38) : ¬Recasts truncating x s (typmodOf p s) := by
  rintro ⟨stack,padding,padding',r,hrun,-,hraw⟩
  obtain ⟨text,q,hread,-,hq,hr⟩ := fxypty_ok (typmodOf_ne (by omega) (by omega)) hrun
  obtain ⟨l,hl,hfit⟩ := Option.bind_eq_some_iff.mp hq
  have hs : (decodeTypmod (typmodOf p s)).2.toNat = s := by
    rw [typmodOf_scale (by omega) (by omega), BitVec.toNat_ofNat]
    omega
  rw [hs] at hfit
  rw [hr, Datum.decimal_ofDecimal, FxyPtyDecimal.raw, pack128_wrap, fit_eq_some.mp hfit] at hraw
  have hspell := spelledBy_struct (by omega) hread (readLiteral_eq_some hl).symm
  exact scaled_ne hts hspell hraw

theorem recast_never_preserves (x : FxyPtyDecimal) {p s : Nat} (hts : x.scale.toNat ≤ s)
    (hsp : s ≤ p) (hp : p ≤ 38) :
    ¬∀ lib, ReadsLiterals lib → Recasts lib x s (typmodOf p s) :=
  fun h => truncating_recast hts hsp hp (h truncating truncating_reads)

theorem recast_never_preserves_cents :
    ¬∀ lib, ReadsLiterals lib → Recasts lib (.wrap 1012 2) 2 (typmodOf 10 2) :=
  recast_never_preserves (.wrap 1012 2) (by decide) (by decide) (by decide)

theorem raw_bytes_read_as_text :
    (stored 49 2).decimal.raw = 49 ∧
    (fxypty truncating zeroed blank (stored 49 2) (typmodOf 10 2)).toOption = some (stored 100 2) ∧
    (fxypty truncating zeroed blank (stored 1012 2) (typmodOf 10 2)).toOption = none ∧
    ¬Recasts truncating (.wrap 49 2) 2 (typmodOf 10 2) :=
  ⟨by decide,by decide,by decide,truncating_recast (by decide) (by decide) (by decide)⟩

end Fxypty
