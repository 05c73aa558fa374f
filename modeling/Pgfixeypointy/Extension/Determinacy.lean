import Pgfixeypointy.Library.Expression
import Pgfixeypointy.Extension.Comparison
import Pgfixeypointy.Extension.Tokenisation

namespace Fxypty

open FxyptyImpl Expression

variable {lib : Libfixeypointy} {text : List Byte}

theorem fxyptyEq_iff (hl : SignCompare lib) (a b : Datum) :
    fxyptyEq lib a b = true ↔ a.bytes.take 16 = b.bytes.take 16 := by
  have ha := a.room
  have hb := b.room
  have hraw : fxyptyEq lib a b = true ↔ a.decimal.raw = b.decimal.raw := by
    rw [fxyptyEq, decide_eq_true_iff, compare_sign hl, Int.sign_eq_zero_iff_zero, sub_eq_zero]
  rw [hraw, FxyPtyDecimal.raw, FxyPtyDecimal.raw, BitVec.toInt_inj, ← BitVec.toNat_inj,
    Datum.pack128_decimal, Datum.pack128_decimal]
  refine ⟨fun h => LittleEndian.decode_inj ?_ h,fun h => by rw [h]⟩
  rw [List.length_take, List.length_take]
  omega

theorem take_same {run xs ys : List Byte} {k : Nat} (h : k ≤ run.length + 1) :
    (run ++ 0 :: xs).take k = (run ++ 0 :: ys).take k := by
  have hcut (zs : List Byte) : (run ++ 0 :: zs).take k = (run ++ [0]).take k := by
    rw [← List.singleton_append, ← List.append_assoc]
    exact List.take_append_of_le_length (by rw [List.length_append]; exact h)
  rw [hcut xs, hcut ys]

def ones : Buffer Byte 42 := ⟨List.replicate 42 255,rfl⟩

theorem take_differ {run : List Byte} {k : Nat} (h : run.length + 1 < k) (hk : k ≤ 42) :
    (run ++ 0 :: zeroed.cells.drop (run.length + 1)).take k ≠
      (run ++ 0 :: ones.cells.drop (run.length + 1)).take k := by
  have hget (b : Buffer Byte 42) (c : Byte) (hb : b.cells = List.replicate 42 c) :
      ((run ++ 0 :: b.cells.drop (run.length + 1)).take k)[run.length + 1]? = some c := by
    rw [List.getElem?_take_of_lt h, List.getElem?_append_right (by omega),
      Nat.add_sub_cancel_left, List.getElem?_cons_succ, List.getElem?_drop, hb]
    exact List.getElem?_replicate_of_lt (by omega)
  intro he
  have hc := congrArg (fun bytes : List Byte => bytes[run.length + 1]?) he
  simp only [hget zeroed 0 rfl, hget ones 255 rfl] at hc
  exact absurd hc (by decide)

-- the bytes PostgreSQL stores, and what fxypty_eq then says
structure SameStored (lib : Libfixeypointy) (d d' : Datum) : Prop where
  stored : d.bytes.take 24 = d'.bytes.take 24
  equal : fxyptyEq lib d d' = true

structure TextDetermines (lib : Libfixeypointy) (text : List Byte) : Prop where
  returns : token text ≠ [] → ∀ stack rest, ∃ d, fxyptyIn stack (text ++ 0 :: rest) = .ok d
  same : ∀ stack stack' rest, Agree (SameStored lib) (· = ·)
    (fxyptyIn stack (text ++ 0 :: rest)) (fxyptyIn stack' (text ++ 0 :: rest))

theorem runs_agree_iff (h0 : 0 ∉ text) (hne : token text ≠ []) (hlen : (token text).length ≤ 41)
    {k : Nat} (hk : k ≤ 42) :
    (∀ stack stack' rest d d', fxyptyIn stack (text ++ 0 :: rest) = .ok d →
      fxyptyIn stack' (text ++ 0 :: rest) = .ok d' → d.bytes.take k = d'.bytes.take k) ↔
      k ≤ (token text).length + 1 := by
  have hrun (stack : Buffer Byte 42) (rest : List Byte) :=
    fxyptyIn_token h0 hne (Nat.lt_succ_of_le hlen) stack rest
  constructor
  · intro h
    by_contra hk'
    obtain ⟨d,hd,hbytes⟩ := hrun zeroed []
    obtain ⟨d',hd',hbytes'⟩ := hrun ones []
    have he := h zeroed ones [] d d' hd hd'
    rw [hbytes, hbytes'] at he
    exact take_differ (not_le.mp hk') hk he
  · intro hk' stack stack' rest d d' hd hd'
    obtain ⟨e,he,hbytes⟩ := hrun stack rest
    obtain ⟨e',he',hbytes'⟩ := hrun stack' rest
    obtain rfl := Except.ok.inj (hd.symm.trans he)
    obtain rfl := Except.ok.inj (hd'.symm.trans he')
    rw [hbytes, hbytes']
    exact take_same hk'

theorem determines_of_long (hl : SignCompare lib) (h0 : 0 ∉ text)
    (hlen : (token text).length ≤ 41) (hlong : 23 ≤ (token text).length) :
    TextDetermines lib text := by
  have hne : token text ≠ [] := List.ne_nil_of_length_pos (by omega)
  have hrun (stack : Buffer Byte 42) (rest : List Byte) :=
    fxyptyIn_token h0 hne (Nat.lt_succ_of_le hlen) stack rest
  refine ⟨fun _ stack rest => (hrun stack rest).imp fun _ h => h.1,fun stack stack' rest => ?_⟩
  obtain ⟨d,hd,-⟩ := hrun stack rest
  obtain ⟨d',hd',-⟩ := hrun stack' rest
  have hstored := (runs_agree_iff h0 hne hlen (k := 24) (by decide)).mpr (by omega) stack stack' rest
    d d' hd hd'
  have hdecimal := Datum.decimal_congr hstored
  rw [hd, hd']
  refine .ok ⟨hstored,?_⟩
  rw [fxyptyEq, compare_sign hl, hdecimal, sub_self]
  rfl

theorem determines_of_blank (h0 : 0 ∉ text) (ht : token text = []) : TextDetermines lib text where
  returns h := absurd ht h
  same stack stack' rest := by
    rw [blank_rejected h0 ht, blank_rejected h0 ht]
    exact .error rfl

theorem long_of_determines (h0 : 0 ∉ text) (hne : token text ≠ [])
    (hlen : (token text).length ≤ 41) (h : TextDetermines lib text) : 23 ≤ (token text).length := by
  have hagree := (runs_agree_iff h0 hne hlen (k := 24) (by decide)).mp ?_
  · omega
  · intro stack stack' rest d d' hd hd'
    have hsame := h.same stack stack' rest
    rw [hd, hd'] at hsame
    cases hsame with
    | ok hs => exact hs.stored

theorem text_determines_iff (hl : SignCompare lib) (h0 : 0 ∉ text)
    (hlen : (token text).length ≤ 41) :
    (TextDetermines lib text ↔ token text = [] ∨ 23 ≤ (token text).length) ∧
    ((∀ stack stack' rest d d', fxyptyIn stack (text ++ 0 :: rest) = .ok d →
        fxyptyIn stack' (text ++ 0 :: rest) = .ok d' → fxyptyEq lib d d' = true) ↔
      token text = [] ∨ 15 ≤ (token text).length) := by
  simp only [fxyptyEq_iff hl]
  by_cases ht : token text = []
  · refine ⟨iff_of_true (determines_of_blank h0 ht) (.inl ht),iff_of_true ?_ (.inl ht)⟩
    intro stack stack' rest d d' hd
    rw [blank_rejected h0 ht] at hd
    cases hd
  · rw [runs_agree_iff h0 ht hlen (by decide), or_iff_right ht, or_iff_right ht]
    refine ⟨⟨long_of_determines h0 ht hlen,determines_of_long hl h0 hlen⟩,?_⟩
    omega

theorem text_determines_cases :
    TextDetermines truncating (List.replicate 23 (ch '1')) ∧
      ¬TextDetermines truncating (List.replicate 22 (ch '1')) :=
  ⟨(text_determines_iff truncating_compare (by decide) (by decide)).1.mpr (by decide),
    fun h => absurd ((text_determines_iff truncating_compare (by decide) (by decide)).1.mp h)
      (by decide)⟩

theorem stack_bytes_stored :
    ∃ d d', fxyptyIn zeroed [ch '1', 0] = .ok d ∧ fxyptyIn ones [ch '1', 0] = .ok d' ∧
      d.bytes.take 24 = ch '1' :: List.replicate 23 0 ∧
      d'.bytes.take 24 = ch '1' :: 0 :: List.replicate 22 255 ∧
      fxyptyEq truncating d d' = false ∧ ¬TextDetermines truncating [ch '1'] :=
  ⟨⟨ch '1' :: List.replicate 41 0,by decide⟩,⟨ch '1' :: 0 :: List.replicate 40 255,by decide⟩,
    rfl,rfl,by decide,by decide,by decide,
    fun h => absurd (long_of_determines (by decide) (by decide) (by decide) h) (by decide)⟩

end Fxypty
