import Pgfixeypointy.Impl.Assumptions
import Pgfixeypointy.Impl.Exactness
import Pgfixeypointy.Impl.StackFree

namespace FxyptyImpl

theorem tmod_bounds (x : Int) : -10 < x.tmod 10 ∧ x.tmod 10 < 10 :=
  ⟨Int.lt_tmod_of_pos x (by decide),Int.tmod_lt_of_pos x (by decide)⟩

def Visible (c : Byte) : Prop := 33 ≤ c.toNat

instance (c : Byte) : Decidable (Visible c) := inferInstanceAs (Decidable (33 ≤ c.toNat))

theorem digit_visible (x : Int) : Visible (digit x) := by
  obtain ⟨h1,h2⟩ := tmod_bounds x
  rw [digit]
  generalize x.tmod 10 = r at *
  interval_cases r <;> decide

theorem isDigit_visible {c : Byte} (h : isDigit c) : Visible c := le_trans (by decide) h.1

theorem strayRows_visible (i : Int) : ∀ c ∈ (strayRows i).cells, Visible c := by
  intro c hc
  rw [strayRows] at hc
  split at hc
  · have hd (n : Nat) : Visible (digitByte (n % 10)) :=
      isDigit_visible (isDigit_digitByte (Nat.mod_lt n (by decide)))
    simp only [tableRows, fourDigitsRow, List.mem_cons, List.not_mem_nil, or_false] at hc
    rcases hc with rfl | rfl | rfl | rfl
    · exact hd _
    · exact hd _
    · exact hd _
    · exact hd _
  · rw [List.eq_of_mem_replicate hc]
    decide

theorem fixedText_visible (k : Nat) (x : Int) : ∀ c ∈ fixedText strayRows k x, Visible c := by
  have hs (k : Nat) (x : Int) : ∀ c ∈ singlesText k x, Visible c := by
    induction k generalizing x with
    | zero => exact fun c hc => absurd hc List.not_mem_nil
    | succ k ih =>
      intro c hc
      rcases List.mem_append.mp hc with hc | hc
      · exact ih _ c hc
      · rw [List.mem_singleton.mp hc]
        exact digit_visible x
  have hb (m : Nat) (x : Int) : ∀ c ∈ blocksText strayRows m x, Visible c := by
    induction m generalizing x with
    | zero => exact fun c hc => absurd hc List.not_mem_nil
    | succ m ih =>
      intro c hc
      rcases List.mem_append.mp hc with hc | hc
      · exact ih _ c hc
      · exact strayRows_visible _ c hc
  intro c hc
  rcases List.mem_append.mp hc with hc | hc
  · exact hb _ _ c hc
  · exact hs _ _ c hc

theorem fixedText_stray_natCast (k n : Nat) :
    fixedText strayRows k n = (Digits.fixed 10 k n).map digitByte := by
  have hb (m n : Nat) : blocksText strayRows m n = blocksText tableRows m n := by
    induction m generalizing n with
    | zero => rfl
    | succ m ih =>
      have h0 : (0 : Int) ≤ (n : Int).tmod 10000 := Int.tmod_nonneg _ (Int.natCast_nonneg n)
      rw [blocksText, blocksText, ← Int.ofNat_tdiv, ih, strayRows, if_pos h0]
  rw [← fixedText_natCast, fixedText, fixedText, ← Int.ofNat_tdiv, hb]

theorem singlesText_digits {k : Nat} {x : Int} (hx : x < 0) (h : ∀ c ∈ singlesText k x, isDigit c) :
    singlesText k x = List.replicate k (ch '0') ∧ x.tdiv (10 ^ k : Nat) < 0 := by
  induction k generalizing x with
  | zero => exact ⟨rfl,by rwa [Nat.pow_zero, Nat.cast_one, Int.tdiv_one]⟩
  | succ k ih =>
    have h0 : x.tmod 10 = 0 := by
      by_contra hne
      exact not_isDigit_digit hx hne
        (h _ (List.mem_append_right _ List.mem_cons_self))
    obtain ⟨ht,hd⟩ := ih (tdiv_neg_of_tmod hx h0) fun c hc => h c (List.mem_append_left _ hc)
    rw [Digits.tdiv_tdiv, ← Nat.pow_succ'] at hd
    refine ⟨?_,hd⟩
    rw [singlesText, ht, digit, h0, List.replicate_succ']
    rfl

theorem blocksText_digits {m : Nat} {x : Int} (hx : x < 0)
    (h : ∀ c ∈ blocksText strayRows m x, isDigit c) :
    blocksText strayRows m x = List.replicate (4 * m) (ch '0') := by
  induction m generalizing x with
  | zero => rfl
  | succ m ih =>
    have h0 : x.tmod 10000 = 0 := by
      by_contra hne
      have hneg : ¬0 ≤ x.tmod 10000 := by
        have := Int.tmod_nonneg (a := -x) 10000 (by omega)
        rw [Int.neg_tmod] at this
        omega
      have hc : ch '!' ∈ (strayRows (x.tmod 10000)).cells := by
        rw [strayRows, if_neg hneg]
        exact List.mem_cons_self
      exact absurd (h _ (List.mem_append_right _ hc)) (by decide)
    rw [blocksText, ih (tdiv_neg_of_tmod hx h0) fun c hc => h c (List.mem_append_left _ hc), h0,
      Nat.mul_succ, List.replicate_add]
    rfl

theorem fixedText_digits {k : Nat} {x : Int} (hx : x < 0)
    (h : ∀ c ∈ fixedText strayRows k x, isDigit c) :
    fixedText strayRows k x = List.replicate k (ch '0') := by
  obtain ⟨hs,hd⟩ := singlesText_digits hx fun c hc => h c (List.mem_append_right _ hc)
  have hb := blocksText_digits hd fun c hc => h c (List.mem_append_left _ hc)
  rw [fixedText, hs, hb, ← List.replicate_add, Nat.div_add_mod]

theorem readSign_signText (b : Bool) (ds : List (Fin 10)) (rest : List Byte) :
    readSign (signText b ++ (Literal.digitsText ds ++ ch '.' :: rest)) =
      (if b then .minus else .none, Literal.digitsText ds ++ ch '.' :: rest) := by
  cases b with
  | true => rfl
  | false =>
    cases ds with
    | nil => rfl
    | cons d ds =>
      have hd : ∀ d : Fin 10, digitByte d.val ≠ ch '-' ∧ digitByte d.val ≠ ch '+' := by decide
      have hcons : signText false ++ (Literal.digitsText (d :: ds) ++ ch '.' :: rest) =
          digitByte d.val :: (Literal.digitsText ds ++ ch '.' :: rest) := rfl
      rw [hcons, readSign, if_neg (hd d).1, if_neg (hd d).2]
      rfl

theorem readLiteral_point {b : Bool} {ds : List (Fin 10)} {fraction : List Byte} {l : Literal}
    (h : readLiteral (signText b ++ (Literal.digitsText ds ++ ch '.' :: fraction)) = some l) :
    l.whole = ds ∧ ∃ es, l.fraction = some es ∧ Literal.digitsText es = fraction := by
  have hp : ∀ c ∈ (ch '.' :: fraction).head?, ¬isDigit c := by
    intro c hc
    obtain rfl := Option.some.inj hc
    decide
  simp only [readLiteral, readSign_signText, spanDigits_append ds hp] at h
  split at h
  · cases h
  · rename_i fraction' hf
    split at h
    · obtain rfl := Option.some.inj h
      refine ⟨rfl,?_⟩
      rw [readFraction] at hf
      split at hf
      · rename_i hs
        have ht := spanDigits_text fraction
        rw [hs.2, List.append_nil] at ht
        exact ⟨_,(Option.some.inj hf).symm,ht⟩
      · cases hf
    · cases h

theorem magnitude_lt_of_zeros {l : Literal} {j : Nat} {ds : List Nat} (hd : ∀ d ∈ ds, d < 10)
    (h : l.digits.map Fin.val = List.replicate j 0 ++ ds) : l.magnitude < 10 ^ ds.length := by
  rw [Literal.magnitude, List.map_reverse, h, List.reverse_append, List.reverse_replicate,
    Nat.ofDigits_append, Nat.ofDigits_replicate_zero, Nat.mul_zero, Nat.add_zero, ← List.length_reverse]
  exact Nat.ofDigits_lt_base_pow_length (by decide) fun d hm => hd d (List.mem_reverse.mp hm)

theorem digitsText_val (ds : List (Fin 10)) :
    Literal.digitsText ds = (ds.map Fin.val).map digitByte := by
  rw [List.map_map]
  rfl

theorem digitsText_eq {ds : List (Fin 10)} {ns : List Nat} (hn : ∀ n ∈ ns, n < 10)
    (h : Literal.digitsText ds = ns.map digitByte) : ds.map Fin.val = ns := by
  rw [digitsText_val] at h
  refine map_digitByte_inj (fun d hd => ?_) hn h
  obtain ⟨e,-,rfl⟩ := List.mem_map.mp hd
  exact e.isLt

theorem scaled_natAbs {l : Literal} {s : Nat} (h : l.fractionDigits = s) :
    (l.scaled s).natAbs = l.magnitude := by
  rw [Literal.scaled_exact h.le, h, Nat.sub_self, Nat.pow_zero, Nat.cast_one, mul_one,
    Sign.apply_natAbs]

theorem fixedText_high {b : Bool} {hi : Int} {lo s : Nat} (hhi : hi < 0) (hs : 18 < s) {l : Literal}
    (h : readLiteral (layout strayRows b hi lo s) = some l) :
    (l.scaled s).natAbs < 10 ^ 18 := by
  obtain ⟨j,ds,hds,hlay⟩ : ∃ j ds, ds = List.replicate j (0 : Fin 10) ∧
      layout strayRows b hi lo s = signText b ++ (Literal.digitsText ds ++
        ch '.' :: (fixedText strayRows (s - 18) hi ++ fixedText strayRows 18 lo)) := by
    rw [layout_eq_hi hhi.ne hs, body]
    split
    · exact ⟨1,_,rfl,rfl⟩
    · refine ⟨0,_,rfl,?_⟩
      have hrest : (hi.tdiv (10 ^ (s - 18) : Nat)).toNat = 0 := by
        have := Int.tdiv_nonneg (a := -hi) (by omega) (Int.natCast_nonneg (10 ^ (s - 18)))
        rw [Int.neg_tdiv] at this
        omega
      rw [hrest, leadText_zero]
      rfl
  rw [hlay] at h
  obtain ⟨hw,es,hf,ht⟩ := readLiteral_point h
  have hdigits : ∀ c ∈ fixedText strayRows (s - 18) hi, isDigit c := fun c hc =>
    Literal.isDigit_text es c (ht ▸ List.mem_append_left _ hc)
  have hes : es.map Fin.val = List.replicate (s - 18) 0 ++ Digits.fixed 10 18 lo := by
    refine digitsText_eq ?_ ?_
    · intro n hn
      rcases List.mem_append.mp hn with hn | hn
      · rw [List.eq_of_mem_replicate hn]
        decide
      · exact fixed_lt_ten _ _ n hn
    · rw [ht, fixedText_digits hhi hdigits, fixedText_stray_natCast, List.map_append,
        List.map_replicate]
      rfl
  have hlen : l.fractionDigits = s := by
    have hl := congrArg List.length hes
    rw [List.length_map, List.length_append, List.length_replicate, Digits.fixed_length] at hl
    rw [Literal.fractionDigits, hf, Option.getD_some, hl]
    omega
  have hall : l.digits.map Fin.val = List.replicate (j + (s - 18)) 0 ++ Digits.fixed 10 18 lo := by
    rw [Literal.digits, hw, hf, Option.getD_some, List.map_append, hes, hds, List.map_replicate,
      List.replicate_add, List.append_assoc]
    rfl
  have hm := magnitude_lt_of_zeros (fixed_lt_ten _ _) hall
  rwa [Digits.fixed_length, ← scaled_natAbs hlen] at hm

theorem fixedText_low {b : Bool} {hi : Int} {lo s : Nat} (hhi : hi < 0) (hs : ¬18 < s) {l : Literal}
    (h : readLiteral (layout strayRows b hi lo s) = some l) :
    (l.scaled s).natAbs < 10 ^ 18 := by
  have hlay : layout strayRows b hi lo s =
      signText b ++ (Literal.digitsText (finDigits (Digits.fixed 10 (18 - s) (lo / 10 ^ s))) ++
        ch '.' :: (Digits.fixed 10 s lo).map digitByte) := by
    rw [layout_eq_lo hhi.ne hs, show hi.toNat = 0 by omega, leadText_zero, List.nil_append,
      ← Int.ofNat_tdiv, fixedText_stray_natCast, fixedText_stray_natCast,
      digitsText_finDigits (fixed_lt_ten _ _)]
  rw [hlay] at h
  obtain ⟨hw,es,hf,ht⟩ := readLiteral_point h
  have hes := digitsText_eq (fixed_lt_ten _ _) ht
  have hlen : l.fractionDigits = s := by
    have hl := congrArg List.length hes
    rw [List.length_map, Digits.fixed_length] at hl
    rw [Literal.fractionDigits, hf, Option.getD_some, hl]
  have hall : l.digits.map Fin.val = List.replicate 0 0 ++
      (Digits.fixed 10 (18 - s) (lo / 10 ^ s) ++ Digits.fixed 10 s lo) := by
    rw [Literal.digits, hw, hf, Option.getD_some, List.map_append, hes,
      finDigits_val (fixed_lt_ten _ _)]
    rfl
  rw [← Digits.fixed_add] at hall
  have hm := magnitude_lt_of_zeros (fixed_lt_ten _ _) hall
  rwa [Digits.fixed_length, Nat.sub_add_cancel (by omega), ← scaled_natAbs hlen] at hm

theorem tdiv_nonpos {x : Int} (hx : x < 0) (n : Nat) : x.tdiv n ≤ 0 := by
  have := Int.tdiv_nonneg (a := -x) (by omega) (Int.natCast_nonneg n)
  rw [Int.neg_tdiv] at this
  omega

theorem leadText_nonpos {x : Int} (hx : x ≤ 0) : leadText strayRows x.toNat = [] := by
  rw [show x.toNat = 0 by omega, leadText_zero]

theorem layout_visible {b : Bool} {hi lo : Int} {s : Nat} (hhi : hi < 0) :
    ∀ c ∈ layout strayRows b hi lo s, Visible c := by
  have hsign : ∀ c ∈ signText b, Visible c := by cases b <;> decide
  have hdot : Visible (ch '.') := by decide
  intro c hc
  by_cases hs : 18 < s
  · rw [layout_eq_hi hhi.ne hs, body, leadText_nonpos (tdiv_nonpos hhi _)] at hc
    rcases List.mem_append.mp hc with hc | hc
    · exact hsign c hc
    · rcases List.mem_append.mp hc with hc | hc
      · split at hc
        · rw [List.mem_singleton.mp hc]
          decide
        · exact absurd hc List.not_mem_nil
      · rcases List.mem_cons.mp hc with rfl | hc
        · exact hdot
        · rcases List.mem_append.mp hc with hc | hc
          · exact fixedText_visible _ _ c hc
          · exact fixedText_visible _ _ c hc
  · rw [layout_eq_lo hhi.ne hs, leadText_nonpos hhi.le, List.nil_append] at hc
    rcases List.mem_append.mp hc with hc | hc
    · exact hsign c hc
    · rcases List.mem_append.mp hc with hc | hc
      · exact fixedText_visible _ _ c hc
      · rcases List.mem_cons.mp hc with rfl | hc
        · exact hdot
        · exact fixedText_visible _ _ c hc

theorem not_mem_of_visible {text : List Byte} (h : ∀ c ∈ text, Visible c) : 0 ∉ text :=
  fun hz => absurd (h 0 hz) (by decide)

theorem numeral_visible (b : Bool) (n s : Nat) : ∀ c ∈ numeral b n s, Visible c := by
  have hdigits {xs : List Nat} (h : ∀ d ∈ xs, d < 10) : ∀ c ∈ xs.map digitByte, Visible c :=
    fun c hc => isDigit_visible (isDigit_map h c hc)
  intro c hc
  simp only [numeral, List.mem_append, List.mem_cons] at hc
  rcases hc with hc | hc | rfl | hc
  · cases b
    · exact absurd hc List.not_mem_nil
    · rw [List.mem_singleton.mp hc]
      decide
  · exact hdigits (whole_lt_ten _) c hc
  · decide
  · exact hdigits (fixed_lt_ten _ _) c hc

-- -2^127 is its own absolute value, so its digits are looked up before the table
theorem least_unprinted {x : FxyPtyDecimal} (hx : x.raw = -2 ^ 127) (hs : x.scale.toNat ≤ 38)
    (tmp : Buffer Byte 42) : fxyptyOut fourDigits tmp zeroed x = .error .lookup := by
  have hscales : ∀ s : Fin 39, fxyptyOut fourDigits zeroed zeroed
      (.wrap (BitVec.intMin 128) (BitVec.ofNat 32 s)) = .error .lookup := by decide
  have hraw : pack128 x = BitVec.intMin 128 := BitVec.eq_of_toInt_eq hx
  have h := hscales ⟨x.scale.toNat,by omega⟩
  rw [BitVec.ofNat_toNat, BitVec.setWidth_eq, ← hraw, wrap_pack128] at h
  rw [fxyptyOut_alike tmp zeroed, h]

theorem natAbs_of_printed {x : FxyPtyDecimal} {tmp b : Buffer Byte 42} (hs : x.scale.toNat ≤ 38)
    (h : fxyptyOut fourDigits tmp zeroed x = .ok b) : x.raw.natAbs < 2 ^ 127 := by
  have h1 : -2 ^ 128 ≤ 2 * x.raw := BitVec.le_two_mul_toInt
  have h2 : 2 * x.raw < 2 ^ 128 := BitVec.two_mul_toInt_lt
  by_contra hge
  rw [least_unprinted (by omega) hs tmp] at h
  cases h

theorem printed_cases {x : FxyPtyDecimal} {tmp b : Buffer Byte 42} (hs : x.scale.toNat ≤ 38)
    (h : fxyptyOut fourDigits tmp zeroed x = .ok b) :
    (hi x < 0 ∧ cString b =
      layout strayRows (isNegative x) (hi x) (x.raw.natAbs % 10 ^ 18 : Nat) x.scale.toNat) ∨
    ∃ q : Nat, q < 2 ^ 63 ∧
      cString b = numeral (isNegative x) (q * 10 ^ 18 + x.raw.natAbs % 10 ^ 18) x.scale.toNat := by
  have hlo := lo_small (natAbs_of_printed hs h)
  rcases lt_or_ge (hi x) 0 with hn | hn
  · obtain ⟨hlen,hlay⟩ := fxyptyOut_layout strayRows tmp zeroed hs
    have hrun := emit_strayRows h
    obtain rfl := Except.ok.inj (hrun.symm.trans hlay)
    refine .inl ⟨hn,?_⟩
    rw [← hlo]
    exact cString_terminated (not_mem_of_visible (layout_visible hn)) zeroed hlen
  · obtain ⟨q,hq⟩ := Int.eq_ofNat_of_zero_le hn
    have hq63 := (hi_bounds x).2
    obtain ⟨hlen,hnum⟩ := emit_numeral tmp zeroed (isNegative x) q (x.raw.natAbs % 10 ^ 18)
      (by omega) (Nat.mod_lt _ (by decide)) hs
    rw [← hq, ← hlo] at hnum
    obtain rfl := Except.ok.inj (h.symm.trans hnum)
    exact .inr ⟨q,by omega,cString_numeral _ _ _ _ _⟩

theorem printed_visible {x : FxyPtyDecimal} {tmp b : Buffer Byte 42} (hs : x.scale.toNat ≤ 38)
    (h : fxyptyOut fourDigits tmp zeroed x = .ok b) : ∀ c ∈ cString b, Visible c := by
  rcases printed_cases hs h with ⟨hn,ht⟩ | ⟨q,-,ht⟩
  · rw [ht]
    exact layout_visible hn
  · rw [ht]
    exact numeral_visible _ _ _

theorem misprint {x : FxyPtyDecimal} {tmp b : Buffer Byte 42}
    (hb : 2 ^ 63 * 10 ^ 18 ≤ x.raw.natAbs) (hs : x.scale.toNat ≤ 38)
    (h : fxyptyOut fourDigits tmp zeroed x = .ok b) {l : Literal}
    (hl : readLiteral (cString b) = some l) : l.scaled x.scale.toNat ≠ x.raw := by
  intro hraw
  rcases printed_cases hs h with ⟨hn,ht⟩ | ⟨q,hq,ht⟩
  · rw [ht] at hl
    have hsmall : (l.scaled x.scale.toNat).natAbs < 10 ^ 18 := by
      by_cases h18 : 18 < x.scale.toNat
      · exact fixedText_high hn h18 hl
      · exact fixedText_low hn h18 hl
    rw [hraw] at hsmall
    omega
  · rw [ht, ← printed_text, readLiteral_text] at hl
    obtain rfl := Option.some.inj hl
    have hf : (printed (isNegative x) (q * 10 ^ 18 + x.raw.natAbs % 10 ^ 18)
        x.scale.toNat).fractionDigits = x.scale.toNat := printed_fractionDigits _ _ _
    have hm := scaled_natAbs hf
    rw [hraw, printed_magnitude] at hm
    omega

end FxyptyImpl
