import Pgfixeypointy.Impl.Emission

namespace FxyptyImpl

variable {table : Int → Except Fault (Buffer Byte 4)} {rows : Int → Buffer Byte 4}
  {dom : Int → Prop}

def signText (isNegative : Bool) : List Byte := if isNegative then [ch '-'] else []

def body (rows : Int → Buffer Byte 4) (fraction : List Byte) (rest : Int) : List Byte :=
  (if rest = 0 then [ch '0'] else leadText rows rest.toNat) ++ ch '.' :: fraction

def layout (rows : Int → Buffer Byte 4) (isNegative : Bool) (hi lo : Int) (s : Nat) : List Byte :=
  signText isNegative ++
    if hi = 0 then body rows (fixedText rows s lo) (lo.tdiv (10 ^ s : Nat))
    else if 18 < s then
      body rows (fixedText rows (s - 18) hi ++ fixedText rows 18 lo)
        (hi.tdiv (10 ^ (s - 18) : Nat))
    else leadText rows hi.toNat ++
      (fixedText rows (18 - s) (lo.tdiv (10 ^ s : Nat)) ++ ch '.' :: fixedText rows s lo)

theorem signText_length (isNegative : Bool) : (signText isNegative).length ≤ 1 := by
  cases isNegative <;> simp [signText]

theorem lead_fits (rows : Int → Buffer Byte 4) {k : Nat} (j : Nat) {y : Int} (hy : y < (10 ^ k : Nat)) :
    (leadText rows (y.tdiv (10 ^ j : Nat)).toNat).length ≤ k - j := by
  rw [leadText_length]
  rcases le_or_gt 0 y with h0 | h0
  · obtain ⟨n,rfl⟩ := Int.eq_ofNat_of_zero_le h0
    rw [← Int.ofNat_tdiv, Int.toNat_natCast]
    apply Digits.digits_length_le (by decide)
    have hn : n < 10 ^ k := by exact_mod_cast hy
    rcases le_or_gt j k with hj | hj
    · apply Nat.div_lt_of_lt_mul
      rwa [← Nat.pow_add, Nat.add_sub_cancel' hj]
    · have hz : n < 10 ^ j := hn.trans (Nat.pow_lt_pow_right (by decide) hj)
      rw [Nat.div_eq_of_lt hz]
      exact Nat.pow_pos (by decide)
  · have hz : (y.tdiv (10 ^ j : Nat)).toNat = 0 := by
      rw [← neg_neg y, Int.neg_tdiv]
      have := Int.tdiv_nonneg (a := -y) (by omega) (Int.natCast_nonneg (10 ^ j))
      omega
    rw [hz]
    simp

theorem lead_run (hv : Serves table rows dom) {x : Int} (cur : Nat)
    (hc : (leadText rows x.toNat).length ≤ cur) (h42 : cur ≤ 42) (tmp : Buffer Byte 42)
    (hx : dom x) :
    ∃ tmp' rest, leading table cur tmp x =
        .ok ⟨tmp', cur - (leadText rows x.toNat).length, rest, 0⟩ ∧
      tmp'.tail (cur - (leadText rows x.toNat).length) =
        leadText rows x.toNat ++ tmp.tail cur := by
  rcases le_or_gt 0 x with h0 | h0
  · obtain ⟨n,rfl⟩ := Int.eq_ofNat_of_zero_le h0
    obtain ⟨tmp',hrun,htail⟩ := leading_run hv n cur hc h42 tmp hx
    exact ⟨tmp',0,hrun,htail⟩
  · have hz : x.toNat = 0 := by omega
    refine ⟨tmp,x,?_,?_⟩
    · rw [leading_nonpos h0.le, hz, leadText_zero]
      rfl
    · rw [hz, leadText_zero]
      rfl

theorem copyOut_run (out : Buffer Byte 42) (head : List Byte) {c : Cursor} {text : List Byte}
    (h42 : c.curDigit ≤ 42) (ht : c.tmp.tail c.curDigit = text)
    (hl : 0 + (head ++ text).length ≤ 42) :
    copyOut out head c = .ok (out.put 0 (head ++ text) hl) := by
  subst ht
  rw [List.length_append] at hl
  have h0 : 0 + head.length ≤ 42 := by omega
  have h1 : head.length + (c.tmp.tail c.curDigit).length ≤ 42 := by omega
  simp only [copyOut, Buffer.store_ok _ _ _ _ h0, Buffer.load_tail _ _ h42]
  change Buffer.store Fault.overrun (out.put 0 head h0) head.length (c.tmp.tail c.curDigit) = _
  rw [Buffer.store_ok _ _ _ _ h1]
  congr 1
  have hp := Buffer.put_put out 0 head (c.tmp.tail c.curDigit) h0 (by omega)
  simpa only [Nat.zero_add] using hp

theorem finish_run (hv : Serves table rows dom) (out : Buffer Byte 42) (isNegative : Bool)
    {x : Int} {c : Cursor} {text : List Byte} (ht : c.tmp.tail c.curDigit = text)
    (hc : (leadText rows x.toNat).length + 1 ≤ c.curDigit) (h42 : c.curDigit ≤ 42) (hx : dom x) :
    ∃ h, finish table out isNegative x c =
      .ok (out.put 0 (signText isNegative ++ (leadText rows x.toNat ++ text)) h) := by
  obtain ⟨tmp',rest,hrun,htail⟩ := lead_run hv c.curDigit (by omega) h42 c.tmp hx
  have hs := signText_length isNegative
  have hl := congrArg List.length htail
  rw [Buffer.tail_length] at hl
  rw [ht] at htail hl
  have h : 0 + (signText isNegative ++ (leadText rows x.toNat ++ text)).length ≤ 42 := by
    rw [List.length_append]
    omega
  refine ⟨h,?_⟩
  simp only [finish, hrun]
  exact copyOut_run out (signText isNegative) (show c.curDigit - _ ≤ 42 by omega) htail h

theorem push_run {c : Cursor} {text : List Byte} (byte : Byte)
    (ht : c.tmp.tail c.curDigit = text) (hc : 1 ≤ c.curDigit) (h42 : c.curDigit ≤ 42) :
    ∃ tmp', push byte c = .ok { c with tmp := tmp', curDigit := c.curDigit - 1 } ∧
      tmp'.tail (c.curDigit - 1) = byte :: text := by
  obtain ⟨tmp,cur,rest,count⟩ := c
  obtain ⟨cur,rfl⟩ : ∃ k, cur = k + 1 := ⟨cur - 1,by dsimp only at hc; omega⟩
  have hp : cur + [byte].length ≤ 42 := by simpa using h42
  refine ⟨tmp.put cur [byte] hp,?_,?_⟩
  · simp only [push, Buffer.store_ok _ _ _ _ hp]
    rfl
  · rw [← ht]
    exact Buffer.tail_put tmp cur [byte] hp

theorem closeFraction_run (hv : Serves table rows dom) (out : Buffer Byte 42) (isNegative : Bool)
    {c : Cursor} {fraction : List Byte} (ht : c.tmp.tail c.curDigit = fraction ++ [0])
    (hc : (leadText rows c.rest.toNat).length + 3 ≤ c.curDigit) (h42 : c.curDigit ≤ 42)
    (hx : dom c.rest) :
    ∃ h, closeFraction table out isNegative c =
      .ok (out.put 0 (signText isNegative ++ body rows fraction c.rest ++ [0]) h) := by
  have hl := congrArg List.length ht
  rw [Buffer.tail_length] at hl
  unfold closeFraction
  split
  · rename_i h0
    have hs : (if isNegative then [ch '-', ch '0', ch '.'] else [ch '0', ch '.']) =
        signText isNegative ++ [ch '0', ch '.'] := by cases isNegative <;> rfl
    have he : signText isNegative ++ [ch '0', ch '.'] ++ (fraction ++ [0]) =
        signText isNegative ++ body rows fraction c.rest ++ [0] := by
      simp [body, h0]
    have hn := signText_length isNegative
    have h : 0 + (signText isNegative ++ [ch '0', ch '.'] ++ (fraction ++ [0])).length ≤ 42 := by
      rw [List.length_append, List.length_append]
      simp only [List.length_cons, List.length_nil] at *
      omega
    rw [hs, copyOut_run out _ h42 ht h]
    exact ⟨he ▸ h,congrArg Except.ok (Buffer.put_congr out h he)⟩
  · rename_i h0
    obtain ⟨tmp',hrun,htail⟩ := push_run (ch '.') ht (by omega) h42
    have he : signText isNegative ++ (leadText rows c.rest.toNat ++ ch '.' :: (fraction ++ [0])) =
        signText isNegative ++ body rows fraction c.rest ++ [0] := by
      simp [body, h0]
    obtain ⟨h,hf⟩ := finish_run hv out isNegative (x := c.rest)
      (c := { c with tmp := tmp', curDigit := c.curDigit - 1 }) htail
      (show _ + 1 ≤ c.curDigit - 1 by omega) (show c.curDigit - 1 ≤ 42 by omega) hx
    simp only [hrun]
    exact ⟨he ▸ h,hf.trans (congrArg Except.ok (Buffer.put_congr out h he))⟩

theorem layout_eq_zero {isNegative : Bool} {hi lo : Int} {s : Nat} (h : hi = 0) :
    layout rows isNegative hi lo s =
      signText isNegative ++ body rows (fixedText rows s lo) (lo.tdiv (10 ^ s : Nat)) := by
  rw [layout, if_pos h]

theorem layout_eq_hi {isNegative : Bool} {hi lo : Int} {s : Nat} (h : hi ≠ 0) (hs : 18 < s) :
    layout rows isNegative hi lo s = signText isNegative ++
      body rows (fixedText rows (s - 18) hi ++ fixedText rows 18 lo)
        (hi.tdiv (10 ^ (s - 18) : Nat)) := by
  rw [layout, if_neg h, if_pos hs]

theorem layout_eq_lo {isNegative : Bool} {hi lo : Int} {s : Nat} (h : hi ≠ 0) (hs : ¬18 < s) :
    layout rows isNegative hi lo s = signText isNegative ++ (leadText rows hi.toNat ++
      (fixedText rows (18 - s) (lo.tdiv (10 ^ s : Nat)) ++ ch '.' :: fixedText rows s lo)) := by
  rw [layout, if_neg h, if_neg hs]

structure Bounded (hi lo : Int) (scale : Scale) : Prop where
  hi_lt : hi < (10 ^ 19 : Nat)
  lo_lt : lo < (10 ^ 18 : Nat)
  scale_le : scale.toNat ≤ 38

theorem scale_toInt {scale : Scale} (h : scale.toNat ≤ 38) : scale.toInt = (scale.toNat : Int) :=
  BitVec.toInt_eq_toNat_of_lt (by omega)

theorem scale_sub {scale : Scale} (h : 18 < scale.toNat) :
    (scale - 18#32).toNat = scale.toNat - 18 :=
  BitVec.toNat_sub_of_le (BitVec.le_def.mpr (by simpa using h.le))

theorem sub_scale {scale : Scale} (h : ¬18 < scale.toNat) :
    (18#32 - scale).toNat = 18 - scale.toNat :=
  BitVec.toNat_sub_of_le (BitVec.le_def.mpr (by simpa using h))

theorem ok_bind {A B : Type} (a : A) (f : A → Except Fault B) : (Except.ok a >>= f) = f a := rfl

theorem terminator_room : 41 + [(0 : Byte)].length ≤ 42 := by simp

theorem terminator_tail (tmp : Buffer Byte 42) : (tmp.put 41 [0] terminator_room).tail 41 = [0] := by
  rw [Buffer.tail_put]
  exact congrArg (0 :: ·) (List.drop_eq_nil_of_le (by rw [tmp.size]; rfl))

theorem emit_zero (hv : Serves table rows dom) (tmp out : Buffer Byte 42) (isNegative : Bool)
    {hi lo : Int} {scale : Scale} (hb : Bounded hi lo scale) (hlo : dom lo) (h0 : hi = 0) :
    ∃ h, emit table tmp out isNegative hi lo scale =
      .ok (out.put 0 (layout rows isNegative hi lo scale.toNat ++ [0]) h) := by
  have hs38 := hb.scale_le
  obtain ⟨t1,hrun1,htail1⟩ := deplete_run hv (scale.toNat) 41 (by omega) (by omega)
    (tmp.put 41 [0] terminator_room) hlo
  rw [terminator_tail] at htail1
  have hfit : (leadText rows (lo.tdiv (10 ^ scale.toNat : Nat)).toNat).length + 3 ≤
      41 - scale.toNat := by
    have := lead_fits rows (scale.toNat) hb.lo_lt
    omega
  obtain ⟨h,hc⟩ := closeFraction_run hv out isNegative
    (c := ⟨t1, 41 - scale.toNat, lo.tdiv (10 ^ scale.toNat : Nat), 0⟩) htail1 hfit
    (show 41 - scale.toNat ≤ 42 by omega) (hv.tdiv _ _ hlo)
  rw [layout_eq_zero h0]
  refine ⟨h,?_⟩
  unfold emit
  rw [Buffer.store_ok _ _ _ _ terminator_room, ok_bind, if_pos h0, scale_toInt hs38, hrun1, ok_bind]
  exact hc

theorem emit_hi (hv : Serves table rows dom) (tmp out : Buffer Byte 42) (isNegative : Bool)
    {hi lo : Int} {scale : Scale} (hb : Bounded hi lo scale) (hhi : dom hi) (hlo : dom lo)
    (h0 : hi ≠ 0) (h18 : 18 < scale.toNat) :
    ∃ h, emit table tmp out isNegative hi lo scale =
      .ok (out.put 0 (layout rows isNegative hi lo scale.toNat ++ [0]) h) := by
  have hs38 := hb.scale_le
  have hlt : 18#32 < scale := BitVec.lt_def.mpr h18
  have hsub : (scale - 18#32).toInt = (scale.toNat - 18 : Nat) := by
    rw [scale_toInt (by rw [scale_sub h18]; omega), scale_sub h18]
  obtain ⟨t1,hrun1,htail1⟩ := deplete_run hv 18 41 (by omega) (by omega)
    (tmp.put 41 [0] terminator_room) hlo
  change deplete table 41 (tmp.put 41 [0] terminator_room) lo 18 = _ at hrun1
  obtain ⟨t2,hrun2,htail2⟩ := deplete_run hv (scale.toNat - 18) (41 - 18) (by omega)
    (by omega) t1 hhi
  rw [htail1, terminator_tail, ← List.append_assoc] at htail2
  have hfit : (leadText rows (hi.tdiv (10 ^ (scale.toNat - 18) : Nat)).toNat).length + 3 ≤
      41 - 18 - (scale.toNat - 18) := by
    have := lead_fits rows (scale.toNat - 18) hb.hi_lt
    omega
  obtain ⟨h,hc⟩ := closeFraction_run hv out isNegative
    (c := ⟨t2, 41 - 18 - (scale.toNat - 18), hi.tdiv (10 ^ (scale.toNat - 18) : Nat), 0⟩) htail2
    hfit (show 41 - 18 - (scale.toNat - 18) ≤ 42 by omega) (hv.tdiv _ _ hhi)
  rw [layout_eq_hi h0 h18]
  refine ⟨h,?_⟩
  unfold emit
  rw [Buffer.store_ok _ _ _ _ terminator_room, ok_bind, if_neg h0, if_pos hlt, hsub, hrun1, ok_bind,
    hrun2, ok_bind]
  exact hc

theorem emit_lo (hv : Serves table rows dom) (tmp out : Buffer Byte 42) (isNegative : Bool)
    {hi lo : Int} {scale : Scale} (hb : Bounded hi lo scale) (hhi : dom hi) (hlo : dom lo)
    (h0 : hi ≠ 0) (h18 : ¬18 < scale.toNat) :
    ∃ h, emit table tmp out isNegative hi lo scale =
      .ok (out.put 0 (layout rows isNegative hi lo scale.toNat ++ [0]) h) := by
  have hlt : ¬18#32 < scale := fun hn => h18 (BitVec.lt_def.mp hn)
  obtain ⟨t1,hrun1,htail1⟩ := deplete_run hv (scale.toNat) 41 (by omega) (by omega)
    (tmp.put 41 [0] terminator_room) hlo
  rw [terminator_tail] at htail1
  obtain ⟨t2,hrun2,htail2⟩ := push_run (ch '.')
    (c := ⟨t1, 41 - scale.toNat, lo.tdiv (10 ^ scale.toNat : Nat), 0⟩) htail1
    (show 1 ≤ 41 - scale.toNat by omega) (show 41 - scale.toNat ≤ 42 by omega)
  obtain ⟨t3,hrun3,htail3⟩ := deplete_run hv (18 - scale.toNat) (41 - scale.toNat - 1)
    (by omega) (by omega) t2 (hv.tdiv _ (10 ^ scale.toNat) hlo)
  have hfit : (leadText rows hi.toNat).length + 1 ≤ 41 - scale.toNat - 1 - (18 - scale.toNat) := by
    have := lead_fits rows 0 hb.hi_lt
    rw [Nat.pow_zero, Nat.cast_one, Int.tdiv_one] at this
    omega
  obtain ⟨h,hf⟩ := finish_run hv out isNegative
    (c := ⟨t3, 41 - scale.toNat - 1 - (18 - scale.toNat),
      (lo.tdiv (10 ^ scale.toNat : Nat)).tdiv (10 ^ (18 - scale.toNat) : Nat), 0⟩) htail3 hfit
    (show 41 - scale.toNat - 1 - (18 - scale.toNat) ≤ 42 by omega) hhi
  have he : signText isNegative ++ (leadText rows hi.toNat ++
      (fixedText rows (18 - scale.toNat) (lo.tdiv (10 ^ scale.toNat : Nat)) ++
        t2.tail (41 - scale.toNat - 1))) =
      layout rows isNegative hi lo scale.toNat ++ [0] := by
    rw [htail2, layout_eq_lo h0 h18]
    simp
  refine ⟨he ▸ h,?_⟩
  unfold emit
  rw [Buffer.store_ok _ _ _ _ terminator_room, ok_bind, if_neg h0, if_neg hlt,
    scale_toInt hb.scale_le, hrun1, ok_bind, hrun2, ok_bind, sub_scale h18, hrun3, ok_bind]
  exact hf.trans (congrArg Except.ok (Buffer.put_congr out h he))

-- on every path the digits still to come leave room for the sign and "0."
theorem emit_run (hv : Serves table rows dom) (tmp out : Buffer Byte 42) (isNegative : Bool)
    {hi lo : Int} {scale : Scale} (hb : Bounded hi lo scale) (hhi : dom hi) (hlo : dom lo) :
    ∃ h, emit table tmp out isNegative hi lo scale =
      .ok (out.put 0 (layout rows isNegative hi lo scale.toNat ++ [0]) h) := by
  by_cases h0 : hi = 0
  · exact emit_zero hv tmp out isNegative hb hlo h0
  · by_cases h18 : 18 < scale.toNat
    · exact emit_hi hv tmp out isNegative hb hhi hlo h0 h18
    · exact emit_lo hv tmp out isNegative hb hhi hlo h0 h18

end FxyptyImpl
