import Pgfixeypointy.Library.Corners
import Pgfixeypointy.Extension.Accuracy
import Pgfixeypointy.Extension.Aggregates

namespace Fxypty

open FxyptyImpl Expression Aggregate Corners Set

-- a library that rounds to 128 bits by one monotone function and throws outside of them
structure RoundsBy (lib : Libfixeypointy) (round : ℚ → ℤ) : Prop where
  monotone : ∀ x y, x ≤ y → round x ≤ round y
  near : ∀ x, Rounding.Near (round x) x
  add : ∀ x y, lib.add x y = fit (x.toInt + y.toInt)
  subtract : ∀ x y, lib.subtract x y = fit (x.toInt - y.toInt)
  multiply : ∀ x y k, lib.multiply x y k = fit (round (x.toInt * y.toInt / 10 ^ k.toNat))
  divide : ∀ x y k, y.toInt ≠ 0 → lib.divide x y k = fit (round (x.toInt * 10 ^ k.toNat / y.toInt))

def Operator.unrounded (s : Scale) : Operator → ℚ → ℚ → ℚ
  | .add, x, y => x + y
  | .subtract, x, y => x - y
  | .multiply, x, y => x * y / 10 ^ s.toNat
  | .divide, x, y => x * 10 ^ s.toNat / y

structure Range (s : Scale) where
  lower : OfScale s
  upper : OfScale s
  ordered : rawLe lower upper

def Range.Holds {s : Scale} (i : Range s) (d : OfScale s) : Prop :=
  rawLe i.lower d ∧ rawLe d i.upper

def enclose (lib : Libfixeypointy) (op : Operator) (padding : Buffer Byte 4) (I J : Datum × Datum) :
    Except Fault (Datum × Datum) :=
  if op = .divide ∧ J.1.decimal.raw ≤ 0 ∧ 0 ≤ J.2.decimal.raw then .error runtimeErrors
  else do
    let a ← op.wrapped lib padding I.1 J.1
    let b ← op.wrapped lib padding I.1 J.2
    let c ← op.wrapped lib padding I.2 J.1
    let d ← op.wrapped lib padding I.2 J.2
    .ok (fxyptySmaller lib (fxyptySmaller lib a b) (fxyptySmaller lib c d),
      fxyptyLarger lib (fxyptyLarger lib a b) (fxyptyLarger lib c d))

def enclosure {s : Scale} (lib : Libfixeypointy) (e : Tree (Range s)) :
    Except Fault (Datum × Datum) :=
  e.evaluate (fun i => (i.lower.val, i.upper.val)) fun op I J => enclose lib op.1 op.2 I J

def Inside {s : Scale} : Tree (Range s) → Tree (OfScale s) → Prop :=
  Alike (fun op op' => op.1 = op'.1) Range.Holds

variable {lib : Libfixeypointy} {round : ℚ → ℤ} {s : Scale}

theorem RoundsBy.raw (h : RoundsBy lib round) (op : Operator) (x y : Raw)
    (hy : op = .divide → y.toInt ≠ 0) :
    op.raw lib s x y = fit (round (op.unrounded s x.toInt y.toInt)) := by
  have hcast (n : ℤ) : round n = n := Rounding.near_cast (h.near n)
  cases op with
  | add => exact (h.add x y).trans (by rw [Operator.unrounded, ← Int.cast_add, hcast])
  | subtract => exact (h.subtract x y).trans (by rw [Operator.unrounded, ← Int.cast_sub, hcast])
  | multiply => exact h.multiply x y s
  | divide => exact h.divide x y s (hy rfl)

theorem unrounded_monotonic (s : Scale) {op : Operator} {I J : Set ℚ}
    (hJ : op = .divide → (∀ y ∈ J, 0 < y) ∨ ∀ y ∈ J, y < 0) :
    Monotonic (op.unrounded s) I J := by
  have hp : (0 : ℚ) ≤ 10 ^ s.toNat := by positivity
  cases op with
  | add => exact add_monotonic
  | subtract => exact sub_monotonic
  | multiply => exact mul_monotonic.comp fun x y h => div_le_div_of_nonneg_right h hp
  | divide =>
    have hscaled : Monotonic (fun x y : ℚ => x / y * 10 ^ s.toNat) I J :=
      (div_monotonic (hJ rfl)).comp fun x y h => mul_le_mul_of_nonneg_right h hp
    have heq : Operator.unrounded s .divide = fun x y => x / y * 10 ^ s.toNat := by
      funext x y
      rw [Operator.unrounded, div_mul_eq_mul_div]
    rw [heq]
    exact hscaled

theorem wrapped_some {op : Operator} (padding : Buffer Byte 4) {d e : Datum} {r : Raw}
    (h : op.raw lib d.decimal.scale (pack128 d.decimal) (pack128 e.decimal) = some r) :
    ∃ q, op.wrapped lib padding d e = .ok q := by
  have hop {f : Raw → Raw → Scale → Option Raw}
      (hf : f (pack128 d.decimal) (pack128 e.decimal) d.decimal.scale = some r) :
      ∃ q, operator (operate f) padding d e = .ok q :=
    ⟨.ofDecimal (.wrap r d.decimal.scale) padding,by rw [operator, operate, hf]; rfl⟩
  cases op with
  | add => exact hop h
  | subtract => exact hop h
  | multiply => exact hop h
  | divide => exact hop h

theorem enclose_ok (hc : SignCompare lib) {op : Operator} {padding : Buffer Byte 4}
    {I J : Datum × Datum} {lo hi : Datum} (h : enclose lib op padding I J = .ok (lo,hi)) :
    (op = .divide → 0 < J.1.decimal.raw ∨ J.2.decimal.raw < 0) ∧
    (∀ p ∈ corners I J, ∃ r, op.wrapped lib padding p.1 p.2 = .ok r ∧ rawLe lo r ∧ rawLe r hi) ∧
    (∃ p ∈ corners I J, op.wrapped lib padding p.1 p.2 = .ok lo) ∧
    ∃ p ∈ corners I J, op.wrapped lib padding p.1 p.2 = .ok hi := by
  rw [enclose] at h
  split at h
  · cases h
  · rename_i hzero
    obtain ⟨a,ha,h⟩ := bind_eq_ok h
    obtain ⟨b,hb,h⟩ := bind_eq_ok h
    obtain ⟨c,hc',h⟩ := bind_eq_ok h
    obtain ⟨d,hd,h⟩ := bind_eq_ok h
    obtain ⟨rfl,rfl⟩ := Prod.mk.inj (Except.ok.inj h)
    have hleast := (smaller_chooses hc).four (fun _ _ _ => le_trans) a b c d
    have hgreatest := (larger_chooses hc).four (fun _ _ _ h h' => le_trans h' h) a b c d
    have hresult : ∀ r ∈ [a, b, c, d], ∃ p ∈ corners I J, op.wrapped lib padding p.1 p.2 = .ok r := by
      simp [corners, ha, hb, hc', hd]
    refine ⟨fun hdiv => ?_,?_,hresult _ hleast.1,hresult _ hgreatest.1⟩
    · rw [hdiv] at hzero
      by_contra hsign
      exact hzero ⟨rfl,by omega,by omega⟩
    · intro p hp
      have hcorner : ∃ r ∈ [a, b, c, d], op.wrapped lib padding p.1 p.2 = .ok r := by
        simp only [corners, List.mem_cons, List.not_mem_nil, or_false] at hp
        rcases hp with rfl | rfl | rfl | rfl
        · exact ⟨a,by simp,ha⟩
        · exact ⟨b,by simp,hb⟩
        · exact ⟨c,by simp,hc'⟩
        · exact ⟨d,by simp,hd⟩
      obtain ⟨r,hr,hp⟩ := hcorner
      exact ⟨r,hp,hleast.2 r hr,hgreatest.2 r hr⟩

theorem fit_between {x y : FxyPtyDecimal} {n : ℤ} (hx : x.raw ≤ n) (hy : n ≤ y.raw) :
    ∃ r, fit n = some r := by
  have hlow := (raw_bounds x).1
  have hhigh := (raw_bounds y).2
  unfold least at hlow
  unfold greatest at hhigh
  exact ⟨_,if_pos ⟨by omega,by omega⟩⟩

theorem keeps_sign {c d : ℤ} (h : 0 < c ∨ d < 0) :
    (∀ y ∈ Icc (c : ℚ) d, 0 < y) ∨ ∀ y ∈ Icc (c : ℚ) d, y < 0 := by
  refine h.imp (fun h y hy => ?_) fun h y hy => ?_
  · exact lt_of_lt_of_le (by exact_mod_cast h) hy.1
  · exact lt_of_le_of_lt hy.2 (by exact_mod_cast h)

theorem wrapped_rounds (hl : RoundsBy lib round) {op : Operator} {padding : Buffer Byte 4}
    {d e r : Datum} (hd : d.decimal.scale = s) (he : op = .divide → e.decimal.raw ≠ 0)
    (h : op.wrapped lib padding d e = .ok r) : r.decimal.scale = s ∧
      r.decimal.raw = round (op.unrounded s d.decimal.raw e.decimal.raw) := by
  obtain ⟨hraw,hscale⟩ := wrapped_ok h
  rw [hd, hl.raw op _ _ he] at hraw
  exact ⟨hscale.trans hd,fit_eq_some.mp hraw⟩

theorem unrounded_bounds (s : Scale) {op : Operator} {I J : Datum × Datum} {x y : Datum}
    (hsign : op = .divide → 0 < J.1.decimal.raw ∨ J.2.decimal.raw < 0)
    (hx : rawLe I.1 x ∧ rawLe x I.2) (hy : rawLe J.1 y ∧ rawLe y J.2) :
    (∃ p ∈ corners I J, op.unrounded s p.1.decimal.raw p.2.decimal.raw ≤
      op.unrounded s x.decimal.raw y.decimal.raw) ∧
    ∃ p ∈ corners I J, op.unrounded s x.decimal.raw y.decimal.raw ≤
      op.unrounded s p.1.decimal.raw p.2.decimal.raw := by
  let raw (d : Datum) : ℚ := d.decimal.raw
  have hmono : Monotonic (op.unrounded s) (Icc (raw I.1) (raw I.2)) (Icc (raw J.1) (raw J.2)) :=
    unrounded_monotonic s fun hdiv => keeps_sign (hsign hdiv)
  have hbounds := hmono.bounds (I := I.map raw raw) (J := J.map raw raw)
    ⟨Int.cast_le.mpr hx.1,Int.cast_le.mpr hx.2⟩ ⟨Int.cast_le.mpr hy.1,Int.cast_le.mpr hy.2⟩
  rw [corners_map] at hbounds
  obtain ⟨⟨_,hbelow,hle⟩,_,habove,hge⟩ := hbounds
  obtain ⟨b,hb,rfl⟩ := List.mem_map.mp hbelow
  obtain ⟨a,ha,rfl⟩ := List.mem_map.mp habove
  exact ⟨⟨b,hb,hle⟩,a,ha,hge⟩

theorem corner_within {J : Datum × Datum} {v : Datum} (hJ : rawLe J.1 J.2) (hv : v ∈ [J.1, J.2]) :
    rawLe J.1 v ∧ rawLe v J.2 := by
  simp only [List.mem_cons, List.not_mem_nil, or_false] at hv
  rcases hv with rfl | rfl
  · exact ⟨le_rfl,hJ⟩
  · exact ⟨hJ,le_rfl⟩

theorem enclose_sound (hl : RoundsBy lib round) (hc : SignCompare lib) {op : Operator}
    {padding : Buffer Byte 4} (padding' : Buffer Byte 4) {I J : Datum × Datum} {lo hi x y : Datum}
    (hI : ∀ d ∈ [I.1, I.2], d.decimal.scale = s) (hs : x.decimal.scale = s)
    (hx : rawLe I.1 x ∧ rawLe x I.2) (hy : rawLe J.1 y ∧ rawLe y J.2)
    (h : enclose lib op padding I J = .ok (lo,hi)) :
    (lo.decimal.scale = s ∧ hi.decimal.scale = s) ∧
    ∃ r, op.wrapped lib padding' x y = .ok r ∧ r.decimal.scale = s ∧ rawLe lo r ∧ rawLe r hi := by
  obtain ⟨hsign,hcorners,⟨p,hp,hlo⟩,q,hq,hhi⟩ := enclose_ok hc h
  have hne (z : Datum) (hz : rawLe J.1 z ∧ rawLe z J.2) (hdiv : op = .divide) :
      z.decimal.raw ≠ 0 := by
    have h := hsign hdiv
    unfold rawLe at hz
    omega
  have hcorner (p : Datum × Datum) (hp : p ∈ corners I J) {r : Datum}
      (hr : op.wrapped lib padding p.1 p.2 = .ok r) : r.decimal.scale = s ∧
        r.decimal.raw = round (op.unrounded s p.1.decimal.raw p.2.decimal.raw) := by
    obtain ⟨hp1,hp2⟩ := of_mem_corners hp
    exact wrapped_rounds hl (hI _ hp1) (hne p.2 (corner_within (le_trans hy.1 hy.2) hp2)) hr
  obtain ⟨⟨b,hb,hle⟩,a,ha,hge⟩ := unrounded_bounds s hsign hx hy
  obtain ⟨rb,hrb,hlob,-⟩ := hcorners b hb
  obtain ⟨ra,hra,-,hahi⟩ := hcorners a ha
  have hlow : lo.decimal.raw ≤ round (op.unrounded s x.decimal.raw y.decimal.raw) :=
    calc lo.decimal.raw ≤ rb.decimal.raw := hlob
      _ = round (op.unrounded s b.1.decimal.raw b.2.decimal.raw) := (hcorner b hb hrb).2
      _ ≤ _ := hl.monotone _ _ hle
  have hhigh : round (op.unrounded s x.decimal.raw y.decimal.raw) ≤ hi.decimal.raw :=
    calc round (op.unrounded s x.decimal.raw y.decimal.raw)
        ≤ round (op.unrounded s a.1.decimal.raw a.2.decimal.raw) := hl.monotone _ _ hge
      _ = ra.decimal.raw := (hcorner a ha hra).2.symm
      _ ≤ hi.decimal.raw := hahi
  obtain ⟨w,hw⟩ := fit_between hlow hhigh
  have hraw : op.raw lib x.decimal.scale (pack128 x.decimal) (pack128 y.decimal) = some w := by
    rw [hs]
    exact (hl.raw op _ _ (hne y hy)).trans hw
  obtain ⟨r,hr⟩ := wrapped_some padding' hraw
  obtain ⟨hrs,hrw⟩ := wrapped_rounds hl hs (hne y hy) hr
  exact ⟨⟨(hcorner p hp hlo).1,(hcorner q hq hhi).1⟩,r,hr,hrs,hlow.trans hrw.ge,hrw.le.trans hhigh⟩

theorem evaluated_enclosed (hl : RoundsBy lib round) (hc : SignCompare lib) {e : Tree (Range s)}
    {lo hi : Datum} (h : enclosure lib e = .ok (lo,hi)) {e' : Tree (OfScale s)} (he : Inside e e') :
    ∃ d, evaluateWrapped lib e' = .ok d ∧ d.decimal.scale = s ∧
      lo.decimal.val ≤ d.decimal.val ∧ d.decimal.val ≤ hi.decimal.val := by
  let Q (I : Datum × Datum) (d : Datum) : Prop :=
    (I.1.decimal.scale = s ∧ I.2.decimal.scale = s ∧ d.decimal.scale = s) ∧
      rawLe I.1 d ∧ rawLe d I.2
  have hleaf (i : Range s) (d : OfScale s) (hd : i.Holds d) : Q (i.lower.val, i.upper.val) d.val :=
    ⟨⟨i.lower.property,i.upper.property,d.property⟩,hd⟩
  have hnode (op op' : Operator × Buffer Byte 4) (I J K : Datum × Datum) (x y : Datum)
      (hop : op.1 = op'.1) (hx : Q I x) (hy : Q J y) (hK : enclose lib op.1 op.2 I J = .ok K) :
      ∃ r, op'.1.wrapped lib op'.2 x y = .ok r ∧ Q K r := by
    obtain ⟨⟨hI1,hI2,hs⟩,hxI⟩ := hx
    have hI : ∀ d ∈ [I.1, I.2], d.decimal.scale = s := by simp [hI1, hI2]
    obtain ⟨⟨hlo,hhi⟩,r,hr,hrs,hrK⟩ := enclose_sound hl hc op'.2 hI hs hxI hy.2 hK
    exact ⟨r,hop ▸ hr,⟨hlo,hhi,hrs⟩,hrK⟩
  obtain ⟨d,hd,⟨hlo,hhi,hs⟩,hlow,hhigh⟩ := Alike.evaluate hleaf hnode he h
  exact ⟨d,hd,hs,val_le_val (hlo.trans hs.symm) hlow,val_le_val (hs.trans hhi.symm) hhigh⟩

theorem truncating_rounds : RoundsBy truncating Rounding.toward where
  monotone _ _ := Rounding.toward_mono
  near := Rounding.toward_near
  add _ _ := rfl
  subtract _ _ := rfl
  multiply x y k := by
    have h := Rounding.toward_div (x.toInt * y.toInt) (10 ^ k.toNat)
    push_cast at h
    rw [h]
    rfl
  divide x y k hy := by
    have h := Rounding.toward_div (x.toInt * 10 ^ k.toNat) y.toInt
    push_cast at h
    rw [h]
    exact if_neg hy

theorem cents_raw (value : Raw) : (cents value).val.decimal.raw = value.toInt := by
  rw [cents, stored_decimal, FxyPtyDecimal.raw, pack128_wrap]

theorem cents_ordered {x y : Raw} (h : x.toInt ≤ y.toInt) : rawLe (cents x) (cents y) := by
  rwa [rawLe, cents_raw, cents_raw]

def between (lower upper : Raw) (h : lower.toInt ≤ upper.toInt) : Range 2 :=
  ⟨cents lower,cents upper,cents_ordered h⟩

def shares : Tree (Range 2) :=
  .node (.divide, blank)
    (.node (.multiply, blank) (.leaf (between (-100) 200 (by decide)))
      (.leaf (between 50 300 (by decide))))
    (.leaf (between 25 40 (by decide)))

def share : Tree (OfScale 2) :=
  .node (.divide, blank) (.node (.multiply, blank) (.leaf (cents 123)) (.leaf (cents 77)))
    (.leaf (cents 33))

theorem share_within : Inside shares share := by
  have hleaf {l u x : Raw} {h : l.toInt ≤ u.toInt} (hx : l.toInt ≤ x.toInt ∧ x.toInt ≤ u.toInt) :
      (between l u h).Holds (cents x) := ⟨cents_ordered hx.1,cents_ordered hx.2⟩
  exact .node rfl (.node rfl (.leaf (hleaf (by decide))) (.leaf (hleaf (by decide))))
    (.leaf (hleaf (by decide)))

theorem evaluated_enclosed_shares :
    enclosure truncating shares = .ok (stored (-1200) 2,stored 2400 2) ∧
    ∃ d, evaluateWrapped truncating share = .ok d ∧ d.decimal.scale = 2 ∧
      (stored (-1200) 2).decimal.val ≤ d.decimal.val ∧
      d.decimal.val ≤ (stored 2400 2).decimal.val := by
  have h : enclosure truncating shares = .ok (stored (-1200) 2,stored 2400 2) := rfl
  exact ⟨h,evaluated_enclosed truncating_rounds truncating_compare h share_within⟩

end Fxypty
