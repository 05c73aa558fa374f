import Pgfixeypointy.Library.Expression
import Pgfixeypointy.Impl.Output

namespace FxyptyImpl

open Expression

variable {table : Int → Except Fault (Buffer Byte 4)} {tmp tmp' : Buffer Byte 42}

-- tmp is written from its end, so what lies before cur_digit is the old stack
structure SameWritten (c c' : Cursor) : Prop where
  curDigit : c.curDigit = c'.curDigit
  rest : c.rest = c'.rest
  count : c.count = c'.count
  tail : c.tmp.tail c.curDigit = c'.tmp.tail c'.curDigit

abbrev Alike : Except Fault Cursor → Except Fault Cursor → Prop := Agree SameWritten Eq

theorem store_alike {i : Nat} {xs : List Byte}
    (h : tmp.tail (i + xs.length) = tmp'.tail (i + xs.length)) :
    Agree (fun b b' : Buffer Byte 42 => b.tail i = b'.tail i) Eq (tmp.store Fault.overrun i xs)
      (tmp'.store Fault.overrun i xs) := by
  by_cases hi : i + xs.length ≤ 42
  · rw [tmp.store_ok _ _ _ hi, tmp'.store_ok _ _ _ hi]
    exact .ok (by rw [Buffer.tail_put, Buffer.tail_put, h])
  · rw [tmp.store_error _ _ _ hi, tmp'.store_error _ _ _ hi]
    exact .error rfl

theorem singles_alike {cur : Nat} {rest count : Int} (h : tmp.tail cur = tmp'.tail cur) :
    Alike (singles cur tmp rest count) (singles cur tmp' rest count) := by
  induction cur generalizing tmp tmp' rest count with
  | zero =>
    simp only [singles]
    split
    · exact .ok ⟨rfl,rfl,rfl,h⟩
    · exact .error rfl
  | succ cur ih =>
    simp only [singles]
    split
    · exact .ok ⟨rfl,rfl,rfl,h⟩
    · exact (store_alike h).bind fun _ _ ht => ih ht

theorem leadingSingles_alike {cur : Nat} {rest : Int} (h : tmp.tail cur = tmp'.tail cur) :
    Alike (leadingSingles cur tmp rest) (leadingSingles cur tmp' rest) := by
  induction cur generalizing tmp tmp' rest with
  | zero =>
    simp only [leadingSingles]
    split
    · exact .error rfl
    · exact .ok ⟨rfl,rfl,rfl,h⟩
  | succ cur ih =>
    simp only [leadingSingles]
    split
    · exact (store_alike h).bind fun _ _ ht => ih ht
    · exact .ok ⟨rfl,rfl,rfl,h⟩

theorem blocks_alike : ∀ (cur : Nat) {tmp tmp' : Buffer Byte 42} {rest count : Int},
    tmp.tail cur = tmp'.tail cur →
      Alike (blocks table cur tmp rest count) (blocks table cur tmp' rest count)
  | cur + 4, tmp, tmp', rest, count, h => by
    simp only [blocks]
    split
    · refine (Agree.refl _).bind fun row row' hrow => ?_
      obtain rfl := hrow
      exact (store_alike (by rwa [row.size])).bind fun _ _ ht => blocks_alike cur ht
    · exact .ok ⟨rfl,rfl,rfl,h⟩
  | 0, _, _, _, _, h | 1, _, _, _, _, h | 2, _, _, _, _, h | 3, _, _, _, _, h => by
    simp only [blocks]
    split
    · exact .error rfl
    · exact .ok ⟨rfl,rfl,rfl,h⟩

theorem leadingBlocks_alike : ∀ (cur : Nat) {tmp tmp' : Buffer Byte 42} {rest : Int},
    tmp.tail cur = tmp'.tail cur →
      Alike (leadingBlocks table cur tmp rest) (leadingBlocks table cur tmp' rest)
  | cur + 4, tmp, tmp', rest, h => by
    simp only [leadingBlocks]
    split
    · refine (Agree.refl _).bind fun row row' hrow => ?_
      obtain rfl := hrow
      exact (store_alike (by rwa [row.size])).bind fun _ _ ht => leadingBlocks_alike cur ht
    · exact .ok ⟨rfl,rfl,rfl,h⟩
  | 0, _, _, _, h | 1, _, _, _, h | 2, _, _, _, h | 3, _, _, _, h => by
    simp only [leadingBlocks]
    split
    · exact .error rfl
    · exact .ok ⟨rfl,rfl,rfl,h⟩

theorem deplete_alike {cur : Nat} {rest count : Int} (h : tmp.tail cur = tmp'.tail cur) :
    Alike (deplete table cur tmp rest count) (deplete table cur tmp' rest count) := by
  refine (singles_alike h).bind fun c c' hc => ?_
  rw [hc.curDigit, hc.rest, hc.count]
  exact blocks_alike _ (hc.curDigit ▸ hc.tail)

theorem leading_alike {cur : Nat} {rest : Int} (h : tmp.tail cur = tmp'.tail cur) :
    Alike (leading table cur tmp rest) (leading table cur tmp' rest) := by
  refine (leadingBlocks_alike _ h).bind fun c c' hc => ?_
  rw [hc.curDigit, hc.rest]
  exact leadingSingles_alike (hc.curDigit ▸ hc.tail)

theorem push_alike (byte : Byte) {c c' : Cursor} (h : SameWritten c c') :
    Alike (push byte c) (push byte c') := by
  have ht := h.tail
  rw [push, push, ← h.curDigit]
  rw [← h.curDigit] at ht
  cases hcur : c.curDigit with
  | zero => exact .error rfl
  | succ cur =>
    rw [hcur] at ht
    exact (store_alike ht).bind fun _ _ hs => .ok ⟨rfl,h.rest,h.count,hs⟩

theorem load_alike {i : Nat} (h : tmp.tail i = tmp'.tail i) :
    tmp.load Fault.overrun i (42 - i) = tmp'.load Fault.overrun i (42 - i) := by
  simp only [Buffer.load, Buffer.tail] at h ⊢
  rw [h]

theorem copyOut_alike (out : Buffer Byte 42) (head : List Byte) {c c' : Cursor}
    (h : SameWritten c c') : copyOut out head c = copyOut out head c' := by
  have hl := load_alike (h.curDigit ▸ h.tail)
  rw [copyOut, copyOut, ← h.curDigit]
  rw [← h.curDigit] at hl
  simp only [hl]

theorem finish_alike (out : Buffer Byte 42) (isNegative : Bool) (rest : Int) {c c' : Cursor}
    (h : SameWritten c c') :
    Agree Eq Eq (finish table out isNegative rest c) (finish table out isNegative rest c') := by
  have ht := h.tail
  rw [finish, finish, ← h.curDigit]
  rw [← h.curDigit] at ht
  refine (leading_alike ht).bind fun d d' hd => ?_
  rw [copyOut_alike out _ hd]
  exact Agree.refl _

theorem closeFraction_alike (out : Buffer Byte 42) (isNegative : Bool) {c c' : Cursor}
    (h : SameWritten c c') : Agree Eq Eq (closeFraction table out isNegative c)
      (closeFraction table out isNegative c') := by
  rw [closeFraction, closeFraction, ← h.rest]
  split
  · rw [copyOut_alike out _ h]
    exact Agree.refl _
  · exact (push_alike _ h).bind fun d d' hd => by
      rw [hd.rest]
      exact finish_alike out isNegative d'.rest hd

theorem emit_alike (tmp tmp' out : Buffer Byte 42) (isNegative : Bool) (hi lo : Int)
    (scale : Scale) : Agree Eq Eq (emit table tmp out isNegative hi lo scale)
      (emit table tmp' out isNegative hi lo scale) := by
  have h42 (b b' : Buffer Byte 42) : b.tail (41 + [(0 : Byte)].length) =
      b'.tail (41 + [(0 : Byte)].length) := by
    have hnil (c : Buffer Byte 42) : c.tail 42 = [] := List.drop_eq_nil_of_le c.size.le
    exact (hnil b).trans (hnil b').symm
  refine (store_alike (h42 tmp tmp')).bind fun t t' ht => ?_
  split
  · exact (deplete_alike ht).bind fun c c' hc => closeFraction_alike out isNegative hc
  · split
    · refine (deplete_alike ht).bind fun c c' hc => ?_
      rw [hc.curDigit]
      exact (deplete_alike (hc.curDigit ▸ hc.tail)).bind fun d d' hd =>
        closeFraction_alike out isNegative hd
    · refine (deplete_alike ht).bind fun c c' hc => (push_alike _ hc).bind fun d d' hd => ?_
      rw [hd.curDigit, hd.rest]
      exact (deplete_alike (hd.curDigit ▸ hd.tail)).bind fun e e' he => finish_alike out isNegative hi he

theorem fxyptyOut_alike (tmp tmp' out : Buffer Byte 42) (x : FxyPtyDecimal) :
    fxyptyOut table tmp out x = fxyptyOut table tmp' out x :=
  (emit_alike tmp tmp' out (isNegative x) (hi x) (lo x) x.scale).eq

end FxyptyImpl
