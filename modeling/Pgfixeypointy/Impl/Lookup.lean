import Pgfixeypointy.Impl.Printing

namespace FxyptyImpl

variable {A B : Type} {table table' : Int → Except Fault (Buffer Byte 4)}

structure Closed (R : {A : Type} → Except Fault A → Except Fault A → Prop) : Prop where
  refl : ∀ {A : Type} (x : Except Fault A), R x x
  bind : ∀ {A B : Type} {x y : Except Fault A} {f g : A → Except Fault B}, R x y →
    (∀ a, R (f a) (g a)) → R (x >>= f) (y >>= g)

section

variable {R : {A : Type} → Except Fault A → Except Fault A → Prop}

theorem blocks_related (hR : Closed R) (h : ∀ i, R (table i) (table' i)) :
    ∀ cur tmp rest count, R (blocks table cur tmp rest count) (blocks table' cur tmp rest count)
  | cur + 4, tmp, rest, count => by
    simp only [blocks]
    split
    · exact hR.bind (h _) fun row => hR.bind (hR.refl _) fun tmp => blocks_related hR h cur tmp _ _
    · exact hR.refl _
  | 0, _, _, _ | 1, _, _, _ | 2, _, _, _ | 3, _, _, _ => hR.refl _

theorem leadingBlocks_related (hR : Closed R) (h : ∀ i, R (table i) (table' i)) :
    ∀ cur tmp rest, R (leadingBlocks table cur tmp rest) (leadingBlocks table' cur tmp rest)
  | cur + 4, tmp, rest => by
    simp only [leadingBlocks]
    split
    · exact hR.bind (h _) fun row => hR.bind (hR.refl _) fun tmp =>
        leadingBlocks_related hR h cur tmp _
    · exact hR.refl _
  | 0, _, _ | 1, _, _ | 2, _, _ | 3, _, _ => hR.refl _

theorem deplete_related (hR : Closed R) (h : ∀ i, R (table i) (table' i)) (cur : Nat)
    (tmp : Buffer Byte 42) (rest count : Int) :
    R (deplete table cur tmp rest count) (deplete table' cur tmp rest count) :=
  hR.bind (hR.refl _) fun _ => blocks_related hR h _ _ _ _

theorem finish_related (hR : Closed R) (h : ∀ i, R (table i) (table' i)) (out : Buffer Byte 42)
    (isNegative : Bool) (rest : Int) (c : Cursor) :
    R (finish table out isNegative rest c) (finish table' out isNegative rest c) :=
  hR.bind (hR.bind (leadingBlocks_related hR h _ _ _) fun _ => hR.refl _) fun _ => hR.refl _

theorem closeFraction_related (hR : Closed R) (h : ∀ i, R (table i) (table' i))
    (out : Buffer Byte 42) (isNegative : Bool) (c : Cursor) :
    R (closeFraction table out isNegative c) (closeFraction table' out isNegative c) := by
  unfold closeFraction
  split
  · exact hR.refl _
  · exact hR.bind (hR.refl _) fun c => finish_related hR h out isNegative c.rest c

theorem emit_related (hR : Closed R) (h : ∀ i, R (table i) (table' i)) (tmp out : Buffer Byte 42)
    (isNegative : Bool) (hi lo : Int) (scale : Scale) :
    R (emit table tmp out isNegative hi lo scale) (emit table' tmp out isNegative hi lo scale) := by
  refine hR.bind (hR.refl _) fun tmp => ?_
  split
  · exact hR.bind (deplete_related hR h _ _ _ _) fun c => closeFraction_related hR h _ _ _
  · split
    · exact hR.bind (deplete_related hR h _ _ _ _) fun c =>
        hR.bind (deplete_related hR h _ _ _ _) fun c => closeFraction_related hR h _ _ _
    · exact hR.bind (deplete_related hR h _ _ _ _) fun c => hR.bind (hR.refl _) fun c =>
        hR.bind (deplete_related hR h _ _ _ _) fun c => finish_related hR h _ _ _ _

end

def Falls (x y : Except Fault A) : Prop := x = y ∨ x = .error .lookup

theorem Falls.ok {x y : Except Fault A} (h : Falls x y) {a : A} (hx : x = .ok a) : y = .ok a := by
  rcases h with rfl | rfl
  · exact hx
  · cases hx

theorem falls_closed : Closed Falls where
  refl _ := .inl rfl
  bind := by
    rintro A B x y f g (rfl | rfl) hf
    · cases x with
      | error fault => exact .inl rfl
      | ok a => exact hf a
    · exact .inr rfl

-- memory before the table, read as bytes that are no digits
def strayRows (i : Int) : Buffer Byte 4 :=
  if 0 ≤ i then tableRows i else ⟨List.replicate 4 (ch '!'),rfl⟩

theorem fourDigits_falls (i : Int) : Falls (fourDigits i) (.ok (strayRows i)) := by
  unfold fourDigits
  split
  · refine .inl ?_
    rw [strayRows, if_pos (by omega)]
  · exact .inr rfl

theorem emit_strayRows {tmp out b : Buffer Byte 42} {isNegative : Bool} {hi lo : Int} {scale : Scale}
    (h : emit fourDigits tmp out isNegative hi lo scale = .ok b) :
    emit (fun i => .ok (strayRows i)) tmp out isNegative hi lo scale = .ok b :=
  (emit_related falls_closed fourDigits_falls tmp out isNegative hi lo scale).ok h

end FxyptyImpl
