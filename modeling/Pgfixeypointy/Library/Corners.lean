import Mathlib.Algebra.Order.Field.Basic
import Mathlib.Order.Interval.Set.Defs
import Mathlib.Order.Monotone.Defs

open Set

namespace Corners

variable {A B C D : Type}

def corners (I : A × A) (J : B × B) : List (A × B) :=
  [(I.1, J.1), (I.1, J.2), (I.2, J.1), (I.2, J.2)]

theorem mem_corners {I : A × A} {J : B × B} {u : A} {v : B} (hu : u ∈ [I.1, I.2])
    (hv : v ∈ [J.1, J.2]) : (u,v) ∈ corners I J := by
  simp only [List.mem_cons, List.not_mem_nil, or_false] at hu hv
  rcases hu with rfl | rfl <;> rcases hv with rfl | rfl <;> simp [corners]

theorem of_mem_corners {I : A × A} {J : B × B} {p : A × B} (h : p ∈ corners I J) :
    p.1 ∈ [I.1, I.2] ∧ p.2 ∈ [J.1, J.2] := by
  simp only [corners, List.mem_cons, List.not_mem_nil, or_false] at h
  rcases h with rfl | rfl | rfl | rfl <;> simp

theorem corners_map (f : A → C) (g : B → D) (I : A × A) (J : B × B) :
    corners (I.map f f) (J.map g g) = (corners I J).map (Prod.map f g) := rfl

section

variable [Preorder A] [Preorder B] [Preorder C] [Preorder D]

-- in each argument monotone or antitone, which of the two may depend on the other argument
structure Monotonic (f : A → B → C) (I : Set A) (J : Set B) : Prop where
  left : ∀ y ∈ J, MonotoneOn (fun x => f x y) I ∨ AntitoneOn (fun x => f x y) I
  right : ∀ x ∈ I, MonotoneOn (f x) J ∨ AntitoneOn (f x) J

theorem Monotonic.comp {f : A → B → C} {g : C → D} {I : Set A} {J : Set B} (hg : Monotone g)
    (h : Monotonic f I J) : Monotonic (fun x y => g (f x y)) I J where
  left y hy := (h.left y hy).imp hg.comp_monotoneOn hg.comp_antitoneOn
  right x hx := (h.right x hx).imp hg.comp_monotoneOn hg.comp_antitoneOn

theorem between_ends {g : A → C} {a b x : A} (h : MonotoneOn g (Icc a b) ∨ AntitoneOn g (Icc a b))
    (hx : x ∈ Icc a b) : (∃ u ∈ [a, b], g u ≤ g x) ∧ ∃ u ∈ [a, b], g x ≤ g u := by
  have hab := hx.1.trans hx.2
  have ha : a ∈ Icc a b := ⟨le_rfl,hab⟩
  have hb : b ∈ Icc a b := ⟨hab,le_rfl⟩
  rcases h with h | h
  · exact ⟨⟨a,by simp,h ha hx hx.1⟩,b,by simp,h hx hb hx.2⟩
  · exact ⟨⟨b,by simp,h hx hb hx.2⟩,a,by simp,h ha hx hx.1⟩

theorem Monotonic.bounds {f : A → B → C} {I : A × A} {J : B × B}
    (h : Monotonic f (Icc I.1 I.2) (Icc J.1 J.2)) {x : A} {y : B} (hx : x ∈ Icc I.1 I.2)
    (hy : y ∈ Icc J.1 J.2) : (∃ p ∈ corners I J, f p.1 p.2 ≤ f x y) ∧
      ∃ p ∈ corners I J, f x y ≤ f p.1 p.2 := by
  have hends : ∀ u ∈ [I.1, I.2], u ∈ Icc I.1 I.2 := by
    have hab := hx.1.trans hx.2
    simpa using And.intro hab hab
  obtain ⟨⟨u,hu,hux⟩,w,hw,hxw⟩ := between_ends (h.left y hy) hx
  obtain ⟨⟨v,hv,hvy⟩,-⟩ := between_ends (h.right u (hends u hu)) hy
  obtain ⟨-,z,hz,hyz⟩ := between_ends (h.right w (hends w hw)) hy
  exact ⟨⟨(u,v),mem_corners hu hv,hvy.trans hux⟩,(w,z),mem_corners hw hz,hxw.trans hyz⟩

end

variable {K : Type} [Field K] [LinearOrder K] [IsStrictOrderedRing K] {I J : Set K}

theorem add_monotonic : Monotonic (fun x y : K => x + y) I J where
  left y _ := .inl fun _ _ _ _ h => add_le_add_left h y
  right x _ := .inl fun _ _ _ _ h => add_le_add_right h x

theorem sub_monotonic : Monotonic (fun x y : K => x - y) I J where
  left y _ := .inl fun _ _ _ _ h => sub_le_sub_right h y
  right x _ := .inr fun _ _ _ _ h => sub_le_sub_left h x

theorem mul_monotonic : Monotonic (fun x y : K => x * y) I J where
  left y _ := (le_total 0 y).imp (fun hy _ _ _ _ h => mul_le_mul_of_nonneg_right h hy)
    fun hy _ _ _ _ h => mul_le_mul_of_nonpos_right h hy
  right x _ := (le_total 0 x).imp (fun hx _ _ _ _ h => mul_le_mul_of_nonneg_left h hx)
    fun hx _ _ _ _ h => mul_le_mul_of_nonpos_left h hx

theorem inv_antitoneOn (hJ : (∀ y ∈ J, 0 < y) ∨ ∀ y ∈ J, y < 0) :
    AntitoneOn (fun y : K => y⁻¹) J := by
  intro y hy z hz h
  rcases hJ with hJ | hJ
  · exact (inv_le_inv₀ (hJ z hz) (hJ y hy)).mpr h
  · exact (inv_le_inv_of_neg (hJ z hz) (hJ y hy)).mpr h

theorem div_monotonic (hJ : (∀ y ∈ J, 0 < y) ∨ ∀ y ∈ J, y < 0) :
    Monotonic (fun x y : K => x / y) I J where
  left y _ := by
    simp only [div_eq_mul_inv]
    exact (mul_monotonic (I := I) (J := univ)).left y⁻¹ (mem_univ _)
  right x hx := by
    have hinv := inv_antitoneOn hJ
    simp only [div_eq_mul_inv]
    rcases le_total 0 x with h | h
    · exact .inr fun y hy z hz hyz => mul_le_mul_of_nonneg_left (hinv hy hz hyz) h
    · exact .inl fun y hy z hz hyz => mul_le_mul_of_nonpos_left (hinv hy hz hyz) h

end Corners
