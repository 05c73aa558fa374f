import Mathlib.Algebra.Order.BigOperators.Group.List
import Mathlib.Data.List.Perm.Basic

namespace PartialSums

section

variable {A K : Type} [AddCommMonoid K]

theorem filter_sum {f : A → K} {p : A → Bool} {g : A → K} (hp : ∀ x, p x = true → f x = g x)
    (hn : ∀ x, p x = false → g x = 0) (xs : List A) :
    ((xs.filter p).map f).sum = (xs.map g).sum := by
  induction xs with
  | nil => rfl
  | cons x xs ih =>
    rw [List.map_cons, List.sum_cons, List.filter_cons]
    cases h : p x with
    | true => rw [if_pos rfl, List.map_cons, List.sum_cons, ih, hp x h]
    | false => rw [if_neg Bool.false_ne_true, ih, hn x h, zero_add]

theorem exists_take_sum {f : A → K} {p : A → Bool} {g : A → K} (hp : ∀ x, p x = true → f x = g x)
    (hn : ∀ x, p x = false → g x = 0) (xs : List A) :
    ∃ ys k, xs.Perm ys ∧ ((ys.take k).map f).sum = (xs.map g).sum := by
  refine ⟨xs.filter p ++ xs.filter (fun x => !p x),(xs.filter p).length,
    (List.filter_append_perm p xs).symm,?_⟩
  rw [List.take_left, filter_sum hp hn]

end

variable {A K : Type} [AddCommMonoid K] [LinearOrder K]

def positives (f : A → K) (xs : List A) : K := (xs.map fun x => max 0 (f x)).sum

def negatives (f : A → K) (xs : List A) : K := (xs.map fun x => min 0 (f x)).sum

def Within (lo hi : K) (f : A → K) (c : K) (xs : List A) : Prop :=
  ∀ k, lo ≤ c + ((xs.take k).map f).sum ∧ c + ((xs.take k).map f).sum ≤ hi

variable {f : A → K} {xs ys : List A}

theorem positives_perm (h : xs.Perm ys) : positives f xs = positives f ys := (h.map _).sum_eq

theorem negatives_perm (h : xs.Perm ys) : negatives f xs = negatives f ys := (h.map _).sum_eq

theorem within_nil {lo hi c : K} : Within lo hi f c [] ↔ lo ≤ c ∧ c ≤ hi := by
  simp [Within]

theorem within_cons {lo hi c : K} {x : A} :
    Within lo hi f c (x :: xs) ↔ (lo ≤ c ∧ c ≤ hi) ∧ Within lo hi f (c + f x) xs := by
  have hsucc (k : Nat) : c + (((x :: xs).take (k + 1)).map f).sum =
      c + f x + ((xs.take k).map f).sum := by
    rw [List.take_succ_cons, List.map_cons, List.sum_cons, add_assoc]
  constructor
  · intro h
    refine ⟨?_,fun k => ?_⟩
    · have h0 := h 0
      rwa [List.take_zero, List.map_nil, List.sum_nil, add_zero] at h0
    · rw [← hsucc k]
      exact h (k + 1)
  · rintro ⟨h0,h⟩ k
    cases k with
    | zero => rwa [List.take_zero, List.map_nil, List.sum_nil, add_zero]
    | succ k =>
      rw [hsucc]
      exact h k

theorem within_congr {B : Type} {lo hi c : K} {g : B → K} {zs : List B} (h : xs.map f = zs.map g) :
    Within lo hi f c xs ↔ Within lo hi g c zs := by
  simp only [Within, List.map_take, h]

variable [IsOrderedAddMonoid K]

theorem positives_nonneg (f : A → K) (xs : List A) : 0 ≤ positives f xs := by
  refine List.sum_nonneg fun x hx => ?_
  obtain ⟨y,-,rfl⟩ := List.mem_map.mp hx
  exact le_max_left 0 (f y)

theorem negatives_nonpos (f : A → K) (xs : List A) : negatives f xs ≤ 0 := by
  induction xs with
  | nil => exact le_rfl
  | cons x xs ih =>
    rw [negatives, List.map_cons, List.sum_cons]
    exact add_nonpos (min_le_left 0 (f x)) ih

theorem take_le (f : A → K) (xs : List A) (k : Nat) : ((xs.take k).map f).sum ≤ positives f xs := by
  induction xs generalizing k with
  | nil =>
    rw [List.take_nil]
    exact positives_nonneg f []
  | cons x xs ih =>
    cases k with
    | zero => exact positives_nonneg f (x :: xs)
    | succ k =>
      rw [List.take_succ_cons, List.map_cons, List.sum_cons, positives, List.map_cons,
        List.sum_cons]
      exact add_le_add (le_max_right 0 (f x)) (ih k)

theorem le_take (f : A → K) (xs : List A) (k : Nat) : negatives f xs ≤ ((xs.take k).map f).sum := by
  induction xs generalizing k with
  | nil =>
    rw [List.take_nil]
    exact negatives_nonpos f []
  | cons x xs ih =>
    cases k with
    | zero => exact negatives_nonpos f (x :: xs)
    | succ k =>
      rw [List.take_succ_cons, List.map_cons, List.sum_cons, negatives, List.map_cons,
        List.sum_cons]
      exact add_le_add (min_le_right 0 (f x)) (ih k)

theorem within_perm_iff (lo hi : K) (f : A → K) (xs : List A) :
    (∀ ys, xs.Perm ys → Within lo hi f 0 ys) ↔ lo ≤ negatives f xs ∧ positives f xs ≤ hi := by
  constructor
  · intro h
    constructor
    · obtain ⟨ys,k,hperm,hsum⟩ := exists_take_sum (f := f) (p := fun x => decide (f x ≤ 0))
        (fun x hx => (min_eq_right (of_decide_eq_true hx)).symm)
        (fun x hx => min_eq_left (not_le.mp (of_decide_eq_false hx)).le) xs
      have hk := (h ys hperm k).1
      rwa [zero_add, hsum] at hk
    · obtain ⟨ys,k,hperm,hsum⟩ := exists_take_sum (f := f) (p := fun x => decide (0 ≤ f x))
        (fun x hx => (max_eq_right (of_decide_eq_true hx)).symm)
        (fun x hx => max_eq_left (not_le.mp (of_decide_eq_false hx)).le) xs
      have hk := (h ys hperm k).2
      rwa [zero_add, hsum] at hk
  · intro h ys hperm k
    rw [negatives_perm hperm, positives_perm hperm] at h
    rw [zero_add]
    exact ⟨h.1.trans (le_take f ys k),(take_le f ys k).trans h.2⟩

end PartialSums
