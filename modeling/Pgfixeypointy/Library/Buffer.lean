import Mathlib.Data.List.Basic
import Mathlib.Tactic.Common

structure Buffer (A : Type) (n : Nat) where
  cells : List A
  size : cells.length = n
deriving DecidableEq

namespace Buffer

variable {A E : Type} {n : Nat}

@[ext] theorem ext {b c : Buffer A n} (h : b.cells = c.cells) : b = c := by
  cases b
  cases c
  cases h
  rfl

def put (b : Buffer A n) (i : Nat) (xs : List A) (h : i + xs.length ≤ n) : Buffer A n where
  cells := b.cells.take i ++ (xs ++ b.cells.drop (i + xs.length))
  size := by
    have hb := b.size
    simp only [List.length_append, List.length_take, List.length_drop]
    omega

def store (oob : E) (b : Buffer A n) (i : Nat) (xs : List A) : Except E (Buffer A n) :=
  if h : i + xs.length ≤ n then .ok (b.put i xs h) else .error oob

def load (oob : E) (b : Buffer A n) (i len : Nat) : Except E (List A) :=
  if i + len ≤ n then .ok ((b.cells.drop i).take len) else .error oob

def tail (b : Buffer A n) (i : Nat) : List A := b.cells.drop i

theorem store_ok (oob : E) (b : Buffer A n) (i : Nat) (xs : List A) (h : i + xs.length ≤ n) :
    b.store oob i xs = .ok (b.put i xs h) := dif_pos h

theorem store_error (oob : E) (b : Buffer A n) (i : Nat) (xs : List A) (h : ¬i + xs.length ≤ n) :
    b.store oob i xs = .error oob := dif_neg h

theorem tail_length (b : Buffer A n) (i : Nat) : (b.tail i).length = n - i := by
  simp only [tail, List.length_drop, b.size]

theorem load_tail (oob : E) (b : Buffer A n) {i : Nat} (h : i ≤ n) :
    b.load oob i (n - i) = .ok (b.tail i) := by
  have hi : i + (n - i) ≤ n := by omega
  have hl : (b.cells.drop i).length = n - i := by rw [List.length_drop, b.size]
  have ht : (b.cells.drop i).take (n - i) = b.cells.drop i :=
    List.take_of_length_le (Nat.le_of_eq hl)
  simp only [load, if_pos hi, ht, tail]

theorem take_length {b : Buffer A n} {i : Nat} (h : i ≤ n) : (b.cells.take i).length = i := by
  rw [List.length_take, b.size]
  omega

theorem tail_put (b : Buffer A n) (i : Nat) (xs : List A) (h : i + xs.length ≤ n) :
    (b.put i xs h).tail i = xs ++ b.tail (i + xs.length) :=
  List.drop_left' (take_length (by omega))

theorem take_put (b : Buffer A n) (i : Nat) (xs : List A) (h : i + xs.length ≤ n) :
    (b.put i xs h).cells.take (i + xs.length) = b.cells.take i ++ xs := by
  have hi : (b.cells.take i ++ xs).length = i + xs.length := by
    rw [List.length_append, take_length (by omega)]
  simp only [put, ← List.append_assoc]
  exact List.take_left' hi

theorem drop_put (b : Buffer A n) (i k : Nat) (xs : List A) (h : i + xs.length ≤ n) :
    (b.put i xs h).cells.drop (i + xs.length + k) = b.cells.drop (i + xs.length + k) := by
  have ht := congrArg (List.drop (xs.length + k)) (tail_put b i xs h)
  simp only [tail, List.drop_drop, List.drop_append] at ht
  have hx : xs.drop (xs.length + k) = [] := List.drop_eq_nil_of_le (by omega)
  rw [hx, List.nil_append, Nat.add_sub_cancel_left] at ht
  rw [Nat.add_assoc, ht, Nat.add_assoc]

theorem put_put (b : Buffer A n) (i : Nat) (xs ys : List A) (h : i + xs.length ≤ n)
    (h' : i + xs.length + ys.length ≤ n) :
    (b.put i xs h).put (i + xs.length) ys h' =
      b.put i (xs ++ ys) (by rw [List.length_append]; omega) := by
  apply ext
  change (b.put i xs h).cells.take (i + xs.length) ++
      (ys ++ (b.put i xs h).cells.drop (i + xs.length + ys.length)) = _
  rw [take_put, drop_put]
  simp only [put, List.length_append, List.append_assoc, Nat.add_assoc]

theorem put_zero_cells (b : Buffer A n) (xs : List A) (h : 0 + xs.length ≤ n) :
    (b.put 0 xs h).cells = xs ++ b.cells.drop xs.length := by
  simp [put]

theorem put_congr (b : Buffer A n) {i : Nat} {xs ys : List A} (h : i + xs.length ≤ n)
    (e : xs = ys) : b.put i xs h = b.put i ys (e ▸ h) := by
  subst e
  rfl

theorem terminated_inj {z : A} {xs ys us vs : List A} (hy : z ∉ ys) (hv : z ∉ vs)
    (h : xs ++ z :: us = ys ++ z :: vs) : xs = ys := by
  rcases List.append_eq_append_iff.mp h with ⟨c,hc,hr⟩ | ⟨c,hc,hr⟩
  · cases c with
    | nil => simpa using hc.symm
    | cons a c =>
      obtain ⟨rfl,-⟩ := List.cons.inj hr
      exact absurd (hc ▸ List.mem_append_right xs List.mem_cons_self) hy
  · cases c with
    | nil => simpa using hc
    | cons a c =>
      obtain ⟨-,ht⟩ := List.cons.inj hr
      exact absurd (ht ▸ List.mem_append_right c List.mem_cons_self) hv

theorem put_terminated_inj {b : Buffer A n} {z : A} {xs ys : List A} (hy : z ∉ ys)
    (hb : z ∉ b.cells) {h h'} (e : b.put 0 (xs ++ [z]) h = b.put 0 (ys ++ [z]) h') : xs = ys := by
  have hc := congrArg cells e
  rw [put_zero_cells, put_zero_cells, List.append_assoc, List.append_assoc] at hc
  exact terminated_inj hy (fun hz => hb (List.mem_of_mem_drop hz)) hc

end Buffer
