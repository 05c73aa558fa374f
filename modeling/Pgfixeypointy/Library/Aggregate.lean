import Mathlib.Data.List.ReduceOption
import Mathlib.Tactic.Common

namespace Aggregate

variable {A E : Type}

-- a strict step without initial value: null rows are skipped, the first other row is the state;
-- step is told the number of the call
def fold (step : Nat → A → A → Except E A) : Nat → Option A → List (Option A) → Except E (Option A)
  | _, state, [] => .ok state
  | n, state, none :: rows => fold step n state rows
  | n, none, some a :: rows => fold step n (some a) rows
  | n, some x, some a :: rows => do
      let y ← step n x a
      fold step (n + 1) (some y) rows

variable {step : Nat → A → A → Except E A} {I : List A → A → Prop}

theorem fold_state (hstep : ∀ n seen x a y, I seen x → step n x a = .ok y → I (seen ++ [a]) y)
    {rows : List (Option A)} {n : Nat} {seen : List A} {x : A} {r : Option A} (hx : I seen x)
    (h : fold step n (some x) rows = .ok r) : ∃ y, r = some y ∧ I (seen ++ rows.reduceOption) y := by
  induction rows generalizing n seen x with
  | nil =>
    obtain rfl := Except.ok.inj h
    exact ⟨x,rfl,by simpa using hx⟩
  | cons row rows ih =>
    cases row with
    | none =>
      rw [List.reduceOption_cons_of_none]
      exact ih hx h
    | some a =>
      rw [fold] at h
      cases hy : step n x a with
      | error e =>
        rw [hy] at h
        cases h
      | ok y =>
        rw [hy] at h
        obtain ⟨z,hz,hi⟩ := ih (hstep n seen x a y hx hy) h
        refine ⟨z,hz,?_⟩
        rwa [List.append_assoc, List.singleton_append] at hi

theorem fold_invariant (hone : ∀ a, I [a] a)
    (hstep : ∀ n seen x a y, I seen x → step n x a = .ok y → I (seen ++ [a]) y)
    {rows : List (Option A)} {n : Nat} {r : Option A} (hne : rows.reduceOption ≠ [])
    (h : fold step n none rows = .ok r) : ∃ y, r = some y ∧ I rows.reduceOption y := by
  induction rows with
  | nil => exact absurd rfl hne
  | cons row rows ih =>
    cases row with
    | none =>
      rw [List.reduceOption_cons_of_none] at hne ⊢
      exact ih hne h
    | some a =>
      rw [List.reduceOption_cons_of_some]
      exact fold_state hstep (hone a) h

theorem fold_total (hstep : ∀ n x a, ∃ y, step n x a = .ok y) (rows : List (Option A)) (n : Nat)
    (state : Option A) : ∃ r, fold step n state rows = .ok r := by
  induction rows generalizing n state with
  | nil => exact ⟨state,rfl⟩
  | cons row rows ih =>
    cases row with
    | none => exact ih n state
    | some a =>
      cases state with
      | none => exact ih n (some a)
      | some x =>
        obtain ⟨y,hy⟩ := hstep n x a
        rw [fold, hy]
        exact ih (n + 1) (some y)

theorem reduceOption_some (rows : List A) : (rows.map some).reduceOption = rows := by
  induction rows with
  | nil => rfl
  | cons a rows ih => rw [List.map_cons, List.reduceOption_cons_of_some, ih]

section

variable (le : A → A → Prop)

def Least (seen : List A) (y : A) : Prop := y ∈ seen ∧ ∀ b ∈ seen, le y b

structure Chooses (choose : A → A → A) : Prop where
  operand : ∀ x a, choose x a = x ∨ choose x a = a
  left : ∀ x a, le (choose x a) x
  right : ∀ x a, le (choose x a) a

variable {le} {choose : A → A → A}

theorem Least.perm {seen seen' : List A} {y : A} (h : Least le seen y) (hp : seen.Perm seen') :
    Least le seen' y := ⟨hp.mem_iff.mp h.1,fun b hb => h.2 b (hp.mem_iff.mpr hb)⟩

theorem Least.both {seen : List A} {y y' : A} (h : Least le seen y) (h' : Least le seen y') :
    le y y' ∧ le y' y := ⟨h.2 y' h'.1,h'.2 y h.1⟩

theorem Chooses.least (h : Chooses le choose) (htrans : ∀ x y z, le x y → le y z → le x z)
    {seen : List A} {x : A} (hx : Least le seen x) (a : A) : Least le (seen ++ [a]) (choose x a) := by
  constructor
  · rcases h.operand x a with hc | hc
    · rw [hc]
      exact List.mem_append_left _ hx.1
    · rw [hc]
      exact List.mem_append_right _ List.mem_cons_self
  · intro b hb
    rcases List.mem_append.mp hb with hb | hb
    · exact htrans _ _ _ (h.left x a) (hx.2 b hb)
    · rw [List.mem_singleton.mp hb]
      exact h.right x a

theorem Chooses.four (h : Chooses le choose) (htrans : ∀ x y z, le x y → le y z → le x z)
    (a b c d : A) : Least le [a, b, c, d] (choose (choose a b) (choose c d)) := by
  constructor
  · rcases h.operand (choose a b) (choose c d) with hc | hc <;> rw [hc]
    · rcases h.operand a b with hc | hc <;> simp [hc]
    · rcases h.operand c d with hc | hc <;> simp [hc]
  · have hleft := h.left (choose a b) (choose c d)
    have hright := h.right (choose a b) (choose c d)
    simp only [List.mem_cons, List.not_mem_nil, or_false]
    rintro _ (rfl | rfl | rfl | rfl)
    · exact htrans _ _ _ hleft (h.left _ _)
    · exact htrans _ _ _ hleft (h.right _ _)
    · exact htrans _ _ _ hright (h.left _ _)
    · exact htrans _ _ _ hright (h.right _ _)

theorem Chooses.fold_least (h : Chooses le choose) (hrefl : ∀ x, le x x)
    (htrans : ∀ x y z, le x y → le y z → le x z) {rows : List (Option A)}
    (hne : rows.reduceOption ≠ []) :
    ∃ y, fold (fun _ x a => (.ok (choose x a) : Except E A)) 0 none rows = .ok (some y) ∧
      Least le rows.reduceOption y := by
  have hone (a : A) : Least le [a] a :=
    ⟨List.mem_singleton_self a,fun b hb => by rw [List.mem_singleton.mp hb]; exact hrefl a⟩
  have hstep (n : Nat) (seen : List A) (x a y : A) (hx : Least le seen x)
      (he : (.ok (choose x a) : Except E A) = .ok y) : Least le (seen ++ [a]) y := by
    obtain rfl := Except.ok.inj he
    exact h.least htrans hx a
  obtain ⟨r,hr⟩ := fold_total (E := E) (fun _ x a => ⟨choose x a,rfl⟩) rows 0 none
  obtain ⟨y,rfl,hy⟩ := fold_invariant hone hstep hne hr
  exact ⟨y,hr,hy⟩

theorem fold_empty {step : Nat → A → A → Except E A} {rows : List (Option A)}
    (h : rows.reduceOption = []) (n : Nat) : fold step n none rows = .ok none := by
  induction rows with
  | nil => rfl
  | cons row rows ih =>
    cases row with
    | none =>
      rw [List.reduceOption_cons_of_none] at h
      exact ih h
    | some a =>
      rw [List.reduceOption_cons_of_some] at h
      cases h

inductive Part (le : A → A → Prop) (rows : List (Option A)) : Option A → Prop where
  | empty (h : rows.reduceOption = []) : Part le rows none
  | least {y} (h : Least le rows.reduceOption y) : Part le rows (some y)

theorem Chooses.fold_part (h : Chooses le choose) (hrefl : ∀ x, le x x)
    (htrans : ∀ x y z, le x y → le y z → le x z) (rows : List (Option A)) :
    ∃ r, fold (fun _ x a => (.ok (choose x a) : Except E A)) 0 none rows = .ok r ∧
      Part le rows r := by
  by_cases hne : rows.reduceOption = []
  · exact ⟨none,fold_empty hne 0,.empty hne⟩
  · obtain ⟨y,hy,hleast⟩ := h.fold_least (E := E) hrefl htrans hne
    exact ⟨some y,hy,.least hleast⟩

theorem Part.perm {rows rows' : List (Option A)} {r : Option A} (h : Part le rows r)
    (hp : rows.Perm rows') : Part le rows' r := by
  have hp' : rows.reduceOption.Perm rows'.reduceOption := hp.filterMap id
  cases h with
  | empty h => exact .empty (List.nil_perm.mp (h ▸ hp'))
  | least h => exact .least (h.perm hp')

theorem parts_cover {groups : List (List (Option A))} {parts : List (Option A)}
    (h : List.Forall₂ (Part le) groups parts) :
    (∀ b ∈ groups.flatten.reduceOption, ∃ y ∈ parts.reduceOption, le y b) ∧
      ∀ y ∈ parts.reduceOption, y ∈ groups.flatten.reduceOption := by
  induction h with
  | nil => simp
  | @cons g r groups parts hgr _ ih =>
    obtain ⟨habove,hmem⟩ := ih
    rw [List.flatten_cons, List.reduceOption_append]
    cases hgr with
    | empty hg =>
      rw [hg, List.nil_append, List.reduceOption_cons_of_none]
      exact ⟨habove,hmem⟩
    | @least y hy =>
      rw [List.reduceOption_cons_of_some]
      constructor
      · intro b hb
        rcases List.mem_append.mp hb with hb | hb
        · exact ⟨y,List.mem_cons_self,hy.2 b hb⟩
        · obtain ⟨z,hz,hle⟩ := habove b hb
          exact ⟨z,List.mem_cons_of_mem _ hz,hle⟩
      · intro z hz
        rcases List.mem_cons.mp hz with rfl | hz
        · exact List.mem_append_left _ hy.1
        · exact List.mem_append_right _ (hmem z hz)

theorem Part.flatten (htrans : ∀ x y z, le x y → le y z → le x z)
    {groups : List (List (Option A))} {parts : List (Option A)} {r : Option A}
    (h : List.Forall₂ (Part le) groups parts) (hr : Part le parts r) :
    Part le groups.flatten r := by
  obtain ⟨habove,hmem⟩ := parts_cover h
  cases hr with
  | empty hr =>
    refine .empty (List.eq_nil_iff_forall_not_mem.mpr fun b hb => ?_)
    obtain ⟨y,hy,-⟩ := habove b hb
    rw [hr] at hy
    exact List.not_mem_nil hy
  | least hr =>
    refine .least ⟨hmem _ hr.1,fun b hb => ?_⟩
    obtain ⟨z,hz,hle⟩ := habove b hb
    exact htrans _ _ _ (hr.2 z hz) hle

theorem Part.mem {rows : List (Option A)} {y : A} (h : Part le rows (some y)) : some y ∈ rows := by
  cases h with
  | least h => exact List.reduceOption_mem_iff.mp h.1

theorem Part.both {rows : List (Option A)} {r r' : Option A} (h : Part le rows r)
    (h' : Part le rows r') : Option.Rel (fun x y => le x y ∧ le y x) r r' := by
  cases h with
  | empty h =>
    cases h' with
    | empty h' => exact .none
    | least h' =>
      have hm := h'.1
      rw [h] at hm
      exact absurd hm List.not_mem_nil
  | least h =>
    cases h' with
    | empty h' =>
      have hm := h.1
      rw [h'] at hm
      exact absurd hm List.not_mem_nil
    | least h' => exact .some (h.both h')

end

end Aggregate
