import Pgfixeypointy.Library.Expression

namespace Expression

variable {O A B E : Type}

inductive Rewrite (rule : Expression O A → Expression O A → Prop) :
    Expression O A → Expression O A → Prop where
  | root {e e'} (h : rule e e') : Rewrite rule e e'
  | left {op l l' r} (h : Rewrite rule l l') : Rewrite rule (.node op l r) (.node op l' r)
  | right {op l r r'} (h : Rewrite rule r r') : Rewrite rule (.node op l r) (.node op l r')

variable {rule : Expression O A → Expression O A → Prop} {R : B → B → Prop} {value : A → B}
  {apply : O → B → B → Except E B}

theorem Agree.same (hrefl : ∀ b, R b b) (x : Except E B) : Agree R Eq x x := by
  cases x with
  | ok b => exact .ok (hrefl b)
  | error e => exact .error rfl

theorem Rewrite.evaluate (hrefl : ∀ b, R b b)
    (hnode : ∀ op a a' b b', R a a' → R b b' → Agree R Eq (apply op a b) (apply op a' b'))
    (hrule : ∀ e e', rule e e' → Agree R Eq (e.evaluate value apply) (e'.evaluate value apply))
    {e e' : Expression O A} (h : Rewrite rule e e') :
    Agree R Eq (e.evaluate value apply) (e'.evaluate value apply) := by
  induction h with
  | root h => exact hrule _ _ h
  | left _ ih =>
    exact ih.bind fun a a' ha => (Agree.same hrefl _).bind fun b b' hb => hnode _ a a' b b' ha hb
  | right _ ih =>
    exact (Agree.same hrefl _).bind fun a a' ha => ih.bind fun b b' hb => hnode _ a a' b b' ha hb

theorem bind_swap {X Y : Type} {x : Except E X} {y : Except E Y} {e : E}
    (hx : ∀ f, x = .error f → f = e) (hy : ∀ f, y = .error f → f = e) (g : X → Y → Except E B) :
    (do let a ← x; let b ← y; g a b) = (do let b ← y; let a ← x; g a b) := by
  cases x with
  | ok a => cases y <;> rfl
  | error f =>
    obtain rfl := hx f rfl
    cases y with
    | ok b => rfl
    | error f' =>
      obtain rfl := hy f' rfl
      rfl

end Expression
