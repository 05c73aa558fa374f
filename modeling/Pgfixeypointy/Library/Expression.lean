import Mathlib.Tactic.Common

inductive Expression (O A : Type) where
  | leaf (a : A)
  | node (op : O) (left right : Expression O A)

namespace Expression

variable {O A B C D E F G : Type}

def evaluate (value : A → B) (apply : O → B → B → Except E B) : Expression O A → Except E B
  | leaf a => .ok (value a)
  | node op left right => do
      let x ← left.evaluate value apply
      let y ← right.evaluate value apply
      apply op x y

inductive Agree (R : B → C → Prop) (S : E → F → Prop) : Except E B → Except F C → Prop where
  | ok {x y} (h : R x y) : Agree R S (.ok x) (.ok y)
  | error {e f} (h : S e f) : Agree R S (.error e) (.error f)

theorem Agree.bind {R : B → C → Prop} {Q : D → G → Prop} {S : E → F → Prop} {x : Except E B}
    {y : Except F C} {f : B → Except E D} {g : C → Except F G} (h : Agree R S x y)
    (hf : ∀ a b, R a b → Agree Q S (f a) (g b)) : Agree Q S (x >>= f) (y >>= g) := by
  cases h with
  | ok h => exact hf _ _ h
  | error h => exact .error h

theorem Agree.refl (x : Except E B) : Agree Eq Eq x x := by
  cases x with
  | ok b => exact .ok rfl
  | error e => exact .error rfl

theorem Agree.eq {x y : Except E B} (h : Agree Eq Eq x y) : x = y := by
  cases h with
  | ok h => rw [h]
  | error h => rw [h]

theorem bind_eq_ok {x : Except E B} {f : B → Except E C} {c : C} (h : x >>= f = .ok c) :
    ∃ b, x = .ok b ∧ f b = .ok c := by
  cases x with
  | error e => cases h
  | ok b => exact ⟨b,rfl,h⟩

theorem map_ok {x : Except E B} {f : B → C} {c : C}
    (h : (do let b ← x; .ok (f b)) = (.ok c : Except E C)) : ∃ b, x = .ok b ∧ f b = c := by
  obtain ⟨b,hb,h⟩ := bind_eq_ok h
  exact ⟨b,hb,Except.ok.inj h⟩

theorem both_ok {x : Except E B} {y : Except E C} {f : B → C → D} {d : D}
    (h : (do let b ← x; let c ← y; .ok (f b c)) = (.ok d : Except E D)) :
    ∃ b c, x = .ok b ∧ y = .ok c ∧ f b c = d := by
  obtain ⟨b,hb,h⟩ := bind_eq_ok h
  obtain ⟨c,hc,hf⟩ := map_ok h
  exact ⟨b,c,hb,hc,hf⟩

variable {R : B → C → Prop} {S : E → F → Prop}

theorem evaluate_node {value : A → B} {apply : O → B → B → Except E B} {op : O}
    {left right : Expression O A} {c : B} (h : (node op left right).evaluate value apply = .ok c) :
    ∃ a b, left.evaluate value apply = .ok a ∧ right.evaluate value apply = .ok b ∧
      apply op a b = .ok c := by
  rw [evaluate] at h
  cases ha : left.evaluate value apply with
  | error e =>
    rw [ha] at h
    cases h
  | ok a =>
    cases hb : right.evaluate value apply with
    | error e =>
      rw [ha, hb] at h
      cases h
    | ok b =>
      rw [ha, hb] at h
      exact ⟨a,b,rfl,rfl,h⟩

theorem evaluate_agree {value : A → B} {value' : A → C} {apply : O → B → B → Except E B}
    {apply' : O → C → C → Except F C} (hleaf : ∀ a, R (value a) (value' a))
    (hnode : ∀ op a b x y, R a x → R b y → Agree R S (apply op a b) (apply' op x y))
    (e : Expression O A) : Agree R S (e.evaluate value apply) (e.evaluate value' apply') := by
  induction e with
  | leaf a => exact .ok (hleaf a)
  | node op left right ihl ihr =>
    exact ihl.bind fun a x hax => ihr.bind fun b y hby => hnode op a b x y hax hby

theorem evaluate_both {value : A → B} {value' : A → C} {apply : O → B → B → Except E B}
    {apply' : O → C → C → Except F C} (hleaf : ∀ a, R (value a) (value' a))
    (hnode : ∀ op a b c x y z, R a x → R b y → apply op a b = .ok c → apply' op x y = .ok z → R c z)
    {e : Expression O A} {c : B} {z : C} (h : e.evaluate value apply = .ok c)
    (h' : e.evaluate value' apply' = .ok z) : R c z := by
  induction e generalizing c z with
  | leaf a =>
    obtain rfl := Except.ok.inj h
    obtain rfl := Except.ok.inj h'
    exact hleaf a
  | node op left right ihl ihr =>
    obtain ⟨a,b,ha,hb,hc⟩ := evaluate_node h
    obtain ⟨x,y,hx,hy,hz⟩ := evaluate_node h'
    exact hnode op a b c x y z (ihl ha hx) (ihr hb hy) hc hz

theorem evaluate_imp {value : A → B} {value' : A → C} {apply : O → B → B → Except E B}
    {apply' : O → C → C → Except F C} (hleaf : ∀ a, R (value a) (value' a))
    (hnode : ∀ op a b c x y, R a x → R b y → apply op a b = .ok c →
      ∃ z, apply' op x y = .ok z ∧ R c z)
    {e : Expression O A} {c : B} (h : e.evaluate value apply = .ok c) :
    ∃ z, e.evaluate value' apply' = .ok z ∧ R c z := by
  induction e generalizing c with
  | leaf a =>
    obtain rfl := Except.ok.inj h
    exact ⟨_,rfl,hleaf a⟩
  | node op left right ihl ihr =>
    obtain ⟨a,b,ha,hb,hc⟩ := evaluate_node h
    obtain ⟨x,hx,hax⟩ := ihl ha
    obtain ⟨y,hy,hby⟩ := ihr hb
    rw [evaluate, hx, hy]
    exact hnode op a b c x y hax hby hc

theorem Agree.error_iff {x : Except E B} {y : Except F C} (h : Agree R S x y) :
    (∃ e, x = .error e) ↔ ∃ f, y = .error f := by
  cases h with
  | ok h => simp
  | error h => exact ⟨fun _ => ⟨_,rfl⟩,fun _ => ⟨_,rfl⟩⟩

theorem Agree.ok_imp {x : Except E B} {y : Except F C} (h : Agree R S x y) {a : B}
    (ha : x = .ok a) : ∃ b, y = .ok b ∧ R a b := by
  cases h with
  | ok h =>
    obtain rfl := Except.ok.inj ha
    exact ⟨_,rfl,h⟩
  | error h => cases ha

theorem Agree.error_imp {x : Except E B} {y : Except F C} (h : Agree R S x y) {e : E}
    (he : x = .error e) : ∃ f, y = .error f ∧ S e f := by
  cases h with
  | ok h => cases he
  | error h =>
    obtain rfl := Except.error.inj he
    exact ⟨_,rfl,h⟩

theorem Agree.ok_of {x : Except E B} {y : Except F C} (h : Agree R S x y) {b : C}
    (hb : y = .ok b) : ∃ a, x = .ok a ∧ R a b := by
  cases h with
  | ok h =>
    obtain rfl := Except.ok.inj hb
    exact ⟨_,rfl,h⟩
  | error h => cases hb

inductive Alike {P : Type} (S : O → P → Prop) (R : A → D → Prop) :
    Expression O A → Expression P D → Prop where
  | leaf {a d} (h : R a d) : Alike S R (leaf a) (leaf d)
  | node {op op' left right left' right'} (h : S op op') (hl : Alike S R left left')
      (hr : Alike S R right right') : Alike S R (node op left right) (node op' left' right')

theorem Alike.evaluate {P : Type} {S : O → P → Prop} {R : A → D → Prop} {Q : B → C → Prop}
    {value : A → B} {value' : D → C} {apply : O → B → B → Except E B}
    {apply' : P → C → C → Except F C} (hleaf : ∀ a d, R a d → Q (value a) (value' d))
    (hnode : ∀ op op' a b c x y, S op op' → Q a x → Q b y → apply op a b = .ok c →
      ∃ z, apply' op' x y = .ok z ∧ Q c z)
    {e : Expression O A} {e' : Expression P D} (h : Alike S R e e') {c : B}
    (he : e.evaluate value apply = .ok c) : ∃ z, e'.evaluate value' apply' = .ok z ∧ Q c z := by
  induction h generalizing c with
  | leaf h =>
    obtain rfl := Except.ok.inj he
    exact ⟨_,rfl,hleaf _ _ h⟩
  | node hop _ _ ihl ihr =>
    obtain ⟨a,b,ha,hb,hc⟩ := evaluate_node he
    obtain ⟨x,hx,hax⟩ := ihl ha
    obtain ⟨y,hy,hby⟩ := ihr hb
    rw [Expression.evaluate, hx, hy]
    exact hnode _ _ a b c x y hop hax hby hc

end Expression
