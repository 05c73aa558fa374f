import Pgfixeypointy.Library.Expression

namespace Lockstep

open Expression (Agree bind_eq_ok both_ok)

variable {A B C D S T E F : Type}

-- a step is told its number; it may fail, and then the run stops
def run (step : Nat → C → S → Except E S) : Nat → List C → S → Except E S
  | _, [], s => .ok s
  | n, c :: cs, s => do
      let s ← step n c s
      run step (n + 1) cs s

variable {step : Nat → C → S → Except E S} {step' : Nat → C → T → Except F T} {P : C → Prop}

theorem run_agree {R : S → T → Prop} {Q : E → F → Prop}
    (hstep : ∀ n c s t, P c → R s t → Agree R Q (step n c s) (step' n c t)) {cs : List C}
    (hp : ∀ c ∈ cs, P c) (n : Nat) {s : S} {t : T} (h : R s t) :
    Agree R Q (run step n cs s) (run step' n cs t) := by
  induction cs generalizing n s t with
  | nil => exact .ok h
  | cons c cs ih =>
    exact (hstep n c s t (hp c List.mem_cons_self) h).bind fun s t h =>
      ih (fun c hc => hp c (List.mem_cons_of_mem _ hc)) (n + 1) h

theorem run_invariant {I : S → Prop}
    (hstep : ∀ n c s s', P c → I s → step n c s = .ok s' → I s') {cs : List C}
    (hp : ∀ c ∈ cs, P c) {n : Nat} {s s' : S} (h : I s) (hr : run step n cs s = .ok s') : I s' := by
  induction cs generalizing n s with
  | nil =>
    obtain rfl := Except.ok.inj hr
    exact h
  | cons c cs ih =>
    obtain ⟨t,hs,hr⟩ := bind_eq_ok hr
    exact ih (fun c hc => hp c (List.mem_cons_of_mem _ hc))
      (hstep n c s t (hp c List.mem_cons_self) h hs) hr

theorem run_imp {step' : Nat → C → S → Except F S}
    (h : ∀ n c s t, step n c s = .ok t → step' n c s = .ok t) {cs : List C} {n : Nat} {s t : S}
    (hr : run step n cs s = .ok t) : run step' n cs s = .ok t := by
  induction cs generalizing n s with
  | nil =>
    obtain rfl := Except.ok.inj hr
    rfl
  | cons c cs ih =>
    obtain ⟨u,hu,hr⟩ := bind_eq_ok hr
    rw [run, h n c s u hu]
    exact ih hr

theorem run_error {cs : List C} {n : Nat} {s : S} {e : E} (hr : run step n cs s = .error e) :
    ∃ before c after t, cs = before ++ c :: after ∧ run step n before s = .ok t ∧
      step (n + before.length) c t = .error e := by
  induction cs generalizing n s with
  | nil => cases hr
  | cons c cs ih =>
    rw [run] at hr
    cases hs : step n c s with
    | error f =>
      rw [hs] at hr
      obtain rfl := Except.error.inj hr
      exact ⟨[],c,cs,s,rfl,rfl,hs⟩
    | ok t =>
      rw [hs] at hr
      obtain ⟨before,d,after,u,rfl,hb,hd⟩ := ih hr
      refine ⟨c :: before,d,after,u,rfl,?_,?_⟩
      · rw [run, hs]
        exact hb
      · rwa [List.length_cons, Nat.add_comm before.length, ← Nat.add_assoc]

def forEach (f : Nat → A → Except E B) : Nat → List A → Except E (List B)
  | _, [] => .ok []
  | n, a :: as => do
      let b ← f n a
      let bs ← forEach f (n + 1) as
      .ok (b :: bs)

variable {f : Nat → A → Except E B} {Q : A → B → Prop}

theorem forEach_ok {as : List A} (h : ∀ n, ∀ a ∈ as, ∃ b, f n a = .ok b ∧ Q a b) (n : Nat) :
    ∃ bs, forEach f n as = .ok bs ∧ List.Forall₂ Q as bs := by
  induction as generalizing n with
  | nil => exact ⟨[],rfl,.nil⟩
  | cons a as ih =>
    obtain ⟨b,hb,hq⟩ := h n a List.mem_cons_self
    obtain ⟨bs,hbs,hqs⟩ := ih (fun n a ha => h n a (List.mem_cons_of_mem _ ha)) (n + 1)
    refine ⟨b :: bs,?_,.cons hq hqs⟩
    rw [forEach, hb]
    simp only [bind, Except.bind, hbs]

theorem forEach_map {p : B → C} {q : A → C} {as : List A} {bs : List B}
    (h : List.Forall₂ (fun a b => p b = q a) as bs) : bs.map p = as.map q := by
  induction h with
  | nil => rfl
  | cons hab _ ih => rw [List.map_cons, List.map_cons, hab, ih]

theorem forEach_cons {a : A} {as : List A} {bs : List B} {n : Nat}
    (h : forEach f n (a :: as) = .ok bs) :
    ∃ b bs', bs = b :: bs' ∧ f n a = .ok b ∧ forEach f (n + 1) as = .ok bs' := by
  obtain ⟨b,bs',hb,hbs,rfl⟩ := both_ok h
  exact ⟨b,bs',rfl,hb,hbs⟩

theorem forEach_each {as : List A} (h : ∀ n, ∀ a ∈ as, ∀ b, f n a = .ok b → Q a b) {bs : List B}
    {n : Nat} (hr : forEach f n as = .ok bs) : List.Forall₂ Q as bs := by
  induction as generalizing n bs with
  | nil =>
    obtain rfl := Except.ok.inj hr
    exact .nil
  | cons a as ih =>
    obtain ⟨b,bs,rfl,hb,hbs⟩ := forEach_cons hr
    exact .cons (h n a List.mem_cons_self b hb) (ih (fun n a ha => h n a (List.mem_cons_of_mem _ ha)) hbs)

theorem forEach_image {g : Nat → A → Except F C} {p : B → C} {as : List A} {bs : List B} {n : Nat}
    (h : ∀ n a b, f n a = .ok b → g n a = .ok (p b)) (hr : forEach f n as = .ok bs) :
    forEach g n as = .ok (bs.map p) := by
  induction as generalizing n bs with
  | nil =>
    obtain rfl := Except.ok.inj hr
    rfl
  | cons a as ih =>
    obtain ⟨b,bs,rfl,hb,hbs⟩ := forEach_cons hr
    rw [forEach, h n a b hb]
    simp only [bind, Except.bind, ih hbs]
    rfl

theorem forEach_both {g : Nat → A → Except F C} {R : B → C → Prop} {as : List A} {bs : List B}
    {cs : List C} {n : Nat} (h : ∀ n a b c, f n a = .ok b → g n a = .ok c → R b c)
    (hf : forEach f n as = .ok bs) (hg : forEach g n as = .ok cs) : List.Forall₂ R bs cs := by
  induction as generalizing n bs cs with
  | nil =>
    obtain rfl := Except.ok.inj hf
    obtain rfl := Except.ok.inj hg
    exact .nil
  | cons a as ih =>
    obtain ⟨b,bs,rfl,hb,hbs⟩ := forEach_cons hf
    obtain ⟨c,cs,rfl,hc,hcs⟩ := forEach_cons hg
    exact .cons (h n a b c hb hc) (ih hbs hcs)

theorem forEach_forEach {g : Nat → B → Except F C} {p : C → D} {q : A → D} {as : List A}
    {bs : List B} {cs : List C} {n : Nat} (hf : forEach f n as = .ok bs)
    (hg : forEach g n bs = .ok cs) (h : cs.map p = as.map q) :
    ∀ a ∈ as, ∃ k b c, f k a = .ok b ∧ g k b = .ok c ∧ p c = q a := by
  induction as generalizing n bs cs with
  | nil => exact fun a ha => absurd ha List.not_mem_nil
  | cons a as ih =>
    obtain ⟨b,bs,rfl,hb,hbs⟩ := forEach_cons hf
    obtain ⟨c,cs,rfl,hc,hcs⟩ := forEach_cons hg
    obtain ⟨hpq,ht⟩ := List.cons.inj h
    intro a' ha
    rcases List.mem_cons.mp ha with rfl | ha
    · exact ⟨n,b,c,hb,hc,hpq⟩
    · exact ih hbs hcs ht a' ha

theorem forEach_ok_of {g : Nat → B → Except F C} {R : A → C → Prop} {as : List A} {bs : List B}
    (h : List.Forall₂ (fun a b => ∀ n, ∃ c, g n b = .ok c ∧ R a c) as bs) (n : Nat) :
    ∃ cs, forEach g n bs = .ok cs ∧ List.Forall₂ R as cs := by
  induction h generalizing n with
  | nil => exact ⟨[],rfl,.nil⟩
  | cons hab _ ih =>
    obtain ⟨c,hc,hr⟩ := hab n
    obtain ⟨cs,hcs,hrs⟩ := ih (n + 1)
    refine ⟨c :: cs,?_,.cons hr hrs⟩
    rw [forEach, hc]
    simp only [bind, Except.bind, hcs]

end Lockstep
