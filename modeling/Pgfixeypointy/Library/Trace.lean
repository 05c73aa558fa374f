import Mathlib.Tactic.Common

inductive Trace {S L : Type} (step : S → L → S → Prop) (init : S) : List L → S → Prop where
  | nil : Trace step init [] init
  | snoc {ls s l s'} (h : Trace step init ls s) (hs : step s l s') : Trace step init (ls ++ [l]) s'

def Guarded {S L : Type} (P : S → L → Prop) (step : S → L → S → Prop) (s : S) (l : L) (s' : S) :
    Prop :=
  P s l ∧ step s l s'

section

variable {S L : Type} {step step' : S → L → S → Prop} {init s : S} {ls : List L}

theorem Trace.imp (hstep : ∀ s l s', step s l s' → step' s l s') (h : Trace step init ls s) :
    Trace step' init ls s := by
  induction h with
  | nil => exact .nil
  | snoc _ hs ih => exact .snoc ih (hstep _ _ _ hs)

theorem Trace.invariant {I : S → Prop} (h0 : I init) (hstep : ∀ s l s', I s → step s l s' → I s')
    (h : Trace step init ls s) : I s := by
  induction h with
  | nil => exact h0
  | snoc _ hs ih => exact hstep _ _ _ ih hs

end
