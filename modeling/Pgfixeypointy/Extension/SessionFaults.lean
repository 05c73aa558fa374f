import Pgfixeypointy.Impl.Exactness
import Pgfixeypointy.Extension.Isolation

namespace Fxypty

open FxyptyImpl LittleEndian Expression

namespace Session

variable {V A : Type} {s t : Session V} {i j : Nat} {fault : Fault}

def WellFormed (s : Session V) : Prop := ∀ address ∈ s.pool, address < s.heap.length

theorem settle_error {next : A → Session V} {x : Except Fault A}
    (h : s.settle next x = .error fault) :
    x = .error fault ∧ ∀ code message, fault ≠ .ereport code message := by
  cases x with
  | ok a => cases h
  | error f =>
    cases f with
    | overrun =>
      obtain rfl := Except.error.inj h
      exact ⟨rfl,fun _ _ hf => nomatch hf⟩
    | lookup =>
      obtain rfl := Except.error.inj h
      exact ⟨rfl,fun _ _ hf => nomatch hf⟩
    | ereport code message => cases h

theorem settle_ok {next : A → Session V} {x : Except Fault A} (h : s.settle next x = .ok t) :
    (∃ a, t = next a) ∨ ∃ a, t = s.tell a := by
  cases x with
  | ok a => exact .inl ⟨a,(Except.ok.inj h).symm⟩
  | error f =>
    cases f with
    | overrun => cases h
    | lookup => cases h
    | ereport code message => exact .inr ⟨_,(Except.ok.inj h).symm⟩

theorem one_ok {f : Nat → V → Except Fault (Session V)} (h : s.one i f = .ok t) :
    t = s ∨ ∃ a v, s.At i a v ∧ f a v = .ok t := by
  rw [one] at h
  split at h
  · exact .inl (Except.ok.inj h).symm
  · rename_i a hp
    split at h
    · rename_i v hc
      exact .inr ⟨a,v,⟨hp,hc⟩,h⟩
    · cases h

theorem one_imp {f g : Nat → V → Except Fault (Session V)}
    (hfg : ∀ a v, f a v = .ok t → g a v = .ok t) (h : s.one i f = .ok t) : s.one i g = .ok t := by
  unfold one at h ⊢
  cases hp : s.pool[i]? with
  | none =>
    rw [hp] at h
    exact h
  | some a =>
    rw [hp] at h
    dsimp only at h ⊢
    split at h
    · exact hfg _ _ h
    · cases h

theorem two_ok {f : Nat → V → Nat → V → Except Fault (Session V)} (h : s.two i j f = .ok t) :
    t = s ∨ ∃ a v b w, s.At i a v ∧ s.At j b w ∧ f a v b w = .ok t := by
  rcases one_ok h with rfl | ⟨a,v,hv,h⟩
  · exact .inl rfl
  · rcases one_ok h with rfl | ⟨b,w,hw,h⟩
    · exact .inl rfl
    · exact .inr ⟨a,v,b,w,hv,hw,h⟩

theorem one_error (hs : s.WellFormed) {f : Nat → V → Except Fault (Session V)}
    (h : s.one i f = .error fault) : s.Freed i ∨ ∃ a v, s.At i a v ∧ f a v = .error fault := by
  rw [one] at h
  split at h
  · cases h
  · rename_i a hp
    split at h
    · rename_i v hc
      exact .inr ⟨a,v,⟨hp,hc⟩,h⟩
    · rename_i hc
      refine .inl ⟨a,hp,?_⟩
      have hlt := hs a (List.mem_of_getElem? hp)
      cases hcell : s.heap[a]? with
      | none => exact absurd (List.getElem?_eq_none_iff.mp hcell) (by omega)
      | some cell =>
        cases cell with
        | none => rfl
        | some v => exact absurd hcell (hc v)

theorem two_error (hs : s.WellFormed) {f : Nat → V → Nat → V → Except Fault (Session V)}
    (h : s.two i j f = .error fault) :
    s.Freed i ∨ s.Freed j ∨ ∃ a v b w, s.At i a v ∧ s.At j b w ∧ f a v b w = .error fault := by
  rcases one_error hs h with hi | ⟨a,v,hv,h⟩
  · exact .inl hi
  · rcases one_error hs h with hj | ⟨b,w,hw,h⟩
    · exact .inr (.inl hj)
    · exact .inr (.inr ⟨a,v,b,w,hv,hw,h⟩)

theorem WellFormed.start : (start : Session V).WellFormed :=
  fun _ h => absurd h List.not_mem_nil

theorem WellFormed.tell (h : s.WellFormed) (a : Answer) : (s.tell a).WellFormed := h

theorem WellFormed.refer (h : s.WellFormed) {address : Nat} (ha : address < s.heap.length) :
    (s.refer address).WellFormed := by
  intro b hb
  rcases List.mem_append.mp hb with hb | hb
  · exact h b hb
  · rwa [List.mem_singleton.mp hb]

theorem WellFormed.allot (h : s.WellFormed) (v : V) : (s.allot v).WellFormed := by
  intro b hb
  have hlen : (s.allot v).heap.length = s.heap.length + 1 := List.length_append
  rw [hlen]
  rcases List.mem_append.mp hb with hb | hb
  · exact Nat.lt_succ_of_lt (h b hb)
  · rw [List.mem_singleton.mp hb]
    exact Nat.lt_succ_self _

theorem WellFormed.free (h : s.WellFormed) (address : Nat) : (s.free address).WellFormed := by
  intro b hb
  rw [Session.free, List.length_set]
  exact h b hb

theorem WellFormed.settle (h : s.WellFormed) {next : A → Session V}
    (hnext : ∀ a, (next a).WellFormed) {x : Except Fault A} (ht : s.settle next x = .ok t) :
    t.WellFormed := by
  rcases settle_ok ht with ⟨a,rfl⟩ | ⟨a,rfl⟩
  · exact hnext a
  · exact h.tell a

end Session

open Session

variable {V : Type}

theorem execute_wellFormed {e : Engine V} {s t : Session V} {c : Command} (hs : s.WellFormed)
    (h : e.execute s c = .ok t) : t.WellFormed := by
  have hlt {i a : Nat} {v : V} (hat : s.At i a v) : a < s.heap.length :=
    hs a (List.mem_of_getElem? hat.1)
  cases c with
  | literal text copied m => exact hs.settle hs.allot h
  | cast i m =>
    rcases one_ok h with rfl | ⟨a,v,-,h⟩
    · exact hs
    · exact hs.settle (hs.free a).allot h
  | apply op i j =>
    rcases two_ok h with rfl | ⟨a,v,b,w,-,-,h⟩
    · exact hs
    · exact hs.settle hs.allot h
  | smaller i j =>
    rcases two_ok h with rfl | ⟨a,v,b,w,hv,hw,h⟩
    · exact hs
    · obtain rfl := Except.ok.inj h
      exact hs.refer (by split; exacts [hlt hv, hlt hw])
  | larger i j =>
    rcases two_ok h with rfl | ⟨a,v,b,w,hv,hw,h⟩
    · exact hs
    · obtain rfl := Except.ok.inj h
      exact hs.refer (by split; exacts [hlt hv, hlt hw])
  | copy i =>
    rcases one_ok h with rfl | ⟨a,v,-,h⟩
    · exact hs
    · obtain rfl := Except.ok.inj h
      exact hs.allot _
  | print i =>
    rcases one_ok h with rfl | ⟨a,v,-,h⟩
    · exact hs
    · exact hs.settle (fun text => hs.tell _) h
  | test r i j =>
    rcases two_ok h with rfl | ⟨a,v,b,w,-,-,h⟩
    · exact hs
    · obtain rfl := Except.ok.inj h
      exact hs.tell _

def Command.operands : Command → List Nat
  | .literal _ _ _ => []
  | .cast i _ | .copy i | .print i => [i]
  | .apply _ i j | .smaller i j | .larger i j | .test _ i j => [i, j]

structure Tame (e : Engine V) (P : Command → Prop) : Prop where
  literal : ∀ t copied m fault, P (.literal t copied m) → e.literal t copied m = .error fault →
    ∃ code message, fault = .ereport code message
  cast : ∀ v m fault, e.cast v m = .error fault → ∃ code message, fault = .ereport code message
  apply : ∀ op v w fault, e.apply op v w = .error fault →
    ∃ code message, fault = .ereport code message

theorem Tame.execute_error {e : Engine V} {P : Command → Prop} (he : Tame e P) {s : Session V}
    (hs : s.WellFormed) {c : Command} (hc : P c) {fault : Fault}
    (h : e.execute s c = .error fault) : (∃ i ∈ c.operands, s.Freed i) ∨
      ∃ i a v, c = .print i ∧ s.At i a v ∧ e.print v = .error fault := by
  cases c with
  | literal text copied m =>
    obtain ⟨hx,hne⟩ := settle_error h
    obtain ⟨code,message,hf⟩ := he.literal _ _ _ _ hc hx
    exact absurd hf (hne code message)
  | cast i m =>
    rcases one_error hs h with hi | ⟨a,v,-,h⟩
    · exact .inl ⟨i,List.mem_singleton_self i,hi⟩
    · obtain ⟨hx,hne⟩ := settle_error h
      obtain ⟨code,message,hf⟩ := he.cast _ _ _ hx
      exact absurd hf (hne code message)
  | apply op i j =>
    rcases two_error hs h with hi | hj | ⟨a,v,b,w,-,-,h⟩
    · exact .inl ⟨i,List.mem_cons_self,hi⟩
    · exact .inl ⟨j,by simp [Command.operands],hj⟩
    · obtain ⟨hx,hne⟩ := settle_error h
      obtain ⟨code,message,hf⟩ := he.apply _ _ _ _ hx
      exact absurd hf (hne code message)
  | smaller i j =>
    rcases two_error hs h with hi | hj | ⟨a,v,b,w,-,-,h⟩
    · exact .inl ⟨i,List.mem_cons_self,hi⟩
    · exact .inl ⟨j,by simp [Command.operands],hj⟩
    · cases h
  | larger i j =>
    rcases two_error hs h with hi | hj | ⟨a,v,b,w,-,-,h⟩
    · exact .inl ⟨i,List.mem_cons_self,hi⟩
    · exact .inl ⟨j,by simp [Command.operands],hj⟩
    · cases h
  | copy i =>
    rcases one_error hs h with hi | ⟨a,v,-,h⟩
    · exact .inl ⟨i,List.mem_singleton_self i,hi⟩
    · cases h
  | print i =>
    rcases one_error hs h with hi | ⟨a,v,hat,h⟩
    · exact .inl ⟨i,List.mem_singleton_self i,hi⟩
    · exact .inr ⟨i,a,v,rfl,hat,(settle_error h).1⟩
  | test r i j =>
    rcases two_error hs h with hi | hj | ⟨a,v,b,w,-,-,h⟩
    · exact .inl ⟨i,List.mem_cons_self,hi⟩
    · exact .inl ⟨j,by simp [Command.operands],hj⟩
    · cases h

section

variable {lib : Libfixeypointy}

def Command.Fits : Command → Prop
  | .literal t copied _ => (token t.val).length < if copied then 24 else 42
  | _ => True

instance : DecidablePred Command.Fits
  | .literal t copied _ => inferInstanceAs (Decidable ((token t.val).length < if copied then 24 else 42))
  | .cast _ _ | .apply _ _ _ | .smaller _ _ | .larger _ _ | .copy _ | .print _
  | .test _ _ _ => isTrue trivial

theorem Command.Fits.uncut {c : Command} (h : c.Fits) : c.Uncut := by
  cases c with
  | literal t copied m =>
    cases copied with
    | false => trivial
    | true => exact h
  | _ => trivial

theorem readText_error {text : List Byte} {scale : Scale} (hlen : (token text).length < 42)
    {fault : Fault} (h : readText lib text scale = .error fault) :
    ∃ code message, fault = .ereport code message := by
  rw [readText, if_neg (show ¬42 ≤ (token text).length by omega)] at h
  split at h
  · exact ⟨_,_,(Except.error.inj h).symm⟩
  · split at h
    · exact ⟨_,_,(Except.error.inj h).symm⟩
    · cases h

theorem token_length_le (text : List Byte) : (token text).length ≤ text.length :=
  ((List.takeWhile_sublist _).trans (List.dropWhile_sublist _)).length_le

theorem onValues_tame (lib : Libfixeypointy) : Tame (onValues lib) Command.Fits where
  literal t copied m fault hc h := by
    have hlen : (token t.val).length < 42 := by
      have h' : (token t.val).length < if copied then 24 else 42 := hc
      split at h' <;> omega
    exact readText_error hlen h
  cast x m fault h := by
    rw [onValues_cast] at h
    have hle := (token_length_le (spelling x)).trans ((List.takeWhile_sublist _).length_le)
    rw [valueBytes_length] at hle
    exact readText_error (by omega) h
  apply op x y fault h := by
    simp only [onValues] at h
    split at h
    · exact ⟨_,_,(Except.error.inj h).symm⟩
    · cases h

theorem serveValues_wellFormed {commands : List Command} {t : Session FxyPtyDecimal}
    (h : serveValues lib commands = .ok t) : t.WellFormed :=
  Lockstep.run_invariant (P := fun _ => True) (fun _ _ _ _ _ hs => execute_wellFormed hs)
    (fun _ _ => trivial) WellFormed.start h

theorem Session.Mirrors.scale_le {s : Session Datum} {t : Session FxyPtyDecimal}
    (h : s.Mirrors Holds t) {a : Nat} {x : FxyPtyDecimal} (hx : t.heap[a]? = some (some x)) :
    x.scale.toNat ≤ 38 := by
  have ha := forall₂_getElem? h.heap a
  rw [hx] at ha
  generalize s.heap[a]? = cell at ha
  rcases ha with ⟨⟨hd⟩⟩
  exact hd.scale

theorem print_error {x : FxyPtyDecimal} (hs : x.scale.toNat ≤ 38) {fault : Fault}
    (h : (onValues lib).print x = .error fault) :
    fault = .lookup ∧ 2 ^ 63 * 10 ^ 18 ≤ x.raw.natAbs := by
  simp only [onValues] at h
  cases hout : FxyptyImpl.fxyptyOut fourDigits zeroed zeroed x with
  | ok out =>
    rw [hout] at h
    cases h
  | error f =>
    rw [hout] at h
    obtain rfl := Except.error.inj h
    exact fxyptyOut_fault hs hout

-- the value's bytes spell the text 1, so the cast succeeds and its argument is freed
def castThenPrint : List Command :=
  [.literal ⟨[ch '0', ch '.', ch '4', ch '9'],by decide⟩ true tenDigits, .cast 0 tenDigits,
    .print 1, .print 0]

end

end Fxypty
