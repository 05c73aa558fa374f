import Pgfixeypointy.Extension.Cast

namespace Fxypty

open FxyptyImpl

structure OneToken (text run : List Byte) : Prop where
  split : ∃ space after, text = space ++ (run ++ after) ∧
    (∀ c ∈ space, isSpace c = true) ∧ ∀ c ∈ after, isSpace c = true
  solid : ∀ c ∈ run, isSpace c = false
  length_pos : 1 ≤ run.length
  length_le : run.length ≤ 41

theorem OneToken.token_eq {text run : List Byte} (h : OneToken text run) :
    token text = run ∧ ∀ c ∈ remainder text, isSpace c = true := by
  obtain ⟨space,after,rfl,hs,ha⟩ := h.split
  obtain ⟨ht,hr⟩ := token_append hs h.solid (List.ne_nil_of_length_pos h.length_pos) ha
  exact ⟨ht,by rwa [hr]⟩

theorem oneToken_token {text : List Byte} (hne : token text ≠ []) (hlen : (token text).length ≤ 41)
    (ha : ∀ c ∈ remainder text, isSpace c = true) : OneToken text (token text) where
  split := ⟨text.takeWhile isSpace,remainder text,text_split text,
    fun _ hc => List.mem_takeWhile_imp hc,ha⟩
  solid := token_ok text
  length_pos := List.length_pos_iff.mpr hne
  length_le := hlen

-- fxypty_in_casted from its call of _fxypty_in on
def passOn (lib : Libfixeypointy) (padding : Buffer Byte 4) (run : List Byte) (typmod : Typmod) :
    Except Fault Datum :=
  match FxyptyImpl.fxyptyIn lib run ((decodeTypmod typmod).2.signExtend 64) with
  | none => .error runtimeErrors
  | some result => .ok (.ofDecimal result padding)

theorem passOn_eq (lib : Libfixeypointy) (padding : Buffer Byte 4) (run : List Byte)
    (typmod : Typmod) : passOn lib padding run typmod =
      castRun lib padding run (decodeTypmod typmod).2 := by
  rw [passOn, FxyptyImpl.fxyptyIn, setWidth_signExtend, castRun]
  cases lib.ofString run (decodeTypmod typmod).2 <;> rfl

structure Tokenises (text : List Byte) : Prop where
  accepts : ∀ run, OneToken text run → ∀ stack rest, ∃ d after,
    fxyptyIn stack (text ++ 0 :: rest) = .ok d ∧ d.bytes = run ++ 0 :: after
  rejects : (∀ run, ¬OneToken text run) → ∀ stack rest,
    fxyptyIn stack (text ++ 0 :: rest) = .error (syntaxError text)
  passes : ∀ run, OneToken text run → ∀ lib stack padding rest typmod,
    fxyptyInCasted lib stack padding (text ++ 0 :: rest) typmod = passOn lib padding run typmod
  refuses : (∀ run, ¬OneToken text run) → ∀ lib stack padding rest typmod,
    fxyptyInCasted lib stack padding (text ++ 0 :: rest) typmod = .error (syntaxError text)

variable {text : List Byte}

theorem syntaxError_terminated (h0 : 0 ∉ text) (rest : List Byte) :
    syntaxError (text ++ 0 :: rest) = syntaxError text := by
  have hself : text.takeWhile (· ≠ 0) = text :=
    List.takeWhile_eq_self_iff.mpr fun c hc => decide_eq_true fun hz => h0 (hz ▸ hc)
  rw [syntaxError, syntaxError, takeWhile_terminated h0, hself]

theorem blank_rejected (h0 : 0 ∉ text) (ht : token text = []) (stack : Buffer Byte 42)
    (rest : List Byte) : fxyptyIn stack (text ++ 0 :: rest) = .error (syntaxError text) := by
  rw [fxyptyIn, sscanf_blank h0 ht]
  exact congrArg Except.error (syntaxError_terminated h0 rest)

theorem blank_refused (h0 : 0 ∉ text) (ht : token text = []) (lib : Libfixeypointy)
    (stack : Buffer Byte 42) (padding : Buffer Byte 4) (rest : List Byte) (typmod : Typmod) :
    fxyptyInCasted lib stack padding (text ++ 0 :: rest) typmod = .error (syntaxError text) := by
  rw [fxyptyInCasted, sscanf_blank h0 ht]
  exact congrArg Except.error (syntaxError_terminated h0 rest)

theorem fxyptyIn_overrun_iff (h0 : 0 ∉ text) (stack : Buffer Byte 42) (rest : List Byte) :
    fxyptyIn stack (text ++ 0 :: rest) = .error .overrun ↔ 42 ≤ (token text).length := by
  rcases Nat.lt_or_ge (token text).length 42 with hlen | hlen
  · refine ⟨fun h => ?_,fun h => absurd h (by omega)⟩
    by_cases ht : token text = []
    · rw [blank_rejected h0 ht] at h
      cases h
    · obtain ⟨d,hd,-⟩ := fxyptyIn_token h0 ht hlen stack rest
      rw [hd] at h
      cases h
  · refine ⟨fun _ => hlen,fun _ => ?_⟩
    rw [fxyptyIn, sscanf_overrun h0 hlen]
    rfl

theorem remainder_blank (ht : token text = []) : remainder text = [] := by
  rw [token] at ht
  rw [remainder]
  cases hd : text.dropWhile isSpace with
  | nil => rfl
  | cons c rest =>
    have hc : isSpace c = false := by
      have hhead := List.head?_dropWhile_not isSpace text
      rwa [hd] at hhead
    simp [hd, hc] at ht

theorem tokenises_of_sole (h0 : 0 ∉ text) (hlen : (token text).length ≤ 41)
    (ha : ∀ c ∈ remainder text, isSpace c = true) : Tokenises text := by
  have hblank (h : ∀ run, ¬OneToken text run) : token text = [] := by
    by_contra ht
    exact h _ (oneToken_token ht hlen ha)
  refine ⟨?_,fun h => blank_rejected h0 (hblank h),?_,fun h => blank_refused h0 (hblank h)⟩
  · intro run hrun stack rest
    obtain rfl := hrun.token_eq.1
    obtain ⟨d,hd,hbytes⟩ :=
      fxyptyIn_token h0 (List.ne_nil_of_length_pos hrun.length_pos) (by omega) stack rest
    exact ⟨d,_,hd,hbytes⟩
  · intro run hrun lib stack padding rest typmod
    obtain rfl := hrun.token_eq.1
    rw [passOn_eq]
    exact fxyptyInCasted_token lib typmod h0 (List.ne_nil_of_length_pos hrun.length_pos) (by omega)
      stack padding rest

theorem sole_of_tokenises (h0 : 0 ∉ text) (h : Tokenises text) :
    (token text).length ≤ 41 ∧ ∀ c ∈ remainder text, isSpace c = true := by
  by_contra hn
  have hnone (run : List Byte) : ¬OneToken text run := by
    intro hrun
    obtain ⟨rfl,ha⟩ := hrun.token_eq
    exact hn ⟨hrun.length_le,ha⟩
  have hrej := h.rejects hnone zeroed []
  rcases Nat.lt_or_ge (token text).length 42 with hlen | hlen
  · by_cases ht : token text = []
    · have hr : remainder text = [] := remainder_blank ht
      exact hn ⟨by omega,fun c hc => absurd hc (by simp [hr])⟩
    · obtain ⟨d,hd,-⟩ := fxyptyIn_token h0 ht hlen zeroed []
      rw [hd] at hrej
      cases hrej
  · rw [(fxyptyIn_overrun_iff h0 zeroed []).mpr hlen] at hrej
    cases hrej

theorem tokenises_iff (h0 : 0 ∉ text) :
    (Tokenises text ↔ (token text).length ≤ 41 ∧ ∀ c ∈ remainder text, isSpace c = true) ∧
    ∀ stack rest, fxyptyIn stack (text ++ 0 :: rest) = .error .overrun ↔ 42 ≤ (token text).length :=
  ⟨⟨sole_of_tokenises h0,fun h => tokenises_of_sole h0 h.1 h.2⟩,fxyptyIn_overrun_iff h0⟩

theorem tokenises_cases :
    Tokenises [ch ' ', ch '1', ch '.', ch '5', ch ' '] ∧ Tokenises [ch ' '] ∧
      ¬Tokenises [ch '1', ch ' ', ch '2'] :=
  ⟨(tokenises_iff (by decide)).1.mpr (by decide),(tokenises_iff (by decide)).1.mpr (by decide),
    fun h => absurd ((tokenises_iff (by decide)).1.mp h) (by decide)⟩

theorem trailing_input_dropped :
    (fxyptyIn zeroed [ch '1', ch ' ', ch '2', 0]).toOption.map (·.bytes) =
      some (ch '1' :: List.replicate 41 0) ∧
    ¬Tokenises [ch '1', ch ' ', ch '2'] ∧
    fxyptyIn zeroed (List.replicate 42 (ch '1') ++ [0]) = .error .overrun ∧
    ¬Tokenises (List.replicate 42 (ch '1')) :=
  ⟨by decide,fun h => absurd (sole_of_tokenises (by decide) h) (by decide),by decide,
    fun h => absurd (sole_of_tokenises (by decide) h) (by decide)⟩

end Fxypty
