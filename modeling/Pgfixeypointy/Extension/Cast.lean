import Pgfixeypointy.Extension.Functions
import Pgfixeypointy.Impl.Assumptions

namespace Fxypty

open FxyptyImpl

theorem plain_text (l : Literal) : Plain l.text := by
  have hd : ∀ c : Byte, isDigit c → c ≠ 0 ∧ isSpace c = false := by
    intro c hc
    refine ⟨?_,?_⟩
    · rintro rfl
      exact absurd hc.1 (by decide)
    · rw [isSpace, decide_eq_false_iff_not]
      rintro (rfl | ⟨-,h13⟩)
      · exact absurd hc.1 (by decide)
      · have h1 := hc.1
        have h2 : c.toNat ≤ 13 := h13
        omega
  intro c hc
  rcases Literal.isNumeralChar_text l c hc with h | rfl | rfl | rfl
  · exact hd c h
  · decide
  · decide
  · decide

theorem text_length (l : Literal) :
    l.digits.length ≤ l.text.length ∧ l.text.length ≤ l.digits.length + 2 := by
  have hs : l.sign.text.length ≤ 1 := by cases l.sign <;> decide
  cases hf : l.fraction with
  | none =>
    simp only [Literal.text, Literal.digits, hf, Literal.pointText, Literal.digitsText,
      Option.getD_none, List.length_append, List.length_map, List.length_nil]
    omega
  | some ds =>
    simp only [Literal.text, Literal.digits, hf, Literal.pointText, Literal.digitsText,
      Option.getD_some, List.length_append, List.length_map, List.length_cons]
    omega

theorem text_ne_nil (l : Literal) : l.text ≠ [] := by
  have hd : 0 < l.digits.length := by
    rw [Literal.digits, List.length_append]
    exact l.digits_pos
  exact List.ne_nil_of_length_pos (hd.trans_le (text_length l).1)

def tenAndTwelve : Literal := ⟨.none,finDigits [1, 0],some (finDigits [1, 2]),by decide⟩

theorem fxyptyIn_token {text : List Byte} (h0 : 0 ∉ text) (hne : token text ≠ [])
    (hlen : (token text).length < 42) (stack : Buffer Byte 42) (rest : List Byte) :
    ∃ d, fxyptyIn stack (text ++ 0 :: rest) = .ok d ∧
      d.bytes = token text ++ 0 :: stack.cells.drop ((token text).length + 1) := by
  rw [fxyptyIn, sscanf_token h0 hne hlen]
  refine ⟨_,rfl,?_⟩
  simp only [Buffer.put_zero_cells, List.append_assoc, List.length_append]
  rfl

theorem fxyptyIn_plain {run : List Byte} (h : Plain run) (hne : run ≠ []) (hlen : run.length < 42)
    (stack : Buffer Byte 42) (rest : List Byte) :
    ∃ d, fxyptyIn stack (run ++ 0 :: rest) = .ok d ∧
      d.bytes = run ++ 0 :: stack.cells.drop (run.length + 1) := by
  have ht : token run = run := token_plain (List.forall_mem_nil _) h hne
  have hd := fxyptyIn_token h.ne_zero (by rwa [ht]) (by rwa [ht]) stack rest
  rwa [ht] at hd

def castRun (lib : Libfixeypointy) (padding : Buffer Byte 4) (run : List Byte) (scale : Scale) :
    Except Fault Datum :=
  match lib.ofString run scale with
  | none => .error runtimeErrors
  | some r => .ok (.ofDecimal (.wrap r scale) padding)

theorem setWidth_signExtend (x : BitVec 32) : (x.signExtend 64).setWidth 32 = x := by
  apply BitVec.eq_of_getLsbD_eq
  intro i hi
  rw [BitVec.getLsbD_setWidth, BitVec.getLsbD_signExtend]
  simp [hi, show i < 64 by omega]

theorem fxyptyInCasted_token (lib : Libfixeypointy) (typmod : Typmod) {text : List Byte}
    (h0 : 0 ∉ text) (hne : token text ≠ []) (hlen : (token text).length < 42)
    (stack : Buffer Byte 42) (padding : Buffer Byte 4) (rest : List Byte) :
    fxyptyInCasted lib stack padding (text ++ 0 :: rest) typmod =
      castRun lib padding (token text) (decodeTypmod typmod).2 := by
  rw [fxyptyInCasted, sscanf_token h0 hne hlen]
  simp only [bind, Except.bind, cString_put (plain_token h0), FxyptyImpl.fxyptyIn,
    setWidth_signExtend, castRun]
  cases lib.ofString (token text) (decodeTypmod typmod).2 <;> rfl

variable {lib : Libfixeypointy} {d : Datum} {typmod : Typmod}

theorem fxypty_eq (htm : typmod ≠ -1) (stack : Buffer Byte 42) (padding : Buffer Byte 4) :
    fxypty lib stack padding d typmod = fxyptyInCasted lib stack padding d.bytes typmod := by
  rw [fxypty, if_pos htm, fxyptyOutCasted]
  cases fxyptyInCasted lib stack padding d.bytes typmod <;> rfl

theorem fxypty_run (space : List Byte) {run rest : List Byte} (hd : d.bytes = space ++ (run ++ 0 :: rest))
    (hs : ∀ c ∈ space, isSpace c = true) (hz : 0 ∉ space) (h : Plain run) (hne : run ≠ [])
    (hlen : run.length < 42) (htm : typmod ≠ -1) (stack : Buffer Byte 42)
    (padding : Buffer Byte 4) :
    fxypty lib stack padding d typmod = castRun lib padding run (decodeTypmod typmod).2 := by
  have ht : token (space ++ run) = run := token_plain hs h hne
  have h0 : 0 ∉ space ++ run := fun hm => (List.mem_append.mp hm).elim hz h.ne_zero
  have hrun := fxyptyInCasted_token lib typmod h0 (by rwa [ht]) (by rwa [ht]) stack padding
    rest
  rwa [ht, List.append_assoc, ← hd, ← fxypty_eq htm] at hrun

theorem fxypty_text {run rest : List Byte} (hd : d.bytes = run ++ 0 :: rest) (h : Plain run)
    (hne : run ≠ []) (hlen : run.length < 42) (htm : typmod ≠ -1) (stack : Buffer Byte 42)
    (padding : Buffer Byte 4) :
    fxypty lib stack padding d typmod = castRun lib padding run (decodeTypmod typmod).2 :=
  fxypty_run [] hd (by simp) (by simp) h hne hlen htm stack padding

theorem fxypty_ok {stack : Buffer Byte 42} {padding : Buffer Byte 4} {r : Datum}
    (htm : typmod ≠ -1) (h : fxypty lib stack padding d typmod = .ok r) :
    ∃ text q, readString d.bytes = .ok text ∧ token text ≠ [] ∧
      lib.ofString (token text) (decodeTypmod typmod).2 = some q ∧
      r = .ofDecimal (.wrap q (decodeTypmod typmod).2) padding := by
  rw [fxypty_eq htm, fxyptyInCasted] at h
  cases hscan : sscanf d.bytes stack with
  | error fault =>
    rw [hscan] at h
    cases h
  | ok scanned =>
    rw [hscan] at h
    cases scanned with
    | none => cases h
    | some inputBuffer =>
      obtain ⟨text,hread,hne,hrun⟩ := sscanf_ok hscan
      simp only [bind, Except.bind, hrun, FxyptyImpl.fxyptyIn, setWidth_signExtend] at h
      refine ⟨text,?_⟩
      cases hq : lib.ofString (token text) (decodeTypmod typmod).2 with
      | none =>
        rw [hq] at h
        cases h
      | some q =>
        rw [hq] at h
        obtain rfl := Except.ok.inj h
        exact ⟨q,hread,hne,rfl,rfl⟩

theorem fxypty_unterminated (hd : 0 ∉ d.bytes) (htm : typmod ≠ -1) (stack : Buffer Byte 42)
    (padding : Buffer Byte 4) : fxypty lib stack padding d typmod = .error .overrun := by
  rw [fxypty_eq htm, fxyptyInCasted, sscanf, readString, if_neg hd]
  rfl

end Fxypty
