import Pgfixeypointy.Library.Expression
import Pgfixeypointy.Extension.Cast

namespace Fxypty

open FxyptyImpl Expression

-- the bytes kept of a value whose INTERNALLENGTH is 24
def StoredCopy (d b : Datum) : Prop := b.bytes.take 24 = d.bytes.take 24

abbrev SameOutcome : Except Fault Datum → Except Fault Datum → Prop :=
  Agree (fun r r' => r.decimal = r'.decimal) (· = ·)

def Survives (lib : Libfixeypointy) (text : List Byte) (typmod : Typmod) : Prop :=
  ∀ stack d b, fxyptyIn stack (text ++ [0]) = .ok d → StoredCopy d b →
    ∀ stack1 stack2 padding1 padding2,
      SameOutcome (fxypty lib stack1 padding1 b typmod) (fxypty lib stack2 padding2 d typmod)

theorem castRun_same (lib : Libfixeypointy) (padding padding' : Buffer Byte 4) (run : List Byte)
    (scale : Scale) : SameOutcome (castRun lib padding run scale) (castRun lib padding' run scale) := by
  unfold castRun
  cases lib.ofString run scale with
  | none => exact .error rfl
  | some r => exact .ok (by rw [Datum.decimal_ofDecimal, Datum.decimal_ofDecimal])

theorem castRun_differ {lib : Libfixeypointy} {run run' : List Byte} {scale : Scale}
    (h : (lib.ofString run scale).isSome ≠ (lib.ofString run' scale).isSome)
    (padding padding' : Buffer Byte 4) :
    ¬SameOutcome (castRun lib padding run scale) (castRun lib padding' run' scale) := by
  unfold castRun
  cases ho : lib.ofString run scale <;> cases ho' : lib.ofString run' scale
  · exact absurd (by rw [ho, ho']) h
  · rintro ⟨⟩
  · rintro ⟨⟩
  · exact absurd (by rw [ho, ho']; rfl) h

theorem castRun_ne_overrun (lib : Libfixeypointy) (padding : Buffer Byte 4) (run : List Byte)
    (scale : Scale) : castRun lib padding run scale ≠ .error .overrun := by
  unfold castRun
  cases lib.ofString run scale with
  | none => exact fun h => absurd (Except.error.inj h) (by decide)
  | some r => exact fun h => nomatch h

theorem same_overrun {x : Except Fault Datum} (h : SameOutcome (.error .overrun) x) :
    x = .error .overrun := by
  cases h with
  | error h => rw [← h]

theorem copy_of_short {d b : Datum} {run rest : List Byte} (hd : d.bytes = run ++ 0 :: rest)
    (hlen : run.length ≤ 23) (h : StoredCopy d b) : ∃ rest', b.bytes = run ++ 0 :: rest' := by
  have ht : d.bytes.take 24 = run ++ 0 :: rest.take (23 - run.length) := by
    rw [hd, List.take_append, List.take_of_length_le (by omega),
      show 24 - run.length = (23 - run.length) + 1 by omega, List.take_succ_cons]
  refine ⟨rest.take (23 - run.length) ++ b.bytes.drop 24,?_⟩
  calc b.bytes = b.bytes.take 24 ++ b.bytes.drop 24 := (List.take_append_drop 24 b.bytes).symm
    _ = run ++ 0 :: (rest.take (23 - run.length) ++ b.bytes.drop 24) := by
      rw [h, ht, List.append_assoc, List.cons_append]

theorem survives_short {lib : Libfixeypointy} {run : List Byte} {typmod : Typmod} (h : Plain run)
    (hne : run ≠ []) (hlen : run.length ≤ 23) (htm : typmod ≠ -1) : Survives lib run typmod := by
  intro stack d b hd hcopy stack1 stack2 padding1 padding2
  obtain ⟨d',hd',hbytes⟩ := fxyptyIn_plain h hne (by omega) stack []
  obtain rfl := Except.ok.inj (hd.symm.trans hd')
  obtain ⟨rest,hrest⟩ := copy_of_short hbytes hlen hcopy
  rw [fxypty_text hbytes h hne (by omega) htm, fxypty_text hrest h hne (by omega) htm]
  exact castRun_same lib _ _ _ _

def recopied (run tail : List Byte) (h : 24 ≤ run.length) : Datum where
  bytes := run.take 24 ++ tail
  room := by
    rw [List.length_append, List.length_take]
    omega

theorem recopied_copy {d : Datum} {run rest : List Byte} (hd : d.bytes = run ++ rest)
    (h : 24 ≤ run.length) (tail : List Byte) : StoredCopy d (recopied run tail h) := by
  have hl : (run.take 24).length = 24 := by
    rw [List.length_take]
    omega
  rw [StoredCopy, hd, recopied, List.take_left' hl, List.take_append_of_le_length h]

theorem not_survives_long {lib : Libfixeypointy} {run : List Byte} {typmod : Typmod}
    (h : Plain run) (hlong : 24 ≤ run.length) (hlen : run.length < 42) (htm : typmod ≠ -1) :
    ¬Survives lib run typmod := by
  have hne : run ≠ [] := List.ne_nil_of_length_pos (by omega)
  intro hs
  obtain ⟨d,hd,hbytes⟩ := fxyptyIn_plain h hne hlen zeroed []
  have hz : 0 ∉ (recopied run [] hlong).bytes := by
    simp only [recopied, List.append_nil]
    exact fun hm => h.ne_zero (List.mem_of_mem_take hm)
  have ho := hs zeroed d _ hd (recopied_copy hbytes hlong []) zeroed zeroed blank blank
  rw [fxypty_unterminated hz htm, fxypty_text hbytes h hne hlen htm] at ho
  exact castRun_ne_overrun lib _ _ _ (same_overrun ho)

def lenient : Libfixeypointy := { truncating with
  ofString := fun input scale =>
    if readLiteral input = none then some 0 else truncating.ofString input scale }

theorem lenient_reads : ReadsLiterals lenient := by
  intro l scale r hf hr
  have hne : readLiteral l.text ≠ none := by simp [readLiteral_text]
  exact (if_neg hne).trans (truncating_reads l scale r hf hr)

theorem readLiteral_letter (run : List Byte) : readLiteral (run ++ [ch 'x']) = none := by
  cases hr : readLiteral (run ++ [ch 'x']) with
  | none => rfl
  | some l =>
    have hm : ch 'x' ∈ l.text := by
      rw [readLiteral_eq_some hr]
      exact List.mem_append_right _ List.mem_cons_self
    rcases Literal.isNumeralChar_text l _ hm with h | h | h | h <;> exact absurd h (by decide)

theorem plain_letter {run : List Byte} (h : Plain run) : Plain (run ++ [ch 'x']) := by
  intro c hc
  rcases List.mem_append.mp hc with hc | hc
  · exact h c hc
  · rw [List.mem_singleton.mp hc]
    decide

theorem long_copy_differs (l : Literal) (hlong : 24 ≤ l.text.length) (hlen : l.text.length < 42)
    {typmod : Typmod} (htm : typmod ≠ -1) : ∃ lib, ReadsLiterals lib ∧ ∃ d b,
      fxyptyIn zeroed (l.text ++ [0]) = .ok d ∧ StoredCopy d b ∧ 0 ∈ b.bytes ∧
      ∀ stack1 stack2 padding1 padding2,
        ¬SameOutcome (fxypty lib stack1 padding1 b typmod) (fxypty lib stack2 padding2 d typmod) := by
  have h := plain_text l
  obtain ⟨d,hd,hbytes⟩ := fxyptyIn_plain h (text_ne_nil l) hlen zeroed []
  have htake : Plain (l.text.take 24 ++ [ch 'x']) :=
    plain_letter fun c hc => h c (List.mem_of_mem_take hc)
  have hb : (recopied l.text [ch 'x', 0] hlong).bytes = (l.text.take 24 ++ [ch 'x']) ++ 0 :: [] := by
    rw [List.append_assoc]
    rfl
  have hshort : (l.text.take 24 ++ [ch 'x']).length < 42 := by
    rw [List.length_append, List.length_take, List.length_singleton]
    omega
  have hdiffer (lib : Libfixeypointy)
      (hne : (lib.ofString (l.text.take 24 ++ [ch 'x']) (decodeTypmod typmod).2).isSome ≠
        (lib.ofString l.text (decodeTypmod typmod).2).isSome) (stack1 stack2 padding1 padding2) :
      ¬SameOutcome (fxypty lib stack1 padding1 (recopied l.text [ch 'x', 0] hlong) typmod)
        (fxypty lib stack2 padding2 d typmod) := by
    rw [fxypty_text hb htake (by simp) hshort htm, fxypty_text hbytes h (text_ne_nil l) hlen htm]
    exact castRun_differ hne _ _
  have hx := readLiteral_letter (l.text.take 24)
  have hl := readLiteral_text l
  refine ⟨if (truncating.ofString l.text (decodeTypmod typmod).2).isSome then truncating else lenient,
    ?_,d,_,hd,recopied_copy hbytes hlong [ch 'x', 0],by simp [recopied],?_⟩
  · split
    · exact truncating_reads
    · exact lenient_reads
  · split
    · rename_i hsome
      exact hdiffer truncating (by rw [hsome]; simp [truncating, hx])
    · rename_i hnone
      exact hdiffer lenient (by simpa [lenient, hx, hl] using hnone)

-- the first literal of test.sql
def testLiteral : Literal where
  sign := .minus
  whole := finDigits [2, 3, 4, 8, 0, 2, 3, 8, 4, 9, 0, 8, 2, 2, 2, 2, 3, 4, 0, 4]
  fraction := some (finDigits [0, 9, 2, 3, 8, 4, 9, 2, 0, 4, 3, 2])
  digits_pos := by decide

theorem stored_text_survives_iff (l : Literal) (hl : l.digits.length ≤ 38) {p s : Nat} (hsp : s ≤ p)
    (hp : p ≤ 38) :
    (∀ lib, Survives lib l.text (typmodOf p s) ↔ l.text.length ≤ 23) ∧
    (24 ≤ l.text.length → ∃ lib, ReadsLiterals lib ∧ ∃ d b,
      fxyptyIn zeroed (l.text ++ [0]) = .ok d ∧ StoredCopy d b ∧ 0 ∈ b.bytes ∧
      ∀ stack1 stack2 padding1 padding2, ¬SameOutcome
        (fxypty lib stack1 padding1 b (typmodOf p s)) (fxypty lib stack2 padding2 d (typmodOf p s))) := by
  have hlen : l.text.length < 42 := by
    have := (text_length l).2
    omega
  have htm : typmodOf p s ≠ -1 := typmodOf_ne (by omega) (by omega)
  refine ⟨fun lib => ⟨fun hs => ?_,fun h => survives_short (plain_text l) (text_ne_nil l) h htm⟩,
    fun hlong => long_copy_differs l hlong hlen htm⟩
  by_contra hlong
  exact not_survives_long (plain_text l) (by omega) hlen htm hs

theorem stored_text_survives_cases :
    Survives truncating tenAndTwelve.text (typmodOf 10 5) ∧
      ¬Survives truncating testLiteral.text (typmodOf 38 12) :=
  ⟨((stored_text_survives_iff tenAndTwelve (by decide) (by decide) (by decide)).1 truncating).mpr
      (by decide),
    fun h => absurd (((stored_text_survives_iff testLiteral (by decide) (by decide)
      (by decide)).1 truncating).mp h) (by decide)⟩

theorem test_literal_cut :
    ∃ d b, fxyptyIn zeroed (testLiteral.text ++ [0]) = .ok d ∧ StoredCopy d b ∧
      (fxypty truncating zeroed blank d (typmodOf 38 12)).toOption =
        some (stored (-23480238490822223404092384920432) 12) ∧
      (fxypty truncating zeroed blank b (typmodOf 38 12)).toOption =
        some (stored (-23480238490822223404090000000000) 12) ∧
      ¬Survives truncating testLiteral.text (typmodOf 38 12) := by
  refine ⟨⟨testLiteral.text ++ List.replicate 8 0,by decide⟩,
    ⟨testLiteral.text.take 24 ++ [0],by decide⟩,rfl,by unfold StoredCopy; decide,by decide,by decide,?_⟩
  exact not_survives_long (plain_text _) (by decide) (by decide) (by decide)

end Fxypty
