import Pgfixeypointy.Extension.Restore
import Pgfixeypointy.Extension.SessionFaults
import Pgfixeypointy.Extension.Decision
import Pgfixeypointy.Extension.Enclosure

namespace Fxypty

open FxyptyImpl Expression Session

def ThrowsOnZero (lib : Libfixeypointy) : Prop := ∀ x y k, y.toInt = 0 → lib.divide x y k = none

def units (s : Scale) (x : ℚ) : ℤ := ⌊x * 10 ^ s.toNat⌋

-- amounts of one column as numbers: an operation rounds once to the digits of the column and
-- refuses what 128 bits do not hold; printing stops the session where the program misprints
def column (s : Scale) (round : ℚ → ℤ) : Engine ℚ where
  literal t _ _ :=
    match readLiteral t.val with
    | none => .error (syntaxError t.val)
    | some l => .ok l.value
  cast x _ := .ok x
  apply op x y :=
    match op.onNumbers x y with
    | .error _ => .error runtimeErrors
    | .ok z =>
        if least ≤ round (z * 10 ^ s.toNat) ∧ round (z * 10 ^ s.toNat) ≤ greatest then
          .ok (round (z * 10 ^ s.toNat) * unit s)
        else .error runtimeErrors
  firstSmaller x y := x < y
  firstLarger x y := x ≥ y
  copy x := x
  print x :=
    if (units s x).natAbs < 2 ^ 63 * 10 ^ 18 then
      .ok (printed (decide (units s x < 0)) (units s x).natAbs s.toNat).text
    else .error .lookup
  test r x y := r.onNumbers x y

def columnSession (s : Scale) (round : ℚ → ℤ) (commands : List Command) :
    Except Fault (Session ℚ) :=
  Lockstep.run (fun _ c t => (column s round).execute t c) 0 commands .start

def Command.InColumn (s : Scale) : Command → Prop
  | .literal t copied m => m.scale = s ∧ ∃ l : Literal, t.val = l.text ∧
      l.fractionDigits ≤ s.toNat ∧ (least ≤ l.scaled s.toNat ∧ l.scaled s.toNat ≤ greatest) ∧
      l.text.length < if copied then 24 else 42
  | .cast _ _ => False
  | _ => True

def Valued (s : Scale) (x : FxyPtyDecimal) (q : ℚ) : Prop := x.scale = s ∧ x.val = q

variable {lib : Libfixeypointy} {round : ℚ → ℤ} {s : Scale} {x y : FxyPtyDecimal} {q w : ℚ}

theorem Valued.scaled (h : Valued s x q) : q * 10 ^ s.toNat = x.raw := by
  obtain ⟨rfl,rfl⟩ := h
  exact div_mul_cancel₀ _ (pow_ten_pos _).ne'

theorem Valued.units (h : Valued s x q) : units s q = x.raw := by
  rw [Fxypty.units, h.scaled, Int.floor_intCast]

theorem Valued.lt_iff (hx : Valued s x q) (hy : Valued s y w) : x.raw < y.raw ↔ q < w := by
  rw [← hx.2, ← hy.2, val_lt_raw (hx.1.trans hy.1.symm)]

theorem Valued.zero_iff (h : Valued s x q) : x.raw = 0 ↔ q = 0 := by
  have hp := (pow_ten_pos s.toNat).ne'
  rw [← Int.cast_eq_zero (α := ℚ), ← h.scaled, mul_eq_zero_iff_right hp]

theorem wrap_valued {r : Raw} {n : ℤ} (hr : r.toInt = n) : Valued s (.wrap r s) (n * unit s) := by
  refine ⟨wrap_scale r s,?_⟩
  rw [val_eq, wrap_scale, FxyPtyDecimal.raw, pack128_wrap, hr]

theorem unrounded_onNumbers (hx : Valued s x q) (hy : Valued s y w) {op : Operator}
    (hne : op = .divide → w ≠ 0) :
    ∃ z, op.onNumbers q w = .ok z ∧ z * 10 ^ s.toNat = op.unrounded s x.raw y.raw := by
  have hp := (pow_ten_pos s.toNat).ne'
  rw [← hx.scaled, ← hy.scaled]
  cases op with
  | add => exact ⟨_,rfl,add_mul _ _ _⟩
  | subtract => exact ⟨_,rfl,sub_mul _ _ _⟩
  | multiply =>
    refine ⟨_,rfl,?_⟩
    rw [Operator.unrounded]
    field_simp
  | divide =>
    have hw := hne rfl
    refine ⟨_,if_neg hw,?_⟩
    rw [Operator.unrounded]
    field_simp

theorem onValues_raw (op : Operator) (x y : FxyPtyDecimal) : op.onValues lib x y =
    (op.raw lib x.scale (pack128 x) (pack128 y)).map (.wrap · x.scale) := by
  cases op <;> rfl

theorem apply_valued (hl : RoundsBy lib round) (hz : ThrowsOnZero lib) (hx : Valued s x q)
    (hy : Valued s y w) (op : Operator) :
    Agree (Valued s) Eq ((onValues lib).apply op x y) ((column s round).apply op q w) := by
  simp only [onValues, column, onValues_raw, hx.1]
  by_cases hzero : op = .divide ∧ w = 0
  · obtain ⟨rfl,hw⟩ := hzero
    have hthrow : Operator.raw lib .divide s (pack128 x) (pack128 y) = none :=
      hz _ _ _ (hy.zero_iff.mpr hw)
    rw [hthrow, Operator.onNumbers, if_pos hw]
    exact .error rfl
  · have hne (hdiv : op = .divide) : w ≠ 0 := fun hw => hzero ⟨hdiv,hw⟩
    obtain ⟨z,hop,hscaled⟩ := unrounded_onNumbers hx hy hne
    have hraw := hl.raw (s := s) op (pack128 x) (pack128 y) fun hdiv =>
      hy.zero_iff.not.mpr (hne hdiv)
    change _ = fit (round (op.unrounded s x.raw y.raw)) at hraw
    rw [← hscaled] at hraw
    rw [hop, hraw]
    by_cases hrange : least ≤ round (z * 10 ^ s.toNat) ∧ round (z * 10 ^ s.toNat) ≤ greatest
    · have hfit : fit (round (z * 10 ^ s.toNat)) = some (.ofInt 128 (round (z * 10 ^ s.toNat))) :=
        if_pos (in_range_iff.mp hrange)
      simp only [hfit, if_pos hrange]
      exact .ok (wrap_valued (ofInt_toInt_fit (in_range_iff.mp hrange)))
    · have hfit : fit (round (z * 10 ^ s.toNat)) = none := if_neg (in_range_iff.not.mp hrange)
      simp only [hfit, if_neg hrange]
      exact .error rfl

theorem literal_valued (round : ℚ → ℤ) (hr : ReadsLiterals lib) {t : Text} {copied : Bool} {m : Modifier}
    (h : (Command.literal t copied m).InColumn s) :
    Agree (Valued s) Eq ((onValues lib).literal t copied m) ((column s round).literal t copied m) := by
  obtain ⟨rfl,l,ht,hf,hrange,hlen⟩ := h
  have hraw := ofInt_toInt_fit (in_range_iff.mp hrange)
  have h42 := (lengths_of_copied hlen).1
  simp only [onValues, column, ht, readText_literal hr hf hraw h42, readLiteral_text]
  refine .ok ⟨wrap_scale _ _,?_⟩
  have hp := (pow_ten_pos m.scale.toNat).ne'
  rw [val_eq, wrap_scale, FxyPtyDecimal.raw, pack128_wrap, hraw, Literal.scaled_value hf, unit,
    mul_inv_cancel_right₀ hp]

theorem compare_valued (hc : SignCompare lib) (hx : Valued s x q) (hy : Valued s y w) :
    (fxyptyCompare lib x y < 0 ↔ q < w) ∧ (0 < fxyptyCompare lib x y ↔ w < q) := by
  have hsign : fxyptyCompare lib x y = Int.sign (x.raw - y.raw) := by
    rw [fxyptyCompare, hc]
    rfl
  rw [hsign, Int.sign_neg_iff, Int.sign_pos_iff, sub_neg, sub_pos]
  exact ⟨hx.lt_iff hy,hy.lt_iff hx⟩

theorem uncut_of_column {c : Command} (h : c.InColumn s) : c.Uncut := by
  cases c with
  | literal t copied m =>
    obtain ⟨-,l,ht,-,-,hlen⟩ := h
    exact literal_uncut ht (lengths_of_copied hlen).2
  | _ => trivial

def printUnits (s : Scale) (q : ℚ) : Except Fault (List Byte) :=
  (FxyptyImpl.fxyptyOut fourDigits zeroed zeroed (.wrap (.ofInt 128 (units s q)) s)).map cString

theorem Valued.wrap (h : Valued s x q) : .wrap (.ofInt 128 (Fxypty.units s q)) s = x := by
  rw [h.units, FxyPtyDecimal.raw, BitVec.ofInt_toInt, ← h.1, wrap_pack128]

theorem printUnits_exact (hs : s.toNat ≤ 38) {q : ℚ} {t : List Byte}
    (h : (column s round).print q = .ok t) : printUnits s q = .ok t := by
  simp only [column] at h
  split at h
  · rename_i hsmall
    have hraw : (FxyPtyDecimal.wrap (.ofInt 128 (units s q)) s).raw = units s q :=
      wrap_raw (in_range_iff.mpr (by omega)) s
    obtain ⟨hlen,hout⟩ := fxyptyOut_exact (by rwa [hraw]) hs zeroed zeroed
    obtain rfl := Except.ok.inj h
    rw [printUnits, hout]
    change Except.ok (cString _) = _
    rw [cString_numeral, hraw, printed_text]
    rfl
  · cases h

theorem column_simulates (hl : RoundsBy lib round) (hz : ThrowsOnZero lib) (hr : ReadsLiterals lib)
    (hc : SignCompare lib) (s : Scale) : Simulates (Valued s) (Command.InColumn s) (onValues lib)
      { column s round with print := printUnits s } where
  literal _ _ _ h := literal_valued round hr h
  cast _ _ _ _ h _ := h.elim
  apply op _ _ _ _ hx hy := apply_valued hl hz hx hy op
  firstSmaller _ _ _ _ hx hy := decide_eq_decide.mpr (compare_valued hc hx hy).1
  firstLarger _ _ _ _ hx hy := decide_eq_decide.mpr (by
    rw [ge_iff_le, ge_iff_le, ← not_lt, ← not_lt, (compare_valued hc hx hy).1])
  copy _ _ h := h
  print x q h := by
    have hprint : printUnits s q = (FxyptyImpl.fxyptyOut fourDigits zeroed zeroed x).map cString := by
      rw [printUnits, h.wrap]
    exact hprint.symm
  test r _ _ _ _ hx hy :=
    ofSign_onNumbers (compare_valued hc hx hy).1 (compare_valued hc hx hy).2 r

theorem print_settled (hs : s.toNat ≤ 38) {t t' : Session ℚ} {q : ℚ}
    (h : t.settle (fun text => t.tell (.text text)) ((column s round).print q) = .ok t') :
    t.settle (fun text => t.tell (.text text)) (printUnits s q) = .ok t' := by
  have hstop : ∀ fault, (column s round).print q = .error fault → fault = .lookup := by
    intro fault hfault
    simp only [column] at hfault
    split at hfault
    · cases hfault
    · exact (Except.error.inj hfault).symm
  cases hprint : (column s round).print q with
  | ok text =>
    rw [hprint] at h
    rw [printUnits_exact hs hprint]
    exact h
  | error fault =>
    rw [hprint, hstop fault hprint] at h
    cases h

theorem execute_printUnits (hs : s.toNat ≤ 38) {c : Command} {t t' : Session ℚ}
    (h : (column s round).execute t c = .ok t') :
    ({ column s round with print := printUnits s } : Engine ℚ).execute t c = .ok t' := by
  cases c with
  | print i =>
    exact one_imp (fun _ _ => print_settled hs) h
  | _ => exact h

theorem column_follows (hl : RoundsBy lib round) (hz : ThrowsOnZero lib) (hr : ReadsLiterals lib)
    (hc : SignCompare lib) (m : Modifier) (memory : Nat → Memory) {commands : List Command}
    (hcol : ∀ c ∈ commands, c.InColumn m.scale) {t : Session ℚ}
    (h : columnSession m.scale round commands = .ok t) :
    ∃ u, serve lib memory commands = .ok u ∧
      u.Mirrors (fun d q => d.decimal.scale = m.scale ∧ d.decimal.val = q) t := by
  have hprinting := Lockstep.run_imp (fun _ _ _ _ => execute_printUnits m.scale_le) h
  have hnumbers := Lockstep.run_agree (fun _ _ _ _ hc' hs =>
    (column_simulates hl hz hr hc m.scale).execute hc' hs) hcol 0 Session.Mirrors.start
  obtain ⟨v,hv,hvt⟩ := hnumbers.ok_of hprinting
  obtain ⟨u,hu,huv⟩ := (serve_follows lib memory fun c hm => uncut_of_column (hcol c hm)).ok_of hv
  refine ⟨u,hu,huv.trans ?_ hvt⟩
  intro d x q hd hx
  rw [hd.decimal]
  exact hx

def Session.Live {V : Type} (s : Session V) : Prop := none ∉ s.heap

theorem Live.settle {V A : Type} {s t : Session V} (h : s.Live) {next : A → Session V}
    (hnext : ∀ a, (next a).Live) {y : Except Fault A} (ht : s.settle next y = .ok t) : t.Live := by
  rcases settle_ok ht with ⟨a,rfl⟩ | ⟨a,rfl⟩
  · exact hnext a
  · exact h

theorem Live.allot {V : Type} {s : Session V} (h : s.Live) (v : V) : (s.allot v).Live := by
  intro hm
  rcases List.mem_append.mp hm with hm | hm
  · exact h hm
  · simp at hm

theorem execute_live {V : Type} {e : Engine V} {s' : Scale} {c : Command} (hc : c.InColumn s')
    {s t : Session V} (h : s.Live) (ht : e.execute s c = .ok t) : t.Live := by
  cases c with
  | literal text copied m => exact Live.settle h (Live.allot h) ht
  | cast i m => exact hc.elim
  | apply op i j =>
    rcases two_ok ht with rfl | ⟨a,v,b,w,-,-,ht⟩
    · exact h
    · exact Live.settle h (Live.allot h) ht
  | smaller i j | larger i j | test r i j =>
    rcases two_ok ht with rfl | ⟨a,v,b,w,-,-,ht⟩
    · exact h
    · obtain rfl := Except.ok.inj ht
      exact h
  | copy i =>
    rcases one_ok ht with rfl | ⟨a,v,-,ht⟩
    · exact h
    · obtain rfl := Except.ok.inj ht
      exact Live.allot h _
  | print i =>
    rcases one_ok ht with rfl | ⟨a,v,-,ht⟩
    · exact h
    · have htell (text : List Byte) : (s.tell (.text text)).Live := h
      exact Live.settle h htell ht

theorem column_tame (s : Scale) (round : ℚ → ℤ) : Tame (column s round) (Command.InColumn s) where
  literal t copied m fault _ h := by
    simp only [column] at h
    split at h
    · exact ⟨_,_,(Except.error.inj h).symm⟩
    · cases h
  cast q m fault h := nomatch h
  apply op q w fault h := by
    simp only [column] at h
    split at h
    · exact ⟨_,_,(Except.error.inj h).symm⟩
    · split at h
      · cases h
      · exact ⟨_,_,(Except.error.inj h).symm⟩

theorem column_stops {commands : List Command} (hcol : ∀ c ∈ commands, c.InColumn s) {fault : Fault}
    (h : columnSession s round commands = .error fault) :
    ∃ before i after t a q, commands = before ++ .print i :: after ∧
      columnSession s round before = .ok t ∧ t.At i a q ∧ 2 ^ 63 * 10 ^ 18 ≤ (units s q).natAbs := by
  obtain ⟨before,c,after,t,rfl,hb,hstep⟩ := Lockstep.run_error h
  have hbefore : ∀ d ∈ before, d.InColumn s := fun d hd => hcol d (List.mem_append_left _ hd)
  have hwell : t.WellFormed := Lockstep.run_invariant
    (fun _ _ _ _ _ hs => execute_wellFormed hs) hbefore WellFormed.start hb
  have hstart : (Session.start : Session ℚ).Live := List.not_mem_nil
  have hlive : t.Live := Lockstep.run_invariant
    (fun _ _ _ _ hc hs => execute_live hc hs) hbefore hstart hb
  rcases (column_tame s round).execute_error hwell
    (hcol c (List.mem_append_right _ List.mem_cons_self)) hstep with ⟨i,-,hf⟩ | ⟨i,a,q,rfl,hat,hp⟩
  · obtain ⟨address,-,hfreed⟩ := hf
    exact absurd (List.mem_of_getElem? hfreed) hlive
  · refine ⟨before,i,after,t,a,q,rfl,hb,hat,?_⟩
    simp only [column] at hp
    split at hp
    · cases hp
    · rename_i hbig
      exact not_lt.mp hbig

theorem session_denotes (hl : RoundsBy lib round) (hz : ThrowsOnZero lib) (hr : ReadsLiterals lib)
    (hc : SignCompare lib) (m : Modifier) (memory : Nat → Memory) {commands : List Command}
    (hcol : ∀ c ∈ commands, c.InColumn m.scale) :
    ∃ before after t u, commands = before ++ after ∧ columnSession m.scale round before = .ok t ∧
      serve lib memory before = .ok u ∧
      u.Mirrors (fun d q => d.decimal.scale = m.scale ∧ d.decimal.val = q) t ∧
      (after = [] ∨ ∃ i rest a q, after = .print i :: rest ∧ t.At i a q ∧
        2 ^ 63 * 10 ^ 18 ≤ (units m.scale q).natAbs) := by
  cases h : columnSession m.scale round commands with
  | ok t =>
    obtain ⟨u,hu,hut⟩ := column_follows hl hz hr hc m memory hcol h
    exact ⟨commands,[],t,u,(List.append_nil _).symm,h,hu,hut,.inl rfl⟩
  | error fault =>
    obtain ⟨before,i,rest,t,a,q,rfl,hb,hat,hbig⟩ := column_stops hcol h
    obtain ⟨u,hu,hut⟩ := column_follows hl hz hr hc m memory
      (fun d hd => hcol d (List.mem_append_left _ hd)) hb
    exact ⟨before,.print i :: rest,t,u,rfl,hb,hu,hut,.inr ⟨i,rest,a,q,rfl,hat,hbig⟩⟩

theorem truncating_throws : ThrowsOnZero truncating := fun _ _ _ h => if_pos h

def three : Literal := ⟨.none,finDigits [3],none,by decide⟩

def thirds : List Command :=
  [.literal tenTwelve true tenDigits, .literal ⟨three.text,by decide⟩ true tenDigits,
    .apply .divide 0 1, .apply .multiply 2 1, .test .lt 3 0, .print 3,
    .apply .subtract 0 0, .apply .divide 0 4, .larger 0 3, .print 5]

theorem thirds_inColumn : ∀ c ∈ thirds, c.InColumn 2 := by
  have hten : (Command.literal tenTwelve true tenDigits).InColumn 2 :=
    ⟨rfl,tenAndTwelve,rfl,by decide,by decide,by decide⟩
  have hthree : (Command.literal ⟨three.text,by decide⟩ true tenDigits).InColumn 2 :=
    ⟨rfl,three,rfl,by decide,by decide,by decide⟩
  simp only [thirds, List.mem_cons, List.not_mem_nil, or_false]
  rintro _ (rfl | rfl | rfl | rfl | rfl | rfl | rfl | rfl | rfl | rfl)
  · exact hten
  · exact hthree
  all_goals trivial

theorem session_denotes_thirds :
    (columnSession 2 Rounding.toward thirds).toOption.map Session.answers =
      some [.truth true, .text [ch '1', ch '0', ch '.', ch '1', ch '1'],
        .error .internalError "The operation returns runtime errors.",
        .text [ch '1', ch '0', ch '.', ch '1', ch '2']] ∧
    ∃ before after t u, thirds = before ++ after ∧
      columnSession 2 Rounding.toward before = .ok t ∧
      serve truncating (fun _ => untidy) before = .ok u ∧
      u.Mirrors (fun d q => d.decimal.scale = 2 ∧ d.decimal.val = q) t ∧
      (after = [] ∨ ∃ i rest a q, after = .print i :: rest ∧ t.At i a q ∧
        2 ^ 63 * 10 ^ 18 ≤ (units 2 q).natAbs) :=
  ⟨by decide +kernel,session_denotes truncating_rounds truncating_throws truncating_reads
    truncating_compare tenDigits (fun _ => untidy) thirds_inColumn⟩

end Fxypty
