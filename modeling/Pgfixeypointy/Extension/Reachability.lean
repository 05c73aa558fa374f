import Pgfixeypointy.Library.Trace
import Pgfixeypointy.Impl.Exactness
import Pgfixeypointy.Extension.Insertion

namespace Fxypty

open FxyptyImpl LittleEndian

structure Entry where
  datum : Datum
  origin : Option Literal
deriving DecidableEq

inductive Call where
  | input (l : Literal) (modifier : Option Modifier)
  | cast (i : Nat) (m : Modifier)
  | apply (op : Operator) (i j : Nat)
  | smaller (i j : Nat)
  | larger (i j : Nat)

def Call.operands : Call → List Nat
  | .input _ _ => []
  | .cast i _ => [i]
  | .apply _ i j | .smaller i j | .larger i j => [i, j]

namespace Session

variable {V : Type} {s : Session V} {P : V → Prop}

-- what a cast has freed may be read as anything
inductive Reads (s : Session V) (i : Nat) : Nat → V → Prop where
  | live {a v} (h : s.At i a v) : s.Reads i a v
  | freed {a} (v : V) (hp : s.pool[i]? = some a) (hc : s.heap[a]? = some none) : s.Reads i a v

def Each (s : Session V) (P : V → Prop) : Prop := ∀ v, some v ∈ s.heap → P v

theorem Reads.live_of {i a : Nat} {v : V} (h : s.Reads i a v) (hi : ¬s.Freed i) : s.At i a v := by
  cases h with
  | live h => exact h
  | freed hp hc => exact absurd ⟨a,hp,hc⟩ hi

theorem Each.start : (start : Session V).Each P := fun _ h => absurd h List.not_mem_nil

theorem Each.read (h : s.Each P) {i a : Nat} {v : V} (hv : s.Reads i a v) (hi : ¬s.Freed i) : P v :=
  h v (List.mem_of_getElem? (hv.live_of hi).2)

theorem Each.allot (h : s.Each P) {v : V} (hv : P v) : (s.allot v).Each P := by
  intro w hw
  rcases List.mem_append.mp hw with hw | hw
  · exact h w hw
  · obtain rfl := Option.some.inj (List.mem_singleton.mp hw)
    exact hv

theorem Each.free (h : s.Each P) (a : Nat) : (s.free a).Each P := by
  intro v hv
  rcases List.mem_or_eq_of_mem_set hv with hv | hv
  · exact h v hv
  · cases hv

end Session

variable {lib : Libfixeypointy}

-- a call that raises no error; memory is whatever the call finds where it has not written
inductive Step (lib : Libfixeypointy) (s : Session Entry) : Call → Session Entry → Prop where
  | input {l stack d} (hl : l.digits.length ≤ 38) (hin : fxyptyIn stack (l.text ++ [0]) = .ok d) :
      Step lib s (.input l none) (s.allot ⟨d,some l⟩)
  | inputTyped {l m memory d} (hl : l.digits.length ≤ 38)
      (hin : (server lib memory).literal (literalText l) false m = .ok d) :
      Step lib s (.input l (some m)) (s.allot ⟨d,some l⟩)
  | cast {i m memory a e d} (he : s.Reads i a e)
      (hcast : (server lib memory).cast e.datum m = .ok d) :
      Step lib s (.cast i m) ((s.free a).allot ⟨d,none⟩)
  | apply {op i j memory a b e f d} (he : s.Reads i a e) (hf : s.Reads j b f)
      (hop : (server lib memory).apply op e.datum f.datum = .ok d) :
      Step lib s (.apply op i j) (s.allot ⟨d,none⟩)
  | smaller {i j a b e f} (he : s.Reads i a e) (hf : s.Reads j b f) :
      Step lib s (.smaller i j) (s.refer (if compare lib e.datum f.datum < 0 then a else b))
  | larger {i j a b e f} (he : s.Reads i a e) (hf : s.Reads j b f) :
      Step lib s (.larger i j) (s.refer (if compare lib e.datum f.datum ≥ 0 then a else b))

abbrev Run (lib : Libfixeypointy) : List Call → Session Entry → Prop := Trace (Step lib) .start

-- every call meets C, and none names a datum that a cast has freed
abbrev CarefulRun (lib : Libfixeypointy) (C : Call → Prop) : List Call → Session Entry → Prop :=
  Trace (Guarded (fun s call => C call ∧ ∀ i ∈ call.operands, ¬s.Freed i) (Step lib)) .start

def IsDecimal (d : Datum) : Prop :=
  ∃ x padding, d = .ofDecimal x padding ∧ x.scale.toNat ≤ 38

structure Represents (d : Datum) (l : Literal) : Prop where
  value : d.decimal.val = l.value
  prints : ∀ tmp, ∃ out, ∃ l' : Literal,
    fxyptyOut tmp d = .ok out ∧ cString out = l'.text ∧ l'.value = l.value

structure Sound (e : Entry) : Prop where
  decimal : IsDecimal e.datum
  represents : ∀ l, e.origin = some l → Represents e.datum l

def Call.Typed : Call → Prop
  | .input _ none => False
  | _ => True

def Call.Exact : Call → Prop
  | .input _ none => False
  | .input l (some m) =>
      l.fractionDigits ≤ m.fraction ∧
      l.magnitude * 10 ^ (m.fraction - l.fractionDigits) < 2 ^ 63 * 10 ^ 18
  | _ => True

theorem Call.Exact.typed {call : Call} (h : call.Exact) : call.Typed := by
  cases call with
  | input l modifier =>
    cases modifier with
    | none => exact h
    | some modifier => trivial
  | cast i m => trivial
  | apply op i j => trivial
  | smaller i j => trivial
  | larger i j => trivial

theorem fxypty_isDecimal {m : Modifier} {stack : Buffer Byte 42} {padding : Buffer Byte 4}
    {d r : Datum} (h : fxypty lib stack padding d (typmodOf m.digits m.fraction) = .ok r) :
    IsDecimal r := by
  obtain ⟨hscale,-,htm⟩ := m.decoded
  obtain ⟨text,q,-,-,-,rfl⟩ := fxypty_ok htm h
  refine ⟨_,_,rfl,?_⟩
  rw [wrap_scale, hscale]
  exact m.scale_le

theorem literal_isDecimal {memory : Memory} {t : Text} {copied : Bool} {m : Modifier} {r : Datum}
    (h : (server lib memory).literal t copied m = .ok r) : IsDecimal r := by
  rw [literal_run] at h
  obtain ⟨d,-,h⟩ := Expression.bind_eq_ok h
  exact fxypty_isDecimal h

theorem cast_isDecimal {memory : Memory} {d r : Datum} {m : Modifier}
    (h : (server lib memory).cast d m = .ok r) : IsDecimal r := by
  rw [cast_run] at h
  exact fxypty_isDecimal h

theorem operator_isDecimal {op : Raw → Raw → Scale → Option Raw} {padding : Buffer Byte 4}
    {a b r : Datum} (ha : IsDecimal a) (h : operator (operate op) padding a b = .ok r) :
    IsDecimal r := by
  obtain ⟨x,pad,rfl,hs⟩ := ha
  obtain ⟨y,hy,rfl⟩ := operator_ok h
  rw [Datum.decimal_ofDecimal] at hy
  exact ⟨y,padding,rfl,by rwa [(operate_eq_some.mp hy).2]⟩

theorem apply_isDecimal {memory : Memory} {op : Operator} {a b r : Datum} (ha : IsDecimal a)
    (h : (server lib memory).apply op a b = .ok r) : IsDecimal r := by
  cases op with
  | add => exact operator_isDecimal ha h
  | subtract => exact operator_isDecimal ha h
  | multiply => exact operator_isDecimal ha h
  | divide => exact operator_isDecimal ha h

theorem represents_of_raw {d : Datum} {l : Literal}
    (hf : l.fractionDigits ≤ d.decimal.scale.toNat) (hs : d.decimal.scale.toNat ≤ 38)
    (hx : d.decimal.raw = l.scaled d.decimal.scale.toNat)
    (hsmall : d.decimal.raw.natAbs < 2 ^ 63 * 10 ^ 18) : Represents d l := by
  have hv : d.decimal.val = l.value := by
    rw [FxyPtyDecimal.val, hx, Literal.scaled_value hf]
    field_simp
  refine ⟨hv,fun tmp => ?_⟩
  obtain ⟨hlen,hout⟩ := fxyptyOut_exact hsmall hs tmp zeroed
  refine ⟨_,printed (decide (d.decimal.raw < 0)) d.decimal.raw.natAbs d.decimal.scale.toNat,
    hout,?_,?_⟩
  · rw [cString_numeral, printed_text]
  · rw [printed_signed, ← hv, FxyPtyDecimal.val]

theorem inserted_represents (hr : ReadsLiterals lib) {l : Literal} (hl : l.digits.length ≤ 38)
    {m : Modifier} (hf : l.fractionDigits ≤ m.fraction)
    (hsmall : l.magnitude * 10 ^ (m.fraction - l.fractionDigits) < 2 ^ 63 * 10 ^ 18)
    {memory : Memory} {d : Datum}
    (h : (server lib memory).literal (literalText l) false m = .ok d) : Represents d l := by
  have hlen := (text_length l).2
  have habs : (l.scaled m.fraction).natAbs < 2 ^ 63 * 10 ^ 18 := by
    rw [Literal.scaled_exact hf, Int.natAbs_mul, Sign.apply_natAbs]
    exact hsmall
  have hcopy : false = true → l.text.length < 24 := nofun
  obtain ⟨d',hd',hscale,hraw⟩ := insert_literal hr hf ⟨by omega,by omega⟩ (by omega) hcopy memory
  obtain rfl := Except.ok.inj (h.symm.trans hd')
  have hs : d.decimal.scale.toNat = m.fraction := by rw [hscale, m.decoded.2.1]
  refine represents_of_raw ?_ ?_ ?_ ?_
  · rwa [hs]
  · rw [hscale]
    exact m.scale_le
  · rw [hraw, hs]
  · rwa [hraw]

theorem step_isDecimal {s t : Session Entry} {call : Call} (ht : call.Typed)
    (hlive : ∀ i ∈ call.operands, ¬s.Freed i) (hs : s.Each (IsDecimal ·.datum))
    (h : Step lib s call t) : t.Each (IsDecimal ·.datum) := by
  cases h with
  | input hl hin => exact ht.elim
  | inputTyped hl hin => exact hs.allot (literal_isDecimal hin)
  | cast he hcast => exact (hs.free _).allot (cast_isDecimal hcast)
  | apply he hf hop =>
    have hdec := hs.read he (hlive _ List.mem_cons_self)
    exact hs.allot (apply_isDecimal hdec hop)
  | smaller he hf => exact hs
  | larger he hf => exact hs

def Entry.Faithful (e : Entry) : Prop := ∀ l, e.origin = some l → Represents e.datum l

theorem step_faithful (hr : ReadsLiterals lib) {s t : Session Entry} {call : Call}
    (hc : call.Exact) (hs : s.Each Entry.Faithful) (h : Step lib s call t) :
    t.Each Entry.Faithful := by
  cases h with
  | input hl hin => exact hc.elim
  | @inputTyped l m memory d hl hin =>
    refine hs.allot fun l' ho => ?_
    obtain rfl := Option.some.inj ho
    exact inserted_represents hr hl hc.1 hc.2 hin
  | cast he hcast => exact (hs.free _).allot nofun
  | apply he hf hop => exact hs.allot nofun
  | smaller he hf => exact hs
  | larger he hf => exact hs

theorem typed_run_isDecimal {calls : List Call} {s : Session Entry}
    (h : CarefulRun lib Call.Typed calls s) : s.Each (IsDecimal ·.datum) := by
  refine Trace.invariant (I := fun s => s.Each (IsDecimal ·.datum)) Session.Each.start ?_ h
  rintro s call t hs ⟨⟨hcall,hlive⟩,hstep⟩
  exact step_isDecimal hcall hlive hs hstep

theorem exact_run_sound (hr : ReadsLiterals lib) {calls : List Call} {s : Session Entry}
    (h : CarefulRun lib Call.Exact calls s) : s.Each Sound := by
  have htyped : CarefulRun lib Call.Typed calls s :=
    h.imp fun _ _ _ ⟨⟨hcall,hlive⟩,hstep⟩ => ⟨⟨hcall.typed,hlive⟩,hstep⟩
  have hfaithful : s.Each Entry.Faithful := by
    refine Trace.invariant (I := fun s => s.Each Entry.Faithful) Session.Each.start ?_ h
    rintro s call t hs ⟨⟨hcall,-⟩,hstep⟩
    exact step_faithful hr hcall hs hstep
  exact fun e he => ⟨typed_run_isDecimal htyped e he,hfaithful e he⟩

theorem reachable_sound (hr : ReadsLiterals lib) {calls : List Call} {s : Session Entry} :
    (CarefulRun lib Call.Typed calls s → s.Each (IsDecimal ·.datum)) ∧
    (CarefulRun lib Call.Exact calls s → s.Each Sound) :=
  ⟨typed_run_isDecimal,exact_run_sound hr⟩

def fortyNine : Literal := ⟨.none,finDigits [0],some (finDigits [4, 9]),by decide⟩

def tidy : Memory := { untidy with padding := blank }

def castOnce : List Call := [.input fortyNine (some tenDigits), .cast 0 tenDigits]

def afterCast : Session Entry := ⟨[none, some ⟨stored 100 2,none⟩],[0, 1],[]⟩

theorem cast_once : CarefulRun truncating Call.Exact castOnce afterCast := by
  have hin : (server truncating tidy).literal (literalText fortyNine) false tenDigits =
      .ok (stored 49 2) := rfl
  have hcast : (server truncating tidy).cast (stored 49 2) tenDigits = .ok (stored 100 2) := rfl
  have hat : (Session.start.allot (⟨stored 49 2,some fortyNine⟩ : Entry)).At 0 0
      ⟨stored 49 2,some fortyNine⟩ := ⟨rfl,rfl⟩
  have hexact : (Call.input fortyNine (some tenDigits)).Exact := ⟨by decide,by decide⟩
  have hstart : CarefulRun truncating Call.Exact [.input fortyNine (some tenDigits)]
      (Session.start.allot ⟨stored 49 2,some fortyNine⟩) :=
    .snoc .nil ⟨⟨hexact,nofun⟩,.inputTyped (by decide) hin⟩
  refine .snoc hstart ⟨⟨trivial,?_⟩,.cast (.live hat) hcast⟩
  rintro i hi ⟨a,hp,hc⟩
  obtain rfl := List.mem_singleton.mp hi
  obtain rfl := Option.some.inj hp
  cases hc

def castAndAdd : List Call :=
  castOnce ++ [.input tenAndTwelve (some tenDigits)] ++ [.apply .add 2 1]

def afterAdd : Session Entry :=
  ⟨[none, some ⟨stored 100 2,none⟩, some ⟨stored 1012 2,some tenAndTwelve⟩,
    some ⟨stored 1112 2,none⟩],[0, 1, 2, 3],[]⟩

theorem cast_and_add : CarefulRun truncating Call.Exact castAndAdd afterAdd := by
  have hin : (server truncating tidy).literal (literalText tenAndTwelve) false tenDigits =
      .ok (stored 1012 2) := rfl
  have hadd : (server truncating tidy).apply .add (stored 1012 2) (stored 100 2) =
      .ok (stored 1112 2) := rfl
  have hten : (afterCast.allot ⟨stored 1012 2,some tenAndTwelve⟩).At 2 2
      ⟨stored 1012 2,some tenAndTwelve⟩ := ⟨rfl,rfl⟩
  have hone : (afterCast.allot ⟨stored 1012 2,some tenAndTwelve⟩).At 1 1 ⟨stored 100 2,none⟩ :=
    ⟨rfl,rfl⟩
  have hexact : (Call.input tenAndTwelve (some tenDigits)).Exact := ⟨by decide,by decide⟩
  have hinput : CarefulRun truncating Call.Exact (castOnce ++ [.input tenAndTwelve (some tenDigits)])
      (afterCast.allot ⟨stored 1012 2,some tenAndTwelve⟩) :=
    .snoc cast_once ⟨⟨hexact,nofun⟩,.inputTyped (by decide) hin⟩
  refine .snoc hinput ⟨⟨trivial,?_⟩,.apply (.live hten) (.live hone) hadd⟩
  rintro i hi ⟨a,hp,hc⟩
  rcases List.mem_pair.mp hi with rfl | rfl
  · obtain rfl := Option.some.inj hp
    cases hc
  · obtain rfl := Option.some.inj hp
    cases hc

theorem reachable_sound_added :
    CarefulRun truncating Call.Exact castAndAdd afterAdd ∧ afterAdd.Each Sound :=
  ⟨cast_and_add,(reachable_sound truncating_reads).2 cast_and_add⟩

theorem terminated_zero {text rest : List Byte} {i : Nat} (ht : 0 ∉ text) (hr : 0 ∉ rest)
    (h : (text ++ 0 :: rest)[i]? = some 0) : i = text.length := by
  rcases lt_trichotomy i text.length with hi | hi | hi
  · rw [List.getElem?_append_left hi] at h
    exact absurd (List.mem_of_getElem? h) ht
  · exact hi
  · obtain ⟨k,rfl⟩ : ∃ k, i = text.length + (k + 1) := ⟨i - text.length - 1,by omega⟩
    rw [List.getElem?_append_right (by omega), Nat.add_sub_cancel_left,
      List.getElem?_cons_succ] at h
    exact absurd (List.mem_of_getElem? h) hr

theorem untyped_input_breaks (l : Literal) (hl : l.digits.length ≤ 38) :
    ∃ d, Run lib [.input l none] (Session.start.allot ⟨d,some l⟩) ∧ 38 < d.decimal.scale.toNat := by
  have hlen : l.text.length < 42 := by
    have := (text_length l).2
    omega
  obtain ⟨d,hd,hbytes⟩ := fxyptyIn_plain (plain_text l) (text_ne_nil l) hlen
    ⟨List.replicate 42 255,rfl⟩ []
  refine ⟨_,.snoc .nil (.input hl hd),?_⟩
  rw [List.drop_replicate] at hbytes
  have hzero (i : Nat) (h : d.bytes[i]? = some 0) : i = l.text.length := by
    rw [hbytes] at h
    exact terminated_zero (plain_text l).ne_zero (fun hm => by simpa using List.eq_of_mem_replicate hm) h
  have hroom := d.room
  have hword := decode_lt ((d.bytes.drop 16).take 4)
  have hscale : d.decimal.scale.toNat = decode ((d.bytes.drop 16).take 4) := by
    rw [Datum.decimal, BitVec.toNat_ofNat, Nat.mod_eq_of_lt]
    have h4 : ((d.bytes.drop 16).take 4).length = 4 := by
      rw [List.length_take, List.length_drop]
      omega
    rwa [h4] at hword
  have hbyte (i : Nat) (hi : i < 4) (hne : 16 + i ≠ l.text.length) :
      256 ^ i ≤ decode ((d.bytes.drop 16).take 4) := by
    have hget : ((d.bytes.drop 16).take 4)[i]? = some d.bytes[16 + i] := by
      rw [List.getElem?_take_of_lt hi, List.getElem?_drop, List.getElem?_eq_getElem]
    have hpos : 0 < (d.bytes[16 + i]).toNat := by
      refine Nat.pos_of_ne_zero fun h0 => hne (hzero (16 + i) ?_)
      rw [List.getElem?_eq_getElem (by omega)]
      exact congrArg some (BitVec.eq_of_toNat_eq h0)
    exact (Nat.le_mul_of_pos_right _ hpos).trans (le_decode hget)
  simp only [hscale]
  rcases eq_or_ne 19 l.text.length with h19 | h19
  · have := hbyte 2 (by decide) (by omega)
    omega
  · have := hbyte 3 (by decide) h19
    omega

theorem not_sound_of_scale {s : Session Entry} {d : Datum} {origin : Option Literal}
    (hd : some ⟨d,origin⟩ ∈ s.heap) (hscale : 38 < d.decimal.scale.toNat) : ¬s.Each Sound := by
  intro h
  obtain ⟨x,padding,rfl,hs⟩ := (h _ hd).decimal
  rw [Datum.decimal_ofDecimal] at hscale
  omega

theorem freed_operand_breaks {calls : List Call} {s : Session Entry} (h : Run lib calls s) {i : Nat}
    (hi : s.Freed i) {x y r : Raw} (hadd : lib.add x y = some r) :
    ∃ t, Run lib (calls ++ [.apply .add i i]) t ∧ ¬t.Each Sound := by
  obtain ⟨a,hp,hc⟩ := hi
  have hr : FxyptyImpl.fxyptyAdd lib (.wrap x 39) (.wrap y 39) = some (.wrap r 39) := by
    rw [FxyptyImpl.fxyptyAdd, operate, pack128_wrap, pack128_wrap, hadd, wrap_scale, Option.map_some]
  have hop : (server lib tidy).apply .add (stored x 39) (stored y 39) = .ok (stored r 39) := by
    simp only [server, Operator.wrapped, fxyptyAdd, operator, stored_decimal, hr]
    rfl
  have hread (v : Entry) : s.Reads i a v := .freed v hp hc
  have hstep : Step lib s (.apply .add i i) (s.allot ⟨stored r 39,none⟩) :=
    .apply (hread ⟨stored x 39,none⟩) (hread ⟨stored y 39,none⟩) hop
  have hscale : 38 < (stored r 39).decimal.scale.toNat := by
    rw [stored_decimal, wrap_scale]
    decide
  exact ⟨_,.snoc h hstep,
    not_sound_of_scale (List.mem_append_right _ List.mem_cons_self) hscale⟩

theorem freed_operand_misread : ∃ calls s, Run truncating calls s ∧
    (∀ call ∈ calls, call.Exact) ∧ ¬s.Each Sound := by
  have hrun : Run truncating castOnce afterCast := cast_once.imp fun _ _ _ h => h.2
  have hadd : truncating.add 0 0 = some 0 := by decide
  have hfreed : afterCast.Freed 0 := ⟨0,rfl,rfl⟩
  obtain ⟨t,ht,hbroken⟩ := freed_operand_breaks hrun hfreed hadd
  refine ⟨_,t,ht,?_,hbroken⟩
  have hinput : (Call.input fortyNine (some tenDigits)).Exact := ⟨by decide,by decide⟩
  simpa [castOnce, Call.Exact] using hinput

def one : Literal := ⟨.none,finDigits [1],none,by decide⟩

def twentyDigits : Literal :=
  ⟨.none,finDigits [1, 2, 3, 4, 5, 6, 7, 8, 9, 0, 1, 2, 3, 4, 5, 6, 7, 8, 9, 0],none,by decide⟩

def untyped (l : Literal) (h : (l.text ++ List.replicate (42 - l.text.length) 0).length = 42) :
    Datum where
  bytes := l.text ++ List.replicate (42 - l.text.length) 0
  room := by
    rw [h]
    decide

theorem untyped_input_misread :
    Run truncating [.input one none] (Session.start.allot ⟨untyped one (by decide),some one⟩) ∧
    (fxyptyOut zeroed (untyped one (by decide))).toOption.map cString =
      some [ch '4', ch '9', ch '.'] ∧
    Run truncating [.input twentyDigits none]
      (Session.start.allot ⟨untyped twentyDigits (by decide),some twentyDigits⟩) ∧
    38 < (untyped twentyDigits (by decide)).decimal.scale.toNat ∧
    ¬∀ calls s, Run truncating calls s → s.Each Sound := by
  have hin1 : fxyptyIn zeroed (one.text ++ [0]) = .ok (untyped one (by decide)) := rfl
  have hin20 : fxyptyIn zeroed (twentyDigits.text ++ [0]) =
      .ok (untyped twentyDigits (by decide)) := rfl
  have h1 : Run truncating [.input one none]
      (Session.start.allot ⟨untyped one (by decide),some one⟩) :=
    .snoc .nil (.input (by decide) hin1)
  have h20 : Run truncating [.input twentyDigits none]
      (Session.start.allot ⟨untyped twentyDigits (by decide),some twentyDigits⟩) :=
    .snoc .nil (.input (by decide) hin20)
  have hscale : 38 < (untyped twentyDigits (by decide)).decimal.scale.toNat := by decide
  exact ⟨h1,by decide,h20,hscale,
    fun h => not_sound_of_scale List.mem_cons_self hscale (h _ _ h20)⟩

end Fxypty
