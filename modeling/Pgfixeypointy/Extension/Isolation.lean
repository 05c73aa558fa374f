import Mathlib.Data.List.Forall2
import Pgfixeypointy.Impl.StackFree
import Pgfixeypointy.Extension.Session
import Pgfixeypointy.Extension.Storage
import Pgfixeypointy.Extension.Tokenisation

namespace Fxypty

open FxyptyImpl LittleEndian Expression

variable {V W : Type}

theorem forall₂_getElem? {H : V → W → Prop} {vs : List V} {ws : List W} (h : List.Forall₂ H vs ws)
    (i : Nat) : Option.Rel H vs[i]? ws[i]? := by
  induction h generalizing i with
  | nil => exact .none
  | cons h _ ih =>
    cases i with
    | zero => exact .some h
    | succ i => exact ih i

structure Session.Mirrors (H : V → W → Prop) (s : Session V) (t : Session W) : Prop where
  heap : List.Forall₂ (Option.Rel H) s.heap t.heap
  pool : s.pool = t.pool
  answers : s.answers = t.answers

abbrev Session.Follows (H : V → W → Prop) :
    Except Fault (Session V) → Except Fault (Session W) → Prop := Agree (Session.Mirrors H) Eq

namespace Session

variable {H : V → W → Prop} {s : Session V} {t : Session W}

theorem Mirrors.start : Mirrors H start start := ⟨.nil,rfl,rfl⟩

theorem Mirrors.tell (h : Mirrors H s t) (a : Answer) : Mirrors H (s.tell a) (t.tell a) :=
  ⟨h.heap,h.pool,congrArg (· ++ [a]) h.answers⟩

theorem Mirrors.refer (h : Mirrors H s t) (address : Nat) :
    Mirrors H (s.refer address) (t.refer address) :=
  ⟨h.heap,congrArg (· ++ [address]) h.pool,h.answers⟩

theorem Mirrors.allot (h : Mirrors H s t) {v : V} {w : W} (hv : H v w) :
    Mirrors H (s.allot v) (t.allot w) := by
  refine ⟨List.rel_append h.heap (.cons (.some hv) .nil),?_,h.answers⟩
  change s.pool ++ [s.heap.length] = t.pool ++ [t.heap.length]
  rw [h.pool, h.heap.length_eq]

theorem forall₂_set {K : V → W → Prop} {vs : List V} {ws : List W} (h : List.Forall₂ K vs ws)
    (i : Nat) {v : V} {w : W} (hv : K v w) : List.Forall₂ K (vs.set i v) (ws.set i w) := by
  induction h generalizing i with
  | nil => exact .nil
  | cons h ht ih =>
    cases i with
    | zero => exact .cons hv ht
    | succ i => exact .cons h (ih i)

theorem Mirrors.free (h : Mirrors H s t) (address : Nat) :
    Mirrors H (s.free address) (t.free address) :=
  ⟨forall₂_set h.heap address .none,h.pool,h.answers⟩

theorem Mirrors.settle {A B : Type} {K : A → B → Prop} (h : Mirrors H s t) {next : A → Session V}
    {next' : B → Session W} (hnext : ∀ a b, K a b → Mirrors H (next a) (next' b))
    {x : Except Fault A} {y : Except Fault B} (hxy : Agree K Eq x y) :
    Follows H (s.settle next x) (t.settle next' y) := by
  cases hxy with
  | ok hab => exact .ok (hnext _ _ hab)
  | @error fault _ he =>
    subst he
    cases fault with
    | overrun => exact .error rfl
    | lookup => exact .error rfl
    | ereport code message => exact .ok (h.tell _)

theorem Mirrors.trans {X : Type} {K : W → X → Prop} {L : V → X → Prop} {u : Session X}
    (hL : ∀ v w x, H v w → K w x → L v x) (h : Mirrors H s t) (h' : Mirrors K t u) :
    Mirrors L s u := by
  have hcells {vs : List (Option V)} {ws : List (Option W)} {xs : List (Option X)}
      (hv : List.Forall₂ (Option.Rel H) vs ws) (hw : List.Forall₂ (Option.Rel K) ws xs) :
      List.Forall₂ (Option.Rel L) vs xs := by
    induction hv generalizing xs with
    | nil =>
      cases hw
      exact .nil
    | cons hv _ ih =>
      cases hw with
      | cons hw hws =>
        refine .cons ?_ (ih hws)
        cases hv with
        | none =>
          cases hw
          exact .none
        | some hv =>
          cases hw with
          | some hw => exact .some (hL _ _ _ hv hw)
  exact ⟨hcells h.heap h'.heap,h.pool.trans h'.pool,h.answers.trans h'.answers⟩

theorem Mirrors.one (h : Mirrors H s t) (i : Nat) {f : Nat → V → Except Fault (Session V)}
    {g : Nat → W → Except Fault (Session W)} (hfg : ∀ a v w, H v w → Follows H (f a v) (g a w)) :
    Follows H (s.one i f) (t.one i g) := by
  rw [Session.one, Session.one, ← h.pool]
  cases s.pool[i]? with
  | none => exact .ok h
  | some address =>
    have ha := forall₂_getElem? h.heap address
    revert ha
    dsimp only
    generalize s.heap[address]? = cell
    generalize t.heap[address]? = cell'
    rintro (⟨⟨hv⟩⟩ | _)
    · exact hfg _ _ _ hv
    · exact .error rfl
    · exact .error rfl

theorem Mirrors.two (h : Mirrors H s t) (i j : Nat)
    {f : Nat → V → Nat → V → Except Fault (Session V)}
    {g : Nat → W → Nat → W → Except Fault (Session W)}
    (hfg : ∀ a v b v' w w', H v w → H v' w' → Follows H (f a v b v') (g a w b w')) :
    Follows H (s.two i j f) (t.two i j g) :=
  h.one i fun a v w hv => h.one j fun b v' w' hv' => hfg a v b v' w w' hv hv'

end Session

structure Simulates (H : V → W → Prop) (P : Command → Prop) (e : Engine V) (e' : Engine W) :
    Prop where
  literal : ∀ t copied m, P (.literal t copied m) →
    Agree H Eq (e.literal t copied m) (e'.literal t copied m)
  cast : ∀ v w i m, P (.cast i m) → H v w → Agree H Eq (e.cast v m) (e'.cast w m)
  apply : ∀ op v v' w w', H v w → H v' w' → Agree H Eq (e.apply op v v') (e'.apply op w w')
  firstSmaller : ∀ v v' w w', H v w → H v' w' → e.firstSmaller v v' = e'.firstSmaller w w'
  firstLarger : ∀ v v' w w', H v w → H v' w' → e.firstLarger v v' = e'.firstLarger w w'
  copy : ∀ v w, H v w → H (e.copy v) (e'.copy w)
  print : ∀ v w, H v w → e.print v = e'.print w
  test : ∀ r v v' w w', H v w → H v' w' → e.test r v v' = e'.test r w w'

theorem Simulates.execute {H : V → W → Prop} {P : Command → Prop} {e : Engine V} {e' : Engine W}
    (he : Simulates H P e e') {c : Command} (hc : P c) {s : Session V} {t : Session W}
    (h : s.Mirrors H t) : Session.Follows H (e.execute s c) (e'.execute t c) := by
  cases c with
  | literal t copied m => exact h.settle (fun _ _ hv => h.allot hv) (he.literal t copied m hc)
  | cast i m =>
    exact h.one i fun a v w hv =>
      h.settle (fun _ _ hr => (h.free a).allot hr) (he.cast v w i m hc hv)
  | apply op i j =>
    exact h.two i j fun _ v _ v' w w' hv hv' =>
      h.settle (fun _ _ hr => h.allot hr) (he.apply op v v' w w' hv hv')
  | smaller i j =>
    refine h.two i j fun a v b v' w w' hv hv' => .ok ?_
    rw [he.firstSmaller v v' w w' hv hv']
    exact h.refer _
  | larger i j =>
    refine h.two i j fun a v b v' w w' hv hv' => .ok ?_
    rw [he.firstLarger v v' w w' hv hv']
    exact h.refer _
  | copy i => exact h.one i fun _ v w hv => .ok (h.allot (he.copy v w hv))
  | print i =>
    refine h.one i fun _ v w hv => ?_
    rw [he.print v w hv]
    exact h.settle (fun t _ ht => by rw [ht]; exact h.tell _) (Agree.refl _)
  | test r i j =>
    refine h.two i j fun _ v _ v' w w' hv hv' => .ok ?_
    rw [he.test r v v' w w' hv hv']
    exact h.tell _

section

variable {lib : Libfixeypointy}

structure Holds (d : Datum) (x : FxyPtyDecimal) : Prop where
  bytes : ∃ rest, d.bytes = valueBytes x ++ rest
  scale : x.scale.toNat ≤ 38

theorem valueBytes_length (x : FxyPtyDecimal) : (valueBytes x).length = 20 := by
  rw [valueBytes, List.length_append, encode_length, encode_length]

theorem ofDecimal_holds {x : FxyPtyDecimal} (padding : Buffer Byte 4) (hs : x.scale.toNat ≤ 38) :
    Holds (.ofDecimal x padding) x :=
  ⟨⟨padding.cells,by rw [Datum.ofDecimal_bytes, valueBytes, List.append_assoc]⟩,hs⟩

theorem Holds.decimal {d : Datum} {x : FxyPtyDecimal} (h : Holds d x) : d.decimal = x := by
  obtain ⟨rest,hd⟩ := h.bytes
  have hroom := d.room
  have hv := valueBytes_length x
  rw [hd, List.length_append] at hroom
  have h4 : (rest.take 4).length = 4 := by
    rw [List.length_take]
    omega
  rw [← Datum.decimal_ofDecimal x ⟨rest.take 4,h4⟩]
  apply Datum.decimal_congr
  rw [Datum.ofDecimal_bytes, ← List.append_assoc, hd]
  change (valueBytes x ++ rest).take 24 = (valueBytes x ++ rest.take 4).take 24
  rw [List.take_append, List.take_append, hv, List.take_take]
  rfl

theorem Holds.reload {d : Datum} {x : FxyPtyDecimal} (h : Holds d x) (after : List Byte) :
    Holds (reload after d) x := by
  obtain ⟨rest,hd⟩ := h.bytes
  refine ⟨⟨rest.take 4 ++ after,?_⟩,h.scale⟩
  have hv := valueBytes_length x
  change d.bytes.take 24 ++ after = _
  rw [hd, List.take_append, List.take_of_length_le (by omega), hv, List.append_assoc]

theorem takeWhile_split {bytes : List Byte} (h : 0 ∈ bytes) :
    ∃ rest, bytes = bytes.takeWhile (· ≠ 0) ++ 0 :: rest := by
  induction bytes with
  | nil => exact absurd h List.not_mem_nil
  | cons c bytes ih =>
    by_cases hc : c = 0
    · exact ⟨bytes,by simp [hc]⟩
    · obtain ⟨rest,hrest⟩ := ih (List.mem_of_ne_of_mem (Ne.symm hc) h)
      refine ⟨rest,?_⟩
      have hp : decide (c ≠ 0) = true := decide_eq_true hc
      rw [List.takeWhile_cons, if_pos hp, List.cons_append, ← hrest]

-- a scale of at most 38 leaves three NUL bytes behind the value
theorem Holds.spelled {d : Datum} {x : FxyPtyDecimal} (h : Holds d x) :
    0 ∉ spelling x ∧ ∃ rest, d.bytes = spelling x ++ 0 :: rest := by
  have hs := h.scale
  have hz : (0 : Byte) ∈ valueBytes x := by
    rw [valueBytes, encode_scale (by omega)]
    exact List.mem_append_right _ (List.mem_cons_of_mem _ List.mem_cons_self)
  obtain ⟨rest,hd⟩ := h.bytes
  obtain ⟨after,ha⟩ := takeWhile_split hz
  refine ⟨fun hm => by simpa using List.mem_takeWhile_imp hm,after ++ rest,?_⟩
  rw [hd]
  nth_rewrite 1 [ha]
  rw [List.append_assoc, List.cons_append]
  rfl

theorem fxypty_readText {typmod : Typmod} {d : Datum} {text rest : List Byte} (h0 : 0 ∉ text)
    (hd : d.bytes = text ++ 0 :: rest) (htm : typmod ≠ -1) (stack : Buffer Byte 42)
    (padding : Buffer Byte 4) : fxypty lib stack padding d typmod =
      (readText lib text (decodeTypmod typmod).2).map (.ofDecimal · padding) := by
  rw [fxypty_eq htm, hd, readText]
  by_cases ht : token text = []
  · rw [if_pos ht]
    exact blank_refused h0 ht lib stack padding rest typmod
  · rw [if_neg ht]
    by_cases hlen : 42 ≤ (token text).length
    · rw [if_pos hlen, fxyptyInCasted, sscanf_overrun h0 hlen]
      rfl
    · rw [if_neg hlen, fxyptyInCasted_token lib typmod h0 ht (by omega), castRun]
      cases lib.ofString (token text) (decodeTypmod typmod).2 <;> rfl

theorem Modifier.accepted (m : Modifier) :
    fxyptyTypmodIn [BitVec.ofNat 32 m.digits, BitVec.ofNat 32 m.fraction] =
      .ok (typmodOf m.digits m.fraction) :=
  fxyptyTypmodIn_typmodOf m.fraction_le m.digits_le

theorem Modifier.decoded (m : Modifier) :
    (decodeTypmod (typmodOf m.digits m.fraction)).2 = m.scale ∧ m.scale.toNat = m.fraction ∧
      typmodOf m.digits m.fraction ≠ -1 := by
  have h1 := m.fraction_le
  have h2 := m.digits_le
  refine ⟨typmodOf_scale (by omega) (by omega),?_,typmodOf_ne (by omega) (by omega)⟩
  rw [Modifier.scale, BitVec.toNat_ofNat]
  omega

theorem Modifier.scale_le (m : Modifier) : m.scale.toNat ≤ 38 := by
  rw [m.decoded.2.1]
  exact m.fraction_le.trans m.digits_le

theorem readText_holds (text : List Byte) (m : Modifier) (padding : Buffer Byte 4) :
    Agree Holds Eq ((readText lib text m.scale).map (.ofDecimal · padding))
      (readText lib text m.scale) := by
  have hs := m.scale_le
  unfold readText
  split
  · exact .error rfl
  · split
    · exact .error rfl
    · cases lib.ofString (token text) m.scale with
      | none => exact .error rfl
      | some r => exact .ok (ofDecimal_holds padding (by rwa [wrap_scale]))

theorem readText_token {text : List Byte} (hne : token text ≠ []) (scale : Scale) :
    readText lib (token text) scale = readText lib text scale := by
  have ht : token (token text) = token text := by
    have h := (token_append (List.forall_mem_nil _) (token_ok text) hne (List.forall_mem_nil _)).1
    rwa [List.append_nil] at h
  rw [readText, readText, ht, if_neg hne, if_neg hne]

def Command.Uncut : Command → Prop
  | .literal t true _ => (token t.val).length < 24
  | _ => True

instance : DecidablePred Command.Uncut
  | .literal t true _ => inferInstanceAs (Decidable ((token t.val).length < 24))
  | .literal _ false _ | .cast _ _ | .apply _ _ _ | .smaller _ _ | .larger _ _ | .copy _ | .print _
  | .test _ _ _ => isTrue trivial

theorem literal_run (m : Memory) (t : Text) (copied : Bool) (md : Modifier) :
    (server lib m).literal t copied md = (do
      let d ← fxyptyIn m.stack (t.val ++ [0])
      fxypty lib m.castStack m.padding (if copied then reload m.after d else d)
        (typmodOf md.digits md.fraction)) := by
  simp only [server, md.accepted]
  rfl

theorem literal_holds (m : Memory) (t : Text) (copied : Bool) (md : Modifier)
    (h : (Command.literal t copied md).Uncut) :
    Agree Holds Eq ((server lib m).literal t copied md) ((onValues lib).literal t copied md) := by
  obtain ⟨hscale,-,htm⟩ := md.decoded
  rw [literal_run]
  change Agree Holds Eq _ (readText lib t.val md.scale)
  by_cases ht : token t.val = []
  · rw [blank_rejected t.property ht, readText, if_pos ht]
    exact .error rfl
  · by_cases hlen : 42 ≤ (token t.val).length
    · rw [(fxyptyIn_overrun_iff t.property m.stack []).mpr hlen, readText, if_neg ht, if_pos hlen]
      exact .error rfl
    · obtain ⟨d,hd,hbytes⟩ := fxyptyIn_token t.property ht (by omega) m.stack []
      have hplain := plain_token t.property
      have hkept : ∃ rest, (if copied then reload m.after d else d).bytes =
          token t.val ++ 0 :: rest := by
        cases copied with
        | false => exact ⟨_,hbytes⟩
        | true =>
          have h24 : (token t.val).length < 24 := h
          refine copy_of_short hbytes (by omega) ?_
          rw [StoredCopy]
          change (d.bytes.take 24 ++ m.after).take 24 = _
          have hroom := d.room
          rw [List.take_left']
          rw [List.length_take]
          omega
      obtain ⟨rest,hrest⟩ := hkept
      rw [hd]
      change Agree Holds Eq (fxypty lib m.castStack m.padding _ (typmodOf md.digits md.fraction)) _
      rw [fxypty_readText hplain.ne_zero hrest htm, hscale, readText_token ht]
      exact readText_holds t.val md m.padding

theorem cast_run (m : Memory) (d : Datum) (md : Modifier) : (server lib m).cast d md =
    fxypty lib m.castStack m.padding d (typmodOf md.digits md.fraction) := by
  simp only [server, md.accepted]
  rfl

theorem cast_holds (m : Memory) {d : Datum} {text rest : List Byte} (h0 : 0 ∉ text)
    (hd : d.bytes = text ++ 0 :: rest) (md : Modifier) :
    Agree Holds Eq ((server lib m).cast d md) (readText lib text md.scale) := by
  obtain ⟨hscale,-,htm⟩ := md.decoded
  rw [cast_run, fxypty_readText h0 hd htm, hscale]
  exact readText_holds text md m.padding

-- proved by simp: rfl would run the scanner on the bytes of x
theorem onValues_cast (x : FxyPtyDecimal) (md : Modifier) :
    (onValues lib).cast x md = readText lib (spelling x) md.scale := by
  simp only [onValues]

theorem apply_holds (m : Memory) (op : Operator) {a b : Datum} {x y : FxyPtyDecimal}
    (ha : Holds a x) (hb : Holds b y) :
    Agree Holds Eq ((server lib m).apply op a b) ((onValues lib).apply op x y) := by
  have hw : op.wrapped lib m.padding a b = operator (op.onValues lib) m.padding a b := by
    cases op <;> rfl
  have hscale {f : Raw → Raw → Scale → Option Raw} {r : FxyPtyDecimal} (hr : operate f x y = some r) :
      r.scale = x.scale := (operate_eq_some.mp hr).2
  have hs (r : FxyPtyDecimal) (hr : op.onValues lib x y = some r) : r.scale = x.scale := by
    cases op with
    | add => exact hscale (f := fun x y _ => lib.add x y) hr
    | subtract => exact hscale (f := fun x y _ => lib.subtract x y) hr
    | multiply => exact hscale (f := lib.multiply) hr
    | divide => exact hscale (f := lib.divide) hr
  simp only [server, onValues]
  rw [hw, operator, ha.decimal, hb.decimal]
  cases hr : op.onValues lib x y with
  | none => exact .error rfl
  | some r => exact .ok (ofDecimal_holds m.padding (by rw [hs r hr]; exact ha.scale))

theorem server_simulates (lib : Libfixeypointy) (m : Memory) :
    Simulates Holds Command.Uncut (server lib m) (onValues lib) where
  literal := literal_holds m
  cast d x _ md _ h := by
    obtain ⟨h0,rest,hrest⟩ := h.spelled
    rw [onValues_cast]
    exact cast_holds m h0 hrest md
  apply op _ _ _ _ := apply_holds m op
  firstSmaller a b x y ha hb := by
    simp only [server, onValues, compare, ha.decimal, hb.decimal]
  firstLarger a b x y ha hb := by
    simp only [server, onValues, compare, ha.decimal, hb.decimal]
  copy _ _ h := h.reload m.after
  print d x h := by
    simp only [server, onValues, fxyptyOut, h.decimal, fxyptyOut_alike m.tmp zeroed]
  test r a b x y ha hb := by
    simp only [server, onValues, ← ha.decimal, ← hb.decimal]
    cases r <;> rfl

theorem serve_follows (lib : Libfixeypointy) (memory : Nat → Memory) {commands : List Command}
    (h : ∀ c ∈ commands, c.Uncut) :
    Session.Follows Holds (serve lib memory commands) (serveValues lib commands) :=
  Lockstep.run_agree (fun n _ _ _ hc hs => (server_simulates lib (memory n)).execute hc hs) h 0
    Session.Mirrors.start

def Session.observed (s : Session Datum) : Session FxyPtyDecimal where
  heap := s.heap.map (Option.map Datum.decimal)
  pool := s.pool
  answers := s.answers

theorem Session.Mirrors.observed {s : Session Datum} {t : Session FxyPtyDecimal}
    (h : s.Mirrors Holds t) : s.observed = t := by
  have hcells {ds : List (Option Datum)} {xs : List (Option FxyPtyDecimal)}
      (hh : List.Forall₂ (Option.Rel Holds) ds xs) : ds.map (Option.map Datum.decimal) = xs := by
    induction hh with
    | nil => rfl
    | cons hv _ ih =>
      rw [List.map_cons, ih]
      rcases hv with ⟨hv⟩ | _
      · rw [Option.map_some, hv.decimal]
      · rfl
  obtain ⟨heap,pool,answers⟩ := t
  rw [Session.observed, hcells h.heap, h.pool, h.answers]

theorem session_refines (lib : Libfixeypointy) (memory : Nat → Memory) {commands : List Command}
    (h : ∀ c ∈ commands, c.Uncut) :
    (serve lib memory commands).map Session.observed = serveValues lib commands := by
  have hf := serve_follows lib memory h
  revert hf
  generalize serve lib memory commands = x
  generalize serveValues lib commands = y
  rintro (⟨hm⟩ | ⟨he⟩)
  · exact congrArg Except.ok hm.observed
  · exact congrArg Except.error he

def tenDigits : Modifier := ⟨10,2,by decide,by decide⟩

def tenTwelve : Text := ⟨tenAndTwelve.text,by decide⟩

def doubled : List Command :=
  [.literal tenTwelve true tenDigits, .apply .add 0 0, .print 1, .cast 1 tenDigits, .test .lt 0 0]

def filled (n : Nat) (c : Byte) : Buffer Byte n := ⟨List.replicate n c,List.length_replicate⟩

def untidy : Memory where
  stack := filled 42 255
  castStack := filled 42 49
  tmp := filled 42 57
  padding := filled 4 7
  after := [49, 49, 49]

theorem session_refines_doubled :
    (serve truncating (fun _ => untidy) doubled).map Session.observed =
      serveValues truncating doubled ∧
    (serveValues truncating doubled).toOption.map Session.answers =
      some [.text [ch '2', ch '0', ch '.', ch '2', ch '4'],
        .error .internalError "The operation returns runtime errors.", .truth false] :=
  ⟨session_refines truncating (fun _ => untidy) (by decide),by decide⟩

end

end Fxypty
