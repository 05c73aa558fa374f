import Pgfixeypointy.Impl.Misprint
import Pgfixeypointy.Extension.Insertion

namespace Fxypty

open FxyptyImpl Lockstep Expression

def printedText (b : Buffer Byte 42) : Text :=
  ⟨cString b,fun h => by simpa using List.mem_takeWhile_imp h⟩

def dump (memory : Nat → Memory) (rows : List Datum) : Except Fault (List Text) :=
  forEach (fun n d => (fxyptyOut (memory n).tmp d).map printedText) 0 rows

def restore (lib : Libfixeypointy) (memory : Nat → Memory) (copied : Bool) (m : Modifier)
    (texts : List Text) : Except Fault (List Datum) :=
  forEach (fun n t => (server lib (memory n)).literal t copied m) 0 texts

def Restores (lib : Libfixeypointy) (copied : Bool) (m : Modifier) (rows : List Datum) : Prop :=
  ∀ memory memory', ∃ texts rows', dump memory rows = .ok texts ∧
    restore lib memory' copied m texts = .ok rows' ∧
    rows'.map Datum.decimal = rows.map Datum.decimal

def printedOf (x : FxyPtyDecimal) : Literal :=
  printed (decide (x.raw < 0)) x.raw.natAbs x.scale.toNat

def Restorable (copied : Bool) (x : FxyPtyDecimal) : Prop :=
  x.raw.natAbs < 2 ^ 63 * 10 ^ 18 ∧ (copied = true → (printedOf x).text.length < 24)

instance (copied : Bool) (x : FxyPtyDecimal) : Decidable (Restorable copied x) :=
  inferInstanceAs (Decidable (_ ∧ _))

theorem printedOf_fractionDigits (x : FxyPtyDecimal) :
    (printedOf x).fractionDigits = x.scale.toNat := printed_fractionDigits _ _ _

theorem printedOf_scaled (x : FxyPtyDecimal) : (printedOf x).scaled x.scale.toNat = x.raw := by
  have h := Literal.scaled_value (printedOf_fractionDigits x).le
  rw [printedOf, printed_signed, div_mul_cancel₀ _ (by positivity)] at h
  exact_mod_cast h

variable {lib : Libfixeypointy} {m : Modifier} {copied : Bool} {d : Datum}

theorem dump_row (hx : d.decimal.raw.natAbs < 2 ^ 63 * 10 ^ 18) (hs : d.decimal.scale.toNat ≤ 38)
    (tmp : Buffer Byte 42) : ∃ t, (fxyptyOut tmp d).map printedText = .ok t ∧
      t.val = (printedOf d.decimal).text ∧ t.val.length < 42 := by
  obtain ⟨hlen,hout⟩ := fxyptyOut_exact hx hs tmp zeroed
  have ht := cString_numeral zeroed _ _ _ hlen
  rw [List.length_append, List.length_singleton] at hlen
  refine ⟨_,by rw [fxyptyOut, hout]; rfl,?_,?_⟩
  · rw [printedOf, printed_text]
    exact ht
  · change (cString _).length < 42
    rw [ht]
    omega

theorem restore_row (hr : ReadsLiterals lib) (hs : d.decimal.scale = m.scale)
    (hd : Restorable copied d.decimal) {t : Text} (ht : t.val = (printedOf d.decimal).text)
    (hlen : t.val.length < 42) (memory : Memory) :
    ∃ r, (server lib memory).literal t copied m = .ok r ∧ r.decimal = d.decimal := by
  have hf := (printedOf_fractionDigits d.decimal).le
  have hraw := (printedOf_scaled d.decimal).symm
  rw [ht] at hlen
  rw [hs] at hf hraw
  obtain ⟨r,hrun,hdec⟩ := literal_inserted hr ht hf hraw hlen hd.2 memory
  exact ⟨r,hrun,by rw [hdec, ← hs, wrap_pack128]⟩

theorem readText_truncating {text : List Byte} {x : FxyPtyDecimal} {scale : Scale}
    (hv : ∀ c ∈ text, isSpace c = false) (h : readText truncating text scale = .ok x) :
    ∃ l, readLiteral text = some l ∧ l.scaled scale.toNat = x.raw := by
  rw [readText] at h
  split at h
  · cases h
  · rename_i hne
    have ht : token text = text := by
      have hnil : ∀ c ∈ ([] : List Byte), isSpace c = true := List.forall_mem_nil _
      have hself := (token_append hnil hv (fun hz => hne (by rw [hz]; rfl)) hnil).1
      rwa [List.append_nil] at hself
    rw [ht] at h
    split at h
    · cases h
    · split at h
      · cases h
      · rename_i r hr
        obtain ⟨l,hl,hfit⟩ := Option.bind_eq_some_iff.mp hr
        obtain rfl := Except.ok.inj h
        refine ⟨l,hl,?_⟩
        rw [FxyPtyDecimal.raw, pack128_wrap, fit_eq_some.mp hfit]

theorem isSpace_visible {c : Byte} (h : Visible c) : isSpace c = false := by
  have h33 : 33 ≤ c.toNat := h
  rw [isSpace, decide_eq_false_iff_not]
  rintro (rfl | ⟨-,hc⟩)
  · exact absurd h33 (by decide)
  · have h13 : c.toNat ≤ 13 := hc
    omega

theorem printed_ok {tmp : Buffer Byte 42} {t : Text}
    (h : (fxyptyOut tmp d).map printedText = .ok t) :
    ∃ b, FxyptyImpl.fxyptyOut fourDigits tmp zeroed d.decimal = .ok b ∧ t.val = cString b := by
  rw [fxyptyOut] at h
  cases hb : FxyptyImpl.fxyptyOut fourDigits tmp zeroed d.decimal with
  | error fault =>
    rw [hb] at h
    cases h
  | ok b =>
    rw [hb] at h
    exact ⟨b,rfl,by rw [← Except.ok.inj h]; rfl⟩

-- what follows a cut constant in memory joins its text
def marked (memory : Memory) : Memory := { memory with after := [ch 'x', 0] }

theorem literal_cut {t : Text} {memory : Memory} (ht : token t.val = t.val)
    (hlen : 24 ≤ t.val.length) (r : Datum) :
    (server truncating (marked memory)).literal t true m ≠ .ok r := by
  intro h
  have h42 : t.val.length < 42 := by
    by_contra hge
    rw [literal_run, (fxyptyIn_overrun_iff t.property _ []).mpr (by rw [ht]; omega)] at h
    cases h
  obtain ⟨hscale,-,htm⟩ := m.decoded
  have hne : token t.val ≠ [] := by
    rw [ht]
    exact List.ne_nil_of_length_pos (by omega)
  obtain ⟨d,hd,hbytes⟩ := fxyptyIn_token t.property hne (by rwa [ht]) (marked memory).stack []
  rw [ht] at hbytes
  have hcut : (reload (marked memory).after d).bytes = (t.val.take 24 ++ [ch 'x']) ++ 0 :: [] := by
    change d.bytes.take 24 ++ [ch 'x', 0] = _
    rw [hbytes, List.take_append_of_le_length hlen, List.append_assoc]
    rfl
  have hmem : ∀ c ∈ t.val.take 24 ++ [ch 'x'], c ∈ token t.val ∨ c = ch 'x' := by
    intro c hc
    rcases List.mem_append.mp hc with hc | hc
    · exact .inl (ht.symm ▸ List.mem_of_mem_take hc)
    · exact .inr (List.mem_singleton.mp hc)
  have h0 : 0 ∉ t.val.take 24 ++ [ch 'x'] := by
    intro hz
    rcases hmem 0 hz with hz | hz
    · exact t.property (ht ▸ hz)
    · exact absurd hz (by decide)
  have hspace : ∀ c ∈ t.val.take 24 ++ [ch 'x'], isSpace c = false := by
    intro c hc
    rcases hmem c hc with hc | rfl
    · exact token_ok t.val c hc
    · decide
  rw [literal_run, hd] at h
  change fxypty truncating _ _ (reload (marked memory).after d) _ = .ok r at h
  rw [fxypty_readText h0 hcut htm, hscale] at h
  cases hr : readText truncating (t.val.take 24 ++ [ch 'x']) m.scale with
  | error fault =>
    rw [hr] at h
    cases h
  | ok x =>
    obtain ⟨l,hl,-⟩ := readText_truncating hspace hr
    rw [readLiteral_letter] at hl
    cases hl

theorem token_visible {text : List Byte} (h : ∀ c ∈ text, Visible c) : token text = text := by
  by_cases hne : text = []
  · rw [hne]
    rfl
  · refine token_plain (List.forall_mem_nil _) (fun c hc => ?_) hne
    exact ⟨fun hz => not_mem_of_visible h (hz ▸ hc),isSpace_visible (h c hc)⟩

theorem row_restorable {tmp : Buffer Byte 42} {t : Text} {memory : Memory} {r : Datum}
    (hs : d.decimal.scale = m.scale) (ht : (fxyptyOut tmp d).map printedText = .ok t)
    (hr : (server truncating (marked memory)).literal t copied m = .ok r)
    (hd : r.decimal = d.decimal) : Restorable copied d.decimal := by
  have h38 := m.scale_le
  rw [← hs] at h38
  obtain ⟨b,hb,htext⟩ := printed_ok ht
  have hvisible : ∀ c ∈ t.val, Visible c := by
    rw [htext]
    exact printed_visible h38 hb
  have htoken := token_visible hvisible
  have hlen : copied = true → t.val.length < 24 := by
    rintro rfl
    by_contra hge
    exact literal_cut htoken (not_lt.mp hge) r hr
  have huncut : (Command.literal t copied m).Uncut := by
    cases copied with
    | false => trivial
    | true =>
      change (token t.val).length < 24
      rw [htoken]
      exact hlen rfl
  obtain ⟨x,hread,hholds⟩ := (literal_holds (marked memory) t copied m huncut).ok_imp hr
  obtain rfl : r.decimal = x := hholds.decimal
  simp only [onValues] at hread
  obtain ⟨l,hl,hscaled⟩ := readText_truncating (fun c hc => isSpace_visible (hvisible c hc)) hread
  rw [hd, ← hs] at hscaled
  have hsmall : d.decimal.raw.natAbs < 2 ^ 63 * 10 ^ 18 := by
    by_contra hge
    rw [htext] at hl
    exact misprint (not_lt.mp hge) h38 hb hl hscaled
  refine ⟨hsmall,fun hc => ?_⟩
  obtain ⟨t',ht',hprinted,-⟩ := dump_row hsmall h38 tmp
  obtain rfl := Except.ok.inj (ht.symm.trans ht')
  rw [← hprinted]
  exact hlen hc

theorem restores_of_restorable (hr : ReadsLiterals lib) {rows : List Datum}
    (hs : ∀ d ∈ rows, d.decimal.scale = m.scale) (h : ∀ d ∈ rows, Restorable copied d.decimal) :
    Restores lib copied m rows := by
  intro memory memory'
  have hrow : ∀ n, ∀ d ∈ rows, ∃ t, (fxyptyOut (memory n).tmp d).map printedText = .ok t ∧
      ∀ k, ∃ r, (server lib (memory' k)).literal t copied m = .ok r ∧ r.decimal = d.decimal := by
    intro n d hd
    have h38 := m.scale_le
    rw [← hs d hd] at h38
    obtain ⟨t,ht,htext,hlen⟩ := dump_row (h d hd).1 h38 (memory n).tmp
    exact ⟨t,ht,fun k => restore_row hr (hs d hd) (h d hd) htext hlen (memory' k)⟩
  obtain ⟨texts,hdump,htexts⟩ := forEach_ok hrow 0
  obtain ⟨rows',hrestore,hrows⟩ := forEach_ok_of htexts 0
  exact ⟨texts,rows',hdump,hrestore,forEach_map hrows⟩

theorem dump_restore_iff {rows : List Datum} (hs : ∀ d ∈ rows, d.decimal.scale = m.scale)
    (copied : Bool) :
    (∀ lib, ReadsLiterals lib → Restores lib copied m rows) ↔
      ∀ d ∈ rows, Restorable copied d.decimal := by
  constructor
  · intro h d hd
    obtain ⟨texts,rows',hdump,hrestore,hsame⟩ :=
      h truncating truncating_reads (fun _ => untidy) fun _ => marked untidy
    obtain ⟨k,t,r,ht,hr,hdec⟩ := forEach_forEach hdump hrestore hsame d hd
    exact row_restorable (hs d hd) ht hr hdec
  · exact fun h lib hr => restores_of_restorable hr hs h

def longest : List Datum := [stored 1012 2, stored (.ofInt 128 (-1000000000000000000000)) 2]

theorem dump_restore_longest :
    (∀ lib, ReadsLiterals lib → Restores lib false tenDigits longest) ∧
    ¬∀ lib, ReadsLiterals lib → Restores lib true tenDigits longest :=
  have hs : ∀ d ∈ longest, d.decimal.scale = tenDigits.scale := by decide
  ⟨(dump_restore_iff hs false).mpr (by decide),
    fun h => absurd ((dump_restore_iff hs true).mp h) (by decide)⟩

end Fxypty
