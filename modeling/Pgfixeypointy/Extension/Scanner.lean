import Pgfixeypointy.Impl.Output
import Mathlib.Data.List.TakeWhile

namespace Fxypty

open FxyptyImpl

-- a char pointer is read up to its NUL, and out of its memory when there is none
def readString (memory : List Byte) : Except Fault (List Byte) :=
  if 0 ∈ memory then .ok (memory.takeWhile (· ≠ 0)) else .error .overrun

def isSpace (c : Byte) : Bool := c = 32 ∨ 9 ≤ c ∧ c ≤ 13

def token (text : List Byte) : List Byte := (text.dropWhile isSpace).takeWhile (!isSpace ·)

def remainder (text : List Byte) : List Byte :=
  (text.dropWhile isSpace).dropWhile (!isSpace ·)

-- sscanf(str, "%s", input_buffer), none when it converts nothing
def sscanf (str : List Byte) (inputBuffer : Buffer Byte 42) :
    Except Fault (Option (Buffer Byte 42)) := do
  let text ← readString str
  match token text with
  | [] => .ok none
  | c :: run => (inputBuffer.store .overrun 0 ((c :: run) ++ [0])).map some

def Plain (run : List Byte) : Prop := ∀ c ∈ run, c ≠ 0 ∧ isSpace c = false

theorem readString_terminated {text : List Byte} (h : 0 ∉ text) (rest : List Byte) :
    readString (text ++ 0 :: rest) = .ok text := by
  rw [readString, if_pos (List.mem_append_right _ List.mem_cons_self), takeWhile_terminated h]

theorem Plain.ne_zero {run : List Byte} (h : Plain run) : 0 ∉ run := fun hm => (h 0 hm).1 rfl

theorem text_split (text : List Byte) :
    text = text.takeWhile isSpace ++ (token text ++ remainder text) := by
  rw [token, remainder, List.takeWhile_append_dropWhile, List.takeWhile_append_dropWhile]

theorem token_append {space run after : List Byte} (hs : ∀ c ∈ space, isSpace c = true)
    (hr : ∀ c ∈ run, isSpace c = false) (hne : run ≠ []) (ha : ∀ c ∈ after, isSpace c = true) :
    token (space ++ (run ++ after)) = run ∧ remainder (space ++ (run ++ after)) = after := by
  have hrun : ∀ c ∈ run, (!isSpace c) = true := fun c hc => by rw [hr c hc, Bool.not_false]
  have hd : (space ++ (run ++ after)).dropWhile isSpace = run ++ after := by
    rw [List.dropWhile_append_of_pos hs]
    cases run with
    | nil => exact absurd rfl hne
    | cons c run => simp [hr c List.mem_cons_self]
  cases after with
  | nil =>
    rw [token, remainder, hd, List.append_nil]
    exact ⟨List.takeWhile_eq_self_iff.mpr hrun,List.dropWhile_eq_nil_iff.mpr hrun⟩
  | cons a after =>
    have hstop : (!isSpace a) = false := by rw [ha a List.mem_cons_self, Bool.not_true]
    rw [token, remainder, hd, List.takeWhile_append_of_pos hrun, List.dropWhile_append_of_pos hrun]
    simp [hstop]

theorem token_plain {space run : List Byte} (hs : ∀ c ∈ space, isSpace c = true) (h : Plain run)
    (hne : run ≠ []) : token (space ++ run) = run := by
  have hnil : ∀ c ∈ ([] : List Byte), isSpace c = true := List.forall_mem_nil _
  have ht := (token_append hs (fun c hc => (h c hc).2) hne hnil).1
  rwa [List.append_nil] at ht

theorem token_ok (text : List Byte) : ∀ c ∈ token text, isSpace c = false := fun c hc => by
  simpa using List.mem_takeWhile_imp hc

theorem token_subset (text : List Byte) : ∀ c ∈ token text, c ∈ text := fun _ hc =>
  List.dropWhile_subset _ (List.takeWhile_subset _ hc)

theorem plain_token {text : List Byte} (h : 0 ∉ text) : Plain (token text) := fun c hc =>
  ⟨fun h0 => h (h0 ▸ token_subset text c hc),token_ok text c hc⟩

theorem run_room {run : List Byte} (hlen : run.length < 42) : 0 + (run ++ [0]).length ≤ 42 := by
  rw [List.length_append, List.length_singleton]
  omega

theorem sscanf_eq {text : List Byte} (h0 : 0 ∉ text) (rest : List Byte)
    (inputBuffer : Buffer Byte 42) : sscanf (text ++ 0 :: rest) inputBuffer =
      match token text with
      | [] => .ok none
      | c :: run => (inputBuffer.store .overrun 0 ((c :: run) ++ [0])).map some := by
  rw [sscanf, readString_terminated h0]
  rfl

theorem sscanf_blank {text : List Byte} (h0 : 0 ∉ text) (ht : token text = []) (rest : List Byte)
    (inputBuffer : Buffer Byte 42) : sscanf (text ++ 0 :: rest) inputBuffer = .ok none := by
  rw [sscanf_eq h0, ht]

theorem sscanf_token {text : List Byte} (h0 : 0 ∉ text) (hne : token text ≠ [])
    (hlen : (token text).length < 42) (rest : List Byte) (inputBuffer : Buffer Byte 42) :
    sscanf (text ++ 0 :: rest) inputBuffer =
      .ok (some (inputBuffer.put 0 (token text ++ [0]) (run_room hlen))) := by
  rw [sscanf_eq h0]
  obtain ⟨c,run,ht⟩ := List.exists_cons_of_ne_nil hne
  have hst := inputBuffer.store_ok Fault.overrun 0 ((c :: run) ++ [0]) (run_room (ht ▸ hlen))
  simp only [ht, hst, Except.map]

theorem sscanf_overrun {text : List Byte} (h0 : 0 ∉ text) (hlen : 42 ≤ (token text).length)
    (rest : List Byte) (inputBuffer : Buffer Byte 42) :
    sscanf (text ++ 0 :: rest) inputBuffer = .error .overrun := by
  rw [sscanf_eq h0]
  cases ht : token text with
  | nil =>
    rw [ht] at hlen
    exact absurd hlen (by decide)
  | cons c run =>
    have hroom : ¬0 + ((c :: run) ++ [0]).length ≤ 42 := by
      rw [ht] at hlen
      rw [List.length_append, List.length_singleton]
      omega
    simp only [inputBuffer.store_error Fault.overrun 0 ((c :: run) ++ [0]) hroom, Except.map]

theorem cString_put {run : List Byte} (h : Plain run) (inputBuffer : Buffer Byte 42) (hlen) :
    cString (inputBuffer.put 0 (run ++ [0]) hlen) = run :=
  cString_terminated h.ne_zero inputBuffer hlen

theorem readString_ok {memory text : List Byte} (h : readString memory = .ok text) :
    text = memory.takeWhile (· ≠ 0) ∧ 0 ∉ text ∧ 0 ∈ memory := by
  unfold readString at h
  split at h
  · rename_i hz
    obtain rfl := Except.ok.inj h
    exact ⟨rfl,fun hm => by simpa using List.mem_takeWhile_imp hm,hz⟩
  · cases h

theorem sscanf_ok {str : List Byte} {inputBuffer b : Buffer Byte 42}
    (h : sscanf str inputBuffer = .ok (some b)) :
    ∃ text, readString str = .ok text ∧ token text ≠ [] ∧ cString b = token text := by
  unfold sscanf at h
  cases hr : readString str with
  | error fault =>
    rw [hr] at h
    cases h
  | ok text =>
    have hplain : Plain (token text) := plain_token (readString_ok hr).2.1
    rw [hr] at h
    simp only [bind, Except.bind] at h
    refine ⟨text,rfl,?_⟩
    split at h
    · cases h
    · rename_i c run ht
      rw [ht] at hplain ⊢
      unfold Buffer.store at h
      split at h
      · obtain rfl := Option.some.inj (Except.ok.inj h)
        exact ⟨List.cons_ne_nil c run,cString_put hplain inputBuffer _⟩
      · cases h

end Fxypty
