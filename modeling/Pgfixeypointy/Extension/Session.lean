import Pgfixeypointy.Library.Lockstep
import Pgfixeypointy.Extension.Cast
import Pgfixeypointy.Extension.Evaluation

namespace Fxypty

open FxyptyImpl LittleEndian

-- 0 <= s <= p <= 38; fxypty_typmod_in lets negative scales through as well
structure Modifier where
  digits : Nat
  fraction : Nat
  fraction_le : fraction ≤ digits
  digits_le : digits ≤ 38

def Modifier.scale (m : Modifier) : Scale := BitVec.ofNat 32 m.fraction

inductive Relation where
  | eq
  | neq
  | lt
  | gt
  | lte
  | gte
deriving DecidableEq, Repr

def Relation.holds (lib : Libfixeypointy) : Relation → Datum → Datum → Bool
  | .eq => fxyptyEq lib
  | .neq => fxyptyNeq lib
  | .lt => fxyptyLt lib
  | .gt => fxyptyGt lib
  | .lte => fxyptyLte lib
  | .gte => fxyptyGte lib

def Relation.ofSign : Relation → Int → Bool
  | .eq, n => n = 0
  | .neq, n => n ≠ 0
  | .lt, n => n < 0
  | .gt, n => n > 0
  | .lte, n => n ≤ 0
  | .gte, n => n ≥ 0

abbrev Text := {t : List Byte // 0 ∉ t}

-- values are named by their place in the pool; copied says that the constant fxypty_in makes of
-- a literal is copied as a 24-byte value before it is cast
inductive Command where
  | literal (t : Text) (copied : Bool) (m : Modifier)
  | cast (i : Nat) (m : Modifier)
  | apply (op : Operator) (i j : Nat)
  | smaller (i j : Nat)
  | larger (i j : Nat)
  | copy (i : Nat)
  | print (i : Nat)
  | test (r : Relation) (i j : Nat)

inductive Answer where
  | text (t : List Byte)
  | truth (b : Bool)
  | error (code : ErrorCode) (message : String)
deriving DecidableEq, Repr

-- pool holds addresses, none is freed memory
structure Session (V : Type) where
  heap : List (Option V)
  pool : List Nat
  answers : List Answer

structure Engine (V : Type) where
  literal : Text → Bool → Modifier → Except Fault V
  cast : V → Modifier → Except Fault V
  apply : Operator → V → V → Except Fault V
  firstSmaller : V → V → Bool
  firstLarger : V → V → Bool
  copy : V → V
  print : V → Except Fault (List Byte)
  test : Relation → V → V → Bool

section

variable {V : Type}

namespace Session

def start : Session V := ⟨[],[],[]⟩

def tell (s : Session V) (a : Answer) : Session V := { s with answers := s.answers ++ [a] }

def refer (s : Session V) (address : Nat) : Session V := { s with pool := s.pool ++ [address] }

def allot (s : Session V) (v : V) : Session V :=
  { s.refer s.heap.length with heap := s.heap ++ [some v] }

def free (s : Session V) (address : Nat) : Session V := { s with heap := s.heap.set address none }

def At (s : Session V) (i address : Nat) (v : V) : Prop :=
  s.pool[i]? = some address ∧ s.heap[address]? = some (some v)

def Freed (s : Session V) (i : Nat) : Prop :=
  ∃ address, s.pool[i]? = some address ∧ s.heap[address]? = some none

-- ereport ends the statement, not the session; the other faults end everything
def settle {A : Type} (s : Session V) (next : A → Session V) :
    Except Fault A → Except Fault (Session V)
  | .ok a => .ok (next a)
  | .error (.ereport code message) => .ok (s.tell (.error code message))
  | .error fault => .error fault

def one (s : Session V) (i : Nat) (f : Nat → V → Except Fault (Session V)) :
    Except Fault (Session V) :=
  match s.pool[i]? with
  | none => .ok s
  | some address =>
      match s.heap[address]? with
      | some (some v) => f address v
      | _ => .error .overrun

def two (s : Session V) (i j : Nat) (f : Nat → V → Nat → V → Except Fault (Session V)) :
    Except Fault (Session V) :=
  s.one i fun a v => s.one j fun b w => f a v b w

end Session

-- fxypty_in_casted frees its argument, and for a cast that is the value itself;
-- fxypty_smaller and fxypty_larger hand one of their two pointers on
def Engine.execute (e : Engine V) (s : Session V) : Command → Except Fault (Session V)
  | .literal t copied m => s.settle s.allot (e.literal t copied m)
  | .cast i m => s.one i fun a v => s.settle (s.free a).allot (e.cast v m)
  | .apply op i j => s.two i j fun _ v _ w => s.settle s.allot (e.apply op v w)
  | .smaller i j => s.two i j fun a v b w => .ok (s.refer (if e.firstSmaller v w then a else b))
  | .larger i j => s.two i j fun a v b w => .ok (s.refer (if e.firstLarger v w then a else b))
  | .copy i => s.one i fun _ v => .ok (s.allot (e.copy v))
  | .print i => s.one i fun _ v => s.settle (fun t => s.tell (.text t)) (e.print v)
  | .test r i j => s.two i j fun _ v _ w => .ok (s.tell (.truth (e.test r v w)))

end

-- what a call finds in the memory it does not write itself
structure Memory where
  stack : Buffer Byte 42
  castStack : Buffer Byte 42
  tmp : Buffer Byte 42
  padding : Buffer Byte 4
  after : List Byte

def reload (after : List Byte) (d : Datum) : Datum where
  bytes := d.bytes.take 24 ++ after
  room := by
    have := d.room
    rw [List.length_append, List.length_take]
    omega

variable (lib : Libfixeypointy)

def server (m : Memory) : Engine Datum where
  literal t copied md := do
    let typmod ← fxyptyTypmodIn [BitVec.ofNat 32 md.digits, BitVec.ofNat 32 md.fraction]
    let d ← fxyptyIn m.stack (t.val ++ [0])
    fxypty lib m.castStack m.padding (if copied then reload m.after d else d) typmod
  cast d md := do
    let typmod ← fxyptyTypmodIn [BitVec.ofNat 32 md.digits, BitVec.ofNat 32 md.fraction]
    fxypty lib m.castStack m.padding d typmod
  apply op a b := op.wrapped lib m.padding a b
  firstSmaller a b := compare lib a b < 0
  firstLarger a b := compare lib a b ≥ 0
  copy := reload m.after
  print d := (fxyptyOut m.tmp d).map cString
  test := Relation.holds lib

def serve (memory : Nat → Memory) (commands : List Command) : Except Fault (Session Datum) :=
  Lockstep.run (fun n c s => (server lib (memory n)).execute s c) 0 commands .start

def readText (text : List Byte) (scale : Scale) : Except Fault FxyPtyDecimal :=
  if token text = [] then .error (syntaxError text)
  else if 42 ≤ (token text).length then .error .overrun
  else match lib.ofString (token text) scale with
    | none => .error runtimeErrors
    | some r => .ok (.wrap r scale)

def valueBytes (x : FxyPtyDecimal) : List Byte :=
  encode 16 (pack128 x).toNat ++ encode 4 x.scale.toNat

-- a cast takes the bytes of a value for its text
def spelling (x : FxyPtyDecimal) : List Byte := (valueBytes x).takeWhile (· ≠ 0)

def Operator.onValues : Operator → FxyPtyDecimal → FxyPtyDecimal → Option FxyPtyDecimal
  | .add => FxyptyImpl.fxyptyAdd lib
  | .subtract => FxyptyImpl.fxyptySubtract lib
  | .multiply => FxyptyImpl.fxyptyMultiply lib
  | .divide => FxyptyImpl.fxyptyDivide lib

def onValues : Engine FxyPtyDecimal where
  literal t _ md := readText lib t.val md.scale
  cast x md := readText lib (spelling x) md.scale
  apply op x y :=
    match op.onValues lib x y with
    | none => .error runtimeErrors
    | some r => .ok r
  firstSmaller x y := fxyptyCompare lib x y < 0
  firstLarger x y := fxyptyCompare lib x y ≥ 0
  copy x := x
  print x := (FxyptyImpl.fxyptyOut fourDigits zeroed zeroed x).map cString
  test r x y := r.ofSign (fxyptyCompare lib x y)

def serveValues (commands : List Command) : Except Fault (Session FxyPtyDecimal) :=
  Lockstep.run (fun _ c s => (onValues lib).execute s c) 0 commands .start

end Fxypty
