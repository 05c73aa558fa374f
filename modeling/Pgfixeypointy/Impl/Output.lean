import Pgfixeypointy.Impl.Decimal

namespace FxyptyImpl

def ch (c : Char) : Byte := BitVec.ofNat 8 c.toNat

def digitByte (d : Nat) : Byte := BitVec.ofNat 8 (d + 48)

-- (rest % 10) + '0', with the sign of rest as in C
def digit (rest : Int) : Byte := BitVec.ofInt 8 (rest.tmod 10 + 48)

def powerOfTen (n : Nat) : Raw := BitVec.ofNat 128 (10 ^ n)

def fourDigitsRow (i : Nat) : Buffer Byte 4 where
  cells := [digitByte (i / 1000 % 10), digitByte (i / 100 % 10),
    digitByte (i / 10 % 10), digitByte (i % 10)]
  size := rfl

def fourDigits (i : Int) : Except Fault (Buffer Byte 4) :=
  if 0 ≤ i ∧ i < 10000 then .ok (fourDigitsRow i.toNat) else .error .lookup

def zeroed : Buffer Byte 42 := ⟨List.replicate 42 0,rfl⟩

def cString (b : Buffer Byte 42) : List Byte := b.cells.takeWhile (· ≠ 0)

-- rest is the half being consumed, count is fractional_digit or lo_scale
structure Cursor where
  tmp : Buffer Byte 42
  curDigit : Nat
  rest : Int
  count : Int
deriving DecidableEq

-- while (count % 4 != 0)
def singles : Nat → Buffer Byte 42 → Int → Int → Except Fault Cursor
  | 0, tmp, rest, count =>
      if count.tmod 4 = 0 then .ok ⟨tmp, 0, rest, count⟩ else .error .overrun
  | cur + 1, tmp, rest, count =>
      if count.tmod 4 = 0 then .ok ⟨tmp, cur + 1, rest, count⟩
      else do
        let tmp ← tmp.store .overrun cur [digit rest]
        singles cur tmp (rest.tdiv 10) (count - 1)

-- while (rest > 0)
def leadingSingles : Nat → Buffer Byte 42 → Int → Except Fault Cursor
  | 0, tmp, rest => if rest > 0 then .error .overrun else .ok ⟨tmp, 0, rest, 0⟩
  | cur + 1, tmp, rest =>
      if rest > 0 then do
        let tmp ← tmp.store .overrun cur [digit rest]
        leadingSingles cur tmp (rest.tdiv 10)
      else .ok ⟨tmp, cur + 1, rest, 0⟩

def push (byte : Byte) (c : Cursor) : Except Fault Cursor :=
  match c.curDigit with
  | 0 => .error .overrun
  | cur + 1 => do
      let tmp ← c.tmp.store .overrun cur [byte]
      .ok { c with tmp := tmp, curDigit := cur }

def copyOut (out : Buffer Byte 42) (head : List Byte) (c : Cursor) :
    Except Fault (Buffer Byte 42) := do
  let out ← out.store .overrun 0 head
  let text ← c.tmp.load .overrun c.curDigit (42 - c.curDigit)
  out.store .overrun head.length text

section

-- what FOUR_DIGITS[i] reads; fourDigits above is the table itself
variable (table : Int → Except Fault (Buffer Byte 4))

-- while (count > 0)
def blocks : Nat → Buffer Byte 42 → Int → Int → Except Fault Cursor
  | cur + 4, tmp, rest, count =>
      if count > 0 then do
        let row ← table (rest.tmod 10000)
        let tmp ← tmp.store .overrun cur row.cells
        blocks cur tmp (rest.tdiv 10000) (count - 4)
      else .ok ⟨tmp, cur + 4, rest, count⟩
  | cur, tmp, rest, count =>
      if count > 0 then .error .overrun else .ok ⟨tmp, cur, rest, count⟩

-- while (rest > 10000)
def leadingBlocks : Nat → Buffer Byte 42 → Int → Except Fault Cursor
  | cur + 4, tmp, rest =>
      if rest > 10000 then do
        let row ← table (rest.tmod 10000)
        let tmp ← tmp.store .overrun cur row.cells
        leadingBlocks cur tmp (rest.tdiv 10000)
      else .ok ⟨tmp, cur + 4, rest, 0⟩
  | cur, tmp, rest =>
      if rest > 10000 then .error .overrun else .ok ⟨tmp, cur, rest, 0⟩

def deplete (cur : Nat) (tmp : Buffer Byte 42) (rest count : Int) : Except Fault Cursor := do
  let c ← singles cur tmp rest count
  blocks table c.curDigit c.tmp c.rest c.count

def leading (cur : Nat) (tmp : Buffer Byte 42) (rest : Int) : Except Fault Cursor := do
  let c ← leadingBlocks table cur tmp rest
  leadingSingles c.curDigit c.tmp c.rest

def finish (out : Buffer Byte 42) (isNegative : Bool) (rest : Int) (c : Cursor) :
    Except Fault (Buffer Byte 42) := do
  let c ← leading table c.curDigit c.tmp rest
  copyOut out (if isNegative then [ch '-'] else []) c

-- the test "no integral part" and what follows it, in Case 1 and in Case 2A
def closeFraction (out : Buffer Byte 42) (isNegative : Bool) (c : Cursor) :
    Except Fault (Buffer Byte 42) :=
  if c.rest = 0 then
    copyOut out (if isNegative then [ch '-', ch '0', ch '.'] else [ch '0', ch '.']) c
  else do
    let c ← push (ch '.') c
    finish table out isNegative c.rest c

def emit (tmp out : Buffer Byte 42) (isNegative : Bool) (hi lo : Int) (scale : Scale) :
    Except Fault (Buffer Byte 42) := do
  let tmp ← tmp.store .overrun 41 [0]
  if hi = 0 then
    let c ← deplete table 41 tmp lo scale.toInt
    closeFraction table out isNegative c
  else if 18#32 < scale then
    let c ← deplete table 41 tmp lo 18
    let c ← deplete table c.curDigit c.tmp hi (scale - 18#32).toInt
    closeFraction table out isNegative c
  else
    let c ← deplete table 41 tmp lo scale.toInt
    let c ← push (ch '.') c
    let c ← deplete table c.curDigit c.tmp c.rest (18#32 - scale).toNat
    finish table out isNegative hi c

def isNegative (x : FxyPtyDecimal) : Bool := (pack128 x).slt 0

-- -native_value wraps at the least 128-bit integer
def absValue (x : FxyPtyDecimal) : Raw := if isNegative x then -pack128 x else pack128 x

def hi (x : FxyPtyDecimal) : Int := (((absValue x).sdiv (powerOfTen 18)).setWidth 64).toInt

def lo (x : FxyPtyDecimal) : Int := (((absValue x).srem (powerOfTen 18)).setWidth 64).toInt

-- tmp is uninitialised stack memory, out is what the caller passes in
def fxyptyOut (tmp out : Buffer Byte 42) (x : FxyPtyDecimal) : Except Fault (Buffer Byte 42) :=
  emit table tmp out (isNegative x) (hi x) (lo x) x.scale

end

theorem takeWhile_terminated {text : List Byte} (h0 : 0 ∉ text) (rest : List Byte) :
    (text ++ 0 :: rest).takeWhile (· ≠ 0) = text := by
  have hc : ∀ c ∈ text, decide (c ≠ 0) = true :=
    fun c hc => decide_eq_true fun hz => h0 (hz ▸ hc)
  rw [List.takeWhile_append_of_pos hc]
  simp

theorem cString_terminated {text : List Byte} (h0 : 0 ∉ text) (out : Buffer Byte 42) (hlen) :
    cString (out.put 0 (text ++ [0]) hlen) = text := by
  rw [cString, Buffer.put_zero_cells, List.append_assoc]
  exact takeWhile_terminated h0 _

end FxyptyImpl
