import Pink.Redis.Wire

/-! # The reply reader

`RedisCli` of `redis_cli.cc`, the receiving half: `Recv` and what it calls. The reader keeps what
it has received in `rbuf`, a buffer of fixed size, of which the `rbufOffset` bytes from `rbufPos` on
are not yet consumed. What `read` will return is part of the state: `socket` is the sequence of its
results, of which a result longer than what was asked for is handed out in parts, and after the last
of which the call times out.

A read or write outside the buffer, a string of a negative length and an overflow of a signed number
are faults. -/

namespace Pink.Redis.Cli

open Pink.Redis.Wire

/-- `REDIS_STATUS`, as far as the functions here return it. -/
inductive Code
  | etimeout | ereadNull | eread | eparseType | ok | half
  deriving DecidableEq, Repr

/-- The status that `Recv` returns. -/
inductive Status
  | ok
  | timeout (msg : String)
  | ioError (msg : String)
  deriving DecidableEq, Repr

inductive Fault
  /-- Memory outside of `rbuf` is read or written. -/
  | outOfBounds
  /-- `std::length_error`: a string of a negative length. -/
  | lengthError
  /-- A signed number leaves its range. -/
  | overflow
  /-- A loop of the model has used up its fuel. -/
  | fuel
  deriving DecidableEq, Repr

/-- A result of `read`: bytes (none of them at the end of the stream), or `-1` with an `errno`. -/
inductive ReadResult
  | data (b : Bytes)
  | eintr
  | eagain
  | error (strerror : String)
  deriving DecidableEq, Repr

structure RedisCli where
  argv : Argv := []
  rbuf : Bytes
  rbufPos : ℤ := 0
  rbufOffset : ℤ := 0
  elements : ℤ := 0
  socket : List ReadResult
  /-- The text of `errno`. -/
  strerror : String := ""
  fault : Option Fault := none

/-! ### Scanning -/

/-- `while (pos < _len && s[pos] != '\r') pos++`, with fuel for `_len` turns. -/
def skipToCR (s : Bytes) (len : ℤ) : ℕ → ℕ → ℕ
  | 0, pos => pos
  | n + 1, pos => if (pos : ℤ) < len ∧ s.getD pos 0 ≠ CR then skipToCR s len n (pos + 1) else pos

/-- The outer loop of `seekNewline`; `len` is `_len`. -/
def seekNewlineLoop (s : Bytes) (len : ℤ) : ℕ → ℕ → Option ℕ
  | 0, _ => none
  | n + 1, pos =>
    if (pos : ℤ) < len then
      let pos := skipToCR s len len.toNat pos
      if s.getD pos 0 ≠ CR ∨ (pos : ℤ) ≥ len then none
      else if s.getD (pos + 1) 0 = LF then some pos
      else seekNewlineLoop s len n (pos + 1)
    else none

/-- `seekNewline(s, len)`: the distance of the result from `s`. -/
def seekNewline (s : Bytes) (len : ℤ) : Option ℕ := seekNewlineLoop s (len - 1) len.toNat 0

def LLONG_MAX : ℤ := 2 ^ 63 - 1
def INT_MAX : ℤ := 2 ^ 31 - 1

/-- Conversion of a `long long` to `int`. -/
def toInt (v : ℤ) : ℤ := Int.bmod v (2 ^ 32)

/-- The loop of `readLongLong`: `v` is what has been read. -/
def readDigits (mult : ℤ) : Bytes → ℤ → Except Fault ℤ
  | [], _ => .error .outOfBounds
  | c :: s, v =>
    if c = CR then .ok (mult * v)
    else if ch '0' ≤ c ∧ c ≤ ch '9' then
      let v := v * 10 + ((c.toNat : ℤ) - (ch '0').toNat)
      if v > LLONG_MAX then .error .overflow else readDigits mult s v
    else .ok (-1)

/-- `readLongLong`: a number up to a carriage return. -/
def readLongLong (s : Bytes) : Except Fault ℤ :=
  match s with
  | [] => .error .outOfBounds
  | c :: t =>
    if c = ch '-' then readDigits (-1) t 0
    else if c = ch '+' then readDigits 1 t 0
    else readDigits 1 (c :: t) 0

namespace RedisCli

/-! ### Reading -/

def raise (c : RedisCli) (f : Fault) : RedisCli := { c with fault := some f }

/-- The loop of `BufferRead` around `read`; `none` is a positive return value. -/
def readLoop (c : RedisCli) : List ReadResult → RedisCli × Option Code
  | [] => ({ c with socket := [] }, some .etimeout)
  | .eintr :: rs => readLoop c rs
  | .eagain :: rs => ({ c with socket := rs }, some .etimeout)
  | .error e :: rs => ({ c with socket := rs, strerror := e }, some .eread)
  | .data b :: rs =>
    if c.rbufOffset < 0 then (c.raise .outOfBounds, none)
    else
      let room := (c.rbuf.length - c.rbufOffset).toNat
      let got := b.take room
      let rest := b.drop room
      let c := { c with socket := if rest = [] then rs else .data rest :: rs }
      if got = [] then (c, some .ereadNull)
      else
        ({ c with
          rbuf := c.rbuf.take c.rbufOffset.toNat ++ got ++
            c.rbuf.drop (c.rbufOffset.toNat + got.length)
          rbufOffset := c.rbufOffset + got.length }, none)

def bufferRead (c : RedisCli) : RedisCli × Option Code :=
  if c.rbufPos > 0 then
    if c.rbufOffset > 0 then
      let kept := (c.rbuf.drop c.rbufPos.toNat).take c.rbufOffset.toNat
      readLoop { c with rbuf := kept ++ c.rbuf.drop kept.length, rbufPos := 0 } c.socket
    else readLoop { c with rbufPos := 0 } c.socket
  else readLoop c c.socket

/-- `ReadBytes(bytes)`: the position of the bytes; a negative `rbufOffset` is a huge unsigned
number. -/
def readBytes (c : RedisCli) (n : ℕ) : Option (ℤ × RedisCli) :=
  if c.rbufOffset % 2 ^ 32 ≥ n then
    some (c.rbufPos, { c with rbufPos := c.rbufPos + n, rbufOffset := c.rbufOffset - n })
  else none

/-- `ReadLine(&len)`: the line. -/
def readLine (c : RedisCli) : Option (Bytes × RedisCli) :=
  let p := c.rbuf.drop c.rbufPos.toNat
  match seekNewline p c.rbufOffset with
  | none => none
  | some len => some (p.take len,
      { c with rbufPos := c.rbufPos + (len + 2), rbufOffset := c.rbufOffset - (len + 2) })

/-! ### Items -/

def processLineItem (c : RedisCli) : RedisCli × Code :=
  match c.readLine with
  | none => (c, .half)
  | some (line, c) => ({ c with argv := c.argv ++ [line], elements := c.elements - 1 }, .ok)

def processBulkItem (c : RedisCli) : RedisCli × Code :=
  let p := c.rbuf.drop c.rbufPos.toNat
  match seekNewline p c.rbufOffset with
  | none => (c, .half)
  | some s =>
    let bytelen : ℤ := s + 2
    match readLongLong p with
    | .error f => (c.raise f, .half)
    | .ok v =>
      let len := toInt v
      if len = -1 then
        ({ c with
          elements := c.elements - 1
          rbufPos := c.rbufPos + bytelen
          rbufOffset := c.rbufOffset - bytelen }, .ok)
      else if len + 2 > INT_MAX then (c.raise .overflow, .half)
      -- the header is not counted here
      else if len + 2 ≤ c.rbufOffset then
        if len < 0 then (c.raise .lengthError, .half)
        else if c.rbufPos + bytelen + len > c.rbuf.length then (c.raise .outOfBounds, .half)
        else
          ({ c with
            argv := c.argv ++ [(p.drop bytelen.toNat).take len.toNat]
            elements := c.elements - 1
            rbufPos := c.rbufPos + (bytelen + (len + 2))
            rbufOffset := c.rbufOffset - (bytelen + (len + 2)) }, .ok)
      else (c, .half)

def processMultiBulkItem (c : RedisCli) : RedisCli × Code :=
  match c.readLine with
  | none => (c, .half)
  | some (_, c') =>
    match readLongLong (c.rbuf.drop c.rbufPos.toNat) with
    | .error f => (c'.raise f, .half)
    | .ok v => ({ c' with elements := toInt v }, .ok)

def getReplyFromReader (c : RedisCli) : RedisCli × Code :=
  if c.rbufOffset = 0 then (c, .half)
  else
    match c.readBytes 1 with
    | none => (c, .half)
    | some (p, c) =>
      match c.rbuf[p.toNat]? with
      | none => (c.raise .outOfBounds, .half)
      | some t =>
        if t = ch '-' ∨ t = ch '+' ∨ t = ch ':' then c.processLineItem
        else if t = ch '$' then c.processBulkItem
        else if t = ch '*' then c.processMultiBulkItem
        else (c, .eparseType)

/-! ### Replies -/

/-- `if (rbuf_offset_ == 0 || result == REDIS_HALF) ...` in the loop of `GetReply`. -/
def refill (c : RedisCli) (result : Code) : RedisCli × Option Code :=
  if c.rbufOffset = 0 ∨ result = .half then c.bufferRead else (c, none)

/-- The loop of `GetReply`. -/
def getReplyLoop : ℕ → RedisCli → Code → RedisCli × Code
  | 0, c, result => (c.raise .fuel, result)
  | n + 1, c, result =>
    if c.elements > 0 then
      match c.refill result with
      | (c, some e) => (c, e)
      | (c, none) =>
        if c.fault ≠ none then (c, .half)
        else
          match c.getReplyFromReader with
          | (c, .eparseType) => (c, .eparseType)
          | (c, result) => if c.fault ≠ none then (c, result) else getReplyLoop n c result
    else (c, result)

/-- The bytes that are still to come. -/
def pending (c : RedisCli) : ℕ :=
  (c.socket.map fun r => match r with | .data b => b.length | _ => 0).sum

/-- Every turn takes a byte that was received or is still to come, or moves on in the buffer. -/
def getReply (c : RedisCli) : RedisCli × Code :=
  getReplyLoop (c.rbufOffset.toNat + c.pending + c.rbuf.length + 2) { c with elements := 1 } .ok

/-- `Recv(&result)`: the status, and what `result` is set to. -/
def recv (c : RedisCli) : RedisCli × Status × Option Argv :=
  let (c, result) := getReply { c with argv := [] }
  match result with
  | .ok => (c, .ok, some c.argv)
  | .etimeout => (c, .timeout "", none)
  | .ereadNull => (c, .ioError "Read null", none)
  | .eread => (c, .ioError ("read failed caz " ++ c.strerror), none)
  | .eparseType => (c, .ioError "invalid type", none)
  | .half => (c, .ioError ("other error, maybe " ++ c.strerror), none)

/-- `n` calls of `Recv`, one after the other: what they return. -/
def recvs : ℕ → RedisCli → List (Status × Option Argv)
  | 0, _ => []
  | n + 1, c =>
    let x := c.recv
    if x.1.fault ≠ none then [] else x.2 :: recvs n x.1

end RedisCli

end Pink.Redis.Cli
