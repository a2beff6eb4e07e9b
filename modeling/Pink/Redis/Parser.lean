import Pink.Redis.Split2args

/-! # The request parser

`RedisParser` of `redis_parser.cc`, function by function. The parser is fed chunks by
`processInputBuffer`; what a chunk leaves unconsumed is kept in `halfArgv` and is put in front of
the next one, and the progress inside a request is kept in `redisType`, `multibulkLen`, `bulkLen`
and `argv`.

`int` and `long` members are integers, the length of the buffer is converted to `int` as the source
converts it, and what would end the process or be undefined behaviour is a `Fault`: a failed
`assert`, a `std::string` of a negative length, an overflow of `long`. A parser with a fault is
stuck. The field `log` is not in the source: it records the calls of the callbacks, of `GetNextNum`
and of `emplace_back`, with their arguments, and the state at the head of every turn of the two
loops. -/

namespace Pink.Redis.Parser

open Pink.Redis.Wire Pink.Redis.Split2args

inductive RedisParserStatus
  | none | initDone | half | done | error
  deriving DecidableEq, Repr

inductive RedisParserError
  | ok | initError | fullError | protoError | dealError | completeError
  deriving DecidableEq, Repr

/-- `REDIS_PARSER_REQUEST`, `REDIS_PARSER_RESPONSE`, and any other number. -/
inductive RedisParserType
  | request | response | other
  deriving DecidableEq, Repr

/-- `redis_type_`: `0`, `REDIS_REQ_INLINE`, `REDIS_REQ_MULTIBULK`. -/
inductive ReqType
  | unset | inline | multibulk
  deriving DecidableEq, Repr

inductive Fault
  /-- An `assert` does not hold. -/
  | assertion
  /-- `std::length_error`: a string of a negative length. -/
  | lengthError
  /-- A `long` leaves its range. -/
  | longOverflow
  /-- A loop of the model has used up its fuel. -/
  | fuel
  deriving DecidableEq, Repr

/-- The loops of `ProcessRequestBuffer` and `ProcessMultibulkBuffer`. -/
inductive Loop
  | request | multibulk
  deriving DecidableEq, Repr

/-- What is recorded of a run. -/
inductive Event
  /-- `DealMessage(this, argv)`. -/
  | dealMessage (argv : Argv)
  /-- `Complete(this, argvs)`. -/
  | complete (argvs : List Argv)
  /-- `GetNextNum(pos, &value)`, with `cur_pos_` and `length_`. -/
  | getNextNum (curPos pos length : ℤ)
  /-- `argv_.emplace_back(input_buf_ + cur_pos_, bulk_len_)`, with `length_`. -/
  | emplaceBack (curPos bulkLen length : ℤ)
  /-- The state at the head of a loop. -/
  | turn (loop : Loop) (redisType : ReqType) (multibulkLen bulkLen curPos length : ℤ)
      (inputBuf : Bytes)
  deriving DecidableEq, Repr

/-- The callbacks; a null pointer is `none`. A callback may look at all earlier calls. -/
structure RedisParserSettings where
  dealMessage : Option (List Event → Argv → ℤ)
  complete : Option (List Event → List Argv → ℤ)

structure RedisParser where
  parserSettings : RedisParserSettings := ⟨none, none⟩
  statusCode : RedisParserStatus := .none
  errorCode : RedisParserError := .ok
  redisType : ReqType := .unset
  redisParserType : RedisParserType := .request
  multibulkLen : ℤ := 0
  bulkLen : ℤ := -1
  halfArgv : Bytes := []
  argv : Argv := []
  argvs : List Argv := []
  curPos : ℤ := 0
  length : ℤ := 0
  inputBuf : Bytes := []
  fault : Option Fault := none
  log : List Event := []

namespace RedisParser

variable (string2l : Bytes → ℕ → Option ℤ)

def raise (p : RedisParser) (f : Fault) : RedisParser := { p with fault := some f }

def record (p : RedisParser) (e : Event) : RedisParser := { p with log := p.log ++ [e] }

def recordTurn (p : RedisParser) (loop : Loop) : RedisParser :=
  p.record (.turn loop p.redisType p.multibulkLen p.bulkLen p.curPos p.length p.inputBuf)

/-- The bytes from `input_buf_ + cur_pos_` up to `input_buf_ + length_`. -/
def rest (p : RedisParser) : Bytes :=
  (p.inputBuf.drop p.curPos.toNat).take (p.length - p.curPos).toNat

/-- `FindNextSeparators`: `none` is the return value `-1`. -/
def findNextSeparators (p : RedisParser) : Except Fault (Option ℤ) :=
  if p.curPos ≤ p.length then
    .ok ((p.rest.idxOf? LF).map fun i : ℕ => p.curPos + i)
  else .error .assertion

/-- `GetNextNum`: `none` is the return value `-1`. -/
def getNextNum (p : RedisParser) (pos : ℤ) : Except Fault (Option ℤ) :=
  if p.curPos < pos then
    .ok (string2l (p.inputBuf.drop (p.curPos + 1).toNat) (sizeT (pos - p.curPos - 2)))
  else .error .assertion

def cacheHalfArgv (p : RedisParser) : RedisParser :=
  { p with halfArgv := p.rest, curPos := p.length }

def setParserStatus (p : RedisParser) (status : RedisParserStatus)
    (error : RedisParserError := .ok) : RedisParser :=
  let p := if status = .half then p.cacheHalfArgv else p
  { p with statusCode := status, errorCode := error }

def redisParserInit (p : RedisParser) (type : RedisParserType) (settings : RedisParserSettings) :
    RedisParser :=
  if p.statusCode ≠ .none then p.setParserStatus .error .initError
  else if type ≠ .request ∧ type ≠ .response then p.setParserStatus .error .initError
  else { p with redisParserType := type, parserSettings := settings }.setParserStatus .initDone

def processInlineBuffer (p : RedisParser) : RedisParser :=
  match p.findNextSeparators with
  | .error f => p.raise f
  | .ok none =>
    if p.length > REDIS_INLINE_MAXLEN then p.setParserStatus .error .fullError
    else p.setParserStatus .half
  | .ok (some pos) =>
    -- the tokenizer is given the whole buffer from `cur_pos_` on, not the line
    match split2args (p.inputBuf.drop p.curPos.toNat) with
    | none => { p with argv := [], curPos := pos + 1 }.setParserStatus .error .protoError
    | some argv => { p with argv := argv, curPos := pos + 1 }.setParserStatus .done

/-- How a piece of a function's body ends: the function returns, or goes on behind it. -/
inductive Flow
  | ret (p : RedisParser)
  | next (p : RedisParser)

/-- `if (multibulk_len_ == 0) { ... }` of `ProcessMultibulkBuffer`. -/
def multibulkHeader (p : RedisParser) : Flow :=
  match p.findNextSeparators with
  | .error f => .ret (p.raise f)
  | .ok none => .ret (p.setParserStatus .half)
  | .ok (some pos) =>
    let p := p.record (.getNextNum p.curPos pos p.length)
    match p.getNextNum string2l pos with
    | .error f => .ret (p.raise f)
    | .ok none => .ret (p.setParserStatus .error .protoError)
    | .ok (some v) =>
      let p := { p with multibulkLen := v, curPos := pos + 1, argv := [] }
      if p.curPos > p.length - 1 then .ret (p.setParserStatus .half) else .next p

/-- `if (bulk_len_ == -1) { ... }` in the loop of `ProcessMultibulkBuffer`. -/
def bulkHeader (p : RedisParser) : Flow :=
  match p.findNextSeparators with
  | .error f => .ret (p.raise f)
  | .ok none => .ret (p.setParserStatus .half)
  | .ok (some pos) =>
    if peek p.inputBuf p.curPos.toNat ≠ ch '$' then .ret (p.setParserStatus .error .protoError)
    else
      let p := p.record (.getNextNum p.curPos pos p.length)
      match p.getNextNum string2l pos with
      | .error f => .ret (p.raise f)
      | .ok none => .ret (p.setParserStatus .error .protoError)
      | .ok (some v) =>
        let p := { p with bulkLen := v, curPos := pos + 1 }
        if p.curPos > p.length - 1 then .ret (p.setParserStatus .half) else .next p

/-- The lines behind the loop of `ProcessMultibulkBuffer`. -/
def multibulkExit (p : RedisParser) : RedisParser :=
  if p.multibulkLen = 0 then p.setParserStatus .done else p.setParserStatus .half

/-- The second half of the loop body: `break` (which returns through `multibulkExit`) if the
payload is not complete, else one more argument. -/
def takeBulk (p : RedisParser) : Flow :=
  if p.bulkLen + 2 > LONG_MAX then .ret (p.raise .longOverflow)
  else if (p.length - 1) - p.curPos + 1 < p.bulkLen + 2 then .ret p.multibulkExit
  else
    let p := p.record (.emplaceBack p.curPos p.bulkLen p.length)
    if p.bulkLen < 0 then .ret (p.raise .lengthError)
    else if p.multibulkLen = LONG_MIN then .ret (p.raise .longOverflow)
    else .next { p with
      argv := p.argv ++ [(p.inputBuf.drop p.curPos.toNat).take p.bulkLen.toNat]
      curPos := p.curPos + p.bulkLen + 2
      bulkLen := -1
      multibulkLen := p.multibulkLen - 1 }

/-- The body of the loop of `ProcessMultibulkBuffer`. -/
def bulkTurn (p : RedisParser) : Flow :=
  match (if p.bulkLen = -1 then p.bulkHeader string2l else .next p) with
  | .ret p => .ret p
  | .next p => p.takeBulk

/-- The loop of `ProcessMultibulkBuffer` and the lines behind it. -/
def multibulkLoop : ℕ → RedisParser → RedisParser
  | 0, p => p.raise .fuel
  | n + 1, p =>
    let p := p.recordTurn .multibulk
    if p.multibulkLen = 0 then p.multibulkExit
    else
      match p.bulkTurn string2l with
      | .ret p => p
      | .next p => multibulkLoop n p

/-- An argument takes at least two bytes, so the loop has at most `length_` turns. -/
def processMultibulkBuffer (p : RedisParser) : RedisParser :=
  match (if p.multibulkLen = 0 then p.multibulkHeader string2l else .next p) with
  | .ret p => p
  | .next p => p.multibulkLoop string2l (p.length.toNat + 1)

def resetCommandStatus (p : RedisParser) : RedisParser :=
  { p with redisType := .unset, multibulkLen := 0, bulkLen := -1, halfArgv := [] }

def resetRedisParser (p : RedisParser) : RedisParser :=
  { p with curPos := 0, inputBuf := [], length := 0 }

/-- `if (!argv_.empty()) { ... }` of `ProcessRequestBuffer` and the reset behind it. -/
def deliver (p : RedisParser) : Flow :=
  if p.argv = [] then .next p.resetCommandStatus
  else
    let argv := p.argv
    let p := { p with argvs := p.argvs ++ [argv], argv := [] }
    match p.parserSettings.dealMessage with
    | none => .next p.resetCommandStatus
    | some dealMessage =>
      let r := dealMessage p.log argv
      let p := p.record (.dealMessage argv)
      if r ≠ 0 then .ret (p.setParserStatus .error .dealError) else .next p.resetCommandStatus

/-- `tolower` in the C locale. -/
def tolower (c : UInt8) : UInt8 := if ch 'A' ≤ c ∧ c ≤ ch 'Z' then c + 32 else c

/-- Lower-case the name of a command. -/
def lowerName : Argv → Argv
  | [] => []
  | name :: args => name.map tolower :: args

/-- The lines behind the loop of `ProcessRequestBuffer`. -/
def complete (p : RedisParser) : RedisParser :=
  match p.parserSettings.complete with
  | none => { p with argvs := [] }.setParserStatus .done
  | some complete =>
    let argvs := p.argvs.map lowerName
    let r := complete p.log argvs
    let p := { p with argvs := [] }.record (.complete argvs)
    if r ≠ 0 then p.setParserStatus .error .completeError else p.setParserStatus .done

/-- `if (!redis_type_) { ... }` of `ProcessRequestBuffer`. -/
def setRedisType (p : RedisParser) : RedisParser :=
  if p.redisType ≠ .unset then p
  else if peek p.inputBuf p.curPos.toNat = ch '*' then { p with redisType := .multibulk }
  else { p with redisType := .inline }

/-- Behind `ProcessInlineBuffer` or `ProcessMultibulkBuffer`: return unless the request is done. -/
def afterRequest (p : RedisParser) : Flow :=
  if p.fault ≠ none ∨ p.statusCode ≠ .done then .ret p else p.deliver

/-- The body of the loop of `ProcessRequestBuffer`. -/
def requestTurn (p : RedisParser) : Flow :=
  let p := (p.recordTurn .request).setRedisType
  if p.redisType = .inline then p.processInlineBuffer.afterRequest
  else (p.processMultibulkBuffer string2l).afterRequest

/-- The loop of `ProcessRequestBuffer` and the lines behind it. -/
def requestLoop : ℕ → RedisParser → RedisParser
  | 0, p => p.raise .fuel
  | n + 1, p =>
    if p.curPos ≤ p.length - 1 then
      match p.requestTurn string2l with
      | .ret p => p
      | .next p => requestLoop n p
    else p.complete

/-- A request takes at least one byte, so the loop has at most `length_` turns. -/
def processRequestBuffer (p : RedisParser) : RedisParser :=
  p.requestLoop string2l (p.length.toNat + 1)

def processResponseBuffer (p : RedisParser) : RedisParser := p.setParserStatus .done

def processInputBuffer (p : RedisParser) (inputBuf : Bytes) : RedisParser :=
  if p.fault ≠ none then p
  else if p.statusCode = .initDone ∨ p.statusCode = .half ∨ p.statusCode = .done then
    let buf := p.halfArgv ++ inputBuf
    let p := { p with inputBuf := buf, length := toInt32 buf.length }
    match p.redisParserType with
    | .request => (p.processRequestBuffer string2l).resetRedisParser
    | .response => p.processResponseBuffer.resetRedisParser
    | .other => p.setParserStatus .error .initError
  else p.setParserStatus .error .initError

/-- Feed a sequence of chunks. -/
def feed (p : RedisParser) (chunks : List Bytes) : RedisParser :=
  chunks.foldl (processInputBuffer string2l) p

end RedisParser

/-- A parser fresh from `RedisParserInit(REDIS_PARSER_REQUEST, settings)`. -/
def freshRequest (settings : RedisParserSettings) : RedisParser :=
  ({} : RedisParser).redisParserInit .request settings

/-- Callbacks that are set and return `0`. -/
def okSettings : RedisParserSettings := ⟨some fun _ _ => 0, some fun _ _ => 0⟩

/-- The commands passed to `DealMessage`, in order. -/
def dealt (log : List Event) : List Argv :=
  log.filterMap fun e => match e with | .dealMessage argv => some argv | _ => none

/-- The batches passed to `Complete`, in order. -/
def batches (log : List Event) : List (List Argv) :=
  log.filterMap fun e => match e with | .complete argvs => some argvs | _ => none

end Pink.Redis.Parser
