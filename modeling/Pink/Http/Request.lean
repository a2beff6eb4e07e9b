import Pink.Redis.Wire

/-! # Parsing a request

The part of `HTTPRequest` that looks at bytes: `ParseHeader` finds the end of the header block in
the receive buffer, cuts it into lines, runs the state machine of `ParseHeadLine` over each of them,
splits the target into path and parameters and takes the headers it knows.

The buffer `rbuf_` is given by its first `rbuf_pos_` bytes. `slash::StringToLower`, which is not part
of this repository, is a parameter of the parser. -/

namespace Pink.Http.Request

open Pink.Redis.Wire

def kHTTPMaxMessage : ℕ := 1024 * 1024 * 8
def kHTTPMaxHeader : ℕ := 1024 * 1024

/-! ### Strings and maps of the standard library -/

/-- The C string at the beginning of a buffer. -/
def cstr (s : Bytes) : Bytes := s.takeWhile (· ≠ 0)

/-- `std::map::operator[]` with an assignment: the entries are sorted by key. -/
def assign (m : List (Bytes × Bytes)) (k v : Bytes) : List (Bytes × Bytes) :=
  match m with
  | [] => [(k, v)]
  | (k', v') :: m =>
    if k = k' then (k, v) :: m
    else if k < k' then (k, v) :: (k', v') :: m
    else (k', v') :: assign m k v

/-- `std::map::find`. -/
def lookup (m : List (Bytes × Bytes)) (k : Bytes) : Option Bytes :=
  (m.find? (·.1 = k)).map (·.2)

/-- `std::string::find` and `strstr`: the first place of `pat` in `s`. -/
def findSub (pat : Bytes) : Bytes → Option ℕ
  | [] => if pat = [] then some 0 else none
  | b :: s => if pat.isPrefixOf (b :: s) then some 0 else (findSub pat s).map (· + 1)

/-- The first place of a character, or the end. -/
def findChar (c : UInt8) (s : Bytes) : ℕ := s.findIdx (· = c)

def isSpace (b : UInt8) : Bool := b = 32 ∨ (9 ≤ b ∧ b ≤ 13)

def isDigit (b : UInt8) : Bool := 48 ≤ b ∧ b ≤ 57

/-- The value of a string of decimal digits. -/
def digitsValue (s : Bytes) : ℕ := s.foldl (fun n b => 10 * n + (b.toNat - 48)) 0

/-- `std::stoul`: leading white space, an optional sign, and as many digits as there are; a minus
sign negates modulo `2 ^ 64`. There is no value when an exception is thrown. -/
def stoul (s : Bytes) : Option ℕ :=
  let t := (cstr s).dropWhile isSpace
  let neg := t.head? = some (ch '-')
  let t := if neg ∨ t.head? = some (ch '+') then t.tail else t
  let digits := t.takeWhile isDigit
  if digits = [] then none
  else if 2 ^ 64 ≤ digitsValue digits then none
  else if neg then some ((2 ^ 64 - digitsValue digits) % 2 ^ 64)
  else some (digitsValue digits)

/-! ### The state of a request -/

inductive RequestParserStatus
  | headerMethod | headerPath | headerVersion | headerParamKey | headerParamValue
  deriving DecidableEq, Repr

inductive RequestStatus
  | newRequest | headerReceiving | bodyReceiving | bodyReceived
  deriving DecidableEq, Repr

structure HTTPRequest where
  method : Bytes := []
  url : Bytes := []
  path : Bytes := []
  version : Bytes := []
  contentType : Bytes := []
  reply100continue : Bool := false
  queryParams : List (Bytes × Bytes) := []
  headers : List (Bytes × Bytes) := []
  reqStatus : RequestStatus := .newRequest
  parseStatus : RequestParserStatus := .headerMethod
  /-- The first `rbuf_pos_` bytes of `rbuf_`. -/
  rbuf : Bytes := []
  remainRecvLen : ℕ := 0
  deriving DecidableEq, Repr

/-- `HTTPRequest::Reset`, which leaves `req_status_` as it is. -/
def HTTPRequest.reset (r : HTTPRequest) : HTTPRequest := { reqStatus := r.reqStatus }

/-! ### Lines -/

/-- A line being read: the request with the local variables of `ParseHeadLine`. -/
structure Line where
  req : HTTPRequest
  paramKey : Bytes := []
  paramValue : Bytes := []

variable (stringToLower : Bytes → Bytes)

/-- One character of a line. -/
def headChar (x : Line) (b : UInt8) : Line :=
  let r := x.req
  match r.parseStatus with
  | .headerMethod =>
    if b ≠ ch ' ' then { x with req := { r with method := r.method ++ [b] } }
    else { x with req := { r with parseStatus := .headerPath } }
  | .headerPath =>
    if b ≠ ch ' ' then { x with req := { r with url := r.url ++ [b] } }
    else { x with req := { r with parseStatus := .headerVersion } }
  | .headerVersion =>
    if b ≠ CR ∧ b ≠ LF then { x with req := { r with version := r.version ++ [b] } }
    else if b = LF then { x with req := { r with parseStatus := .headerParamKey } }
    else x
  | .headerParamKey =>
    if b ≠ ch ':' ∧ b ≠ ch ' ' then { x with paramKey := x.paramKey ++ [b] }
    else if b = ch ' ' then { x with req := { r with parseStatus := .headerParamValue } }
    else x
  | .headerParamValue =>
    if b ≠ CR ∧ b ≠ LF then { x with paramValue := x.paramValue ++ [b] }
    else if b = CR then
      { x with req := { r with
        headers := assign r.headers (stringToLower x.paramKey) x.paramValue
        parseStatus := .headerParamKey } }
    else x

/-- `HTTPRequest::ParseHeadLine`; the five states are all there are, so it returns true. -/
def parseHeadLine (r : HTTPRequest) (line : Bytes) : HTTPRequest :=
  (line.foldl (headChar stringToLower) { req := r }).req

/-- The loop of `ParseHeader` over the lines of `rest`, the part of the header block from
`line_start` on; `find_lf` gives the length of a line. Each turn consumes a byte, so `fuel` turns are
enough for as many bytes. -/
def parseLines : ℕ → HTTPRequest → Bytes → HTTPRequest
  | 0, r, _ => r
  | fuel + 1, r, rest =>
    if rest.length ≤ 4 then r
    else
      let n := findChar LF rest
      parseLines fuel (parseHeadLine stringToLower r (rest.take (n + 1))) (rest.drop (n + 1))

/-! ### The target -/

/-- The loop of `ParseParameters` over the part of the string from `pre` on. -/
def parseParametersLoop : ℕ → List (Bytes × Bytes) → Bytes → List (Bytes × Bytes)
  | 0, m, _ => m
  | fuel + 1, m, rest =>
    if rest = [] then m
    else
      let mid := findChar (ch '=') rest
      let stop := findChar (ch '&') rest
      let m :=
        if stop ≤ mid then assign m (rest.take stop) []
        else assign m (rest.take mid) ((rest.drop (mid + 1)).take (stop - mid - 1))
      parseParametersLoop fuel m (rest.drop (stop + 1))

/-- `HTTPRequest::ParseParameters`. -/
def parseParameters (r : HTTPRequest) (data : Bytes) (lineStart : ℕ) : HTTPRequest :=
  let rest := data.drop lineStart
  { r with queryParams := parseParametersLoop rest.length r.queryParams rest }

/-- The path of `ParseGetUrl` before the parameters are cut off. -/
def formatPath (r : HTTPRequest) : Bytes :=
  match lookup r.headers (bytes "host") with
  | some host =>
    if (findSub host r.url).isSome ∧ 7 + host.length < r.url.length then r.url.drop (7 + host.length)
    else r.url
  | none => r.url

/-- `HTTPRequest::ParseGetUrl`. -/
def parseGetUrl (r : HTTPRequest) : HTTPRequest :=
  let path := formatPath r
  let n := findChar (ch '?') path
  if n = path.length then { r with path := path }
  else { parseParameters r path (n + 1) with path := path.take n }

/-! ### The header block -/

/-- What `ParseHeader` returns: 0, -1 or the length of the header block; or it throws. -/
inductive Parsed
  | incomplete
  | malformed
  | header (len : ℕ)
  | exception
  deriving DecidableEq, Repr

/-- The headers that `ParseHeader` takes over at its end. -/
def takeHeaders (r : HTTPRequest) (contentLength : ℕ) : HTTPRequest :=
  let expect := lookup r.headers (bytes "expect")
  { r with
    remainRecvLen := contentLength
    contentType := (lookup r.headers (bytes "content-type")).getD r.contentType
    reply100continue := r.reply100continue ||
      decide (expect = some (bytes "100-Continue") ∨ expect = some (bytes "100-continue")) }

/-- `HTTPRequest::ParseHeader`. The terminating zero stands behind the first `rbuf_pos_` bytes, so
`strstr` sees the C string at their beginning. -/
def parseHeader (r : HTTPRequest) : HTTPRequest × Parsed :=
  match findSub [CR, LF, CR, LF] (cstr r.rbuf) with
  | none => (r, .incomplete)
  | some sepPos =>
    let headerLen := sepPos + 4
    if headerLen ≤ 5 then (r, .malformed)
    else
      let r := parseGetUrl (parseLines stringToLower headerLen r (r.rbuf.take headerLen))
      match (lookup r.headers (bytes "content-length")).elim (some 0) stoul with
      | none => (r, .exception)
      | some contentLength => (takeHeaders r contentLength, .header headerLen)

/-! ### Frames -/

section

variable {stringToLower}

/-- What the parser leaves alone. -/
def SameBuffer (r r' : HTTPRequest) : Prop := r'.rbuf = r.rbuf ∧ r'.reqStatus = r.reqStatus

theorem SameBuffer.trans {r r' r'' : HTTPRequest} (h : SameBuffer r r') (h' : SameBuffer r' r'') :
    SameBuffer r r'' := ⟨h'.1.trans h.1, h'.2.trans h.2⟩

theorem headChar_same (x : Line) (b : UInt8) :
    SameBuffer x.req (headChar stringToLower x b).req := by
  unfold headChar
  dsimp only
  split <;> split_ifs <;> exact ⟨rfl, rfl⟩

theorem parseHeadLine_same (r : HTTPRequest) (line : Bytes) :
    SameBuffer r (parseHeadLine stringToLower r line) := by
  have h : ∀ (line : Bytes) (x : Line),
      SameBuffer x.req (line.foldl (headChar stringToLower) x).req := by
    intro line
    induction line with
    | nil => exact fun x => ⟨rfl, rfl⟩
    | cons b line ih => exact fun x => (headChar_same x b).trans (ih _)
  exact h line { req := r }

theorem parseLines_same (fuel : ℕ) (r : HTTPRequest) (rest : Bytes) :
    SameBuffer r (parseLines stringToLower fuel r rest) := by
  induction fuel generalizing r rest with
  | zero => exact ⟨rfl, rfl⟩
  | succ fuel ih =>
    unfold parseLines
    split_ifs
    · exact ⟨rfl, rfl⟩
    · exact (parseHeadLine_same r _).trans (ih _ _)

theorem parseGetUrl_same (r : HTTPRequest) : SameBuffer r (parseGetUrl r) := by
  unfold parseGetUrl
  dsimp only
  split_ifs <;> exact ⟨rfl, rfl⟩

theorem parseHeader_same (r : HTTPRequest) : SameBuffer r (parseHeader stringToLower r).1 := by
  unfold parseHeader
  split
  · exact ⟨rfl, rfl⟩
  · dsimp only
    split_ifs
    · exact ⟨rfl, rfl⟩
    · split <;> exact (parseLines_same _ r _).trans (parseGetUrl_same _)

end

end Pink.Http.Request
