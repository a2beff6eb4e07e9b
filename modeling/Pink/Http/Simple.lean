import Pink.Http.Request

/-! # The request of a simple connection

`Request` of `simple_http_conn.cc`: `ParseParameters`, which has the loop of
`HTTPRequest::ParseParameters` and fills one of two maps, `ParseGetUrl`, which cuts scheme and host
off the path, `ParseHeadFromArray` and `ParseBodyFromArray`. Unlike its counterpart of `HTTPRequest`,
`ParseGetUrl` takes the host by `headers["host"]` without a test, which inserts an empty host when
there is none. -/

namespace Pink.Http.Simple

open Pink.Redis.Wire Pink.Http.Request

/-- A `std::map<std::string, std::string>`. -/
abbrev Params := List (Bytes × Bytes)

structure Request where
  method : Bytes := []
  path : Bytes := []
  version : Bytes := []
  headers : Params := []
  queryParams : Params := []
  postParams : Params := []
  content : Bytes := []
  deriving DecidableEq, Repr

/-- `data.find(c, pre)`, with the size of the string for `npos`. -/
def findFrom (c : UInt8) (data : Bytes) (pre : ℕ) : ℕ := pre + findChar c (data.drop pre)

def substr (data : Bytes) (pos n : ℕ) : Bytes := (data.drop pos).take n

/-- The loop of `ParseParameters` on the map that it fills; without a result when it does not end
within `fuel` turns. -/
def parametersLoop (data : Bytes) : ℕ → ℕ → Params → Option Params
  | 0, _, _ => none
  | fuel + 1, pre, m =>
    if data.length ≤ pre then some m
    else
      let mid := findFrom (ch '=') data pre
      let stop := findFrom (ch '&') data pre
      if stop ≤ mid then
        -- empty value
        parametersLoop data fuel (stop + 1) (assign m (substr data pre (stop - pre)) [])
      else
        parametersLoop data fuel (stop + 1)
          (assign m (substr data pre (mid - pre)) (substr data (mid + 1) (stop - mid - 1)))

/-- `Request::ParseParameters`. Every turn goes forward in the string. -/
def parseParameters (r : Request) (data : Bytes) (lineStart : ℕ) (fromUrl : Bool) :
    Option Request :=
  if fromUrl then
    (parametersLoop data (data.length + 1) lineStart r.queryParams).map fun m =>
      { r with queryParams := m }
  else
    (parametersLoop data (data.length + 1) lineStart r.postParams).map fun m =>
      { r with postParams := m }

/-- `headers["host"]`: the entry, and the map with an empty one where there was none. -/
def takeHost (headers : Params) : Bytes × Params :=
  match lookup headers (bytes "host") with
  | some host => (host, headers)
  | none => ([], assign headers (bytes "host") [])

/-- The path of `ParseGetUrl` before the parameters are cut off. -/
def formatPath (path host : Bytes) : Bytes :=
  if (findSub host path).isSome ∧ 7 + host.length < path.length then path.drop (7 + host.length)
  else path

/-- `Request::ParseGetUrl`. -/
def parseGetUrl (r : Request) : Option Request :=
  let (host, headers) := takeHost r.headers
  let path := formatPath r.path host
  let n := findChar (ch '?') path
  if n = path.length then some { r with path := path, headers := headers }
  else
    (parseParameters { r with headers := headers } path (n + 1) true).map fun r =>
      { r with path := path.take n }

/-- `Request::Clear`. -/
def Request.clear (_ : Request) : Request := {}

/-! ### The head -/

/-- A line being read: the request and `*parseStatus`, with the local variables of
`ParseHeadLine`. -/
structure Line where
  req : Request
  parseStatus : RequestParserStatus := .headerMethod
  paramKey : Bytes := []
  paramValue : Bytes := []

variable (stringToLower : Bytes → Bytes)

/-- One character of a line. -/
def headChar (x : Line) (b : UInt8) : Line :=
  let r := x.req
  match x.parseStatus with
  | .headerMethod =>
    if b ≠ ch ' ' then { x with req := { r with method := r.method ++ [b] } }
    else { x with parseStatus := .headerPath }
  | .headerPath =>
    if b ≠ ch ' ' then { x with req := { r with path := r.path ++ [b] } }
    else { x with parseStatus := .headerVersion }
  | .headerVersion =>
    if b ≠ CR ∧ b ≠ LF then { x with req := { r with version := r.version ++ [b] } }
    else if b = LF then { x with parseStatus := .headerParamKey }
    else x
  | .headerParamKey =>
    if b ≠ ch ':' ∧ b ≠ ch ' ' then { x with paramKey := x.paramKey ++ [b] }
    else if b = ch ' ' then { x with parseStatus := .headerParamValue }
    else x
  | .headerParamValue =>
    if b ≠ CR ∧ b ≠ LF then { x with paramValue := x.paramValue ++ [b] }
    else if b = CR then
      { x with
        req := { r with headers := assign r.headers (stringToLower x.paramKey) x.paramValue }
        parseStatus := .headerParamKey }
    else x

/-- `Request::ParseHeadLine`; `kBody` is never assigned, so it returns true. -/
def parseHeadLine (r : Request) (st : RequestParserStatus) (line : Bytes) :
    Request × RequestParserStatus :=
  let x := line.foldl (headChar stringToLower) { req := r, parseStatus := st }
  (x.req, x.parseStatus)

/-- The loop of `ParseHeadFromArray` over the lines of `rest`. -/
def parseLines : ℕ → Request → RequestParserStatus → Bytes → Request
  | 0, r, _, _ => r
  | fuel + 1, r, st, rest =>
    if rest.length ≤ 4 then r
    else
      let n := findChar LF rest
      let (r, st) := parseHeadLine stringToLower r st (rest.take (n + 1))
      parseLines fuel r st (rest.drop (n + 1))

/-- `Request::ParseHeadFromArray`. -/
def parseHeadFromArray (r : Request) (data : Bytes) : Option Request :=
  if data.length ≤ 5 then none
  else parseGetUrl (parseLines stringToLower data.length r .headerMethod data)

/-! ### The body -/

/-- `headers[name]` of a header that is read: the value, and the map with an empty one where there was
none. -/
def takeHeader (headers : Params) (name : Bytes) : Bytes × Params :=
  match lookup headers name with
  | some value => (value, headers)
  | none => ([], assign headers name [])

/-- `Request::ParseBodyFromArray`. -/
def parseBodyFromArray (r : Request) (data : Bytes) : Option Request :=
  let r := { r with content := r.content ++ data }
  if r.method = bytes "POST" then
    let (contentType, headers) := takeHeader r.headers (bytes "content-type")
    let r := { r with headers := headers }
    if contentType = bytes "application/x-www-form-urlencoded" then
      parseParameters r r.content 0 false
    else some r
  else some r

end Pink.Http.Simple
