import LiteHttp.HttpTypes

/-!
# The parser node

`http_parse_ctx_t`, its cursor helpers and the two line parsers of
http_parse_dfa.c. A view is kept as the bytes it covered when it was stored.
-/

namespace LiteHttp

set_option autoImplicit false

inductive WaitState where
  | start
  | waitReq
  | waitHdr
  | waitFixBody
  | waitClen
  | waitCval
  | parseEnd
  deriving DecidableEq, Repr

inductive BodyType where
  | unset
  | fixed
  | chunked
  deriving DecidableEq, Repr

structure HttpRequest where
  method : HttpMethod
  path : Bytes
  version : HttpVersion
  headerList : List HttpHeader
  body : Bytes
  deriving DecidableEq, Repr

/-- `http_request_new`: the enumerators `calloc` leaves are the zero ones. -/
def HttpRequest.new : HttpRequest := ⟨.get, [], .ver10, [], []⟩

abbrev NodeId := Nat

structure HttpParseCtx where
  waitState : WaitState
  post : Bytes
  postFullLength : Nat
  cur : Nat
  nextLine : Nat
  requestLine : Bytes
  headerList : List Bytes
  bodyType : BodyType
  bodyLength : Nat
  bodyCur : Nat
  bodyView : Bytes
  httpRequest : HttpRequest
  nextCtx : Option NodeId
  deriving DecidableEq, Repr

/-- The node `http_parse_ctx_new` hands out. -/
def HttpParseCtx.new : HttpParseCtx where
  waitState := .start
  post := []
  postFullLength := 0
  cur := 0
  nextLine := 0
  requestLine := []
  headerList := []
  bodyType := .unset
  bodyLength := 0
  bodyCur := 0
  bodyView := []
  httpRequest := .new
  nextCtx := none

/-- The allocations one `http_parse_feed` call can make. The two pushes of a
header line are told apart by the loop counter; `next s` is site `s` once the
call has moved to a node it has just linked. -/
inductive AllocSite where
  | append
  | path
  | line (headerCnt : Nat)
  | header (headerCnt : Nat)
  | body
  | resize
  | nextNode
  | nextRequest
  | nextPost
  | next (site : AllocSite)
  deriving DecidableEq, Repr

/-- The allocator's answers during one call. -/
abbrev Alloc := AllocSite → Bool

/-- `cc_push`: null when the vector has to grow and cannot. -/
def ccPush {α : Type} (allocOk : Bool) (v : List α) (x : α) : Option (List α) :=
  if allocOk then some (v ++ [x]) else none

/-- The scan of `update_ctx_to_next_clrf`: the offset of the first CR LF pair. -/
def findClrf : Bytes → Option Nat
  | [] => none
  | c :: t => if c = cr ∧ t.head? = some lf then some 0 else (findClrf t).map (· + 1)

def updateCtxToNextClrf (ctx : HttpParseCtx) : HttpErr × HttpParseCtx :=
  match findClrf (ctx.post.drop ctx.nextLine) with
  | some i =>
    (.success, { ctx with cur := ctx.nextLine, nextLine := ctx.nextLine + i + 2 })
  | none => (.parseCannotFindClrf, ctx)

def getCtxLine (b : Build) (ctx : HttpParseCtx) : Except Fault Nat := do
  assert b .lineCursor (ctx.cur + 2 ≤ ctx.nextLine)
  return sizeSub (sizeSub ctx.nextLine ctx.cur) 2

def getCtxFocusLine (b : Build) (ctx : HttpParseCtx) : Except Fault Bytes := do
  assert b .focusCursor (ctx.cur + 2 ≤ ctx.nextLine)
  return (ctx.post.drop ctx.cur).take (sizeSub (sizeSub ctx.nextLine ctx.cur) 2)

/-- `pos_next_token`: length of the token that starts at `thisToken` and the
position after its separator; `none` is `http_err_parse_cannot_find_space`. -/
def posNextToken (view : Bytes) (c : Byte) (thisToken : Nat) : Option (Nat × Nat) :=
  ((view.drop thisToken).idxOf? c).map fun i => (i, thisToken + i + 1)

def parseRequestLine (b : Build) (pathOk : Bool) (ctx : HttpParseCtx) :
    Except Fault (HttpErr × HttpParseCtx) := do
  let request := ctx.httpRequest
  let requestLineSv := ctx.requestLine
  match posNextToken requestLineSv space 0 with
  | none =>
    let request := { request with method := .unkown, version := .unkown }
    return (.parseCannotFindSpace, { ctx with httpRequest := request })
  | some (tokenLen, nextToken) =>
    assert b .tokenBeforeNextLine (nextToken ≤ ctx.nextLine)
    assert b .tokenAfterCur (ctx.cur ≤ nextToken)
    let methodSv := stringViewSubstr requestLineSv 0 tokenLen
    assert b .methodLength (methodSv.length = tokenLen)
    let request := { request with method := httpMatchMethod methodSv }
    let curToken := nextToken
    match posNextToken requestLineSv space curToken with
    | none => return (.parseCannotFindSpace, { ctx with httpRequest := request })
    | some (tokenLen, nextToken) =>
      assert b .tokenBeforeNextLine (nextToken ≤ ctx.nextLine)
      assert b .tokenAfterCur (ctx.cur ≤ nextToken)
      let pathSv := stringViewSubstr requestLineSv curToken tokenLen
      let (ok, path) ← stringInitFromStringView pathOk pathSv
      let request := { request with path := path }
      if !ok then return (.malloc, { ctx with httpRequest := request })
      else
        let versionSv := stringViewSubstr requestLineSv nextToken
          (sizeSub (sizeSub ctx.nextLine 2) nextToken)
        let request := { request with version := httpMatchVersion versionSv }
        return (.success, { ctx with httpRequest := request })

/-- `header_line_update_body_type`. The case of Content-Type reads the union
through its `connection` member. -/
def headerLineUpdateBodyType (header : HttpHeader) (ctx : HttpParseCtx) :
    HttpErr × HttpParseCtx :=
  match header.field with
  | .contentLength =>
    if header.value.hasParsedType then
      (.success, { ctx with
        bodyType := .fixed
        bodyLength := (header.value.parsed.contentLength % (sizeMod : Int)).toNat })
    else (.success, ctx)
  | .transferEncoding =>
    if header.value.hasParsedType ∧
        header.value.parsed.firstWord = TransferEncodingType.chunked.toNat then
      (.success, { ctx with bodyType := .chunked })
    else (.success, ctx)
  | .contentType =>
    if !header.value.hasParsedType then (.success, ctx)
    else if header.value.parsed.firstWord = ConnectionType.keepAlive.toNat then
      (.requestKeepAlive, ctx)
    else if header.value.parsed.firstWord = ConnectionType.close.toNat then
      (.requestWantToClose, ctx)
    else (.success, ctx)
  | _ => (.success, ctx)

/-- The header `parse_header_line` builds from a key and a value; a value that
does not parse degrades the field to unknown. -/
def newHeader (keySv valueSv : Bytes) : HttpErr × HttpHeader :=
  let field := httpMatchHeaderField keySv
  let header := { HttpHeader.zero with field := field }
  let header := if field = .unkown then { header with name := keySv } else header
  let (herr, header) := httpHdrParseValue header valueSv
  if herr ≠ .success then (herr, { header with field := .unkown, name := keySv })
  else (herr, header)

def parseHeaderLine (pushOk : Bool) (ctx : HttpParseCtx) : HttpErr × HttpParseCtx :=
  let headerSv := ctx.headerList.getLast?.getD []
  match posNextToken headerSv colon 0 with
  | none => (.parseCannotFindSpace, ctx)
  | some (tokenLen, nextToken) =>
    let keySv := stringViewSubstr headerSv 0 tokenLen
    -- past a colon that ends the line this reads the CR behind it
    let curToken := if headerSv[nextToken]? = some space then nextToken + 1 else nextToken
    let valueSv := stringViewSubstr headerSv curToken npos
    let (herr, header) := newHeader keySv valueSv
    match ccPush pushOk ctx.httpRequest.headerList header with
    | none => (.malloc, ctx)
    | some headerList =>
      let ctx := { ctx with httpRequest := { ctx.httpRequest with headerList := headerList } }
      (herr, (headerLineUpdateBodyType header ctx).2)

end LiteHttp
