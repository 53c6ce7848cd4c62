import LiteHttp.ParseCtx

/-!
# Feeding a node

`http_parse_feed`, one definition for each of its labels, and the chain of
nodes it works on. The labels take a node and say how control leaves them;
`httpParseFeed` puts them on the heap.
-/

namespace LiteHttp

set_option autoImplicit false

/-- How control leaves a label: a return, or the glued-packet branch of `end`. -/
inductive Exit where
  | ret (herr : HttpErr) (ctx : HttpParseCtx)
  | glued (ctx : HttpParseCtx)
  deriving DecidableEq, Repr

def labelEnd (b : Build) (ctx : HttpParseCtx) : Except Fault Exit := do
  assert b .endCursor (ctx.postFullLength = ctx.nextLine)
  if ctx.nextLine < ctx.postFullLength then
    assert b .endGlued (ctx.postFullLength < ctx.post.length)
    return .glued ctx
  else
    assert b .endLength (ctx.postFullLength = ctx.post.length)
    return .ret .success { ctx with waitState := .parseEnd }

def labelWaitCval (b : Build) (ctx : HttpParseCtx) : Except Fault Exit :=
  labelEnd b { ctx with waitState := .waitCval }

def labelWaitClen (b : Build) (ctx : HttpParseCtx) : Except Fault Exit :=
  labelWaitCval b { ctx with waitState := .waitClen }

def labelWaitFixBody (b : Build) (alloc : Alloc) (ctx : HttpParseCtx) : Except Fault Exit := do
  let ctx := { ctx with
    waitState := .waitFixBody
    bodyCur := 0
    postFullLength := sizeAdd ctx.cur ctx.bodyLength }
  if ctx.post.length < ctx.postFullLength then
    return .ret .requestTcpSegmentInBody ctx
  else
    let ctx := { ctx with nextLine := sizeAdd ctx.cur ctx.bodyLength }
    let ctx := { ctx with
      bodyView := stringViewSubstr ctx.post ctx.cur (sizeSub ctx.nextLine ctx.cur) }
    assert b .bodyViewLength (ctx.bodyView.length = ctx.bodyLength)
    let (ok, body) ← stringInitFromStringView (alloc .body) ctx.bodyView
    let ctx := { ctx with httpRequest := { ctx.httpRequest with body := body } }
    if !ok then return .ret .malloc ctx
    else labelEnd b ctx

/-- The `switch` on the body type behind the header loop. -/
def bodySwitch (b : Build) (alloc : Alloc) (ctx : HttpParseCtx) : Except Fault Exit :=
  match ctx.bodyType with
  | .unset => labelEnd b { ctx with postFullLength := ctx.nextLine }
  | .fixed => labelWaitFixBody b alloc ctx
  | .chunked => labelWaitClen b ctx

/-- How control leaves the header loop: a return from its body, or the statement
behind it with the value of the counter. -/
inductive LoopExit where
  | ret (herr : HttpErr) (ctx : HttpParseCtx)
  | done (headerCnt : Nat) (ctx : HttpParseCtx)
  deriving DecidableEq, Repr

/-- `for (; header_cnt <= 100; ++header_cnt)`, with `left` rounds to go. -/
def headerLoop (b : Build) (alloc : Alloc) : Nat → HttpParseCtx → Except Fault LoopExit
  | 0, ctx => .ok (.done 101 ctx)
  | left + 1, ctx => do
    let headerCnt := 100 - left
    let (herr, ctx) := updateCtxToNextClrf ctx
    if herr = .parseCannotFindClrf then return .ret herr ctx
    else
      let line ← getCtxLine b ctx
      if line = 0 then
        assert b .blankCr (ctx.post[ctx.cur]? = some cr)
        assert b .blankLf (ctx.post[ctx.cur + 1]? = some lf)
        return .done headerCnt { ctx with cur := ctx.cur + 2 }
      else
        let hdrSv ← getCtxFocusLine b ctx
        match ccPush (alloc (.line headerCnt)) ctx.headerList hdrSv with
        | none => return .ret .malloc ctx
        | some headerList =>
          let (herr, ctx) :=
            parseHeaderLine (alloc (.header headerCnt)) { ctx with headerList := headerList }
          if herr = .requestFatal then return .ret herr ctx
          else headerLoop b alloc left ctx

def labelWaitHdr (b : Build) (alloc : Alloc) (ctx : HttpParseCtx) : Except Fault Exit := do
  match ← headerLoop b alloc 100 { ctx with waitState := .waitHdr } with
  | .ret herr ctx => return .ret herr ctx
  | .done headerCnt ctx =>
    if headerCnt = 100 then return .ret .requestFatal ctx
    else bodySwitch b alloc ctx

def labelWaitReq (b : Build) (alloc : Alloc) (ctx : HttpParseCtx) : Except Fault Exit := do
  let ctx := { ctx with waitState := .waitReq }
  let (herr, ctx) := updateCtxToNextClrf ctx
  if herr = .parseCannotFindClrf then return .ret herr ctx
  else
    let requestLine ← getCtxFocusLine b ctx
    let ctx := { ctx with requestLine := requestLine }
    let (herr, ctx) ← parseRequestLine b (alloc .path) ctx
    -- every other error of the request line falls through to the headers
    if herr = .requestFatal then return .ret herr ctx
    else labelWaitHdr b alloc ctx

/-- The `switch` on the wait state at the head of `http_parse_feed`. -/
def resume (b : Build) (alloc : Alloc) (ctx : HttpParseCtx) : Except Fault Exit :=
  match ctx.waitState with
  | .start => labelWaitReq b alloc ctx
  | .waitReq => labelWaitReq b alloc ctx
  | .waitHdr => labelWaitHdr b alloc ctx
  | .waitFixBody => labelWaitFixBody b alloc ctx
  | .waitClen => labelWaitClen b ctx
  | .waitCval => labelWaitCval b ctx
  | .parseEnd => labelEnd b ctx

/-- The nodes ever allocated, by identity; `none` is a released node. -/
abbrev NodeHeap := List (Option HttpParseCtx)

def NodeHeap.deref (h : NodeHeap) (n : NodeId) : Except Fault HttpParseCtx :=
  match h[n]? with
  | some (some ctx) => .ok ctx
  | _ => .error .undefined

def NodeHeap.update (h : NodeHeap) (n : NodeId) (ctx : HttpParseCtx) : NodeHeap :=
  h.set n (some ctx)

/-- `http_parse_ctx_free_node`. -/
def NodeHeap.free (h : NodeHeap) (n : NodeId) : NodeHeap := h.set n none

/-- `http_parse_ctx_new`. The half-built node of a failed request allocation is
not kept: nothing reads it. -/
def httpParseCtxNew (nodeOk requestOk : Bool) (h : NodeHeap) : Option (NodeId × NodeHeap) :=
  if nodeOk && requestOk then some (h.length, h ++ [some .new]) else none

/-- What happens to the heap and to `*ptail` once a label of node `n` is left.
Each round of the glued-packet branch links a new node and goes back to
`wait_req`; the first argument bounds the rounds. -/
def settle (b : Build) (post : Bytes) :
    Nat → Alloc → NodeHeap → NodeId → NodeId → Exit → Except Fault (HttpErr × NodeHeap × NodeId)
  | _, _, h, tail, n, .ret herr ctx =>
    .ok (herr, h.update n ctx, if herr = .success then n else tail)
  | 0, _, _, _, _, .glued _ => .error .diverges
  | fuel + 1, alloc, h, tail, n, .glued ctx => do
    let ctx := { ctx with post := (stringResize (alloc .resize) ctx.post ctx.postFullLength).2 }
    match httpParseCtxNew (alloc .nextNode) (alloc .nextRequest) h with
    | none => return (.requestFatal, h.update n { ctx with nextCtx := none }, tail)
    | some (m, h) =>
      let bias := sizeSub ctx.bodyLength ctx.postFullLength
      let h := h.update n { ctx with nextCtx := some m }
      let (ok, nextPost) ←
        stringInitFromStringView (alloc .nextPost) (stringViewSubstr post bias npos)
      let next := { HttpParseCtx.new with post := nextPost }
      if !ok then return (.malloc, h.update m next, tail)
      else
        let alloc := fun site => alloc (.next site)
        let exit ← labelWaitReq b alloc next
        settle b post fuel alloc h tail m exit

/-- `http_parse_feed`: the code, the heap and `*ptail`. -/
def httpParseFeed (b : Build) (alloc : Alloc) (h : NodeHeap) (tail : NodeId) (post : Bytes) :
    Except Fault (HttpErr × NodeHeap × NodeId) := do
  let ctx ← h.deref tail
  let (ok, newPost) ← stringAppendView (alloc .append) ctx.post post
  if !ok then return (.malloc, h, tail)
  else
    let exit ← resume b alloc { ctx with post := newPost }
    settle b post 1 alloc h tail tail exit

/-- `http_parse_pop_request_and_release`: the request of a finished head, the
heap and `*head`. -/
def httpParsePopRequestAndRelease (h : NodeHeap) (head : Option NodeId) :
    Except Fault (Option HttpRequest × NodeHeap × Option NodeId) :=
  match head with
  | none => .ok (none, h, none)
  | some n => do
    let ctx ← h.deref n
    if ctx.waitState ≠ .parseEnd then return (none, h, head)
    else return (some ctx.httpRequest, h.free n, ctx.nextCtx)

end LiteHttp
