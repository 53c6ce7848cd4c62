import LiteHttp.ParseFeed

/-!
# One client connection

`client_data_t` with the nodes it points into, and `handle_client_fd` on it.
What the request handler and the socket answer is left to the event, so every
statement about runs holds whatever they do.
-/

namespace LiteHttp

set_option autoImplicit false

universe u

/-- The parser chain of `client_data_t`: its nodes, `ctx_beg` and `ctx_tail`. -/
structure ClientConn where
  heap : NodeHeap
  ctxBeg : Option NodeId
  ctxTail : NodeId
  deriving DecidableEq, Repr

def ClientConn.new : ClientConn := ⟨[some .new], some 0, 0⟩

/-- `http_parse_feed(&usrdata->ctx_tail, post)`. -/
def ClientConn.feed (b : Build) (alloc : Alloc) (c : ClientConn) (post : Bytes) :
    Except Fault (HttpErr × ClientConn) := do
  let (herr, heap, ctxTail) ← httpParseFeed b alloc c.heap c.ctxTail post
  return (herr, { c with heap := heap, ctxTail := ctxTail })

/-- `http_parse_pop_request_and_release(&usrdata->ctx_beg, &request)`. -/
def ClientConn.pop (c : ClientConn) : Except Fault (Option HttpRequest × ClientConn) := do
  let (request, heap, ctxBeg) ← httpParsePopRequestAndRelease c.heap c.ctxBeg
  return (request, { c with heap := heap, ctxBeg := ctxBeg })

/-- One turn of the loop of `read_client`: bytes with the allocator's answer to
their append, or an interrupted call that is made again. -/
inductive ReadStep where
  | data (bytes : Bytes) (allocOk : Bool)
  | eintr
  deriving DecidableEq, Repr

/-- The `read` that ends the loop: EAGAIN, end of file, or another error. -/
inductive ReadEnd where
  | again
  | eof
  | failed
  deriving DecidableEq, Repr

/-- `read_client`; the result of the append is not looked at. -/
def readClient (last : ReadEnd) : List ReadStep → Bytes → Except Fault (HttpErr × Bytes)
  | [], recStr =>
    match last with
    | .again => .ok (.success, recStr)
    | .eof => .ok (.clientClose, recStr)
    | .failed => .ok (.clientClose, recStr)
  | .eintr :: steps, recStr => readClient last steps recStr
  | .data bytes allocOk :: steps, recStr => do
    let (_, recStr) ← stringAppendView allocOk recStr bytes
    readClient last steps recStr

/-- What `handle_http_request` and `http_send_response` answer; the index counts
the requests of the event. -/
structure Handlers (Response : Type u) where
  handleHttpRequest : Nat → HttpRequest → HttpErr × Option Response
  httpSendResponse : Nat → Response → HttpErr

structure ClientEvent (Response : Type u) where
  reads : List ReadStep
  last : ReadEnd
  alloc : Alloc
  handlers : Handlers Response
  epollCtlOk : Bool

variable {Response : Type u}

/-- The `while` loop over finished requests. The first argument bounds its
rounds; every round releases a node. -/
def serveLoop (b : Build) (handlers : Handlers Response) :
    Nat → Nat → HttpErr → ClientConn → Except Fault (HttpErr × ClientConn)
  | 0, _, _, _ => .error .diverges
  | fuel + 1, k, herr, c => do
    let (request, c) ← c.pop
    match request with
    | none => return (herr, c)
    | some request =>
      let (herr, response) := handlers.handleHttpRequest k request
      if herr ≠ .success then return (herr, c)
      else
        assert b .responseNotNull response.isSome
        match response with
        | none => .error .undefined
        | some response =>
          let herr := handlers.httpSendResponse k response
          if herr ≠ .success then return (herr, c)
          else serveLoop b handlers fuel (k + 1) herr c

/-- `handle_client_fd`: the code and the connection, `none` once it is closed. -/
def handleClientFd (b : Build) (event : ClientEvent Response) (c : ClientConn) :
    Except Fault (HttpErr × Option ClientConn) := do
  let (herr, receivePost) ← readClient event.last event.reads []
  if herr = .clientClose then
    return (if event.epollCtlOk then herr else .epollCtlDel, none)
  else if herr ≠ .success then return (herr, some c)
  else
    let (herr, c) ← c.feed b event.alloc receivePost
    if herr = .requestFatal then return (herr, some c)
    else
      let (herr, c) ← serveLoop b event.handlers (c.heap.length + 1) 0 herr c
      return (herr, some c)

end LiteHttp
