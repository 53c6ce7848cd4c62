import LiteHttp.Stored
import LiteHttp.Dispatch
import LiteHttp.Send
import LiteHttp.Lib.Run

/-!
# A connection and the memory its views point into

Feeds, pops, requests handled and responses sent, in any order. What a pop or a
handler hands out is kept: no code of a connection frees a request or a response.
-/

namespace LiteHttp

open Buffers

set_option autoImplicit false

/-- Where a header value of the GET handler points: at a literal or at the local array. -/
def View.pointee (numbuf : Id) : View → Pointee
  | .live bytes => .literal bytes.length
  | .deadFrame len => .into ⟨numbuf, 0, len⟩
  | .mapFailed len => .mapFailed len

/-- Where the view of a resource points. A lookup that finds its path leaves the null view it was
given, so a mapping that is viewed was made by the same call. -/
def ResView.place (m : Memory) (res : ResView) : Pointee × Memory :=
  match res.data with
  | .null => (.null, m)
  | .failed => (.mapFailed res.len, m)
  | .mapped _ => (.into ⟨m.fresh, 0, res.len⟩, m.make)

/-- A response with where the values of its headers and its body point. -/
structure StoredResponse where
  response : HttpResponse
  values : List Pointee
  body : Pointee
  deriving DecidableEq, Repr

/-- `http_method_get_handler`. Its `numbuf` is gone when it returns; what it maps stays. -/
def storedGetHandler (b : Build) (m : Memory) (env : GetEnv) (request : HttpRequest) :
    Except Fault (HttpErr × Memory × Option StoredResponse) := do
  let numbuf := m.fresh
  let m := m.make
  assert b .getMethod (request.method = .get)
  let (herr, path) ← getAbsoluePath env.path request.path
  if herr ≠ .success then return (herr, m.release numbuf, none)
  else
    let (result, _) ← getResourceCached b env.getter (resourceKey path) ⟨.null, 0⟩ env.lookup
    let (body, m) := result.res.place m
    if result.herr ≠ .success then return (result.herr, m.release numbuf, none)
    else
      let (herr, status) := httpSetStatus 200
      if herr ≠ .success then return (herr, m.release numbuf, none)
      else
        let (herr, response) ← okResponse env status result.res
        return (herr, m.release numbuf, response.map fun response =>
          ⟨response, response.headerList.map fun header => header.valueSv.pointee numbuf, body⟩)

/-- `handle_http_request`. -/
def storedHandle (b : Build) (m : Memory) (env : GetEnv) (request : HttpRequest) :
    Except Fault (HttpErr × Memory × Option StoredResponse) :=
  match request.method with
  | .get => do
    let (_, m, res) ← storedGetHandler b m env request
    return (.success, m, res)
  | _ => .ok (.requestUnkownMethod, m, none)

/-- The parser chain of a connection, the requests popped off it and the responses to them. -/
structure StoredConn where
  memory : Memory
  heap : StoredHeap
  ctxBeg : Option NodeId
  ctxTail : NodeId
  requests : List StoredRequest
  responses : List StoredResponse
  deriving DecidableEq, Repr

/-- The first node is in the only block. -/
def StoredConn.new : StoredConn := ⟨⟨[true]⟩, [some (.new 0)], some 0, 0, [], []⟩

/-- What happens on a connection, with the answers of the system to it. -/
inductive ConnEvent where
  /-- `http_parse_feed`, and whether a post that grows moves. -/
  | feed (alloc : Alloc) (moves : Bool) (post : Bytes)
  | pop
  /-- `handle_http_request` on a request that was popped. -/
  | handle (request : Nat) (env : GetEnv)
  /-- `http_send_response` of a response there is. -/
  | send (response : Nat) (alloc : Nat → Bool) (frame : Frame) (write : Option Nat)

inductive ConnAnswer where
  | code (herr : HttpErr)
  | popped (request : Bool)
  deriving DecidableEq, Repr

def StoredConn.step (b : Build) (c : StoredConn) :
    ConnEvent → Except Fault (ConnAnswer × StoredConn)
  | .feed alloc moves post => do
    let (herr, memory, heap, ctxTail) ← storedFeed b alloc moves c.memory c.heap c.ctxTail post
    return (.code herr, { c with memory := memory, heap := heap, ctxTail := ctxTail })
  | .pop => do
    let (request, memory, heap, ctxBeg) ← storedPop c.memory c.heap c.ctxBeg
    return (.popped request.isSome, { c with
      memory := memory
      heap := heap
      ctxBeg := ctxBeg
      requests := c.requests ++ request.toList })
  | .handle k env =>
    match c.requests[k]? with
    | none => .error .undefined
    | some request => do
      let (herr, memory, response) ← storedHandle b c.memory env request.request
      return (.code herr, { c with
        memory := memory
        responses := c.responses ++ response.toList })
  | .send k alloc frame write =>
    match c.responses[k]? with
    | none => .error .undefined
    | some response => do
      let (herr, _) ← httpSendResponse alloc frame write response.response
      return (.code herr, c)

/-- The view refers to a live buffer; the null view and a literal need none. -/
def Pointee.Live (m : Memory) : Pointee → Prop
  | .null => True
  | .literal _ => True
  | .into span => m.Live span.buffer
  | .mapFailed _ => False

instance (m : Memory) (p : Pointee) : Decidable (p.Live m) := by
  cases p <;> unfold Pointee.Live <;> infer_instance

/-- The views of a parser node. -/
def StoredCtx.views (n : StoredCtx) : List Pointee := n.requestLine :: n.bodyView :: n.headerList

/-- The views of a request: the values and the names of its headers. -/
def StoredRequest.views (request : StoredRequest) : List Pointee :=
  request.headers.flatMap fun views => [views.name, views.value]

def StoredResponse.views (response : StoredResponse) : List Pointee :=
  response.body :: response.values

/-- Every view that can still be reached refers to a live buffer. -/
structure StoredConn.ViewsLive (c : StoredConn) : Prop where
  nodes : ∀ n, some n ∈ c.heap → ∀ p ∈ n.views, p.Live c.memory
  requests : ∀ request ∈ c.requests, ∀ p ∈ request.views, p.Live c.memory
  responses : ∀ response ∈ c.responses, ∀ p ∈ response.views, p.Live c.memory

/-- The step leaves no view behind: a post moves only while no view of it is stored, a request is
popped whose headers are all of a known field and have an empty value, a response has no
Content-Length and its body is no failed mapping. -/
def StoredConn.Safe (b : Build) (c : StoredConn) : ConnEvent → Prop
  | .feed alloc moves _ =>
    alloc .append = true → moves = true → ∀ n, c.heap[c.ctxTail]? = some (some n) →
      n.ctx.waitState = .start ∨ n.ctx.waitState = .waitReq
  | .pop =>
    ∀ k n, c.ctxBeg = some k → c.heap[k]? = some (some n) → n.ctx.waitState = .parseEnd →
      ∀ header ∈ n.ctx.httpRequest.headerList, header.field ≠ .unkown ∧ header.value.valueSv = []
  | .handle k env =>
    ∀ request res, c.requests[k]? = some request → request.request.method = .get →
      env.callocOk = true → env.pushType = true → Looks b env request.request res →
      env.pushLength = false ∧ res.data ≠ .failed
  | .send .. => True

section Erase

variable (b : Build) (m : Memory) (env : GetEnv) (request : HttpRequest)

theorem storedGetHandler_erase :
    (fun r => (r.1, r.2.2.map StoredResponse.response)) <$> storedGetHandler b m env request =
      httpMethodGetHandler b env request := by
  unfold storedGetHandler httpMethodGetHandler
  rw [map_bind]
  apply bind_congr
  intro _
  rw [map_bind]
  apply bind_congr
  intro built
  obtain ⟨code, path⟩ := built
  simp only
  split
  · rfl
  · rw [map_bind]
    apply bind_congr
    intro looked
    obtain ⟨result, getter⟩ := looked
    simp only
    split
    · rfl
    · split
      · rfl
      · rw [map_bind]
        refine (bind_congr fun r => ?_).trans (bind_pure _)
        obtain ⟨herr, response⟩ := r
        cases response with
        | none => rfl
        | some response => rfl

/-- `handle_http_request` answers the same whatever the memory is. -/
theorem storedHandle_erase :
    (fun r => (r.1, r.2.2.map StoredResponse.response)) <$> storedHandle b m env request =
      handleHttpRequest b env request := by
  unfold storedHandle handleHttpRequest
  cases request.method with
  | get =>
    simp only
    rw [← storedGetHandler_erase b m env request, bind_map_left, map_bind]
    apply bind_congr
    intro r
    rfl
  | _ => rfl

/-- The parser chain without its places. -/
def StoredConn.chain (c : StoredConn) : ClientConn := ⟨c.heap.erase, c.ctxBeg, c.ctxTail⟩

/-- A feed of the connection is `http_parse_feed` on its chain. -/
theorem step_feed_erase (c : StoredConn) (alloc : Alloc) (moves : Bool) (post : Bytes) :
    (fun r => r.2.chain) <$> c.step b (.feed alloc moves post) =
      Prod.snd <$> c.chain.feed b alloc post := by
  unfold StoredConn.step ClientConn.feed
  simp only [StoredConn.chain]
  rw [← storedFeed_erase b alloc moves c.memory c.heap c.ctxTail post, bind_map_left, map_bind,
    map_bind]
  apply bind_congr
  intro r
  rfl

/-- A pop of the connection is `http_parse_pop_request_and_release` on its chain. -/
theorem step_pop_erase (c : StoredConn) :
    (fun r => r.2.chain) <$> c.step b .pop = Prod.snd <$> c.chain.pop := by
  unfold StoredConn.step ClientConn.pop
  simp only [StoredConn.chain]
  rw [← storedPop_erase c.memory c.heap c.ctxBeg, bind_map_left, map_bind, map_bind]
  apply bind_congr
  intro r
  rfl

end Erase

end LiteHttp
