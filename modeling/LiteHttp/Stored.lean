import LiteHttp.Node
import LiteHttp.Lib.Buffers

/-!
# The parser and the memory its views point into

The labels of `http_parse_feed` once more, with the place every stored view points
to. The bytes are those of the labels without places: forgetting the places gives
them back.
-/

namespace LiteHttp

open Buffers

set_option autoImplicit false

/-- Where a `string_view_t` points. The null pointer and a literal belong to no buffer. -/
inductive Pointee where
  | null
  | literal (len : Nat)
  | into (span : Span)
  /-- MAP_FAILED is no address of a buffer. -/
  | mapFailed (len : Nat)
  deriving DecidableEq, Repr

/-- `data` of a `string_t`: null in an all-zero struct, the buffer inside it, or a block. -/
inductive PostData where
  | null
  | small
  | block (b : Id)
  deriving DecidableEq, Repr

/-- The views of an `http_header_t`. -/
structure HeaderViews where
  name : Pointee
  value : Pointee
  deriving DecidableEq, Repr

/-- An `http_parse_ctx_t` in its block `self`, with where its views point and those of its
request's headers. -/
structure StoredCtx where
  ctx : HttpParseCtx
  self : Id
  post : PostData
  requestLine : Pointee
  headerList : List Pointee
  bodyView : Pointee
  headers : List HeaderViews
  deriving DecidableEq, Repr

/-- `http_parse_ctx_new`; calloc leaves the post an all-zero struct. -/
def StoredCtx.new (self : Id) : StoredCtx := ⟨.new, self, .null, .null, [], .null, []⟩

namespace PostData

/-- The buffer `data` points into, for a string inside the block `self`. -/
def buffer (self : Id) : PostData → Option Id
  | null => none
  | small => some self
  | block b => some b

/-- `malloc` or `realloc` of `string_append_view`. -/
def grow (moves : Bool) (m : Memory) : PostData → PostData × Memory
  | null => (block m.fresh, m.make)
  | small => (block m.fresh, m.make)
  | block b => (block (m.realloc moves b).1, (m.realloc moves b).2)

/-- What `string_resize` does to `data` where it succeeds. -/
def resize (moves : Bool) (m : Memory) (len newLen : Nat) (post : PostData) : PostData × Memory :=
  if newLen = 0 then
    match post with
    | block b => (small, m.release b)
    | _ => (small, m)
  else if newLen < len + 1 then (post, m)
  else
    match post with
    | small => if newLen < smallBufSize then (small, m) else (block m.fresh, m.make)
    | _ => post.grow moves m

/-- `string_init_from_string_view`; null where the memory is missing. -/
def init (ok : Bool) (m : Memory) (len : Nat) : PostData × Memory :=
  if len < smallBufSize then (small, m)
  else if ok then (block m.fresh, m.make) else (null, m)

end PostData

/-- `string_view_substr`, of a view of the bytes `sv`. -/
def Pointee.substr (sv : Bytes) (pos len : Nat) (at' : Pointee) : Pointee :=
  if sv.length ≤ pos then .literal 0
  else
    let subLen := (stringViewSubstr sv pos len).length
    match at' with
    | .null => .null
    | .literal _ => .literal subLen
    | .into span => .into ⟨span.buffer, span.off + pos, subLen⟩
    | .mapFailed _ => .mapFailed subLen

/-- A view of the bytes `sv` that lie at `off` of the post. -/
def StoredCtx.view (n : StoredCtx) (off : Nat) (sv : Bytes) : Pointee :=
  match n.post.buffer n.self with
  | none => .null
  | some b => .into ⟨b, off, sv.length⟩

/-- The views of the header `parse_header_line` builds; one whose field is known keeps no name. -/
def headerViews (headerSv : Bytes) (headerAt : Pointee) (tokenLen nextToken : Nat) : HeaderViews :=
  let curToken := if headerSv[nextToken]? = some space then nextToken + 1 else nextToken
  let (_, header) :=
    newHeader (stringViewSubstr headerSv 0 tokenLen) (stringViewSubstr headerSv curToken npos)
  ⟨if header.field = .unkown then headerAt.substr headerSv 0 tokenLen else .null,
    headerAt.substr headerSv curToken npos⟩

namespace StoredCtx

/-- `parse_header_line`. -/
def parseHeaderLine (pushOk : Bool) (n : StoredCtx) : HttpErr × StoredCtx :=
  let headerSv := n.ctx.headerList.getLast?.getD []
  let headerAt := n.headerList.getLast?.getD .null
  let (herr, ctx) := LiteHttp.parseHeaderLine pushOk n.ctx
  match posNextToken headerSv colon 0 with
  | none => (herr, { n with ctx := ctx })
  | some (tokenLen, nextToken) =>
    if pushOk then
      (herr, { n with
        ctx := ctx
        headers := n.headers ++ [headerViews headerSv headerAt tokenLen nextToken] })
    else (herr, { n with ctx := ctx })

end StoredCtx

/-- `Exit` with the node where it is stored. -/
inductive StoredExit where
  | ret (herr : HttpErr) (n : StoredCtx)
  | glued (n : StoredCtx)
  deriving DecidableEq, Repr

inductive StoredLoopExit where
  | ret (herr : HttpErr) (n : StoredCtx)
  | done (headerCnt : Nat) (n : StoredCtx)
  deriving DecidableEq, Repr

/-- A label that stores no view is left with those there were. -/
def Exit.within (n : StoredCtx) : Exit → StoredExit
  | .ret herr ctx => .ret herr { n with ctx := ctx }
  | .glued ctx => .glued { n with ctx := ctx }

namespace StoredCtx

def labelEnd (b : Build) (n : StoredCtx) : Except Fault StoredExit := do
  let exit ← LiteHttp.labelEnd b n.ctx
  return exit.within n

def labelWaitClen (b : Build) (n : StoredCtx) : Except Fault StoredExit := do
  let exit ← LiteHttp.labelWaitClen b n.ctx
  return exit.within n

def labelWaitCval (b : Build) (n : StoredCtx) : Except Fault StoredExit := do
  let exit ← LiteHttp.labelWaitCval b n.ctx
  return exit.within n

/-- The body is viewed once all of it is there. -/
def labelWaitFixBody (b : Build) (alloc : Alloc) (n : StoredCtx) : Except Fault StoredExit := do
  let stop := sizeAdd n.ctx.cur n.ctx.bodyLength
  let exit ← LiteHttp.labelWaitFixBody b alloc n.ctx
  if n.ctx.post.length < stop then return exit.within n
  else
    let bodyView := (n.view 0 n.ctx.post).substr n.ctx.post n.ctx.cur (sizeSub stop n.ctx.cur)
    return exit.within { n with bodyView := bodyView }

def bodySwitch (b : Build) (alloc : Alloc) (n : StoredCtx) : Except Fault StoredExit :=
  match n.ctx.bodyType with
  | .unset => labelEnd b { n with ctx := { n.ctx with postFullLength := n.ctx.nextLine } }
  | .fixed => labelWaitFixBody b alloc n
  | .chunked => labelWaitClen b n

def headerLoop (b : Build) (alloc : Alloc) : Nat → StoredCtx → Except Fault StoredLoopExit
  | 0, n => .ok (.done 101 n)
  | left + 1, n => do
    let headerCnt := 100 - left
    let (herr, ctx) := updateCtxToNextClrf n.ctx
    let n := { n with ctx := ctx }
    if herr = .parseCannotFindClrf then return .ret herr n
    else
      let line ← getCtxLine b n.ctx
      if line = 0 then
        assert b .blankCr (n.ctx.post[n.ctx.cur]? = some cr)
        assert b .blankLf (n.ctx.post[n.ctx.cur + 1]? = some lf)
        return .done headerCnt { n with ctx := { n.ctx with cur := n.ctx.cur + 2 } }
      else
        let hdrSv ← getCtxFocusLine b n.ctx
        match ccPush (alloc (.line headerCnt)) n.ctx.headerList hdrSv with
        | none => return .ret .malloc n
        | some headerList =>
          let (herr, n) := parseHeaderLine (alloc (.header headerCnt)) { n with
            ctx := { n.ctx with headerList := headerList }
            headerList := n.headerList ++ [n.view n.ctx.cur hdrSv] }
          if herr = .requestFatal then return .ret herr n else headerLoop b alloc left n

def labelWaitHdr (b : Build) (alloc : Alloc) (n : StoredCtx) : Except Fault StoredExit := do
  match ← headerLoop b alloc 100 { n with ctx := { n.ctx with waitState := .waitHdr } } with
  | .ret herr n => return .ret herr n
  | .done headerCnt n =>
    if headerCnt = 100 then return .ret .requestFatal n else bodySwitch b alloc n

def labelWaitReq (b : Build) (alloc : Alloc) (n : StoredCtx) : Except Fault StoredExit := do
  let (herr, ctx) := updateCtxToNextClrf { n.ctx with waitState := .waitReq }
  let n := { n with ctx := ctx }
  if herr = .parseCannotFindClrf then return .ret herr n
  else
    let requestLine ← getCtxFocusLine b n.ctx
    let n := { n with requestLine := n.view n.ctx.cur requestLine }
    let (herr, ctx) ← parseRequestLine b (alloc .path) { n.ctx with requestLine := requestLine }
    let n := { n with ctx := ctx }
    if herr = .requestFatal then return .ret herr n else labelWaitHdr b alloc n

def resume (b : Build) (alloc : Alloc) (n : StoredCtx) : Except Fault StoredExit :=
  match n.ctx.waitState with
  | .start => labelWaitReq b alloc n
  | .waitReq => labelWaitReq b alloc n
  | .waitHdr => labelWaitHdr b alloc n
  | .waitFixBody => labelWaitFixBody b alloc n
  | .waitClen => labelWaitClen b n
  | .waitCval => labelWaitCval b n
  | .parseEnd => labelEnd b n

end StoredCtx

/-- The nodes ever allocated; `none` is a released node. -/
abbrev StoredHeap := List (Option StoredCtx)

def StoredHeap.deref (h : StoredHeap) (n : NodeId) : Except Fault StoredCtx :=
  match h[n]? with
  | some (some node) => .ok node
  | _ => .error .undefined

def StoredHeap.update (h : StoredHeap) (n : NodeId) (node : StoredCtx) : StoredHeap :=
  h.set n (some node)

/-- What happens behind the labels of node `n`: `settle`, with the memory of what it allocates. -/
def storedSettle (b : Build) (moves : Bool) (post : Bytes) :
    Nat → Alloc → Memory → StoredHeap → NodeId → NodeId → StoredExit →
      Except Fault (HttpErr × Memory × StoredHeap × NodeId)
  | _, _, m, h, tail, n, .ret herr node =>
    .ok (herr, m, h.update n node, if herr = .success then n else tail)
  | 0, _, _, _, _, _, .glued _ => .error .diverges
  | fuel + 1, alloc, m, h, tail, n, .glued node => do
    let (resized, cut) := stringResize (alloc .resize) node.ctx.post node.ctx.postFullLength
    let (data, m) := if resized then
        node.post.resize moves m node.ctx.post.length node.ctx.postFullLength
      else (node.post, m)
    let node := { node with ctx := { node.ctx with post := cut }, post := data }
    if (alloc .nextNode && alloc .nextRequest) = false then
      let node := { node with ctx := { node.ctx with nextCtx := none } }
      return (.requestFatal, m, h.update n node, tail)
    else
      let next := h.length
      let self := m.fresh
      let bias := sizeSub node.ctx.bodyLength node.ctx.postFullLength
      let nextSv := stringViewSubstr post bias npos
      let h : StoredHeap := h ++ [some (.new self)]
      let h := h.update n { node with ctx := { node.ctx with nextCtx := some next } }
      let (ok, nextPost) ← stringInitFromStringView (alloc .nextPost) nextSv
      let (data, m) := PostData.init ok m.make nextSv.length
      let nextNode := { StoredCtx.new self with
        ctx := { HttpParseCtx.new with post := nextPost }
        post := data }
      if !ok then return (.malloc, m, h.update next nextNode, tail)
      else
        let alloc := fun site => alloc (.next site)
        let exit ← nextNode.labelWaitReq b alloc
        storedSettle b moves post fuel alloc m h tail next exit

/-- `http_parse_feed`. A growing post stays where it is or moves. -/
def storedFeed (b : Build) (alloc : Alloc) (moves : Bool) (m : Memory) (h : StoredHeap)
    (tail : NodeId) (post : Bytes) : Except Fault (HttpErr × Memory × StoredHeap × NodeId) := do
  let node ← h.deref tail
  let (ok, newPost) ← stringAppendView (alloc .append) node.ctx.post post
  if !ok then return (.malloc, m, h, tail)
  else
    let (data, m) := node.post.grow moves m
    let exit ← StoredCtx.resume b alloc
      { node with ctx := { node.ctx with post := newPost }, post := data }
    storedSettle b moves post 1 alloc m h tail tail exit

/-- A request with where the views of its headers point. -/
structure StoredRequest where
  request : HttpRequest
  headers : List HeaderViews
  deriving DecidableEq, Repr

/-- `http_parse_ctx_free_node`: the post's block and the node's. -/
def StoredCtx.free (n : StoredCtx) (m : Memory) : Memory :=
  match n.post with
  | .block b => (m.release b).release n.self
  | _ => m.release n.self

/-- `http_parse_pop_request_and_release`. -/
def storedPop (m : Memory) (h : StoredHeap) (head : Option NodeId) :
    Except Fault (Option StoredRequest × Memory × StoredHeap × Option NodeId) :=
  match head with
  | none => .ok (none, m, h, none)
  | some n => do
    let node ← h.deref n
    if node.ctx.waitState ≠ .parseEnd then return (none, m, h, head)
    else
      return (some ⟨node.ctx.httpRequest, node.headers⟩, node.free m, h.set n none,
        node.ctx.nextCtx)

section Erase

def StoredExit.erase : StoredExit → Exit
  | .ret herr n => .ret herr n.ctx
  | .glued n => .glued n.ctx

def StoredLoopExit.erase : StoredLoopExit → LoopExit
  | .ret herr n => .ret herr n.ctx
  | .done headerCnt n => .done headerCnt n.ctx

def StoredHeap.erase (h : StoredHeap) : NodeHeap := h.map (Option.map StoredCtx.ctx)

@[simp] theorem erase_within (n : StoredCtx) (exit : Exit) : (exit.within n).erase = exit := by
  cases exit <;> rfl

variable (b : Build) (alloc : Alloc) (n : StoredCtx)

theorem parseHeaderLine_erase (pushOk : Bool) :
    (n.parseHeaderLine pushOk).1 = (parseHeaderLine pushOk n.ctx).1 ∧
      (n.parseHeaderLine pushOk).2.ctx = (parseHeaderLine pushOk n.ctx).2 := by
  unfold StoredCtx.parseHeaderLine
  simp only
  split
  · exact ⟨rfl, rfl⟩
  · cases pushOk with
    | false => exact ⟨rfl, rfl⟩
    | true => exact ⟨rfl, rfl⟩

theorem labelEnd_erase : StoredExit.erase <$> n.labelEnd b = labelEnd b n.ctx := by
  simp [StoredCtx.labelEnd]

theorem labelWaitClen_erase : StoredExit.erase <$> n.labelWaitClen b = labelWaitClen b n.ctx := by
  simp [StoredCtx.labelWaitClen]

theorem labelWaitCval_erase : StoredExit.erase <$> n.labelWaitCval b = labelWaitCval b n.ctx := by
  simp [StoredCtx.labelWaitCval]

theorem labelWaitFixBody_erase :
    StoredExit.erase <$> n.labelWaitFixBody b alloc = labelWaitFixBody b alloc n.ctx := by
  simp only [StoredCtx.labelWaitFixBody, map_bind]
  split
  · simp
  · simp

theorem bodySwitch_erase : StoredExit.erase <$> n.bodySwitch b alloc = bodySwitch b alloc n.ctx := by
  unfold StoredCtx.bodySwitch
  split
  · rename_i hbody
    rw [bodySwitch_unset b alloc hbody]
    exact labelEnd_erase b _
  · rename_i hbody
    rw [bodySwitch_fixed b alloc hbody]
    exact labelWaitFixBody_erase b alloc n
  · rename_i hbody
    rw [bodySwitch_chunked b alloc hbody]
    exact labelWaitClen_erase b n

theorem headerLoop_erase (left : Nat) :
    StoredLoopExit.erase <$> n.headerLoop b alloc left = headerLoop b alloc left n.ctx := by
  induction left generalizing n with
  | zero => rfl
  | succ left ih =>
    unfold StoredCtx.headerLoop headerLoop
    generalize updateCtxToNextClrf n.ctx = u
    obtain ⟨herr, ctx⟩ := u
    simp only
    split
    · rfl
    · simp only [map_bind]
      apply bind_congr
      intro line
      split
      · simp only [map_bind]
        rfl
      · simp only [map_bind]
        apply bind_congr
        intro hdrSv
        cases ccPush (alloc (.line (100 - left))) ctx.headerList hdrSv with
        | none => rfl
        | some headerList =>
          simp only
          obtain ⟨hherr, hctx⟩ := parseHeaderLine_erase { n with
              ctx := { ctx with headerList := headerList }
              headerList := n.headerList ++ [{ n with ctx := ctx }.view ctx.cur hdrSv] }
            (alloc (.header (100 - left)))
          simp only at hherr hctx
          rw [← hherr, ← hctx]
          split
          · rfl
          · exact ih _

theorem labelWaitHdr_erase :
    StoredExit.erase <$> n.labelWaitHdr b alloc = labelWaitHdr b alloc n.ctx := by
  simp only [StoredCtx.labelWaitHdr, labelWaitHdr, map_bind]
  rw [← headerLoop_erase b alloc { n with ctx := { n.ctx with waitState := .waitHdr } },
    bind_map_left]
  apply bind_congr
  intro e
  cases e with
  | ret herr m => rfl
  | done headerCnt m =>
    simp only [StoredLoopExit.erase]
    split
    · rfl
    · exact bodySwitch_erase b alloc m

theorem labelWaitReq_erase :
    StoredExit.erase <$> n.labelWaitReq b alloc = labelWaitReq b alloc n.ctx := by
  unfold StoredCtx.labelWaitReq labelWaitReq
  simp only
  generalize updateCtxToNextClrf _ = u
  obtain ⟨herr, ctx⟩ := u
  simp only
  split
  · rfl
  · simp only [map_bind]
    apply bind_congr
    intro requestLine
    apply bind_congr
    intro parsed
    split
    · rfl
    · exact labelWaitHdr_erase b alloc _

theorem resume_erase : StoredExit.erase <$> n.resume b alloc = resume b alloc n.ctx := by
  unfold StoredCtx.resume resume
  cases n.ctx.waitState with
  | start => exact labelWaitReq_erase b alloc n
  | waitReq => exact labelWaitReq_erase b alloc n
  | waitHdr => exact labelWaitHdr_erase b alloc n
  | waitFixBody => exact labelWaitFixBody_erase b alloc n
  | waitClen => exact labelWaitClen_erase b n
  | waitCval => exact labelWaitCval_erase b n
  | parseEnd => exact labelEnd_erase b n

@[simp] theorem erase_update (h : StoredHeap) (k : NodeId) (node : StoredCtx) :
    (h.update k node).erase = h.erase.update k node.ctx := by
  simp [StoredHeap.erase, StoredHeap.update, NodeHeap.update, List.map_set]

@[simp] theorem erase_append (h : StoredHeap) (node : StoredCtx) :
    StoredHeap.erase (h ++ [some node]) = h.erase ++ [some node.ctx] := by simp [StoredHeap.erase]

@[simp] theorem erase_length (h : StoredHeap) : h.erase.length = h.length := List.length_map _

theorem deref_erase (h : StoredHeap) (k : NodeId) :
    StoredCtx.ctx <$> h.deref k = h.erase.deref k := by
  unfold StoredHeap.deref NodeHeap.deref StoredHeap.erase
  rw [List.getElem?_map]
  rcases h[k]? with _ | _ | node
  · rfl
  · rfl
  · rfl

/-- The result of a feed without the memory. -/
def eraseFeed (r : HttpErr × Memory × StoredHeap × NodeId) : HttpErr × NodeHeap × NodeId :=
  (r.1, r.2.2.1.erase, r.2.2.2)

theorem storedSettle_erase (moves : Bool) (post : Bytes) (fuel : Nat) (m : Memory) (h : StoredHeap)
    (tail k : NodeId) (exit : StoredExit) :
    eraseFeed <$> storedSettle b moves post fuel alloc m h tail k exit =
      settle b post fuel alloc h.erase tail k exit.erase := by
  induction fuel generalizing alloc m h k exit with
  | zero =>
    cases exit with
    | ret herr node => simp [storedSettle, settle, StoredExit.erase, eraseFeed]
    | glued node => rfl
  | succ fuel ih =>
    cases exit with
    | ret herr node => simp [storedSettle, settle, StoredExit.erase, eraseFeed]
    | glued node =>
      simp only [storedSettle, settle, StoredExit.erase, httpParseCtxNew]
      cases hnew : alloc .nextNode && alloc .nextRequest with
      | false => simp [eraseFeed]
      | true =>
        simp only [Bool.true_eq_false, if_false, if_true, map_bind]
        apply bind_congr
        intro r
        obtain ⟨ok, nextPost⟩ := r
        cases ok with
        | false =>
          simp only [Bool.not_false, if_true, map_pure, eraseFeed, erase_update, erase_append,
            erase_length]
          rfl
        | true =>
          simp only [Bool.not_true, Bool.false_eq_true, if_false, map_bind, erase_length]
          generalize hnode : ({ StoredCtx.new _ with
            ctx := { HttpParseCtx.new with post := nextPost }
            post := _ } : StoredCtx) = nextNode
          have hctx : nextNode.ctx = { HttpParseCtx.new with post := nextPost } := by rw [← hnode]
          rw [← hctx, ← labelWaitReq_erase b _ nextNode, bind_map_left]
          apply bind_congr
          intro exit
          rw [ih, erase_update, erase_append]
          rfl

/-- `http_parse_feed` does the same whatever the memory is. -/
theorem storedFeed_erase (moves : Bool) (m : Memory) (h : StoredHeap) (tail : NodeId)
    (post : Bytes) :
    eraseFeed <$> storedFeed b alloc moves m h tail post =
      httpParseFeed b alloc h.erase tail post := by
  unfold storedFeed httpParseFeed
  rw [← deref_erase, bind_map_left, map_bind]
  apply bind_congr
  intro node
  rw [map_bind]
  apply bind_congr
  intro r
  obtain ⟨ok, newPost⟩ := r
  cases ok with
  | false => rfl
  | true =>
    simp only [Bool.not_true, Bool.false_eq_true, if_false, map_bind]
    generalize hnode : ({ node with
      ctx := { node.ctx with post := newPost }
      post := _ } : StoredCtx) = grown
    have hctx : grown.ctx = { node.ctx with post := newPost } := by rw [← hnode]
    rw [← hctx, ← resume_erase b alloc grown, bind_map_left]
    apply bind_congr
    intro exit
    exact storedSettle_erase b alloc moves post 1 _ h tail tail exit

/-- So does `http_parse_pop_request_and_release`. -/
theorem storedPop_erase (m : Memory) (h : StoredHeap) (head : Option NodeId) :
    (fun r => (r.1.map StoredRequest.request, r.2.2.1.erase, r.2.2.2)) <$> storedPop m h head =
      httpParsePopRequestAndRelease h.erase head := by
  cases head with
  | none => rfl
  | some k =>
    simp only [storedPop, httpParsePopRequestAndRelease]
    rw [← deref_erase, bind_map_left, map_bind]
    apply bind_congr
    intro node
    split
    · rfl
    · simp [StoredHeap.erase, NodeHeap.free, List.map_set]

end Erase

end LiteHttp
