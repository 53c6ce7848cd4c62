import LiteHttp.Message
import LiteHttp.KeepAlive

/-!
# The nodes that read a message

While a message comes in, the node is a function of the bytes received and of
the header lines it has taken: `headNode` in front of a line, `bodyNode` in front
of the body. One lemma for each label says where these nodes go.
-/

namespace LiteHttp

open Delim

set_option autoImplicit false

/-- A fresh node whose buffer holds `p`. -/
def fresh (p : Bytes) : HttpParseCtx := { HttpParseCtx.new with post := p }

theorem takeLine_with_post (ctx : HttpParseCtx) (ok : Bool) (l p : Bytes) :
    ({ ctx with post := p } : HttpParseCtx).takeLine ok l =
      { ctx.takeLine ok l with post := p } := by
  rw [takeLine_eq, takeLine_eq]
  cases headerOf l with
  | none => rfl
  | some h => cases ok <;> rfl

theorem takeLines_with_post (ctx : HttpParseCtx) (ls : List Bytes) (p : Bytes) :
    ({ ctx with post := p } : HttpParseCtx).takeLines ls = { ctx.takeLines ls with post := p } := by
  induction ls generalizing ctx with
  | nil => rfl
  | cons l ls ih => rw [takeLines_cons, takeLine_with_post, ih, takeLines_cons]

theorem takeLines_append (ctx : HttpParseCtx) (ls ms : List Bytes) :
    ctx.takeLines (ls ++ ms) = (ctx.takeLines ls).takeLines ms := List.foldl_append

theorem takeLines_cur_le {ctx : HttpParseCtx} (h : ctx.cur ≤ ctx.nextLine) (ls : List Bytes) :
    (ctx.takeLines ls).cur ≤ (ctx.takeLines ls).nextLine := by
  induction ls generalizing ctx with
  | nil => exact h
  | cons l ls ih =>
    rw [takeLines_cons]
    apply ih
    rw [takeLine_cur, takeLine_nextLine]
    omega

theorem with_waitState {ctx : HttpParseCtx} {s : WaitState} (h : ctx.waitState = s) :
    ({ ctx with waitState := s } : HttpParseCtx) = ctx := by
  subst h
  rfl

namespace WireRequest

variable (m : WireRequest)

def lineRequest : HttpRequest :=
  { HttpRequest.new with
    method := httpMatchMethod m.method
    path := m.path
    version := httpMatchVersion m.version }

/-- The node that has taken the request line and the header lines `ls`. -/
def headNode (p : Bytes) (ls : List Bytes) : HttpParseCtx :=
  ({ (fresh p).behindLine m.requestLine m.lineRequest with waitState := .waitHdr } :
    HttpParseCtx).takeLines ls

/-- The node behind the blank line. -/
def bodyNode (p : Bytes) : HttpParseCtx :=
  { (m.headNode p m.lines).toLine [] with cur := (m.headNode p m.lines).nextLine + 2 }

section HeadNode

variable (p q : Bytes) (ls ms : List Bytes)

@[simp] theorem headNode_waitState : (m.headNode p ls).waitState = .waitHdr := by
  rw [headNode, takeLines_waitState]

@[simp] theorem headNode_post : (m.headNode p ls).post = p := by
  rw [headNode, takeLines_post]
  rfl

@[simp] theorem headNode_nextCtx : (m.headNode p ls).nextCtx = none := by
  rw [headNode, takeLines_nextCtx]
  rfl

@[simp] theorem headNode_nextLine :
    (m.headNode p ls).nextLine = (unlines cr lf (m.requestLine :: ls)).length := by
  have hnext : ({ (fresh p).behindLine m.requestLine m.lineRequest with
      waitState := .waitHdr } : HttpParseCtx).nextLine = 0 + m.requestLine.length + 2 := rfl
  rw [headNode, takeLines_nextLine, hnext, unlines_cons, List.length_append, List.length_cons,
    List.length_cons]
  omega

theorem headNode_framing :
    (m.headNode p ls).framing = ls.foldl (fun f l => frameLine l f) .none := by
  rw [headNode, takeLines_framing]
  rfl

theorem headNode_httpRequest : (m.headNode p ls).httpRequest =
    { m.lineRequest with headerList := ls.filterMap parsedHeader } := by
  rw [headNode, takeLines_httpRequest]
  rfl

theorem headNode_with_post :
    ({ m.headNode p ls with post := q } : HttpParseCtx) = m.headNode q ls := by
  rw [headNode, headNode, ← takeLines_with_post]
  rfl

theorem headNode_append : (m.headNode p ls).takeLines ms = m.headNode p (ls ++ ms) := by
  rw [headNode, headNode, takeLines_append]

theorem headNode_cur_le : (m.headNode p ls).cur ≤ (m.headNode p ls).nextLine :=
  takeLines_cur_le (Nat.zero_le _) ls

variable {p ls} {u : Bytes} (hp : p = unlines cr lf (m.requestLine :: ls) ++ u)
include hp

theorem headNode_unread : (m.headNode p ls).unread = u := by
  rw [HttpParseCtx.unread, headNode_nextLine, headNode_post, hp, List.drop_left]

theorem headNode_sized (hlt : p.length < ptrdiffMax) : (m.headNode p ls).Sized := by
  refine ⟨m.headNode_cur_le p ls, ?_, by rwa [headNode_post]⟩
  rw [headNode_nextLine, headNode_post, hp, List.length_append]
  omega

end HeadNode

@[simp] theorem bodyNode_post (p : Bytes) : (m.bodyNode p).post = p := m.headNode_post p m.lines

theorem head_length :
    m.head.length = (unlines cr lf (m.requestLine :: m.lines)).length + 2 := by
  rw [head, List.length_append]
  rfl

@[simp] theorem bodyNode_nextLine (p : Bytes) : (m.bodyNode p).nextLine = m.head.length := by
  have h : (m.bodyNode p).nextLine = (m.headNode p m.lines).nextLine + 2 := rfl
  rw [h, headNode_nextLine, head_length]

@[simp] theorem bodyNode_cur (p : Bytes) : (m.bodyNode p).cur = m.head.length :=
  m.bodyNode_nextLine p

@[simp] theorem bodyNode_nextCtx (p : Bytes) : (m.bodyNode p).nextCtx = none :=
  m.headNode_nextCtx p m.lines

@[simp] theorem bodyNode_waitState (p : Bytes) : (m.bodyNode p).waitState = .waitHdr :=
  m.headNode_waitState p m.lines

theorem bodyNode_with_post (p q : Bytes) :
    ({ m.bodyNode p with post := q } : HttpParseCtx) = m.bodyNode q := by
  rw [bodyNode, bodyNode, ← m.headNode_with_post p q]
  rfl

section Labels

variable {m} (b : Build) {p u : Bytes}

theorem labelWaitReq_line (hp : p = m.requestLine ++ cr :: lf :: u) (hlt : p.length < 2 ^ 30) :
    labelWaitReq b allOk (fresh p) =
      labelWaitHdr b allOk ((fresh p).behindLine m.requestLine m.lineRequest) := by
  have hsized : ({ fresh p with waitState := .waitReq } : HttpParseCtx).Sized :=
    ⟨Nat.le_refl _, Nat.zero_le _, show p.length < ptrdiffMax by unfold ptrdiffMax; omega⟩
  have hcut : cutLine ({ fresh p with waitState := .waitReq } : HttpParseCtx).unread =
      some (m.requestLine, u) := by
    have hunread : ({ fresh p with waitState := .waitReq } : HttpParseCtx).unread = p := rfl
    rw [hunread, hp]
    exact cut_record (by decide) m.requestLine_free u
  have hlen : p.length = m.requestLine.length + 2 + u.length := by
    rw [hp, List.length_append, List.length_cons, List.length_cons]
    omega
  have hpath : m.path.length ≤ m.requestLine.length := by
    simp only [requestLine, List.length_append, List.length_cons]
    omega
  have hline : parseRequestLine b true
      { ({ fresh p with waitState := .waitReq } : HttpParseCtx).toLine m.requestLine with
        requestLine := m.requestLine } =
      .ok (.success, (fresh p).behindLine m.requestLine m.lineRequest) := by
    have hnext : ({ ({ fresh p with waitState := .waitReq } : HttpParseCtx).toLine
        m.requestLine with requestLine := m.requestLine } : HttpParseCtx).nextLine =
        m.requestLine.length + 2 := by
      show 0 + m.requestLine.length + 2 = m.requestLine.length + 2
      rw [Nat.zero_add]
    refine parseRequestLine_parts b m.method_token m.path_token (storable_of_lt (by omega)) rfl rfl
      hnext ?_
    rw [hnext]
    unfold sizeMod
    omega
  unfold labelWaitReq
  simp only [updateCtxToNextClrf_line hcut, getCtxFocusLine_toLine b hsized hcut, reduceCtorEq,
    if_false, bind, Except.bind, allOk]
  rw [hline]
  rfl

theorem labelWaitHdr_block {ctx : HttpParseCtx} (ls : List Bytes) (hs : ctx.Sized)
    (hctx : ({ ctx with waitState := .waitHdr } : HttpParseCtx) = m.headNode p ls) :
    labelWaitHdr b allOk ctx =
      behindLoop b allOk (blockExit 100 (m.headNode p ls) (collect cr lf 100 ctx.unread)) := by
  rw [labelWaitHdr_collect b hs, hctx]

theorem blockExit_open {ls : List Bytes} {k : Block Byte} (hk : k.stop = .open) :
    blockExit 100 (m.headNode p ls) k =
      .ret .parseCannotFindClrf (m.headNode p (ls ++ k.records)) := by
  unfold blockExit
  rw [hk, headNode_append]

theorem blockExit_blank {ls : List Bytes} {k : Block Byte} (hk : k.stop = .blank)
    (hls : ls ++ k.records = m.lines) :
    blockExit 100 (m.headNode p ls) k = .done (1 + k.records.length) (m.bodyNode p) := by
  unfold blockExit
  rw [hk, headNode_append, hls]
  rfl

theorem blockExit_full {ls : List Bytes} {k : Block Byte} (hk : k.stop = .full) :
    blockExit 100 (m.headNode p ls) k = .done 101 (m.headNode p (ls ++ k.records)) := by
  unfold blockExit
  rw [hk, headNode_append]

theorem bodyNode_framing (hsize : m.bytes.length < 2 ^ 30) (p : Bytes) :
    (m.bodyNode p).framing = m.framing := by
  rw [← framing_lines hsize, ← m.headNode_framing p]
  rfl

theorem bodyNode_httpRequest (hsize : m.bytes.length < 2 ^ 30) (p : Bytes) :
    (m.bodyNode p).httpRequest = { m.request with body := [] } := by
  have h : (m.bodyNode p).httpRequest = (m.headNode p m.lines).httpRequest := rfl
  rw [h, headNode_httpRequest, filterMap_lines hsize]
  rfl

/-- The node that has the message, however many bytes are behind it. -/
structure Whole (m : WireRequest) (p : Bytes) (ctx : HttpParseCtx) : Prop where
  waitState : ctx.waitState = .parseEnd
  post : ctx.post = p
  cur : ctx.cur = m.head.length
  httpRequest : ctx.httpRequest = m.request
  nextCtx : ctx.nextCtx = none

theorem Whole.pop {ctx : HttpParseCtx} (h : Whole m p ctx) :
    (ClientConn.single ctx).pop = .ok (some m.request, .severed) := by
  rw [pop_ended h.nextCtx h.waitState, h.httpRequest]

/-- `end` behind a message that stops at `next_line`: a debug build goes on only
when that is the end of the buffer. -/
theorem labelEnd_whole {ctx : HttpParseCtx} (h : ctx.postFullLength = ctx.nextLine) :
    labelEnd b ctx =
      if b = .debug ∧ ctx.nextLine ≠ ctx.post.length then .error (.assertFailed .endLength)
      else .ok (.ret .success { ctx with waitState := .parseEnd }) := by
  have hglued : ¬ ctx.nextLine < ctx.postFullLength := by omega
  simp only [labelEnd, assert_of h, bind, Except.bind, hglued, if_false]
  rw [h]
  by_cases hbad : b = .debug ∧ ctx.nextLine ≠ ctx.post.length
  · rw [if_pos hbad, hbad.1, assert_debug_not hbad.2]
  · have hend : assert b .endLength (ctx.nextLine = ctx.post.length) = .ok () := by
      rw [assert, if_neg hbad]
    rw [if_neg hbad, hend]
    rfl

theorem labelWaitFixBody_whole (ctx : HttpParseCtx) (hsize : ctx.post.length < 2 ^ 30)
    (hle : ctx.cur + ctx.bodyLength ≤ ctx.post.length) :
    labelWaitFixBody b allOk ctx = labelEnd b { ctx with
      waitState := .waitFixBody
      bodyCur := 0
      postFullLength := ctx.cur + ctx.bodyLength
      nextLine := ctx.cur + ctx.bodyLength
      bodyView := (ctx.post.drop ctx.cur).take ctx.bodyLength
      httpRequest := { ctx.httpRequest with
        body := (ctx.post.drop ctx.cur).take ctx.bodyLength } } := by
  have hlt : ctx.cur + ctx.bodyLength < sizeMod := by unfold sizeMod; omega
  have hstop := sizeAdd_eq hlt
  have hview : sizeSub (ctx.cur + ctx.bodyLength) ctx.cur = ctx.bodyLength := by
    rw [sizeSub_eq (by omega) hlt]
    omega
  have hlen : ((ctx.post.drop ctx.cur).take ctx.bodyLength).length = ctx.bodyLength := by
    rw [List.length_take, List.length_drop]
    omega
  have hshort : ¬ ctx.post.length < ctx.cur + ctx.bodyLength := by omega
  have hsmall : ((ctx.post.drop ctx.cur).take ctx.bodyLength).length < 2 ^ 30 := by omega
  have hstore := stringInitFromStringView_true (storable_of_lt hsmall)
  unfold labelWaitFixBody
  simp only [hstop, hview, hshort, if_false, stringViewSubstr_eq, hstore, bind, Except.bind, allOk]
  rw [assert_of hlen]
  rfl

theorem labelWaitFixBody_short (ctx : HttpParseCtx) {stop : Nat}
    (hstop : sizeAdd ctx.cur ctx.bodyLength = stop) (hshort : ctx.post.length < stop) :
    labelWaitFixBody b allOk ctx = .ok (.ret .requestTcpSegmentInBody
      { ctx with waitState := .waitFixBody, bodyCur := 0, postFullLength := stop }) := by
  subst hstop
  simp only [labelWaitFixBody, hshort, if_true]
  rfl

/-- Behind the head of a message, a buffer that holds its body. Bytes behind the
body stop a debug build and are left to the node of this message in a release. -/
theorem bodySwitch_whole {rest : Bytes} (hp : p = m.bytes ++ rest) (hsize : p.length < 2 ^ 30) :
    (b = .debug ∧ rest ≠ [] ∧
      bodySwitch b allOk (m.bodyNode p) = .error (.assertFailed .endLength)) ∨
    ((b = .release ∨ rest = []) ∧
      ∃ ctx, bodySwitch b allOk (m.bodyNode p) = .ok (.ret .success ctx) ∧ Whole m p ctx) := by
  have hlen : p.length = m.head.length + m.body.length + rest.length := by
    rw [hp, bytes, List.length_append, List.length_append]
  have hbytes : m.bytes.length < 2 ^ 30 := by
    rw [hp, List.length_append] at hsize
    omega
  have hframing := bodyNode_framing hbytes p
  have hrequest := bodyNode_httpRequest hbytes p
  have hrest : rest ≠ [] ↔ m.head.length + m.body.length ≠ p.length := by
    rw [← List.length_pos_iff]
    omega
  -- both kinds of body end in `end`, with `next_line` behind the message
  obtain ⟨ctx, hswitch, hfull, hnext, hpost, hcur, hreq, hctx⟩ : ∃ ctx : HttpParseCtx,
      bodySwitch b allOk (m.bodyNode p) = labelEnd b ctx ∧ ctx.postFullLength = ctx.nextLine ∧
      ctx.nextLine = m.head.length + m.body.length ∧ ctx.post = p ∧ ctx.cur = m.head.length ∧
      ctx.httpRequest = m.request ∧ ctx.nextCtx = none := by
    rcases m.framing_cases with hf | ⟨hf, hbody⟩
    · have htype : (m.bodyNode p).bodyType = .fixed := congrArg Framing.bodyType (hframing.trans hf)
      have hlength : (m.bodyNode p).bodyLength = m.body.length :=
        congrArg Framing.bodyLength (hframing.trans hf)
      have hview : (p.drop m.head.length).take m.body.length = m.body := by
        rw [hp, bytes, List.append_assoc, List.drop_left, List.take_left]
      have hfix := labelWaitFixBody_whole b (m.bodyNode p) (by simpa using hsize)
        (by rw [bodyNode_cur, bodyNode_post, hlength]; omega)
      rw [bodyNode_cur, bodyNode_post, hlength, hview, hrequest] at hfix
      exact ⟨_, (bodySwitch_fixed b allOk htype).trans hfix, rfl, rfl, rfl, rfl, rfl,
        m.bodyNode_nextCtx p⟩
    · have htype : (m.bodyNode p).bodyType = .unset := congrArg Framing.bodyType (hframing.trans hf)
      refine ⟨_, bodySwitch_unset b allOk htype, rfl, ?_, m.bodyNode_post p, m.bodyNode_cur p, ?_,
        m.bodyNode_nextCtx p⟩
      · rw [hbody, List.length_nil, Nat.add_zero]
        exact m.bodyNode_nextLine p
      · have hempty : m.request.body = [] := hbody
        rw [hrequest, ← hempty]
  rw [hswitch, labelEnd_whole b hfull, hnext, hpost]
  by_cases hbad : b = .debug ∧ m.head.length + m.body.length ≠ p.length
  · exact Or.inl ⟨hbad.1, hrest.mpr hbad.2, if_pos hbad⟩
  · refine Or.inr ⟨?_, _, if_neg hbad, rfl, rfl, hcur, hreq, hctx⟩
    cases b with
    | release => exact Or.inl rfl
    | debug => exact Or.inr (not_not.mp fun hne => hbad ⟨rfl, hrest.mp hne⟩)

/-- The node that waits for the rest of the body. -/
def waitNode (m : WireRequest) (p : Bytes) : HttpParseCtx :=
  { m.bodyNode p with
    waitState := .waitFixBody
    bodyCur := 0
    postFullLength := m.head.length + m.body.length }

theorem bodySwitch_short {s : Bytes} (hs : s ≠ []) (hp : p ++ s = m.bytes)
    (hsize : m.bytes.length < 2 ^ 30) (hhead : m.head.length ≤ p.length) :
    m.framing = ⟨.fixed, m.body.length⟩ ∧
    bodySwitch b allOk (m.bodyNode p) = .ok (.ret .requestTcpSegmentInBody (m.waitNode p)) := by
  have hpos := List.length_pos_iff.mpr hs
  have hlen : p.length + s.length = m.head.length + m.body.length := by
    rw [← List.length_append, hp, bytes, List.length_append]
  have hf : m.framing = ⟨.fixed, m.body.length⟩ := by
    rcases m.framing_cases with hf | ⟨-, hbody⟩
    · exact hf
    · rw [hbody, List.length_nil] at hlen
      omega
  have hframing := (bodyNode_framing hsize p).trans hf
  have htype : (m.bodyNode p).bodyType = .fixed := congrArg Framing.bodyType hframing
  have hlength : (m.bodyNode p).bodyLength = m.body.length := congrArg Framing.bodyLength hframing
  have hstop : sizeAdd m.head.length m.body.length = m.head.length + m.body.length := by
    rw [bytes, List.length_append] at hsize
    exact sizeAdd_eq (by unfold sizeMod; omega)
  refine ⟨hf, ?_⟩
  rw [bodySwitch_fixed b allOk htype]
  exact labelWaitFixBody_short b (m.bodyNode p) (by rw [bodyNode_cur, hlength, hstop])
    (by rw [bodyNode_post]; omega)

/-- A buffer with the whole head of a message, of fewer than 100 header lines,
fed at once. -/
theorem labelWaitReq_head {tail : Bytes} (hp : p = m.head ++ tail) (hsize : p.length < 2 ^ 30)
    (hlines : m.headers.length ≤ 99) : labelWaitReq b allOk (fresh p) =
      behindLoop b allOk (.done (1 + m.headers.length) (m.bodyNode p)) := by
  have hline : p = m.requestLine ++ cr :: lf :: (unlines cr lf m.lines ++ cr :: lf :: tail) := by
    rw [hp, head, unlines_cons]
    simp
  have hparts : p = unlines cr lf [m.requestLine] ++ (unlines cr lf m.lines ++ cr :: lf :: tail) := by
    rw [hline, unlines_cons]
    simp
  have hcollect : collect cr lf 100 (unlines cr lf m.lines ++ cr :: lf :: tail) =
      ⟨m.lines, .blank, tail⟩ := by
    obtain ⟨n, hn⟩ : ∃ n, 100 - m.lines.length = n + 1 :=
      ⟨99 - m.lines.length, by rw [m.length_lines]; omega⟩
    have hblank : cutLine (cr :: lf :: tail) = some ([], tail) := by simp [cut]
    rw [collect_unlines (by decide) m.lines_free (by rw [m.length_lines]; omega), hn,
      collect_succ_blank hblank]
    simp
  have hlt : p.length < ptrdiffMax := by unfold ptrdiffMax; omega
  have hsized : ((fresh p).behindLine m.requestLine m.lineRequest).Sized := by
    have h := m.headNode_sized hparts hlt
    exact ⟨h.cur_le, h.next_le, h.post_lt⟩
  have hunread : ((fresh p).behindLine m.requestLine m.lineRequest).unread =
      unlines cr lf m.lines ++ cr :: lf :: tail := m.headNode_unread hparts
  rw [labelWaitReq_line b hline hsize, labelWaitHdr_block b [] hsized rfl, hunread, hcollect,
    blockExit_blank rfl (List.nil_append m.lines), m.length_lines]

end Labels

end WireRequest

section Feed

variable {b : Build} {ctx : HttpParseCtx} {chunk : Bytes}

theorem feedNode_append (hsize : (ctx.post ++ chunk).length < 2 ^ 30) :
    feedNode b allOk ctx chunk = resume b allOk { ctx with post := ctx.post ++ chunk } := by
  rw [List.length_append] at hsize
  have happ : stringAppendView (allOk .append) ctx.post chunk = .ok (true, ctx.post ++ chunk) :=
    stringAppendView_true (storable_of_lt hsize) (by omega)
  simp only [feedNode, happ, bind, Except.bind, Bool.not_true, Bool.false_eq_true, if_false]

theorem feedNode_new (hsize : chunk.length < 2 ^ 30) :
    feedNode b allOk .new chunk = labelWaitReq b allOk (fresh chunk) :=
  feedNode_append hsize

end Feed

end LiteHttp
