import LiteHttp.Refine
import LiteHttp.Client
import LiteHttp.Lib.Run

/-!
# Feeding a connection that has one node

`http_parse_feed` on a chain of one live node is a step of its reader. Runs of
such calls are `Run.exec` of `feedStep`.
-/

namespace LiteHttp

open Delim

set_option autoImplicit false

/-- `http_parse_feed` up to the label it leaves through. -/
def feedNode (b : Build) (alloc : Alloc) (ctx : HttpParseCtx) (post : Bytes) :
    Except Fault Exit := do
  let (ok, newPost) ← stringAppendView (alloc .append) ctx.post post
  if !ok then return .ret .malloc ctx else resume b alloc { ctx with post := newPost }

/-- The chain of one node that is both head and tail. -/
def ClientConn.single (ctx : HttpParseCtx) : ClientConn := ⟨[some ctx], some 0, 0⟩

@[simp] theorem single_inj {ctx ctx' : HttpParseCtx} :
    ClientConn.single ctx = .single ctx' ↔ ctx = ctx' := by simp [ClientConn.single]

theorem new_eq_single : ClientConn.new = .single .new := rfl

/-- One call of `http_parse_feed`: its bytes and the allocator's answers. -/
structure Feed where
  alloc : Alloc
  post : Bytes

def ClientConn.feedStep (b : Build) (c : ClientConn) (i : Feed) :
    Except Fault (HttpErr × ClientConn) := c.feed b i.alloc i.post

section Node

variable {b : Build} {alloc : Alloc} {ctx : HttpParseCtx} {chunk : Bytes}

theorem unread_append (hle : ctx.nextLine ≤ ctx.post.length) :
    ({ ctx with post := ctx.post ++ chunk } : HttpParseCtx).unread = ctx.unread ++ chunk :=
  List.drop_append_of_le_length hle

theorem resume_follows (h : ctx.Rests b) (halloc : alloc .append = true)
    (hlt : (ctx.post ++ chunk).length < ptrdiffMax) :
    Follows b (ctx.wire.feed alloc chunk) (ctx.post ++ chunk)
      (resume b alloc { ctx with post := ctx.post ++ chunk }) := by
  have hsane : ({ ctx with post := ctx.post ++ chunk } : HttpParseCtx).Sane :=
    ⟨hlt, h.length_lt, h.last⟩
  have hcursors := h.cursors
  have hlen : (ctx.post ++ chunk).length = ctx.post.length + chunk.length := List.length_append
  cases hstate : ctx.waitState with
  | start =>
    simp only [HttpParseCtx.Cursors, hstate] at hcursors
    obtain ⟨hcur, hnext, hfull, hf⟩ := hcursors
    have hunread : ctx.unread = ctx.post := by rw [HttpParseCtx.unread, hnext, List.drop_zero]
    simp only [resume, Wire.feed, HttpParseCtx.wire, halloc, hstate, if_true, hunread]
    exact labelWaitReq_follows b alloc hsane hcur hnext hfull hf
  | waitReq =>
    simp only [HttpParseCtx.Cursors, hstate] at hcursors
    obtain ⟨hcur, hnext, hfull, hf⟩ := hcursors
    have hunread : ctx.unread = ctx.post := by rw [HttpParseCtx.unread, hnext, List.drop_zero]
    simp only [resume, Wire.feed, HttpParseCtx.wire, halloc, hstate, if_true, hunread]
    exact labelWaitReq_follows b alloc hsane hcur hnext hfull hf
  | waitHdr =>
    simp only [HttpParseCtx.Cursors, hstate] at hcursors
    obtain ⟨hsized, htwo, hfull⟩ := hcursors
    have hsized' : ({ ctx with post := ctx.post ++ chunk } : HttpParseCtx).Sized :=
      ⟨hsized.cur_le, hsized.next_le.trans (by simp), hlt⟩
    have hfollows := labelWaitHdr_follows b alloc hsane hsized' htwo hfull
    rw [unread_append hsized.next_le] at hfollows
    simp only [resume, Wire.feed, HttpParseCtx.wire, halloc, hstate, if_true]
    exact hfollows
  | waitFixBody =>
    simp only [HttpParseCtx.Cursors, hstate] at hcursors
    have hfollows := labelWaitFixBody_follows b alloc hsane (hcursors.trans (by simp))
    rw [hlen] at hfollows
    simp only [resume, Wire.feed, HttpParseCtx.wire, halloc, hstate, if_true]
    exact hfollows
  | waitClen => simp [HttpParseCtx.Cursors, hstate] at hcursors
  | waitCval => simp [HttpParseCtx.Cursors, hstate] at hcursors
  | parseEnd =>
    simp only [HttpParseCtx.Cursors, hstate] at hcursors
    simp only [resume, Wire.feed, HttpParseCtx.wire, halloc, hstate, if_true]
    refine labelEnd_follows rfl ⟨hlt, h.length_lt, h.last⟩ hcursors.1 fun hb => ?_
    obtain ⟨hfull, hend⟩ := hcursors.2 hb
    simp only [decide_eq_true_eq, hfull, true_and, hlen, hend]
    constructor
    · rintro rfl
      rfl
    · intro h
      exact List.length_eq_zero_iff.mp (by omega)

/-- What one call leaves in the buffer. -/
def postAfter (alloc : Alloc) (post chunk : Bytes) : Bytes :=
  if alloc .append then post ++ chunk else post

theorem feedNode_follows (alloc : Alloc) (chunk : Bytes) (h : ctx.Rests b) :
    Follows b (ctx.wire.feed alloc chunk) (postAfter alloc ctx.post chunk)
      (feedNode b alloc ctx chunk) := by
  unfold feedNode
  cases happ : stringAppendView (alloc .append) ctx.post chunk with
  | error e =>
    rw [stringAppendView_error happ]
    exact .undefined
  | ok r =>
    rcases stringAppendView_ok happ with ⟨halloc, rfl, hlt⟩ | ⟨halloc, rfl⟩
    · simp only [bind, Except.bind, Bool.not_true, Bool.false_eq_true, if_false, postAfter, halloc,
        if_true]
      exact resume_follows h halloc hlt
    · simp only [bind, Except.bind, Bool.not_false, if_true, Wire.feed, postAfter, halloc,
        Bool.false_eq_true, if_false]
      exact .returns h rfl rfl fun _ => rfl

/-- A call that returns has appended its bytes and resumed, or found no memory for them. -/
theorem feedNode_ok {exit : Exit} (h : feedNode b alloc ctx chunk = .ok exit) :
    (alloc .append = true ∧ (ctx.post ++ chunk).length < ptrdiffMax ∧
      resume b alloc { ctx with post := ctx.post ++ chunk } = .ok exit) ∨
    (alloc .append = false ∧ exit = .ret .malloc ctx) := by
  unfold feedNode at h
  obtain ⟨r, happ, h⟩ := bind_ok h
  rcases stringAppendView_ok happ with ⟨halloc, rfl, hlt⟩ | ⟨halloc, rfl⟩
  · simp only [Bool.not_true, Bool.false_eq_true, if_false] at h
    exact Or.inl ⟨halloc, hlt, h⟩
  · simp only [Bool.not_false, if_true] at h
    exact Or.inr ⟨halloc, (pure_ok.mp h).symm⟩

theorem feed_of_feedNode {herr : HttpErr} {ctx' : HttpParseCtx}
    (h : feedNode b alloc ctx chunk = .ok (.ret herr ctx')) :
    (ClientConn.single ctx).feed b alloc chunk = .ok (herr, .single ctx') := by
  have hderef : NodeHeap.deref [some ctx] 0 = .ok ctx := rfl
  unfold feedNode at h
  simp only [ClientConn.feed, ClientConn.single, httpParseFeed, hderef, bind, Except.bind] at h ⊢
  cases happ : stringAppendView (alloc .append) ctx.post chunk with
  | error e => simp [happ] at h
  | ok r =>
    obtain ⟨ok, newPost⟩ := r
    cases ok with
    | false =>
      simp only [happ, Bool.not_false, if_true, pure, Except.pure, Except.ok.injEq,
        Exit.ret.injEq] at h ⊢
      obtain ⟨rfl, rfl⟩ := h
      rfl
    | true =>
      simp only [happ, Bool.not_true, Bool.false_eq_true, if_false] at h ⊢
      simp only [h, settle, NodeHeap.update, ite_self]
      rfl

theorem feed_of_feedNode_error {e : Fault} (h : feedNode b alloc ctx chunk = .error e) :
    (ClientConn.single ctx).feed b alloc chunk = .error e := by
  have hderef : NodeHeap.deref [some ctx] 0 = .ok ctx := rfl
  unfold feedNode at h
  simp only [ClientConn.feed, ClientConn.single, httpParseFeed, hderef, bind, Except.bind] at h ⊢
  cases happ : stringAppendView (alloc .append) ctx.post chunk with
  | error f => simpa [happ] using h
  | ok r =>
    obtain ⟨ok, newPost⟩ := r
    cases ok with
    | false => simp [happ, pure, Except.pure] at h
    | true =>
      simp only [happ, Bool.not_true, Bool.false_eq_true, if_false] at h ⊢
      rw [h]

/-- Everything one call on a single node can do. -/
theorem feed_cases (h : ctx.Rests b) (alloc : Alloc) (chunk : Bytes) :
    let v := ctx.wire.feed alloc chunk
    let r := (ClientConn.single ctx).feed b alloc chunk
    r = .error .undefined ∨
    (∃ a, b = .debug ∧ v.fits = false ∧ r = .error (.assertFailed a)) ∨
    ∃ ctx', r = .ok (v.fate.code, .single ctx') ∧ ctx'.Rests b ∧ ctx'.wire = v.wire ∧
      ctx'.post = postAfter alloc ctx.post chunk ∧ (b = .debug → v.fits = true) := by
  have hfollows := feedNode_follows alloc chunk h
  generalize hr : feedNode b alloc ctx chunk = r at hfollows
  cases hfollows with
  | undefined => exact Or.inl (feed_of_feedNode_error hr)
  | aborts hb hv => exact Or.inr (Or.inl ⟨_, hb, hv, feed_of_feedNode_error hr⟩)
  | returns hrests hwire hpost hv =>
    exact Or.inr (Or.inr ⟨_, feed_of_feedNode hr, hrests, hwire, hpost, hv⟩)

end Node

section Live

def ClientConn.node (c : ClientConn) : Option HttpParseCtx := (c.heap[c.ctxTail]?).join

/-- What the reader of the tail makes of a call. -/
def ClientConn.verdict (c : ClientConn) (i : Feed) : Option Verdict :=
  c.node.map fun ctx => ctx.wire.feed i.alloc i.post

/-- One node, and it rests. -/
def ClientConn.Live (b : Build) (c : ClientConn) : Prop := ∃ ctx, c = .single ctx ∧ ctx.Rests b

@[simp] theorem node_single (ctx : HttpParseCtx) : (ClientConn.single ctx).node = some ctx := rfl

@[simp] theorem verdict_single (ctx : HttpParseCtx) (i : Feed) :
    (ClientConn.single ctx).verdict i = some (ctx.wire.feed i.alloc i.post) := rfl

theorem live_new (b : Build) : ClientConn.new.Live b := ⟨_, rfl, rests_new b⟩

variable {b : Build} {ctx : HttpParseCtx} {i : Feed}

theorem feedStep_single_ok (h : ctx.Rests b) {herr : HttpErr} {c' : ClientConn}
    (hstep : (ClientConn.single ctx).feedStep b i = .ok (herr, c')) :
    ∃ ctx', c' = .single ctx' ∧ ctx'.Rests b ∧ herr = (ctx.wire.feed i.alloc i.post).fate.code ∧
      ctx'.wire = (ctx.wire.feed i.alloc i.post).wire ∧
      ctx'.post = postAfter i.alloc ctx.post i.post ∧
      (b = .debug → (ctx.wire.feed i.alloc i.post).fits = true) := by
  rw [ClientConn.feedStep] at hstep
  rcases feed_cases h i.alloc i.post with hr | ⟨a, -, -, hr⟩ | ⟨ctx', hr, hrests, hw, hp, hv⟩
  · simp [hr] at hstep
  · simp [hr] at hstep
  · simp only [hr, Except.ok.injEq, Prod.mk.injEq] at hstep
    obtain ⟨rfl, rfl⟩ := hstep
    exact ⟨ctx', rfl, hrests, rfl, hw, hp, hv⟩

theorem feedNode_of_feedStep (h : ctx.Rests b) {herr : HttpErr} {c' : ClientConn}
    (hstep : (ClientConn.single ctx).feedStep b i = .ok (herr, c')) :
    ∃ ctx', c' = .single ctx' ∧ feedNode b i.alloc ctx i.post = .ok (.ret herr ctx') ∧
      ctx'.Rests b ∧ ctx'.post = postAfter i.alloc ctx.post i.post := by
  rw [ClientConn.feedStep] at hstep
  have hfollows := feedNode_follows i.alloc i.post h
  cases hr : feedNode b i.alloc ctx i.post with
  | error e => simp [feed_of_feedNode_error hr] at hstep
  | ok exit =>
    rw [hr] at hfollows
    cases hfollows with
    | returns hrests hwire hpost hv =>
      rw [feed_of_feedNode hr, Except.ok.injEq, Prod.mk.injEq] at hstep
      obtain ⟨rfl, rfl⟩ := hstep
      exact ⟨_, rfl, rfl, hrests, hpost⟩

theorem live_feedStep {c c' : ClientConn} {herr : HttpErr} (h : c.Live b)
    (hstep : c.feedStep b i = .ok (herr, c')) : c'.Live b := by
  obtain ⟨ctx, rfl, hrests⟩ := h
  obtain ⟨ctx', rfl, hrests', -⟩ := feedStep_single_ok hrests hstep
  exact ⟨ctx', rfl, hrests'⟩

theorem live_exec {is : List Feed} {herrs : List HttpErr} {c : ClientConn}
    (hx : Run.exec (ClientConn.feedStep b) .new is = .ok (herrs, c)) : c.Live b :=
  Run.inv_of_meets (fun h _ hs => live_feedStep h hs) (live_new b)
    (Run.meets_of_forall (fun _ _ => True.intro) _ _) hx

theorem rests_of_exec {is : List Feed} {herrs : List HttpErr}
    (hx : Run.exec (ClientConn.feedStep b) .new is = .ok (herrs, .single ctx)) : ctx.Rests b := by
  obtain ⟨ctx', heq, hrests⟩ := live_exec hx
  rwa [single_inj.mp heq]

end Live

end LiteHttp
