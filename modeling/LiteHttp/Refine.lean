import LiteHttp.RequestLine
import LiteHttp.Wire

/-!
# A node follows its reader

`Rests` is what holds of a node between two calls. From a resting node every
label goes where `Wire.feed` says: the call returns the code of the verdict and
leaves a resting node that stands for the new reader, or it ends in undefined
behaviour, or a debug build stops at an assertion because the message does not
fit the buffer.
-/

namespace LiteHttp

open Delim

set_option autoImplicit false

/-- The cursors of a node between two calls. -/
def HttpParseCtx.Cursors (b : Build) (ctx : HttpParseCtx) : Prop :=
  match ctx.waitState with
  | .start =>
    ctx.cur = 0 ∧ ctx.nextLine = 0 ∧ ctx.postFullLength = 0 ∧ ctx.framing = .none
  | .waitReq =>
    ctx.cur = 0 ∧ ctx.nextLine = 0 ∧ ctx.postFullLength = 0 ∧ ctx.framing = .none
  | .waitHdr => ctx.Sized ∧ 2 ≤ ctx.nextLine ∧ ctx.postFullLength = 0
  | .waitFixBody => ctx.cur ≤ ctx.post.length
  | .waitClen => False
  | .waitCval => False
  | .parseEnd =>
    ctx.postFullLength ≤ ctx.nextLine ∧
    (b = .debug → ctx.postFullLength = ctx.nextLine ∧ ctx.nextLine = ctx.post.length)

/-- What holds of the node whatever label it is at. -/
structure HttpParseCtx.Sane (ctx : HttpParseCtx) : Prop where
  post_lt : ctx.post.length < ptrdiffMax
  length_lt : ctx.bodyLength < sizeMod
  last : ctx.nextCtx = none

structure HttpParseCtx.Rests (b : Build) (ctx : HttpParseCtx) : Prop extends ctx.Sane where
  cursors : ctx.Cursors b

theorem rests_new (b : Build) : HttpParseCtx.new.Rests b where
  post_lt := by decide
  length_lt := by decide
  last := rfl
  cursors := ⟨rfl, rfl, rfl, rfl⟩

theorem HttpParseCtx.Rests.start_cursors {b : Build} {ctx : HttpParseCtx} (h : ctx.Rests b)
    (hstate : ctx.waitState = .start ∨ ctx.waitState = .waitReq) :
    ctx.cur = 0 ∧ ctx.nextLine = 0 ∧ ctx.postFullLength = 0 ∧ ctx.framing = .none := by
  have hcursors := h.cursors
  unfold HttpParseCtx.Cursors at hcursors
  rcases hstate with hstate | hstate
  · simp only [hstate] at hcursors
    exact hcursors
  · simp only [hstate] at hcursors
    exact hcursors

/-- How a label may leave a node whose buffer is `post`, given the verdict. -/
inductive Follows (b : Build) (v : Verdict) (post : Bytes) : Except Fault Exit → Prop where
  | undefined : Follows b v post (.error .undefined)
  | aborts {a : Assertion} (hb : b = .debug) (hv : v.fits = false) :
      Follows b v post (.error (.assertFailed a))
  | returns {ctx : HttpParseCtx} (hrests : ctx.Rests b) (hwire : ctx.wire = v.wire)
      (hpost : ctx.post = post) (hv : b = .debug → v.fits = true) :
      Follows b v post (.ok (.ret v.fate.code ctx))

section Labels

variable {b : Build} {alloc : Alloc} {ctx : HttpParseCtx}

variable {ctx' : HttpParseCtx} {herr : HttpErr}

theorem labelEnd_ret (h : labelEnd b ctx = .ok (.ret herr ctx')) :
    herr = .success ∧ ctx' = { ctx with waitState := .parseEnd } := by
  unfold labelEnd at h
  simp only [bind, Except.bind] at h
  split at h
  · simp at h
  · split at h
    · split at h
      · simp at h
      · simp [pure, Except.pure] at h
    · split at h
      · simp at h
      · simp only [pure, Except.pure, Except.ok.injEq, Exit.ret.injEq] at h
        exact ⟨h.1.symm, h.2.symm⟩

theorem labelWaitFixBody_ret (h : labelWaitFixBody b alloc ctx = .ok (.ret herr ctx')) :
    (ctx.post.length < sizeAdd ctx.cur ctx.bodyLength ∧ herr = .requestTcpSegmentInBody ∧
      ctx' = { ctx with
        waitState := .waitFixBody
        bodyCur := 0
        postFullLength := sizeAdd ctx.cur ctx.bodyLength }) ∨
    (sizeAdd ctx.cur ctx.bodyLength ≤ ctx.post.length ∧ ∃ state view body,
      (herr = .malloc ∧ state = .waitFixBody ∨ herr = .success ∧ state = .parseEnd) ∧
      ctx' = { ctx with
        waitState := state
        bodyCur := 0
        postFullLength := sizeAdd ctx.cur ctx.bodyLength
        nextLine := sizeAdd ctx.cur ctx.bodyLength
        bodyView := view
        httpRequest := { ctx.httpRequest with body := body } }) := by
  unfold labelWaitFixBody at h
  simp only at h
  split at h
  · rename_i hshort
    simp only [pure, Except.pure, Except.ok.injEq, Exit.ret.injEq] at h
    exact Or.inl ⟨hshort, h.1.symm, h.2.symm⟩
  · rename_i hlong
    simp only [bind, Except.bind] at h
    split at h
    · simp at h
    · split at h
      · simp at h
      · split at h
        · simp only [pure, Except.pure, Except.ok.injEq, Exit.ret.injEq] at h
          exact Or.inr ⟨Nat.le_of_not_lt hlong, _, _, _, Or.inl ⟨h.1.symm, rfl⟩, h.2.symm⟩
        · obtain ⟨hsucc, hctx⟩ := labelEnd_ret h
          exact Or.inr ⟨Nat.le_of_not_lt hlong, _, _, _, Or.inr ⟨hsucc, rfl⟩, hctx⟩

/-- `end` with a buffer that is not cut: it never sees a glued packet. -/
theorem labelEnd_follows {fits : Bool} {post : Bytes} (hpost : ctx.post = post) (hs : ctx.Sane)
    (hle : ctx.postFullLength ≤ ctx.nextLine)
    (hfits : b = .debug →
      (fits = true ↔ ctx.postFullLength = ctx.nextLine ∧ ctx.nextLine = post.length)) :
    Follows b ⟨.complete, fits, .ended⟩ post (labelEnd b ctx) := by
  subst hpost
  have hglued : ¬ ctx.nextLine < ctx.postFullLength := by omega
  have hsane : ({ ctx with waitState := .parseEnd } : HttpParseCtx).Sane :=
    ⟨hs.post_lt, hs.length_lt, hs.last⟩
  cases b with
  | release =>
    simp only [labelEnd, assert_release, bind, Except.bind, hglued, if_false]
    exact .returns ⟨hsane, hle, by simp⟩ rfl rfl (by simp)
  | debug =>
    have hfits := hfits rfl
    by_cases hcur : ctx.postFullLength = ctx.nextLine
    · by_cases hlen : ctx.postFullLength = ctx.post.length
      · simp only [labelEnd, assert_of hcur, assert_of hlen, bind, Except.bind, hglued, if_false]
        exact .returns ⟨hsane, hle, fun _ => ⟨hcur, show ctx.nextLine = ctx.post.length by omega⟩⟩ rfl rfl
          fun _ => hfits.mpr ⟨hcur, by omega⟩
      · simp only [labelEnd, assert_of hcur, assert_debug_not hlen, bind, Except.bind, hglued,
          if_false]
        refine .aborts rfl (Bool.eq_false_iff.mpr fun h => ?_)
        have := hfits.mp h
        omega
    · simp only [labelEnd, assert_debug_not hcur, bind, Except.bind]
      exact .aborts rfl (Bool.eq_false_iff.mpr fun h => hcur (hfits.mp h).1)

theorem bodyView_length {cur bodyLength : Nat} {post : Bytes} (hc : cur ≤ post.length)
    (hr : post.length < ptrdiffMax) (hl : bodyLength < sizeMod) :
    (stringViewSubstr post cur (sizeSub (sizeAdd cur bodyLength) cur)).length =
      min bodyLength (post.length - cur) := by
  have hview : sizeSub (sizeAdd cur bodyLength) cur = bodyLength := by
    have hcur : cur % sizeMod = cur := Nat.mod_eq_of_lt (by unfold sizeMod ptrdiffMax at *; omega)
    unfold sizeSub sizeAdd sizeMod at *
    omega
  rw [hview, stringViewSubstr_eq, List.length_take, List.length_drop]

variable (b alloc) in
theorem labelWaitFixBody_follows (hs : ctx.Sane) (hc : ctx.cur ≤ ctx.post.length) :
    Follows b (bodyVerdict alloc ctx.cur ctx.bodyLength ctx.post.length) ctx.post
      (labelWaitFixBody b alloc ctx) := by
  have hsane (ctx' : HttpParseCtx) (h₁ : ctx'.post = ctx.post)
      (h₂ : ctx'.bodyLength = ctx.bodyLength) (h₃ : ctx'.nextCtx = ctx.nextCtx) : ctx'.Sane :=
    ⟨h₁ ▸ hs.post_lt, h₂ ▸ hs.length_lt, h₃ ▸ hs.last⟩
  have hlen := bodyView_length hc hs.post_lt hs.length_lt
  unfold labelWaitFixBody bodyVerdict
  simp only
  by_cases hshort : ctx.post.length < sizeAdd ctx.cur ctx.bodyLength
  · simp only [hshort, if_true]
    exact .returns ⟨hsane _ rfl rfl rfl, hc⟩ rfl rfl fun _ => rfl
  · simp only [hshort, if_false, bind, Except.bind]
    have hwrap : ctx.cur + ctx.bodyLength ≤ ctx.post.length ↔
        min ctx.bodyLength (ctx.post.length - ctx.cur) = ctx.bodyLength := by omega
    have hstop : ctx.cur + ctx.bodyLength ≤ ctx.post.length →
        sizeAdd ctx.cur ctx.bodyLength = ctx.cur + ctx.bodyLength := fun h =>
      sizeAdd_eq (by have := hs.post_lt; unfold sizeMod ptrdiffMax at *; omega)
    by_cases hview : min ctx.bodyLength (ctx.post.length - ctx.cur) = ctx.bodyLength ∨ b = .release
    · have hok : assert b .bodyViewLength ((stringViewSubstr ctx.post ctx.cur
          (sizeSub (sizeAdd ctx.cur ctx.bodyLength) ctx.cur)).length = ctx.bodyLength) =
          .ok () := by
        rcases hview with h | rfl
        · exact assert_of (hlen.trans h)
        · exact assert_release _ _
      have hfit : b = .debug → ctx.cur + ctx.bodyLength ≤ ctx.post.length := by
        rintro rfl
        exact hwrap.mpr (by simpa using hview)
      rw [hok]
      simp only
      rcases stringInitFromStringView_cases (alloc .body) (stringViewSubstr ctx.post ctx.cur
          (sizeSub (sizeAdd ctx.cur ctx.bodyLength) ctx.cur)) with h | ⟨hgot, h⟩ | ⟨hno, hbig, h⟩
      · rw [h]
        exact .undefined
      · have hkept : ¬ (smallBufSize ≤ min ctx.bodyLength (ctx.post.length - ctx.cur) ∧
            alloc .body = false) := by
          rintro ⟨hbig, hno⟩
          rw [hlen] at hgot
          rcases hgot with h | h
          · simp [h] at hno
          · omega
        rw [h]
        simp only [hkept, Bool.not_true, Bool.false_eq_true, if_false]
        refine labelEnd_follows rfl (hsane _ rfl rfl rfl) (Nat.le_refl _) fun hb => ?_
        have hfit := hfit hb
        have hstop := hstop hfit
        simp only [hstop, decide_eq_true_eq, true_and]
      · rw [hlen] at hbig
        rw [h]
        simp only [hbig, hno, and_self, if_true, Bool.not_false]
        exact .returns ⟨hsane _ rfl rfl rfl, hc⟩ rfl rfl fun hb => by simpa using hfit hb
    · have hb : b = .debug := by
        cases b with
        | debug => rfl
        | release => simp at hview
      subst hb
      have hview : ¬ min ctx.bodyLength (ctx.post.length - ctx.cur) = ctx.bodyLength := by
        simpa using hview
      rw [assert_debug_not (by rwa [hlen])]
      refine .aborts rfl ?_
      split
      · simpa using fun h => hview (hwrap.mp h)
      · simpa using fun h => hview (hwrap.mp (Nat.le_of_eq h))

/-- The node inside the header loop. -/
structure HttpParseCtx.InLoop (ctx : HttpParseCtx) : Prop extends ctx.Sane, ctx.Sized where
  waitState : ctx.waitState = .waitHdr
  two_le : 2 ≤ ctx.nextLine
  unset : ctx.postFullLength = 0

theorem HttpParseCtx.InLoop.wire (h : ctx.InLoop) : ctx.wire = .headers ctx.framing ctx.nextLine ctx.unread := by
  simp [HttpParseCtx.wire, h.waitState]

theorem HttpParseCtx.InLoop.rests (h : ctx.InLoop) : ctx.Rests b where
  toSane := h.toSane
  cursors := by
    simp only [HttpParseCtx.Cursors, h.waitState]
    exact ⟨h.toSized, h.two_le, h.unset⟩

theorem frame_length_lt {f : Framing} (hf : f.bodyLength < sizeMod) (h : HttpHeader) :
    (h.frame f).bodyLength < sizeMod := by
  have hmod (n : Int) : (n % (sizeMod : Int)).toNat < sizeMod := by
    unfold sizeMod
    omega
  unfold HttpHeader.frame
  split
  · split
    · exact hmod _
    · exact hf
  · split
    · exact hf
    · exact hf
  · exact hf

theorem frameLine_length_lt {f : Framing} (hf : f.bodyLength < sizeMod) (l : Bytes) :
    (frameLine l f).bodyLength < sizeMod := by
  unfold frameLine
  split
  · exact hf
  · exact frame_length_lt hf _

theorem HttpParseCtx.InLoop.takeLine (h : ctx.InLoop) {l r : Bytes} (hc : cutLine ctx.unread = some (l, r))
    (pushOk : Bool) : (ctx.takeLine pushOk l).InLoop where
  toSized := takeLine_sized ctx pushOk l h.toSized hc
  length_lt := by
    have hf : (ctx.takeLine pushOk l).framing.bodyLength < sizeMod := by
      rw [takeLine_framing]
      split
      · exact frameLine_length_lt h.length_lt l
      · exact h.length_lt
    exact hf
  last := by rw [takeLine_nextCtx, h.last]
  waitState := by rw [takeLine_waitState, h.waitState]
  two_le := by rw [takeLine_nextLine]; omega
  unset := by rw [takeLine_postFullLength, h.unset]

theorem HttpParseCtx.InLoop.toLine (h : ctx.InLoop) {l r : Bytes} (hc : cutLine ctx.unread = some (l, r)) :
    (ctx.toLine l).InLoop where
  toSized := Sized.toLine h.toSized hc
  length_lt := h.length_lt
  last := h.last
  waitState := h.waitState
  two_le := by simp only [HttpParseCtx.toLine]; omega
  unset := h.unset

theorem HttpParseCtx.InLoop.blank (h : ctx.InLoop) {r : Bytes} (hc : cutLine ctx.unread = some ([], r)) :
    ({ ctx.toLine [] with cur := ctx.nextLine + 2 } : HttpParseCtx).InLoop where
  cur_le := Nat.le_refl _
  next_le := (InLoop.toLine h hc).next_le
  post_lt := h.toSane.post_lt
  length_lt := h.length_lt
  last := h.last
  waitState := h.waitState
  two_le := Nat.le_add_left _ _
  unset := h.unset

theorem received_eq (hs : ctx.Sized) : ctx.nextLine + ctx.unread.length = ctx.post.length := by
  rw [HttpParseCtx.unread, List.length_drop]
  have := hs.next_le
  omega

theorem bodySwitch_unset (b : Build) (alloc : Alloc) (h : ctx.bodyType = .unset) :
    bodySwitch b alloc ctx = labelEnd b { ctx with postFullLength := ctx.nextLine } := by
  unfold bodySwitch
  rw [h]

theorem bodySwitch_fixed (b : Build) (alloc : Alloc) (h : ctx.bodyType = .fixed) :
    bodySwitch b alloc ctx = labelWaitFixBody b alloc ctx := by
  unfold bodySwitch
  rw [h]

theorem bodySwitch_chunked (b : Build) (alloc : Alloc) (h : ctx.bodyType = .chunked) :
    bodySwitch b alloc ctx = labelWaitClen b ctx := by
  unfold bodySwitch
  rw [h]

theorem bodySwitch_follows (h : ctx.InLoop) :
    Follows b (afterHeaders alloc ctx.framing ctx.cur ctx.nextLine ctx.post.length) ctx.post
      (bodySwitch b alloc ctx) := by
  have hc : ctx.cur ≤ ctx.post.length := h.cur_le.trans h.next_le
  cases hbody : ctx.bodyType with
  | unset =>
    have hv : afterHeaders alloc ctx.framing ctx.cur ctx.nextLine ctx.post.length =
        ⟨.complete, ctx.nextLine = ctx.post.length, .ended⟩ := by
      simp only [afterHeaders, HttpParseCtx.framing, hbody]
    rw [hv, bodySwitch_unset b alloc hbody]
    exact labelEnd_follows rfl ⟨h.toSane.post_lt, h.length_lt, h.last⟩ (Nat.le_refl _)
      fun _ => by simp
  | fixed =>
    have hv : afterHeaders alloc ctx.framing ctx.cur ctx.nextLine ctx.post.length =
        bodyVerdict alloc ctx.cur ctx.bodyLength ctx.post.length := by
      simp only [afterHeaders, HttpParseCtx.framing, hbody]
    rw [hv, bodySwitch_fixed b alloc hbody]
    exact labelWaitFixBody_follows b alloc h.toSane hc
  | chunked =>
    have hv : afterHeaders alloc ctx.framing ctx.cur ctx.nextLine ctx.post.length =
        ⟨.complete, false, .ended⟩ := by
      simp only [afterHeaders, HttpParseCtx.framing, hbody]
    have htwo := h.two_le
    have hunset := h.unset
    rw [hv, bodySwitch_chunked b alloc hbody, labelWaitClen, labelWaitCval]
    refine labelEnd_follows rfl ⟨h.toSane.post_lt, h.length_lt, h.last⟩
      (show ctx.postFullLength ≤ ctx.nextLine by omega) fun _ => ?_
    simp only [Bool.false_eq_true, false_iff, not_and]
    omega

/-- What follows the header loop. -/
def behindLoop (b : Build) (alloc : Alloc) : LoopExit → Except Fault Exit
  | .ret herr ctx => .ok (.ret herr ctx)
  | .done headerCnt ctx =>
    if headerCnt = 100 then .ok (.ret .requestFatal ctx) else bodySwitch b alloc ctx

theorem labelWaitHdr_eq {e : LoopExit}
    (h : headerLoop b alloc 100 { ctx with waitState := .waitHdr } = .ok e) :
    labelWaitHdr b alloc ctx = behindLoop b alloc e := by
  simp only [labelWaitHdr, h, bind, Except.bind]
  cases e with
  | ret herr ctx' => rfl
  | done headerCnt ctx' => rfl

variable (b) in
theorem loopRun_follows {left : Nat} (hleft : left ≤ 100) {e : LoopExit} (h : ctx.InLoop)
    (hrun : LoopRun alloc left ctx e) :
    Follows b (readHeaders alloc left ctx.framing ctx.cur ctx.nextLine ctx.unread) ctx.post
      (behindLoop b alloc e) := by
  induction hrun with
  | full ctx =>
    simp only [readHeaders, received_eq h.toSized]
    exact bodySwitch_follows h
  | «open» hc =>
    rw [readHeaders_open hc]
    exact .returns h.rests h.wire rfl fun _ => rfl
  | @blank left ctx r hc =>
    have hin := h.blank hc
    have hreceived := received_eq hin.toSized
    have hunread : ({ ctx.toLine [] with cur := ctx.nextLine + 2 } : HttpParseCtx).unread = r :=
      unread_toLine hc
    have hnext : ({ ctx.toLine [] with cur := ctx.nextLine + 2 } : HttpParseCtx).nextLine =
      ctx.nextLine + 2 := rfl
    rw [readHeaders_blank hc]
    by_cases hlast : left = 0
    · have hwire := hin.wire
      rw [hunread, hnext] at hwire
      simp only [hlast, behindLoop, if_true]
      exact .returns hin.rests hwire rfl fun _ => rfl
    · have hcnt : ¬ 100 - left = 100 := by omega
      rw [hunread, hnext] at hreceived
      simp only [hlast, behindLoop, hcnt, if_false, hreceived]
      exact bodySwitch_follows hin
  | @lost left ctx l r hc hl hpush =>
    have hin := h.toLine hc
    rw [readHeaders_lost hc hl hpush]
    refine .returns hin.rests ?_ rfl fun _ => rfl
    rw [hin.wire, unread_toLine hc]
    rfl
  | @line left ctx l r e hc hl hpush hrest ih =>
    rw [readHeaders_line hc hl hpush]
    have hin := h.takeLine hc (alloc (.header (100 - left)))
    have := ih (by omega) hin
    rwa [takeLine_framing, takeLine_cur, takeLine_nextLine, takeLine_unread ctx _ l hc,
      takeLine_post] at this

variable (b alloc) in
theorem labelWaitHdr_follows (hs : ctx.Sane) (hsized : ctx.Sized) (htwo : 2 ≤ ctx.nextLine)
    (hfull : ctx.postFullLength = 0) :
    Follows b (readHeaders alloc 100 ctx.framing ctx.cur ctx.nextLine ctx.unread) ctx.post
      (labelWaitHdr b alloc ctx) := by
  have hin : ({ ctx with waitState := .waitHdr } : HttpParseCtx).InLoop :=
    { cur_le := hsized.cur_le
      next_le := hsized.next_le
      post_lt := hs.post_lt
      length_lt := hs.length_lt
      last := hs.last
      waitState := rfl
      two_le := htwo
      unset := hfull }
  obtain ⟨e, he, hrun⟩ := headerLoop_run b alloc 100 hin.toSized
  rw [labelWaitHdr_eq he]
  have hfollows := loopRun_follows b (Nat.le_refl 100) hin hrun
  exact hfollows

end Labels

/-- The node `wait_req` hands to the header loop. -/
def HttpParseCtx.behindLine (ctx : HttpParseCtx) (l : Bytes) (request : HttpRequest) :
    HttpParseCtx :=
  { ctx.toLine l with waitState := .waitReq, requestLine := l, httpRequest := request }

section BehindLine

variable (ctx : HttpParseCtx) (l : Bytes) (request : HttpRequest)

@[simp] theorem behindLine_post : (ctx.behindLine l request).post = ctx.post := rfl
@[simp] theorem behindLine_cur : (ctx.behindLine l request).cur = ctx.nextLine := rfl
@[simp] theorem behindLine_nextLine :
    (ctx.behindLine l request).nextLine = ctx.nextLine + l.length + 2 := rfl
@[simp] theorem behindLine_framing : (ctx.behindLine l request).framing = ctx.framing := rfl

theorem behindLine_unread {r : Bytes} (h : cutLine ctx.unread = some (l, r)) :
    (ctx.behindLine l request).unread = r := unread_toLine h

theorem behindLine_sized {r : Bytes} (hs : ctx.Sized) (h : cutLine ctx.unread = some (l, r)) :
    (ctx.behindLine l request).Sized :=
  ⟨(Sized.toLine hs h).cur_le, (Sized.toLine hs h).next_le, hs.post_lt⟩

end BehindLine

/-- `wait_req` waits for a line, or parses the one it has and goes to the headers. -/
theorem labelWaitReq_cases (b : Build) (alloc : Alloc) {ctx : HttpParseCtx} (hs : ctx.Sized)
    (hnext : ctx.nextLine = 0) :
    (cutLine ctx.unread = none ∧ labelWaitReq b alloc ctx =
      .ok (.ret .parseCannotFindClrf { ctx with waitState := .waitReq })) ∨
    ∃ l r, cutLine ctx.unread = some (l, r) ∧
      (labelWaitReq b alloc ctx = .error .undefined ∨
        ∃ request, labelWaitReq b alloc ctx = labelWaitHdr b alloc (ctx.behindLine l request) ∧
          request.headerList = ctx.httpRequest.headerList) := by
  unfold labelWaitReq
  simp only
  generalize hreq : ({ ctx with waitState := .waitReq } : HttpParseCtx) = req
  have hunread : req.unread = ctx.unread := by
    rw [← hreq]
    rfl
  have hsized : req.Sized := by
    rw [← hreq]
    exact ⟨hs.cur_le, hs.next_le, hs.post_lt⟩
  cases hc : cutLine ctx.unread with
  | none =>
    rw [updateCtxToNextClrf_open (by rwa [hunread])]
    exact Or.inl ⟨rfl, rfl⟩
  | some p =>
    obtain ⟨l, r⟩ := p
    have hc' : cutLine req.unread = some (l, r) := by rwa [hunread]
    refine Or.inr ⟨l, r, rfl, ?_⟩
    rw [updateCtxToNextClrf_line hc']
    simp only [reduceCtorEq, if_false, getCtxFocusLine_toLine b hsized hc', bind, Except.bind]
    have hcur : ({ req.toLine l with requestLine := l } : HttpParseCtx).cur = 0 := by
      rw [← hreq]
      exact hnext
    have hle : l.length ≤ (req.toLine l).nextLine := by
      simp only [HttpParseCtx.toLine]
      omega
    rcases parseRequestLine_cases b (alloc .path) hcur hle with
      h | ⟨herr, request, h, hfatal, hlist⟩
    · rw [h]
      exact Or.inl rfl
    · rw [h]
      simp only [hfatal, if_false]
      rw [← hreq]
      refine Or.inr ⟨request, rfl, ?_⟩
      rw [hlist, ← hreq]
      rfl

/-- The verdict on a buffer that starts with the request line. -/
def lineVerdict (alloc : Alloc) (post : Bytes) : Verdict :=
  match cutLine post with
  | none => ⟨.waiting, true, .line post⟩
  | some (l, r) => readHeaders alloc 100 .none 0 (l.length + 2) r

theorem labelWaitReq_follows (b : Build) (alloc : Alloc) {ctx : HttpParseCtx} (hs : ctx.Sane)
    (hcur : ctx.cur = 0) (hnext : ctx.nextLine = 0) (hfull : ctx.postFullLength = 0)
    (hframing : ctx.framing = .none) :
    Follows b (lineVerdict alloc ctx.post) ctx.post (labelWaitReq b alloc ctx) := by
  have hunread : ctx.unread = ctx.post := by rw [HttpParseCtx.unread, hnext, List.drop_zero]
  have hsized : ctx.Sized := ⟨by omega, by omega, hs.post_lt⟩
  unfold lineVerdict
  rcases labelWaitReq_cases b alloc hsized hnext with ⟨hc, hl⟩ | ⟨l, r, hc, hl | ⟨request, hl, -⟩⟩
  · rw [hl, ← hunread, hc, hunread]
    refine .returns ⟨⟨hs.post_lt, hs.length_lt, hs.last⟩, hcur, hnext, hfull, hframing⟩ ?_ rfl
      fun _ => rfl
    exact congrArg Wire.line hunread
  · rw [hl]
    exact .undefined
  · have hfollows := labelWaitHdr_follows b alloc
      (show (ctx.behindLine l request).Sane from ⟨hs.post_lt, hs.length_lt, hs.last⟩)
      (behindLine_sized ctx l request hsized hc) (by simp) hfull
    rw [behindLine_framing, behindLine_cur, behindLine_nextLine, behindLine_unread ctx l request hc,
      behindLine_post, hframing, hnext, Nat.zero_add] at hfollows
    rw [hunread] at hc
    rw [hl, hc]
    exact hfollows

end LiteHttp
