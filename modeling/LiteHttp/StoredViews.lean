import LiteHttp.Stored
import LiteHttp.ContentLength
import Mathlib.Data.List.Forall2

/-!
# What a feed adds to the stored views

A label of `http_parse_feed` keeps the views there were and adds views of the
block the post is in at that call. Nothing it stores points anywhere else.
-/

namespace LiteHttp

open Buffers

set_option autoImplicit false

namespace Pointee

/-- A view of some bytes of the block. -/
def Into (blk : Id) (p : Pointee) : Prop := ∃ span, p = .into span ∧ span.buffer = blk

/-- A view that needs no buffer but this block. -/
def In (blk : Id) : Pointee → Prop
  | .null => True
  | .literal _ => True
  | .into span => span.buffer = blk
  | .mapFailed _ => False

variable {blk : Id} {p : Pointee} {sv : Bytes} {pos : Nat}

theorem Into.toIn (h : p.Into blk) : p.In blk := by
  obtain ⟨span, rfl, hspan⟩ := h
  exact hspan

theorem substr_past (h : sv.length ≤ pos) (len : Nat) (p : Pointee) :
    p.substr sv pos len = .literal 0 := if_pos h

theorem Into.substr (h : p.Into blk) (hpos : pos < sv.length) (len : Nat) :
    (p.substr sv pos len).Into blk := by
  obtain ⟨span, rfl, hspan⟩ := h
  refine ⟨⟨span.buffer, span.off + pos, (stringViewSubstr sv pos len).length⟩, ?_, hspan⟩
  exact if_neg (Nat.not_le.mpr hpos)

theorem Into.substr_in (h : p.Into blk) (sv : Bytes) (pos len : Nat) :
    (p.substr sv pos len).In blk := by
  by_cases hpos : pos < sv.length
  · exact (h.substr hpos len).toIn
  · rw [substr_past (Nat.not_lt.mp hpos)]
    trivial

end Pointee

theorem StoredCtx.view_into {n : StoredCtx} {blk : Id} (h : n.post = .block blk) (off : Nat)
    (sv : Bytes) : (n.view off sv).Into blk := by
  refine ⟨⟨blk, off, sv.length⟩, ?_, rfl⟩
  simp [StoredCtx.view, PostData.buffer, h]

/-- The views of a header point into the block, but for the name of a known field and an empty
value, which is a view of a literal. -/
structure HeaderViews.Of (blk : Id) (header : HttpHeader) (views : HeaderViews) : Prop where
  named : header.field = .unkown → views.name.Into blk
  nameless : header.field ≠ .unkown → views.name = .null
  valued : header.value.valueSv ≠ [] → views.value.Into blk
  empty : header.value.valueSv = [] → views.value = .literal 0

theorem newHeader_valueSv (k v : Bytes) : (newHeader k v).2.value.valueSv = v := by
  unfold newHeader
  simp only [apply_ite Prod.snd, apply_ite HttpHeader.value, httpHdrParseValue_valueSv, ite_self]

theorem stringViewSubstr_npos_eq_nil_iff {sv : Bytes} {pos : Nat} :
    stringViewSubstr sv pos npos = [] ↔ sv.length ≤ pos := by
  rw [stringViewSubstr_eq, List.take_eq_nil_iff, List.drop_eq_nil_iff]
  exact or_iff_right (by decide)

theorem headerViews_of {headerSv : Bytes} {headerAt : Pointee} {blk : Id} {tokenLen nextToken : Nat}
    (hto : headerAt.Into blk) (hcolon : posNextToken headerSv colon 0 = some (tokenLen, nextToken)) :
    (headerViews headerSv headerAt tokenLen nextToken).Of blk (newHeader
      (stringViewSubstr headerSv 0 tokenLen) (stringViewSubstr headerSv
        (if headerSv[nextToken]? = some space then nextToken + 1 else nextToken) npos)).2 := by
  obtain ⟨hnext, hle⟩ := posNextToken_le hcolon
  have hpos : 0 < headerSv.length := by omega
  unfold headerViews
  simp only
  generalize (if headerSv[nextToken]? = some space then nextToken + 1 else nextToken) = curToken
  constructor
  · intro hunknown
    rw [if_pos hunknown]
    exact hto.substr hpos tokenLen
  · intro hknown
    rw [if_neg hknown]
  · intro hvalue
    rw [newHeader_valueSv, Ne, stringViewSubstr_npos_eq_nil_iff, Nat.not_le] at hvalue
    exact hto.substr hvalue npos
  · intro hvalue
    rw [newHeader_valueSv, stringViewSubstr_npos_eq_nil_iff] at hvalue
    exact Pointee.substr_past hvalue npos headerAt

/-- The node has its request line. -/
def WaitState.PastLine (state : WaitState) : Prop := state ≠ .start ∧ state ≠ .waitReq

/-- The second node is the first one with more views, all of them of the block. -/
structure StoredCtx.Adds (blk : Id) (n n' : StoredCtx) : Prop where
  self : n'.self = n.self
  post : n'.post = n.post
  requestLine : n'.requestLine = n.requestLine
  past : n.ctx.waitState.PastLine → n'.ctx.waitState.PastLine
  headerList : ∃ new, n'.headerList = n.headerList ++ new ∧ ∀ p ∈ new, p.In blk
  bodyView : n'.bodyView = n.bodyView ∨ n'.bodyView.In blk
  headers : ∃ new views, n'.ctx.httpRequest.headerList = n.ctx.httpRequest.headerList ++ new ∧
    n'.headers = n.headers ++ views ∧ List.Forall₂ (HeaderViews.Of blk) new views

/-- The node a header loop is left with. -/
def StoredLoopExit.node : StoredLoopExit → StoredCtx
  | .ret _ n => n
  | .done _ n => n

namespace StoredCtx

variable {blk : Id} {n n' n'' : StoredCtx}

/-- A change of the bytes alone adds nothing. -/
theorem adds_of_ctx {ctx' : HttpParseCtx} (hpast : n.ctx.waitState.PastLine → ctx'.waitState.PastLine)
    (hlist : ctx'.httpRequest.headerList = n.ctx.httpRequest.headerList) :
    Adds blk n { n with ctx := ctx' } where
  self := rfl
  post := rfl
  requestLine := rfl
  past := hpast
  headerList := ⟨[], (List.append_nil _).symm, by simp⟩
  bodyView := Or.inl rfl
  headers := ⟨[], [], by rw [hlist, List.append_nil], (List.append_nil _).symm, .nil⟩

theorem Adds.refl (blk : Id) (n : StoredCtx) : Adds blk n n := adds_of_ctx (fun h => h) rfl

theorem Adds.trans (h : Adds blk n n') (h' : Adds blk n' n'') : Adds blk n n'' where
  self := h'.self.trans h.self
  post := h'.post.trans h.post
  requestLine := h'.requestLine.trans h.requestLine
  past := fun hpast => h'.past (h.past hpast)
  headerList := by
    obtain ⟨new, heq, hin⟩ := h.headerList
    obtain ⟨new', heq', hin'⟩ := h'.headerList
    refine ⟨new ++ new', by rw [heq', heq, List.append_assoc], ?_⟩
    intro p hp
    rcases List.mem_append.mp hp with hp | hp
    · exact hin p hp
    · exact hin' p hp
  bodyView := by
    rcases h'.bodyView with heq | hin
    · rw [heq]
      exact h.bodyView
    · exact Or.inr hin
  headers := by
    obtain ⟨new, views, hnew, hviews, hof⟩ := h.headers
    obtain ⟨new', views', hnew', hviews', hof'⟩ := h'.headers
    refine ⟨new ++ new', views ++ views', ?_, ?_, List.rel_append hof hof'⟩
    · rw [hnew', hnew, List.append_assoc]
    · rw [hviews', hviews, List.append_assoc]

/-- One more line is viewed. -/
theorem adds_line {p : Pointee} (hin : p.In blk) (headerList : List Bytes) :
    Adds blk n { n with
      ctx := { n.ctx with headerList := headerList }
      headerList := n.headerList ++ [p] } where
  self := rfl
  post := rfl
  requestLine := rfl
  past := fun h => h
  headerList := by
    refine ⟨[p], rfl, ?_⟩
    intro q hq
    rwa [List.mem_singleton.mp hq]
  bodyView := Or.inl rfl
  headers := ⟨[], [], (List.append_nil _).symm, (List.append_nil _).symm, .nil⟩

/-- The body is viewed. -/
theorem adds_body {p : Pointee} (hin : p.In blk) : Adds blk n { n with bodyView := p } where
  self := rfl
  post := rfl
  requestLine := rfl
  past := fun h => h
  headerList := ⟨[], (List.append_nil _).symm, by simp⟩
  bodyView := Or.inr hin
  headers := ⟨[], [], (List.append_nil _).symm, (List.append_nil _).symm, .nil⟩

/-- One more header is parsed. -/
theorem adds_header {ctx' : HttpParseCtx} {header : HttpHeader} {views : HeaderViews}
    (hpast : n.ctx.waitState.PastLine → ctx'.waitState.PastLine)
    (hlist : ctx'.httpRequest.headerList = n.ctx.httpRequest.headerList ++ [header])
    (hof : views.Of blk header) :
    Adds blk n { n with ctx := ctx', headers := n.headers ++ [views] } where
  self := rfl
  post := rfl
  requestLine := rfl
  past := hpast
  headerList := ⟨[], (List.append_nil _).symm, by simp⟩
  bodyView := Or.inl rfl
  headers := ⟨[header], [views], hlist, rfl, .cons hof .nil⟩

section Labels

variable {b : Build} {alloc : Alloc} {herr : HttpErr}

theorem within_ret {exit : Exit} (h : exit.within n = .ret herr n') :
    ∃ ctx', exit = .ret herr ctx' ∧ n' = { n with ctx := ctx' } := by
  cases exit with
  | ret code ctx' =>
    simp only [Exit.within, StoredExit.ret.injEq] at h
    obtain ⟨rfl, rfl⟩ := h
    exact ⟨ctx', rfl, rfl⟩
  | glued ctx' => simp [Exit.within] at h

/-- What `end` makes of a node adds nothing, whichever label goes there. -/
theorem ended_adds {ctx : HttpParseCtx} (blk : Id)
    (h : (do
      let exit ← LiteHttp.labelEnd b ctx
      return exit.within n) = .ok (.ret herr n'))
    (hlist : ctx.httpRequest.headerList = n.ctx.httpRequest.headerList) : Adds blk n n' := by
  obtain ⟨exit, hexit, h⟩ := bind_ok h
  obtain ⟨ctx', rfl, rfl⟩ := within_ret (pure_ok.mp h)
  obtain ⟨-, rfl⟩ := labelEnd_ret hexit
  exact adds_of_ctx (fun _ => ⟨nofun, nofun⟩) hlist

theorem labelEnd_adds (blk : Id) (h : n.labelEnd b = .ok (.ret herr n')) : Adds blk n n' :=
  ended_adds blk h rfl

theorem labelWaitCval_adds (blk : Id) (h : n.labelWaitCval b = .ok (.ret herr n')) :
    Adds blk n n' := ended_adds blk h rfl

theorem labelWaitClen_adds (blk : Id) (h : n.labelWaitClen b = .ok (.ret herr n')) :
    Adds blk n n' := ended_adds blk h rfl

/-- A return from `wait_fix_body` leaves the headers of the request alone. -/
theorem labelWaitFixBody_kept {ctx ctx' : HttpParseCtx}
    (h : LiteHttp.labelWaitFixBody b alloc ctx = .ok (.ret herr ctx')) :
    ctx'.waitState.PastLine ∧ ctx'.httpRequest.headerList = ctx.httpRequest.headerList := by
  rcases labelWaitFixBody_ret h with ⟨-, -, rfl⟩ | ⟨-, state, view, body, hstate, rfl⟩
  · exact ⟨⟨nofun, nofun⟩, rfl⟩
  · refine ⟨?_, rfl⟩
    rcases hstate with ⟨-, rfl⟩ | ⟨-, rfl⟩
    · exact ⟨nofun, nofun⟩
    · exact ⟨nofun, nofun⟩

theorem labelWaitFixBody_adds (hpost : n.post = .block blk)
    (h : n.labelWaitFixBody b alloc = .ok (.ret herr n')) : Adds blk n n' := by
  obtain ⟨exit, hexit, h⟩ := bind_ok h
  split at h
  · obtain ⟨ctx', rfl, rfl⟩ := within_ret (pure_ok.mp h)
    obtain ⟨hpast, hlist⟩ := labelWaitFixBody_kept hexit
    exact adds_of_ctx (fun _ => hpast) hlist
  · obtain ⟨ctx', rfl, rfl⟩ := within_ret (pure_ok.mp h)
    obtain ⟨hpast, hlist⟩ := labelWaitFixBody_kept hexit
    have hbody := (view_into hpost 0 n.ctx.post).substr_in n.ctx.post n.ctx.cur
      (sizeSub (sizeAdd n.ctx.cur n.ctx.bodyLength) n.ctx.cur)
    exact (adds_body hbody).trans (adds_of_ctx (fun _ => hpast) hlist)

theorem bodySwitch_adds (hpost : n.post = .block blk)
    (h : n.bodySwitch b alloc = .ok (.ret herr n')) : Adds blk n n' := by
  unfold StoredCtx.bodySwitch at h
  split at h
  · have hmoved : Adds blk n { n with ctx := { n.ctx with postFullLength := n.ctx.nextLine } } :=
      adds_of_ctx (fun hpast => hpast) rfl
    exact hmoved.trans (labelEnd_adds blk h)
  · exact labelWaitFixBody_adds hpost h
  · exact labelWaitClen_adds blk h

theorem parseHeaderLine_adds {hs : List Pointee} {p : Pointee} (hlast : n.headerList = hs ++ [p])
    (hto : p.Into blk) (pushOk : Bool) : Adds blk n (n.parseHeaderLine pushOk).2 := by
  have hat : n.headerList.getLast?.getD .null = p := by
    rw [hlast, List.getLast?_concat, Option.getD_some]
  unfold StoredCtx.parseHeaderLine LiteHttp.parseHeaderLine
  simp only [hat]
  cases hcolon : posNextToken (n.ctx.headerList.getLast?.getD []) colon 0 with
  | none => exact Adds.refl blk n
  | some token =>
    obtain ⟨tokenLen, nextToken⟩ := token
    cases pushOk with
    | false => exact Adds.refl blk n
    | true =>
      simp only [ccPush, if_true, headerLineUpdateBodyType_snd]
      refine adds_header ?_ ?_ (headerViews_of hto hcolon)
      · exact fun hpast => hpast
      · rfl

/-- The scan for the line end moves the cursors only. -/
theorem scan_kept (ctx : HttpParseCtx) : (updateCtxToNextClrf ctx).2.waitState = ctx.waitState ∧
    (updateCtxToNextClrf ctx).2.httpRequest = ctx.httpRequest := by
  unfold updateCtxToNextClrf
  split
  · exact ⟨rfl, rfl⟩
  · exact ⟨rfl, rfl⟩

theorem adds_scan (blk : Id) (n : StoredCtx) :
    Adds blk n { n with ctx := (updateCtxToNextClrf n.ctx).2 } := by
  obtain ⟨hstate, hrequest⟩ := scan_kept n.ctx
  refine adds_of_ctx ?_ (by rw [hrequest])
  rw [hstate]
  exact fun hpast => hpast

/-- Every round of the header loop adds the view of a line and those of its header. -/
theorem headerLoop_adds (hpost : n.post = .block blk) {left : Nat} {exit : StoredLoopExit}
    (h : n.headerLoop b alloc left = .ok exit) : Adds blk n exit.node := by
  induction left generalizing n with
  | zero =>
    obtain rfl : StoredLoopExit.done 101 n = exit := Except.ok.inj h
    exact Adds.refl blk n
  | succ left ih =>
    have hscan := adds_scan blk n
    unfold StoredCtx.headerLoop at h
    simp only at h
    generalize updateCtxToNextClrf n.ctx = scan at h hscan
    obtain ⟨code, ctx⟩ := scan
    simp only at h hscan
    apply hscan.trans
    split at h
    · obtain rfl := pure_ok.mp h
      exact Adds.refl blk _
    · obtain ⟨line, -, h⟩ := bind_ok h
      split at h
      · obtain ⟨-, -, h⟩ := bind_ok h
        obtain ⟨-, -, h⟩ := bind_ok h
        obtain rfl := pure_ok.mp h
        exact adds_of_ctx (fun hpast => hpast) rfl
      · obtain ⟨hdrSv, -, h⟩ := bind_ok h
        cases hpush : ccPush (alloc (.line (100 - left))) ctx.headerList hdrSv with
        | none =>
          simp only [hpush] at h
          obtain rfl := pure_ok.mp h
          exact Adds.refl blk _
        | some headerList =>
          simp only [hpush] at h
          have hview : ({ n with ctx := ctx }.view ctx.cur hdrSv).Into blk :=
            view_into hpost ctx.cur hdrSv
          have hline := adds_line (n := { n with ctx := ctx }) hview.toIn headerList
          have hparsed := parseHeaderLine_adds (n := { n with
            ctx := { ctx with headerList := headerList }
            headerList := n.headerList ++ [{ n with ctx := ctx }.view ctx.cur hdrSv] }) rfl hview
            (alloc (.header (100 - left)))
          have hround := hline.trans hparsed
          apply hround.trans
          split at h
          · obtain rfl := pure_ok.mp h
            exact Adds.refl blk _
          · exact ih (hround.post.trans hpost) h

theorem labelWaitHdr_adds (hpost : n.post = .block blk)
    (h : n.labelWaitHdr b alloc = .ok (.ret herr n')) :
    Adds blk n n' ∧ n'.ctx.waitState.PastLine := by
  have hstart : Adds blk n { n with ctx := { n.ctx with waitState := .waitHdr } } :=
    adds_of_ctx (fun _ => ⟨nofun, nofun⟩) rfl
  obtain ⟨exit, hexit, h⟩ := bind_ok h
  have hloop := headerLoop_adds (n := { n with ctx := { n.ctx with waitState := .waitHdr } }) hpost
    hexit
  have hpast := hloop.past ⟨nofun, nofun⟩
  cases exit with
  | ret code m =>
    obtain ⟨-, rfl⟩ := StoredExit.ret.inj (pure_ok.mp h)
    exact ⟨hstart.trans hloop, hpast⟩
  | done headerCnt m =>
    simp only at h
    split at h
    · obtain ⟨-, rfl⟩ := StoredExit.ret.inj (pure_ok.mp h)
      exact ⟨hstart.trans hloop, hpast⟩
    · have hbody := bodySwitch_adds (hloop.post.trans hpost) h
      exact ⟨hstart.trans (hloop.trans hbody), hbody.past hpast⟩

/-- Past the request line every label adds views and keeps those there are. -/
theorem resume_adds (hpost : n.post = .block blk) (hpast : n.ctx.waitState.PastLine)
    (h : n.resume b alloc = .ok (.ret herr n')) : Adds blk n n' := by
  unfold StoredCtx.resume at h
  cases hstate : n.ctx.waitState with
  | start => exact absurd hstate hpast.1
  | waitReq => exact absurd hstate hpast.2
  | waitHdr =>
    rw [hstate] at h
    exact (labelWaitHdr_adds hpost h).1
  | waitFixBody =>
    rw [hstate] at h
    exact labelWaitFixBody_adds hpost h
  | waitClen =>
    rw [hstate] at h
    exact labelWaitClen_adds blk h
  | waitCval =>
    rw [hstate] at h
    exact labelWaitCval_adds blk h
  | parseEnd =>
    rw [hstate] at h
    exact labelEnd_adds blk h

end Labels

end StoredCtx

/-- No view is stored yet. -/
structure StoredCtx.Blank (n : StoredCtx) : Prop where
  waits : ¬ n.ctx.waitState.PastLine
  requestLine : n.requestLine = .null
  headerList : n.headerList = []
  bodyView : n.bodyView = .null
  headers : n.headers = []
  none : n.ctx.httpRequest.headerList = []

/-- Every view that is stored is one of the block the post is in. -/
structure StoredCtx.Within (blk : Id) (n : StoredCtx) : Prop where
  requestLine : n.requestLine.Into blk
  headerList : ∀ p ∈ n.headerList, p.In blk
  bodyView : n.bodyView.In blk
  headers : List.Forall₂ (HeaderViews.Of blk) n.ctx.httpRequest.headerList n.headers

namespace StoredCtx

variable {blk : Id} {n n' : StoredCtx} {b : Build} {alloc : Alloc} {herr : HttpErr}

theorem blank_new (self : Id) : (StoredCtx.new self).Blank :=
  ⟨fun h => h.1 rfl, rfl, rfl, rfl, rfl, rfl⟩

theorem Adds.within (h : Adds blk n n') (hn : n.Within blk) : n'.Within blk where
  requestLine := by
    rw [h.requestLine]
    exact hn.requestLine
  headerList := by
    obtain ⟨new, heq, hin⟩ := h.headerList
    intro p hp
    rw [heq] at hp
    rcases List.mem_append.mp hp with hp | hp
    · exact hn.headerList p hp
    · exact hin p hp
  bodyView := by
    rcases h.bodyView with heq | hin
    · rw [heq]
      exact hn.bodyView
    · exact hin
  headers := by
    obtain ⟨new, views, hnew, hviews, hof⟩ := h.headers
    rw [hnew, hviews]
    exact List.rel_append hn.headers hof

/-- The first view of a node is that of its request line. -/
theorem labelWaitReq_views (hpost : n.post = .block blk) (hn : n.Blank)
    (h : n.labelWaitReq b alloc = .ok (.ret herr n')) :
    n'.self = n.self ∧ n'.post = n.post ∧
      (n'.Blank ∨ n'.ctx.waitState.PastLine ∧ n'.Within blk) := by
  have hscan := scan_kept { n.ctx with waitState := .waitReq }
  unfold StoredCtx.labelWaitReq at h
  simp only at h
  generalize updateCtxToNextClrf { n.ctx with waitState := .waitReq } = scan at h hscan
  obtain ⟨code, ctx⟩ := scan
  obtain ⟨hstate, hrequest⟩ := hscan
  simp only at h hstate hrequest
  split at h
  · obtain ⟨-, rfl⟩ := StoredExit.ret.inj (pure_ok.mp h)
    refine ⟨rfl, rfl, Or.inl ⟨?_, hn.requestLine, hn.headerList, hn.bodyView, hn.headers, ?_⟩⟩
    · exact fun hpast => hpast.2 hstate
    · rw [hrequest]
      exact hn.none
  · obtain ⟨requestLine, -, h⟩ := bind_ok h
    obtain ⟨⟨parsed, ctx'⟩, hparsed, h⟩ := bind_ok h
    obtain ⟨request, rfl, hfatal, hlist⟩ := parseRequestLine_ok hparsed
    simp only [hfatal, if_false] at h
    have hlined : ({ n with
        ctx := { ctx with requestLine := requestLine, httpRequest := request }
        requestLine := { n with ctx := ctx }.view ctx.cur requestLine } : StoredCtx).Within blk := by
      constructor
      · exact view_into hpost ctx.cur requestLine
      · simp [hn.headerList]
      · simp [hn.bodyView, Pointee.In]
      · simp only [hlist, hrequest, hn.none, hn.headers]
        exact .nil
    obtain ⟨hadds, hpast⟩ := labelWaitHdr_adds (by exact hpost) h
    exact ⟨hadds.self, hadds.post, Or.inr ⟨hpast, hadds.within hlined⟩⟩

/-- A call keeps a node's views in the block its post is in. -/
theorem resume_views (hpost : n.post = .block blk)
    (hn : n.Blank ∨ n.ctx.waitState.PastLine ∧ n.Within blk)
    (h : n.resume b alloc = .ok (.ret herr n')) :
    n'.self = n.self ∧ n'.post = n.post ∧
      (n'.Blank ∨ n'.ctx.waitState.PastLine ∧ n'.Within blk) := by
  rcases hn with hblank | ⟨hpast, hwithin⟩
  · unfold StoredCtx.resume at h
    cases hstate : n.ctx.waitState with
    | start =>
      rw [hstate] at h
      exact labelWaitReq_views hpost hblank h
    | waitReq =>
      rw [hstate] at h
      exact labelWaitReq_views hpost hblank h
    | _ =>
      refine absurd ?_ hblank.waits
      rw [hstate]
      exact ⟨nofun, nofun⟩
  · have hadds := resume_adds hpost hpast h
    exact ⟨hadds.self, hadds.post, Or.inr ⟨hadds.past hpast, hadds.within hwithin⟩⟩

end StoredCtx

end LiteHttp
