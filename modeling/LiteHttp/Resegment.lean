import LiteHttp.Segmentation

/-!
# Bytes that need not be a message

A call that waits leaves a node that knows no more than the bytes received: the
calls that follow take it where one call with all the bytes would have gone,
malformed as they may be. Only the bound of the header loop counts the lines of
each call anew, so a head of at most 98 lines is assumed.
-/

namespace LiteHttp

open Delim Run

set_option autoImplicit false

/-- The header lines of a stream: those behind its first line, up to an empty one. -/
def linesAhead (s : Bytes) : Nat :=
  match cutLine s with
  | none => 0
  | some (_, r) => (collect cr lf (r.length + 1) r).records.length

theorem linesAhead_mono (s t : Bytes) : linesAhead s ≤ linesAhead (s ++ t) := by
  unfold linesAhead
  cases hc : cutLine s with
  | none => exact Nat.zero_le _
  | some p =>
    obtain ⟨l, r⟩ := p
    rw [show cutLine (s ++ t) = some (l, r ++ t) from cut_append hc t]
    have hle : r.length + 1 ≤ (r ++ t).length + 1 := by
      rw [List.length_append]
      omega
    have hpre := collect_records_prefix (a := cr) (b := lf) hle r t
    exact hpre.length_le

/-- The header lines that one call takes, if they are few. -/
theorem collect_linesAhead {s l r : Bytes} (hc : cutLine s = some (l, r)) (hlines : linesAhead s ≤ 98)
    {n : Nat} (hn : 99 ≤ n) :
    collect cr lf n r = collect cr lf (r.length + 1) r ∧ (collect cr lf n r).stop ≠ .full ∧
      (collect cr lf n r).records.length ≤ 98 := by
  simp only [linesAhead, hc] at hlines
  have hstop := collect_not_full (a := cr) (b := lf) (Nat.lt_succ_self r.length)
  have heq : collect cr lf n r = collect cr lf (r.length + 1) r := collect_eq_of_lt hstop (by omega)
  rw [heq]
  exact ⟨rfl, hstop, hlines⟩

section Labels

variable (b : Build)

/-- The request line parser does not look at the buffer. -/
theorem parseRequestLine_with_post (pathOk : Bool) (ctx : HttpParseCtx) (p : Bytes) :
    parseRequestLine b pathOk { ctx with post := p } =
      (parseRequestLine b pathOk ctx).map fun r => (r.1, { r.2 with post := p }) := by
  unfold parseRequestLine
  simp only
  cases posNextToken ctx.requestLine space 0 with
  | none => rfl
  | some q =>
    obtain ⟨methodLen, pathAt⟩ := q
    simp only [bind, Except.bind]
    cases assert b .tokenBeforeNextLine (pathAt ≤ ctx.nextLine) with
    | error e => rfl
    | ok _ =>
    cases assert b .tokenAfterCur (ctx.cur ≤ pathAt) with
    | error e => rfl
    | ok _ =>
    cases assert b .methodLength
        ((stringViewSubstr ctx.requestLine 0 methodLen).length = methodLen) with
    | error e => rfl
    | ok _ =>
    simp only
    cases posNextToken ctx.requestLine space pathAt with
    | none => rfl
    | some q =>
      obtain ⟨pathLen, versionAt⟩ := q
      simp only
      cases assert b .tokenBeforeNextLine (versionAt ≤ ctx.nextLine) with
      | error e => rfl
      | ok _ =>
      cases assert b .tokenAfterCur (ctx.cur ≤ versionAt) with
      | error e => rfl
      | ok _ =>
      simp only
      cases stringInitFromStringView pathOk (stringViewSubstr ctx.requestLine pathAt pathLen) with
      | error e => rfl
      | ok r =>
        obtain ⟨ok, path⟩ := r
        cases ok with
        | false => rfl
        | true => rfl

theorem fresh_sized {p : Bytes} (hsize : p.length < 2 ^ 30) : (fresh p).Sized :=
  ⟨Nat.le_refl _, Nat.zero_le _, show p.length < ptrdiffMax by unfold ptrdiffMax; omega⟩

/-- `wait_req` on a new buffer with a line: what it makes of the line is the same whatever
comes behind it. -/
theorem labelWaitReq_fresh {p l r : Bytes} (hc : cutLine p = some (l, r)) :
    (∀ t, (p ++ t).length < 2 ^ 30 → labelWaitReq b allOk (fresh (p ++ t)) = .error .undefined) ∨
    ∃ request, ∀ t, (p ++ t).length < 2 ^ 30 → labelWaitReq b allOk (fresh (p ++ t)) =
      labelWaitHdr b allOk ((fresh (p ++ t)).behindLine l request) := by
  let line : HttpParseCtx :=
    { ({ fresh p with waitState := .waitReq } : HttpParseCtx).toLine l with requestLine := l }
  have hlabel (t : Bytes) (hsize : (p ++ t).length < 2 ^ 30) :
      labelWaitReq b allOk (fresh (p ++ t)) =
        (parseRequestLine b true { line with post := p ++ t } >>= fun x =>
          if x.1 = .requestFatal then .ok (.ret x.1 x.2) else labelWaitHdr b allOk x.2) := by
    have hsized : ({ fresh (p ++ t) with waitState := .waitReq } : HttpParseCtx).Sized :=
      ⟨Nat.le_refl _, Nat.zero_le _, (fresh_sized hsize).post_lt⟩
    have hcut : cutLine ({ fresh (p ++ t) with waitState := .waitReq } : HttpParseCtx).unread =
        some (l, r ++ t) := cut_append hc t
    unfold labelWaitReq
    simp only [updateCtxToNextClrf_line hcut, getCtxFocusLine_toLine b hsized hcut, reduceCtorEq,
      if_false, bind, Except.bind, allOk]
    rfl
  have hle : line.requestLine.length ≤ line.nextLine := by
    show l.length ≤ 0 + l.length + 2
    omega
  rcases parseRequestLine_cases b true (show line.cur = 0 from rfl) hle with hparse |
      ⟨herr, request, hparse, hfatal, -⟩
  · refine Or.inl fun t hsize => ?_
    rw [hlabel t hsize, parseRequestLine_with_post, hparse]
    rfl
  · refine Or.inr ⟨request, fun t hsize => ?_⟩
    rw [hlabel t hsize, parseRequestLine_with_post, hparse]
    simp only [Except.map, bind, Except.bind, hfatal, if_false]
    rfl

/-- Behind the lines of a block: the loop waits for more of them, or goes on to the body. -/
def behindBlock (ctx : HttpParseCtx) : Stop → Except Fault Exit
  | .open => .ok (.ret .parseCannotFindClrf ctx)
  | .blank => bodySwitch b allOk { ctx.toLine [] with cur := ctx.nextLine + 2 }
  | .full => bodySwitch b allOk ctx

theorem labelWaitHdr_few {ctx : HttpParseCtx} (hs : ctx.Sized) {k : Block Byte}
    (hk : collect cr lf 100 ctx.unread = k) (hstop : k.stop ≠ .full) (hfew : k.records.length ≤ 98) :
    labelWaitHdr b allOk ctx = behindBlock b
      (({ ctx with waitState := .waitHdr } : HttpParseCtx).takeLines k.records) k.stop := by
  rw [labelWaitHdr_collect b hs, hk]
  unfold blockExit behindBlock
  cases hcase : k.stop with
  | «open» => rfl
  | blank =>
    have hcnt : ¬ 101 - 100 + k.records.length = 100 := by omega
    simp only [behindLoop, hcnt, if_false]
  | full => exact absurd hcase hstop

theorem takeLines_unread (ctx : HttpParseCtx) {ls : List Bytes} {u : Bytes}
    (hu : ctx.unread = unlines cr lf ls ++ u) : (ctx.takeLines ls).unread = u := by
  rw [HttpParseCtx.unread, takeLines_post, takeLines_nextLine, ← List.drop_drop]
  show ctx.unread.drop _ = u
  rw [hu, List.drop_left]

theorem takeLines_sized {ctx : HttpParseCtx} (hs : ctx.Sized) {ls : List Bytes} {u : Bytes}
    (hu : ctx.unread = unlines cr lf ls ++ u) : (ctx.takeLines ls).Sized := by
  refine ⟨takeLines_cur_le hs.cur_le ls, ?_, ?_⟩
  · have hread := received_eq hs
    rw [hu, List.length_append] at hread
    rw [takeLines_nextLine, takeLines_post]
    omega
  · rw [takeLines_post]
    exact hs.post_lt

theorem not_waits_success : ¬ WireRequest.Waits .success := by simp [WireRequest.Waits]

/-- The switch behind the headers waits for a body of a given length only. -/
theorem bodySwitch_waits {ctx ctx' : HttpParseCtx} {herr : HttpErr}
    (h : bodySwitch b allOk ctx = .ok (.ret herr ctx')) (hwaits : WireRequest.Waits herr) :
    ctx.bodyType = .fixed ∧ ctx.post.length < sizeAdd ctx.cur ctx.bodyLength ∧
      ctx' = { ctx with
        waitState := .waitFixBody
        bodyCur := 0
        postFullLength := sizeAdd ctx.cur ctx.bodyLength } := by
  cases hbody : ctx.bodyType with
  | unset =>
    rw [bodySwitch_unset b allOk hbody] at h
    exact absurd ((labelEnd_ret h).1 ▸ hwaits) not_waits_success
  | chunked =>
    rw [bodySwitch_chunked b allOk hbody] at h
    exact absurd ((labelEnd_ret h).1 ▸ hwaits) not_waits_success
  | fixed =>
    rw [bodySwitch_fixed b allOk hbody] at h
    rcases labelWaitFixBody_ret h with ⟨hshort, -, hctx⟩ | ⟨-, _, _, _, hherr, -⟩
    · exact ⟨rfl, hshort, by rw [hctx, hbody]⟩
    · rcases hherr with ⟨rfl, -⟩ | ⟨rfl, -⟩
      · simp [WireRequest.Waits] at hwaits
      · exact absurd hwaits not_waits_success

end Labels

section Split

variable (b : Build) {p t l r : Bytes}

/-- The node behind the lines `ls` of a head whose first line is `l`. -/
def linesNode (p l : Bytes) (request : HttpRequest) (ls : List Bytes) : HttpParseCtx :=
  ({ (fresh p).behindLine l request with waitState := .waitHdr } : HttpParseCtx).takeLines ls

theorem linesNode_with_post (p q l : Bytes) (request : HttpRequest) (ls : List Bytes) :
    ({ linesNode p l request ls with post := q } : HttpParseCtx) = linesNode q l request ls := by
  rw [linesNode, linesNode, ← takeLines_with_post]
  rfl

theorem linesNode_post (request : HttpRequest) (ls : List Bytes) :
    (linesNode p l request ls).post = p := takeLines_post _ ls

/-- A call on a buffer that begins with the line `l`. -/
theorem labelWaitHdr_behindLine (hc : cutLine p = some (l, r)) (hsize : p.length < 2 ^ 30)
    (hlines : linesAhead p ≤ 98) (request : HttpRequest) :
    labelWaitHdr b allOk ((fresh p).behindLine l request) =
      behindBlock b (linesNode p l request (collect cr lf 100 r).records) (collect cr lf 100 r).stop := by
  obtain ⟨-, hstop, hfew⟩ := collect_linesAhead hc hlines (show 99 ≤ 100 by omega)
  have hcut : cutLine (fresh p).unread = some (l, r) := hc
  have hsized := behindLine_sized (fresh p) l request (fresh_sized hsize) hcut
  have hunread := behindLine_unread (fresh p) l request hcut
  exact labelWaitHdr_few b hsized (congrArg _ hunread) hstop hfew

/-- A call on a node that waits for header lines. -/
theorem labelWaitHdr_linesNode (hc : cutLine p = some (l, r)) (hsize : (p ++ t).length < 2 ^ 30)
    (hlines : linesAhead (p ++ t) ≤ 98) (hopen : (collect cr lf 100 r).stop = .open)
    (request : HttpRequest) :
    labelWaitHdr b allOk (linesNode (p ++ t) l request (collect cr lf 100 r).records) =
      labelWaitHdr b allOk ((fresh (p ++ t)).behindLine l request) := by
  have hcut : cutLine (p ++ t) = some (l, r ++ t) := cut_append hc t
  obtain ⟨-, hstop, hfew⟩ := collect_linesAhead hcut hlines (show 99 ≤ 100 by omega)
  have hcut' : cutLine (fresh (p ++ t)).unread = some (l, r ++ t) := hcut
  have hsized := behindLine_sized (fresh (p ++ t)) l request (fresh_sized hsize) hcut'
  have htiles := collect_tiles (a := cr) (b := lf) 100 r
  rw [labelWaitHdr_behindLine b hcut hsize hlines, collect_append_open hopen]
  rw [collect_append_open hopen] at hstop hfew
  simp only [hopen, Stop.tail, List.nil_append] at htiles
  simp only at hstop hfew ⊢
  generalize (collect cr lf 100 r).records = ls at htiles hstop hfew ⊢
  generalize (collect cr lf 100 r).rest = u at htiles hstop hfew ⊢
  have hunread : ({ (fresh (p ++ t)).behindLine l request with waitState := .waitHdr } :
      HttpParseCtx).unread = unlines cr lf ls ++ (u ++ t) := by
    rw [← List.append_assoc, ← htiles]
    exact behindLine_unread (fresh (p ++ t)) l request hcut'
  have hstart : ({ (fresh (p ++ t)).behindLine l request with waitState := .waitHdr } :
      HttpParseCtx).Sized := ⟨hsized.cur_le, hsized.next_le, hsized.post_lt⟩
  have hsized' : (linesNode (p ++ t) l request ls).Sized := takeLines_sized hstart hunread
  -- what is left of the bound after the lines taken is enough for those to come
  rw [List.length_append] at hfew
  have hmore : collect cr lf 100 (u ++ t) = collect cr lf (100 - ls.length) (u ++ t) :=
    collect_eq_of_lt hstop (by omega)
  have hstate : (linesNode (p ++ t) l request ls).waitState = .waitHdr := takeLines_waitState _ ls
  rw [labelWaitHdr_few b hsized' (congrArg _ (takeLines_unread _ hunread)) (by rwa [hmore])
    (by rw [hmore]; omega), hmore, with_waitState hstate, linesNode, linesNode, takeLines_append]

/-- A call that waits leaves the bytes that follow to a node that does with them what a new
one does with all. -/
theorem feedNode_split (hsize : (p ++ t).length < 2 ^ 30) (hlines : linesAhead (p ++ t) ≤ 98)
    {herr : HttpErr} {ctx : HttpParseCtx} (h : feedNode b allOk .new p = .ok (.ret herr ctx))
    (hwaits : WireRequest.Waits herr) : feedNode b allOk ctx t = feedNode b allOk .new (p ++ t) := by
  have hsize' : p.length < 2 ^ 30 := by
    rw [List.length_append] at hsize
    omega
  have hlines' : linesAhead p ≤ 98 := (linesAhead_mono p t).trans hlines
  rw [feedNode_new hsize'] at h
  rw [feedNode_new hsize]
  suffices hresume : ctx.post = p ∧
      resume b allOk { ctx with post := p ++ t } = labelWaitReq b allOk (fresh (p ++ t)) by
    rw [feedNode_append (by rwa [hresume.1]), hresume.1, hresume.2]
  cases hc : cutLine p with
  | none =>
    rcases labelWaitReq_cases b allOk (fresh_sized hsize') rfl with ⟨-, hl⟩ | ⟨l, r, hc', -⟩
    · rw [hl, Except.ok.injEq, Exit.ret.injEq] at h
      obtain ⟨-, rfl⟩ := h
      exact ⟨rfl, rfl⟩
    · have hc' : cutLine p = some (l, r) := hc'
      simp [hc] at hc'
  | some q =>
    obtain ⟨l, r⟩ := q
    rcases labelWaitReq_fresh b hc with hfault | ⟨request, hlabel⟩
    · have hfault := hfault [] (by rwa [List.append_nil])
      rw [List.append_nil, h] at hfault
      simp at hfault
    · have hshort := hlabel [] (by rwa [List.append_nil])
      rw [List.append_nil, h, labelWaitHdr_behindLine b hc hsize' hlines'] at hshort
      rw [hlabel t hsize]
      cases hstop : (collect cr lf 100 r).stop with
      | «open» =>
        rw [hstop, behindBlock, Except.ok.injEq, Exit.ret.injEq] at hshort
        obtain ⟨-, rfl⟩ := hshort
        refine ⟨linesNode_post _ _, ?_⟩
        rw [← labelWaitHdr_linesNode b hc hsize hlines hstop, linesNode_with_post]
        simp only [resume, linesNode, takeLines_waitState]
      | full =>
        exact absurd hstop (collect_linesAhead hc hlines' (show 99 ≤ 100 by omega)).2.1
      | blank =>
        rw [hstop, behindBlock] at hshort
        obtain ⟨hbody, -, rfl⟩ := bodySwitch_waits b hshort.symm hwaits
        refine ⟨linesNode_post _ _, ?_⟩
        rw [labelWaitHdr_behindLine b (cut_append hc t) hsize hlines, collect_append_blank hstop]
        simp only [hstop, behindBlock]
        rw [← linesNode_with_post p (p ++ t), bodySwitch_fixed b allOk (by exact hbody)]
        -- the body label sets again what the earlier call set
        rfl

/-- A call that waits would have waited with less. -/
theorem feedNode_prefix (hsize : (p ++ t).length < 2 ^ 30) (hlines : linesAhead (p ++ t) ≤ 98)
    {herr : HttpErr} {ctx : HttpParseCtx}
    (h : feedNode b allOk .new (p ++ t) = .ok (.ret herr ctx)) (hwaits : WireRequest.Waits herr) :
    ∃ herr' ctx', feedNode b allOk .new p = .ok (.ret herr' ctx') ∧ WireRequest.Waits herr' := by
  have hsize' : p.length < 2 ^ 30 := by
    rw [List.length_append] at hsize
    omega
  have hlines' : linesAhead p ≤ 98 := (linesAhead_mono p t).trans hlines
  rw [feedNode_new hsize] at h
  rw [feedNode_new hsize']
  cases hc : cutLine p with
  | none =>
    rcases labelWaitReq_cases b allOk (fresh_sized hsize') rfl with ⟨-, hl⟩ | ⟨l, r, hc', -⟩
    · exact ⟨_, _, hl, Or.inl rfl⟩
    · have hc' : cutLine p = some (l, r) := hc'
      simp [hc] at hc'
  | some q =>
    obtain ⟨l, r⟩ := q
    rcases labelWaitReq_fresh b hc with hfault | ⟨request, hlabel⟩
    · rw [hfault t hsize] at h
      simp at h
    · have hshort := hlabel [] (by rwa [List.append_nil])
      rw [List.append_nil, labelWaitHdr_behindLine b hc hsize' hlines'] at hshort
      rw [hlabel t hsize, labelWaitHdr_behindLine b (cut_append hc t) hsize hlines] at h
      rw [hshort]
      cases hstop : (collect cr lf 100 r).stop with
      | «open» => exact ⟨_, _, rfl, Or.inl rfl⟩
      | full =>
        exact absurd hstop (collect_linesAhead hc hlines' (show 99 ≤ 100 by omega)).2.1
      | blank =>
        rw [collect_append_blank hstop] at h
        simp only [hstop, behindBlock] at h ⊢
        obtain ⟨hbody, hshort, -⟩ := bodySwitch_waits b h hwaits
        rw [← linesNode_with_post p (p ++ t)] at hbody hshort
        rw [bodySwitch_fixed b allOk (by exact hbody)]
        refine ⟨_, _, WireRequest.labelWaitFixBody_short b _ rfl ?_, Or.inr rfl⟩
        refine Nat.lt_of_le_of_lt ?_ hshort
        show (linesNode p l request _).post.length ≤ (p ++ t).length
        rw [linesNode_post, List.length_append]
        omega

end Split

section Runs

variable (b : Build) {q : Bytes} {herr : HttpErr} {ctx : HttpParseCtx}

/-- A run of calls that wait is one call with all their bytes. -/
theorem node_of_exec (hctx : feedNode b allOk .new q = .ok (.ret herr ctx))
    (hwait : WireRequest.Waits herr) (hrests : ctx.Rests b) {cs : List Bytes}
    (hsize : (q ++ cs.flatten).length < 2 ^ 30) (hlines : linesAhead (q ++ cs.flatten) ≤ 98)
    {herrs : List HttpErr} {c : ClientConn}
    (hx : exec (ClientConn.feedStep b) (.single ctx) (feeds cs) = .ok (herrs, c))
    (hwaits : ∀ herr ∈ herrs, WireRequest.Waits herr) :
    ∃ herr' ctx', c = .single ctx' ∧ ctx'.Rests b ∧
      feedNode b allOk .new (q ++ cs.flatten) = .ok (.ret herr' ctx') ∧ WireRequest.Waits herr' := by
  induction cs generalizing q herr ctx herrs with
  | nil =>
    obtain ⟨rfl, rfl⟩ := Prod.mk.inj (Except.ok.inj hx)
    refine ⟨herr, ctx, rfl, hrests, ?_, hwait⟩
    rwa [List.flatten_nil, List.append_nil]
  | cons chunk cs ih =>
    rw [List.flatten_cons, ← List.append_assoc] at hsize hlines ⊢
    obtain ⟨herr₁, c₁, herrs, hstep, hrest, rfl⟩ := exec_cons_ok hx
    rw [List.forall_mem_cons] at hwaits
    obtain ⟨ctx₁, rfl, hnode, hrests₁, -⟩ := feedNode_of_feedStep hrests hstep
    have hshort : (q ++ chunk).length < 2 ^ 30 := by
      rw [List.length_append] at hsize
      omega
    rw [feedNode_split b hshort ((linesAhead_mono _ _).trans hlines) hctx hwait] at hnode
    exact ih hnode hwaits.1 hrests₁ hsize hlines hrest hwaits.2

/-- Bytes that one call waits with, in calls. -/
theorem exec_of_node (hctx : feedNode b allOk .new q = .ok (.ret herr ctx))
    (hwait : WireRequest.Waits herr) {cs : List Bytes} (hsize : (q ++ cs.flatten).length < 2 ^ 30)
    (hlines : linesAhead (q ++ cs.flatten) ≤ 98) {herr' : HttpErr} {ctx' : HttpParseCtx}
    (hall : feedNode b allOk .new (q ++ cs.flatten) = .ok (.ret herr' ctx'))
    (hwait' : WireRequest.Waits herr') :
    ∃ herrs, exec (ClientConn.feedStep b) (.single ctx) (feeds cs) = .ok (herrs, .single ctx') ∧
      ∀ herr ∈ herrs, WireRequest.Waits herr := by
  induction cs generalizing q herr ctx with
  | nil =>
    rw [List.flatten_nil, List.append_nil, hctx, Except.ok.injEq, Exit.ret.injEq] at hall
    obtain ⟨-, rfl⟩ := hall
    exact ⟨[], rfl, by simp⟩
  | cons chunk cs ih =>
    rw [List.flatten_cons, ← List.append_assoc] at hsize hlines hall
    obtain ⟨herr₁, ctx₁, hnode, hwait₁⟩ := feedNode_prefix b hsize hlines hall hwait'
    have hshort : (q ++ chunk).length < 2 ^ 30 := by
      rw [List.length_append] at hsize
      omega
    have hstep := hnode
    rw [← feedNode_split b hshort ((linesAhead_mono _ _).trans hlines) hctx hwait] at hstep
    obtain ⟨herrs, hx, hwaits⟩ := ih hnode hwait₁ hsize hlines hall
    exact ⟨herr₁ :: herrs, exec_cons (feed_of_feedNode hstep) hx,
      List.forall_mem_cons.mpr ⟨hwait₁, hwaits⟩⟩

/-- A call on a new connection, if calls that wait come first. -/
theorem feed_eq_of_feedNode {p chunk : Bytes} (hrests : ctx.Rests b)
    (h : feedNode b allOk ctx chunk = feedNode b allOk .new p) :
    (ClientConn.single ctx).feed b allOk chunk = ClientConn.new.feed b allOk p := by
  have hfollows := feedNode_follows allOk chunk hrests
  rw [new_eq_single]
  cases hr : feedNode b allOk ctx chunk with
  | error e => rw [feed_of_feedNode_error hr, feed_of_feedNode_error (h ▸ hr)]
  | ok exit =>
    rw [hr] at hfollows
    cases hfollows with
    | returns => rw [feed_of_feedNode hr, feed_of_feedNode (h ▸ hr)]

/-- The first call of a run on a new connection. -/
theorem node_of_run {cs : List Bytes} (hne : cs ≠ []) (hsize : cs.flatten.length < 2 ^ 30)
    (hlines : linesAhead cs.flatten ≤ 98) {herrs : List HttpErr} {c : ClientConn}
    (hx : exec (ClientConn.feedStep b) .new (feeds cs) = .ok (herrs, c))
    (hwaits : ∀ herr ∈ herrs, WireRequest.Waits herr) :
    ∃ herr ctx, c = .single ctx ∧ ctx.Rests b ∧
      feedNode b allOk .new cs.flatten = .ok (.ret herr ctx) ∧ WireRequest.Waits herr := by
  cases cs with
  | nil => exact absurd rfl hne
  | cons chunk cs =>
    obtain ⟨herr, c₁, herrs, hstep, hrest, rfl⟩ := exec_cons_ok hx
    rw [List.forall_mem_cons] at hwaits
    obtain ⟨ctx, rfl, hnode, hrests, -⟩ := feedNode_of_feedStep (rests_new b) hstep
    exact node_of_exec b hnode hwaits.1 hrests hsize hlines hrest hwaits.2

/-- Behind calls that wait, a call does what a first call with all the bytes would do. -/
theorem feedNode_of_run {cs : List Bytes} {herrs : List HttpErr} {c : ClientConn}
    (hx : exec (ClientConn.feedStep b) .new (feeds cs) = .ok (herrs, c))
    (hwaits : ∀ herr ∈ herrs, WireRequest.Waits herr) {last : Bytes}
    (hsize : (cs.flatten ++ last).length < 2 ^ 30) (hlines : linesAhead (cs.flatten ++ last) ≤ 98) :
    ∃ ctx, c = .single ctx ∧ ctx.Rests b ∧
      feedNode b allOk ctx last = feedNode b allOk .new (cs.flatten ++ last) := by
  by_cases hne : cs = []
  · subst hne
    obtain ⟨rfl, rfl⟩ := Prod.mk.inj (Except.ok.inj hx)
    exact ⟨.new, rfl, rests_new b, rfl⟩
  · have hshort : cs.flatten.length < 2 ^ 30 := by
      rw [List.length_append] at hsize
      omega
    obtain ⟨herr, ctx, rfl, hrests, hnode, hwait⟩ :=
      node_of_run b hne hshort ((linesAhead_mono _ _).trans hlines) hx hwaits
    exact ⟨ctx, rfl, hrests, feedNode_split b hsize hlines hnode hwait⟩

theorem run_of_node {cs : List Bytes} (hne : cs ≠ []) (hsize : cs.flatten.length < 2 ^ 30)
    (hlines : linesAhead cs.flatten ≤ 98)
    (hnode : feedNode b allOk .new cs.flatten = .ok (.ret herr ctx))
    (hwait : WireRequest.Waits herr) :
    ∃ herrs, exec (ClientConn.feedStep b) .new (feeds cs) = .ok (herrs, .single ctx) ∧
      ∀ herr ∈ herrs, WireRequest.Waits herr := by
  cases cs with
  | nil => exact absurd rfl hne
  | cons chunk cs =>
    obtain ⟨herr₁, ctx₁, hnode₁, hwait₁⟩ := feedNode_prefix b hsize hlines hnode hwait
    obtain ⟨herrs, hx, hwaits⟩ := exec_of_node b hnode₁ hwait₁ hsize hlines hnode hwait
    exact ⟨herr₁ :: herrs, exec_cons (feed_of_feedNode hnode₁) hx,
      List.forall_mem_cons.mpr ⟨hwait₁, hwaits⟩⟩

end Runs

/-- Where every call of a run waits, what matters is the bytes received: they could have come
in any other calls, and the call that follows does what one call with all the bytes does,
be they a message or not. -/
theorem run_resegmented (b : Build) {cs cs' : List Bytes} (hne : cs ≠ []) (hne' : cs' ≠ [])
    (hflat : cs'.flatten = cs.flatten) (hsize : cs.flatten.length < 2 ^ 30)
    (hlines : linesAhead cs.flatten ≤ 98) {herrs : List HttpErr} {c : ClientConn}
    (hx : exec (ClientConn.feedStep b) .new (feeds cs) = .ok (herrs, c))
    (hwaits : ∀ herr ∈ herrs, WireRequest.Waits herr) :
    (∃ herrs', exec (ClientConn.feedStep b) .new (feeds cs') = .ok (herrs', c) ∧
      ∀ herr ∈ herrs', WireRequest.Waits herr) ∧
    ∀ last, (cs.flatten ++ last).length < 2 ^ 30 → linesAhead (cs.flatten ++ last) ≤ 98 →
      c.feed b allOk last = ClientConn.new.feed b allOk (cs.flatten ++ last) := by
  constructor
  · obtain ⟨herr, ctx, rfl, -, hnode, hwait⟩ := node_of_run b hne hsize hlines hx hwaits
    exact run_of_node b hne' (hflat ▸ hsize) (hflat ▸ hlines) (hflat ▸ hnode) hwait
  · intro last hsize' hlines'
    obtain ⟨ctx, rfl, hrests, hnode⟩ := feedNode_of_run b hx hwaits hsize' hlines'
    exact feed_eq_of_feedNode b hrests hnode

/-- A request line without spaces and a line without a colon, cut at two places. -/
theorem garbled_resegmented : ∃ herrs c,
    exec (ClientConn.feedStep .debug) .new (feeds [ascii "x\r".toList, ascii "\nno colo".toList]) =
      .ok (herrs, c) ∧
    (∃ herrs', exec (ClientConn.feedStep .debug) .new (feeds [ascii "x\r\nno c".toList,
        ascii "olo".toList]) = .ok (herrs', c) ∧ ∀ herr ∈ herrs', WireRequest.Waits herr) ∧
    c.feed .debug allOk (ascii "n\r\n\r\nrest".toList) =
      ClientConn.new.feed .debug allOk (ascii "x\r\nno colon\r\n\r\nrest".toList) := by
  obtain ⟨herrs, c, hx, hwaits⟩ : ∃ herrs c, exec (ClientConn.feedStep .debug) .new
      (feeds [ascii "x\r".toList, ascii "\nno colo".toList]) = .ok (herrs, c) ∧
      ∀ herr ∈ herrs, WireRequest.Waits herr := by
    refine ⟨[.parseCannotFindClrf, .parseCannotFindClrf], _, rfl, ?_⟩
    simp [WireRequest.Waits]
  obtain ⟨hother, hnext⟩ := run_resegmented .debug (by decide)
    (show [ascii "x\r\nno c".toList, ascii "olo".toList] ≠ [] by decide) (by decide)
    (by decide) (by decide +kernel) hx hwaits
  exact ⟨herrs, c, hx, hother, hnext _ (by decide) (by decide +kernel)⟩

end LiteHttp
