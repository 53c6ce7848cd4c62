import LiteHttp.HeaderBlock
import LiteHttp.Node

/-!
# The recorded lines tile the bytes read

While a node waits for header lines, the bytes up to `next_line` are its request
line and its header lines, each with its CR LF, and the request has one header
for each line with a colon. The header loop keeps this line by line, and no
resume loses or repeats one.
-/

namespace LiteHttp

open Delim Run

set_option autoImplicit false

/-- The bytes up to `next_line` are the lines recorded, and so are the headers. -/
structure HttpParseCtx.Tiled (ctx : HttpParseCtx) : Prop where
  tiles : ctx.post.take ctx.nextLine = unlines cr lf (ctx.requestLine :: ctx.headerList)
  requestLine_free : CrlfFree ctx.requestLine
  lines : ∀ h ∈ ctx.headerList, h ≠ [] ∧ CrlfFree h
  headers : ctx.httpRequest.headerList = ctx.headerList.filterMap parsedHeader

/-- What a node that waits for a line has recorded. -/
def HttpParseCtx.RecordedLines (ctx : HttpParseCtx) : Prop :=
  match ctx.waitState with
  | .start => ctx.headerList = [] ∧ ctx.httpRequest.headerList = []
  | .waitReq => ctx.headerList = [] ∧ ctx.httpRequest.headerList = []
  | .waitHdr => ctx.Tiled
  | .waitFixBody => True
  | .waitClen => True
  | .waitCval => True
  | .parseEnd => True

/-- Between two calls no whole line is left unread. -/
structure HttpParseCtx.Recorded (ctx : HttpParseCtx) : Prop where
  recorded : ctx.RecordedLines
  read : ctx.waitState = .waitReq ∨ ctx.waitState = .waitHdr → CrlfFree ctx.unread

theorem take_of_cut {post l r : Bytes} {n : Nat} (h : cutLine (post.drop n) = some (l, r)) :
    post.take (n + l.length + 2) = post.take n ++ unlines cr lf [l] := by
  have hdrop : post.drop n = (l ++ [cr, lf]) ++ r := by simpa using eq_of_cut h
  have hlen : l.length + 2 = (l ++ [cr, lf]).length := by simp
  rw [Nat.add_assoc, List.take_add, hdrop, hlen, List.take_left]
  simp [unlines_cons]

section Tiled

variable {ctx : HttpParseCtx}

theorem HttpParseCtx.Tiled.takeLine (h : ctx.Tiled) {l r : Bytes} (hl : l ≠ [])
    (hc : cutLine ctx.unread = some (l, r)) : (ctx.takeLine true l).Tiled where
  tiles := by
    rw [takeLine_post, takeLine_nextLine, takeLine_requestLine, takeLine_headerList,
      take_of_cut hc, h.tiles, ← unlines_append, List.cons_append]
  requestLine_free := by rw [takeLine_requestLine]; exact h.requestLine_free
  lines := by
    rw [takeLine_headerList, List.forall_mem_append, List.forall_mem_singleton]
    exact ⟨h.lines, hl, free_of_cut hc⟩
  headers := by
    rw [takeLine_true_httpRequest, takeLine_headerList, List.filterMap_append, h.headers]
    cases hl : parsedHeader l <;> simp [hl]

theorem HttpParseCtx.Tiled.takeLines (h : ctx.Tiled) (left : Nat) :
    (ctx.takeLines (collect cr lf left ctx.unread).records).Tiled ∧
    ((collect cr lf left ctx.unread).stop = .open →
      CrlfFree (ctx.takeLines (collect cr lf left ctx.unread).records).unread) := by
  induction left generalizing ctx with
  | zero => exact ⟨h, fun hstop => by simp [collect] at hstop⟩
  | succ left ih =>
    cases hc : cutLine ctx.unread with
    | none =>
      rw [collect_succ_none hc]
      exact ⟨h, fun _ => cut_eq_none_iff.mp hc⟩
    | some p =>
      obtain ⟨l, r⟩ := p
      by_cases hl : l = []
      · subst hl
        rw [collect_succ_blank hc]
        exact ⟨h, fun hstop => by simp at hstop⟩
      · rw [collect_succ_record hc hl, Delim.Block.push_records, takeLines_cons,
          Delim.Block.push_stop, ← takeLine_unread ctx true l hc]
        exact ih (h.takeLine hl hc)

/-- A return that leaves a message or its body to come. -/
def LeavesRecorded (r : Except Fault Exit) : Prop :=
  ∀ herr ctx, r = .ok (.ret herr ctx) → herr ≠ .requestFatal → ctx.Recorded

theorem recorded_of_waitState (h : ctx.waitState = .waitFixBody ∨ ctx.waitState = .parseEnd) :
    ctx.Recorded := by
  rcases h with h | h
  · exact ⟨by simp only [HttpParseCtx.RecordedLines, h], by simp [h]⟩
  · exact ⟨by simp only [HttpParseCtx.RecordedLines, h], by simp [h]⟩

theorem labelEnd_recorded (b : Build) : LeavesRecorded (labelEnd b ctx) := by
  intro herr ctx' hr _
  rw [(labelEnd_ret hr).2]
  exact recorded_of_waitState (Or.inr rfl)

theorem labelWaitFixBody_recorded (b : Build) (alloc : Alloc) :
    LeavesRecorded (labelWaitFixBody b alloc ctx) := by
  intro herr ctx' hr _
  rcases labelWaitFixBody_ret hr with ⟨-, -, rfl⟩ | ⟨-, state, view, body, hstate, rfl⟩
  · exact recorded_of_waitState (Or.inl rfl)
  · rcases hstate with ⟨-, rfl⟩ | ⟨-, rfl⟩
    · exact recorded_of_waitState (Or.inl rfl)
    · exact recorded_of_waitState (Or.inr rfl)

theorem bodySwitch_recorded (b : Build) (alloc : Alloc) :
    LeavesRecorded (bodySwitch b alloc ctx) := by
  unfold bodySwitch
  split
  · exact labelEnd_recorded b
  · exact labelWaitFixBody_recorded b alloc
  · exact labelEnd_recorded b

theorem labelWaitHdr_recorded (b : Build) (hs : ctx.Sized) (h : ctx.Tiled) :
    LeavesRecorded (labelWaitHdr b allOk ctx) := by
  have h' : ({ ctx with waitState := .waitHdr } : HttpParseCtx).Tiled :=
    ⟨h.tiles, h.requestLine_free, h.lines, h.headers⟩
  obtain ⟨htiled, hfree⟩ := h'.takeLines 100
  intro herr ctx' hr hfatal
  rw [labelWaitHdr_collect b hs] at hr
  have hunread : ({ ctx with waitState := .waitHdr } : HttpParseCtx).unread = ctx.unread := rfl
  rw [hunread] at htiled hfree
  unfold blockExit at hr
  cases hstop : (collect cr lf 100 ctx.unread).stop with
  | «open» =>
    simp only [hstop, behindLoop, Except.ok.injEq, Exit.ret.injEq] at hr
    rw [← hr.2]
    refine ⟨?_, fun _ => hfree hstop⟩
    simp only [HttpParseCtx.RecordedLines, takeLines_waitState]
    exact htiled
  | blank =>
    simp only [hstop, behindLoop] at hr
    split at hr
    · simp only [Except.ok.injEq, Exit.ret.injEq] at hr
      exact absurd hr.1.symm hfatal
    · exact bodySwitch_recorded b allOk herr ctx' hr hfatal
  | full =>
    simp only [hstop, behindLoop] at hr
    exact bodySwitch_recorded b allOk herr ctx' hr hfatal

theorem labelWaitReq_recorded (b : Build) (hs : ctx.Sized) (hnext : ctx.nextLine = 0)
    (hlist : ctx.headerList = []) (hheaders : ctx.httpRequest.headerList = []) :
    LeavesRecorded (labelWaitReq b allOk ctx) := by
  intro herr ctx' hr hfatal
  rcases labelWaitReq_cases b allOk hs hnext with ⟨hc, hl⟩ | ⟨l, r, hc, hl | ⟨request, hl, hreq⟩⟩
  · simp only [hl, Except.ok.injEq, Exit.ret.injEq] at hr
    rw [← hr.2]
    exact ⟨⟨hlist, hheaders⟩, fun _ => cut_eq_none_iff.mp hc⟩
  · simp [hl] at hr
  · rw [hl] at hr
    refine labelWaitHdr_recorded b (behindLine_sized ctx l request hs hc) ?_ herr ctx' hr hfatal
    have htake := take_of_cut hc
    rw [hnext, List.take_zero, List.nil_append] at htake
    constructor
    · rw [behindLine_post, behindLine_nextLine, hnext, htake]
      exact congrArg (fun hs => unlines cr lf (l :: hs)) hlist.symm
    · exact free_of_cut hc
    · intro h hh
      have : h ∈ ctx.headerList := hh
      simp [hlist] at this
    · have : (ctx.behindLine l request).headerList = [] := hlist
      rw [this]
      exact hreq.trans hheaders

/-- The node is in front of a line, with its cursors in order. -/
def HttpParseCtx.AtLine (ctx : HttpParseCtx) : Prop :=
  (ctx.waitState = .start ∨ ctx.waitState = .waitReq → ctx.Sized ∧ ctx.nextLine = 0) ∧
  (ctx.waitState = .waitHdr → ctx.Sized)

theorem HttpParseCtx.Rests.atLine {b : Build} (h : ctx.Rests b) : ctx.AtLine := by
  constructor
  · intro hstate
    obtain ⟨hcur, hnext, -⟩ := h.start_cursors hstate
    exact ⟨⟨by omega, by omega, h.post_lt⟩, hnext⟩
  · intro hstate
    have hcursors := h.cursors
    simp only [HttpParseCtx.Cursors, hstate] at hcursors
    exact hcursors.1

theorem HttpParseCtx.AtLine.append (hat : ctx.AtLine) {chunk : Bytes}
    (hlt : (ctx.post ++ chunk).length < ptrdiffMax) :
    ({ ctx with post := ctx.post ++ chunk } : HttpParseCtx).AtLine := by
  constructor
  · intro hstate
    obtain ⟨hs, hnext⟩ := hat.1 hstate
    exact ⟨⟨hs.cur_le, hs.next_le.trans (by simp), hlt⟩, hnext⟩
  · intro hstate
    have hs := hat.2 hstate
    exact ⟨hs.cur_le, hs.next_le.trans (by simp), hlt⟩

theorem resume_recorded (b : Build) (hat : ctx.AtLine) (h : ctx.RecordedLines) :
    LeavesRecorded (resume b allOk ctx) := by
  unfold HttpParseCtx.RecordedLines at h
  unfold resume
  split
  · rename_i hstate
    obtain ⟨hs, hnext⟩ := hat.1 (Or.inl hstate)
    simp only [hstate] at h
    exact labelWaitReq_recorded b hs hnext h.1 h.2
  · rename_i hstate
    obtain ⟨hs, hnext⟩ := hat.1 (Or.inr hstate)
    simp only [hstate] at h
    exact labelWaitReq_recorded b hs hnext h.1 h.2
  · rename_i hstate
    simp only [hstate] at h
    exact labelWaitHdr_recorded b (hat.2 hstate) h
  · exact labelWaitFixBody_recorded b allOk
  · exact labelEnd_recorded b
  · exact labelEnd_recorded b
  · exact labelEnd_recorded b

theorem recordedLines_append (hat : ctx.AtLine) (h : ctx.RecordedLines) (chunk : Bytes) :
    ({ ctx with post := ctx.post ++ chunk } : HttpParseCtx).RecordedLines := by
  unfold HttpParseCtx.RecordedLines at h ⊢
  cases hstate : ctx.waitState with
  | start =>
    simp only [hstate] at h
    exact h
  | waitReq =>
    simp only [hstate] at h
    exact h
  | waitHdr =>
    simp only [hstate] at h ⊢
    refine ⟨?_, h.requestLine_free, h.lines, h.headers⟩
    rw [← h.tiles]
    exact List.take_append_of_le_length (hat.2 hstate).next_le
  | _ => trivial

theorem feedNode_recorded {b : Build} (hrests : ctx.Rests b) (h : ctx.Recorded) (chunk : Bytes) :
    LeavesRecorded (feedNode b allOk ctx chunk) := by
  intro herr ctx' hr hfatal
  rcases feedNode_ok hr with ⟨-, hlt, hresume⟩ | ⟨hno, -⟩
  · have hat := hrests.atLine
    exact resume_recorded b (hat.append hlt) (recordedLines_append hat h.recorded chunk) herr ctx'
      hresume hfatal
  · simp [allOk] at hno

end Tiled

/-- The calls that feed the chunks, with every allocation succeeding. -/
def feeds (chunks : List Bytes) : List Feed := chunks.map fun chunk => ⟨allOk, chunk⟩

/-- What a node in front of a line has made of the bytes it was fed. -/
structure LinesTile (chunks : List Bytes) (ctx : HttpParseCtx) : Prop where
  post : ctx.post = chunks.flatten
  waitReq : ctx.waitState = .waitReq →
    ctx.cur = 0 ∧ ctx.nextLine = 0 ∧ ctx.headerList = [] ∧ CrlfFree ctx.post
  waitHdr : ctx.waitState = .waitHdr →
    ctx.post.take ctx.nextLine = unlines cr lf (ctx.requestLine :: ctx.headerList) ∧
    CrlfFree ctx.requestLine ∧ (∀ h ∈ ctx.headerList, h ≠ [] ∧ CrlfFree h) ∧
    CrlfFree (ctx.post.drop ctx.nextLine) ∧
    ctx.httpRequest.headerList.map some =
      (ctx.headerList.filter fun h => colon ∈ h).map parsedHeader

theorem filterMap_parsedHeader (hs : List Bytes) :
    (hs.filterMap parsedHeader).map some =
      (hs.filter fun h => colon ∈ h).map parsedHeader := by
  induction hs with
  | nil => rfl
  | cons h hs ih =>
    have hiff := parsedHeader_isSome_iff h
    cases hp : parsedHeader h with
    | none =>
      have hno : colon ∉ h := fun hc => by simp [hp] at hiff; exact hiff hc
      simp [hp, hno, ih]
    | some header =>
      have hyes : colon ∈ h := hiff.mp (by simp [hp])
      simp [hp, hyes, ih]

theorem linesTile_of_recorded {b : Build} {chunks : List Bytes} {ctx : HttpParseCtx}
    (hrests : ctx.Rests b) (h : ctx.Recorded) (hpost : ctx.post = chunks.flatten) :
    LinesTile chunks ctx := by
  have hcursors := hrests.cursors
  have hrecorded := h.recorded
  unfold HttpParseCtx.Cursors at hcursors
  unfold HttpParseCtx.RecordedLines at hrecorded
  refine ⟨hpost, ?_, ?_⟩
  · intro hstate
    simp only [hstate] at hcursors hrecorded
    have hfree := h.read (Or.inl hstate)
    rw [HttpParseCtx.unread, hcursors.2.1, List.drop_zero] at hfree
    exact ⟨hcursors.1, hcursors.2.1, hrecorded.1, hfree⟩
  · intro hstate
    simp only [hstate] at hrecorded
    refine ⟨hrecorded.tiles, hrecorded.requestLine_free, hrecorded.lines, h.read (Or.inr hstate), ?_⟩
    rw [hrecorded.headers, filterMap_parsedHeader]

theorem recorded_exec {b : Build} {chunks : List Bytes} {herrs : List HttpErr}
    {ctx : HttpParseCtx} {c : ClientConn} (hrests : ctx.Rests b) (h : ctx.Recorded)
    (hx : exec (ClientConn.feedStep b) (.single ctx) (feeds chunks) = .ok (herrs, c))
    (hfatal : .requestFatal ∉ herrs) :
    ∃ ctx', c = .single ctx' ∧ ctx'.Rests b ∧ ctx'.Recorded ∧
      ctx'.post = ctx.post ++ chunks.flatten := by
  induction chunks generalizing ctx herrs with
  | nil =>
    simp only [feeds, List.map_nil, exec_nil, Except.ok.injEq, Prod.mk.injEq] at hx
    exact ⟨ctx, hx.2.symm, hrests, h, by simp⟩
  | cons chunk chunks ih =>
    obtain ⟨herr, t, herrs', hs, hr, rfl⟩ := exec_cons_ok hx
    rw [List.mem_cons, not_or] at hfatal
    obtain ⟨ctx₁, rfl, hnode, hrests₁, hpost⟩ := feedNode_of_feedStep hrests hs
    have hrecorded := feedNode_recorded hrests h chunk _ _ hnode (Ne.symm hfatal.1)
    obtain ⟨ctx', hc, hrests', hrecorded', hpost'⟩ := ih hrests₁ hrecorded hr hfatal.2
    refine ⟨ctx', hc, hrests', hrecorded', ?_⟩
    rw [hpost', hpost, List.flatten_cons, ← List.append_assoc]
    rfl

/-- Over every run without a fatal code, the bytes are the chunks fed, and the
lines recorded tile the bytes read. -/
theorem run_lines_tile (b : Build) (chunks : List Bytes) {herrs : List HttpErr} {c : ClientConn}
    (hx : exec (ClientConn.feedStep b) .new (feeds chunks) = .ok (herrs, c))
    (hfatal : .requestFatal ∉ herrs) : ∃ ctx, c.node = some ctx ∧ LinesTile chunks ctx := by
  have hnew : HttpParseCtx.new.Recorded := ⟨⟨rfl, rfl⟩, by decide⟩
  obtain ⟨ctx, rfl, hrests, hrecorded, hpost⟩ := recorded_exec (rests_new b) hnew hx hfatal
  exact ⟨ctx, rfl, linesTile_of_recorded hrests hrecorded hpost⟩

def splitLines : List Bytes :=
  [ascii "GET / HTTP/1.1\r".toList, ascii "\nHost: a\r\nnocolon\r\nAcc".toList]

theorem splitLines_tile : ∃ ctx, LinesTile splitLines ctx ∧ ctx.waitState = .waitHdr := by
  obtain ⟨c, hx, hstate⟩ : ∃ c, exec (ClientConn.feedStep .debug) .new (feeds splitLines) =
      .ok ([.parseCannotFindClrf, .parseCannotFindClrf], c) ∧
      c.node.map (·.waitState) = some .waitHdr := ⟨_, rfl, rfl⟩
  obtain ⟨ctx, hnode, htile⟩ := run_lines_tile .debug splitLines hx (by decide)
  rw [hnode, Option.map_some, Option.some.injEq] at hstate
  exact ⟨ctx, htile, hstate⟩

end LiteHttp
