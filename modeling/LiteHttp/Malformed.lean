import LiteHttp.KeepAlive

/-!
# Heads with a malformed line

`parse_request_line` and `parse_header_line` report a missing separator, and
`FATAL_ERR_HANDLE` lets every code but `http_err_request_fatal` pass: no line is
ever turned down for what it looks like. A malformed head ends in an error only
in the calls that fail for a reason of their own.
-/

namespace LiteHttp

open Delim Run

set_option autoImplicit false

/-- The request line of the bytes received. -/
def requestLineOf (post : Bytes) : Option Bytes := (cutLine post).map Prod.fst

/-- The non-empty lines behind it, up to a blank one. -/
def headerLinesOf (post : Bytes) : List Bytes :=
  match cutLine post with
  | none => []
  | some (_, r) => (collect cr lf r.length r).records

/-- A method, a path and a version part, and a colon in every header line. -/
def HeadWellFormed (post : Bytes) : Prop :=
  (∃ l ∈ requestLineOf post, 2 ≤ l.count space) ∧ ∀ h ∈ headerLinesOf post, colon ∈ h

/-- As far as it has come, the head is well formed. -/
def HeadSoFar (post : Bytes) : Prop :=
  (∀ l ∈ requestLineOf post, 2 ≤ l.count space) ∧ ∀ h ∈ headerLinesOf post, colon ∈ h

/-- The codes of a call that has given up the request it was reading. -/
def GivesUp (herr : HttpErr) : Prop :=
  herr ≠ .success ∧ herr ≠ .parseCannotFindClrf ∧ herr ≠ .requestTcpSegmentInBody

/-- What is asked of a call that returned `herr` and left `c`: a complete message has a
well-formed head, and where a line received is malformed the call ends in an error and the request
is not popped. -/
structure RejectsMalformed (herr : HttpErr) (c : ClientConn) : Prop where
  accepts : ∀ ctx ∈ c.node, ctx.waitState = .parseEnd → HeadWellFormed ctx.post
  ends : ∀ ctx ∈ c.node, ¬ HeadSoFar ctx.post → GivesUp herr
  keeps : ∀ ctx ∈ c.node, ¬ HeadSoFar ctx.post → ∀ request c', c.pop ≠ .ok (some request, c')

/-- The call fails for its bytes, a line or the body finding no memory, or for the hundredth
round of the header loop. -/
def TurnedDown (c : ClientConn) (i : Feed) : Prop :=
  ∃ v ∈ c.verdict i, v.fate = .dropped ∨ v.fate = .lost ∨ v.fate = .fatal ∨ v.fate = .bodyLost

/-- The lines received by the end of the call have their separators, or the call is turned down. -/
def SoundOrTurnedDown (c : ClientConn) (i : Feed) : Prop :=
  (∀ ctx ∈ c.node, HeadSoFar (postAfter i.alloc ctx.post i.post)) ∨ TurnedDown c i

instance (post : Bytes) : Decidable (HeadSoFar post) := by unfold HeadSoFar; infer_instance

instance (c : ClientConn) (i : Feed) : Decidable (SoundOrTurnedDown c i) := by
  unfold SoundOrTurnedDown TurnedDown; infer_instance

theorem requestLineOf_append {post l : Bytes} (h : requestLineOf post = some l) (chunk : Bytes) :
    requestLineOf (post ++ chunk) = some l := by
  obtain ⟨⟨l', r⟩, hc, rfl⟩ := Option.map_eq_some_iff.mp h
  rw [requestLineOf, cutLine, cut_append hc]
  rfl

section Run

variable {b : Build}

/-- A node waits for its request line exactly as long as there is none. -/
structure LineHere (ctx : HttpParseCtx) : Prop where
  waits : ∀ u, ctx.wire = .line u → u = ctx.post
  read : (∀ u, ctx.wire ≠ .line u) → ∃ l, requestLineOf ctx.post = some l

theorem LineHere.step {ctx ctx' : HttpParseCtx} {i : Feed} (h : LineHere ctx)
    (hwire : ctx'.wire = (ctx.wire.feed i.alloc i.post).wire)
    (hpost : ctx'.post = postAfter i.alloc ctx.post i.post) : LineHere ctx' := by
  have hfeed := hwire
  unfold Wire.feed at hwire
  unfold postAfter at hpost
  cases halloc : i.alloc .append with
  | false =>
    simp only [halloc, Bool.false_eq_true, if_false] at hwire hpost
    exact ⟨fun u hu => hpost ▸ h.waits u (hwire ▸ hu),
      fun hu => hpost ▸ h.read fun u => hwire ▸ hu u⟩
  | true =>
    simp only [halloc, if_true] at hwire hpost
    have hread (hw : ∀ u, ctx.wire ≠ .line u) : ∃ l, requestLineOf ctx'.post = some l := by
      obtain ⟨l, hl⟩ := h.read hw
      exact ⟨l, hpost ▸ requestLineOf_append hl i.post⟩
    cases hw : ctx.wire with
    | line u =>
      have hu := h.waits u hw
      simp only [hw, hu, ← hpost] at hwire
      cases hc : cutLine ctx'.post with
      | none =>
        simp only [hc] at hwire
        constructor
        · intro v hv
          rw [hwire, Wire.line.injEq] at hv
          exact hv.symm
        · intro hv
          exact absurd hwire (hv _)
      | some p =>
        simp only [hc] at hwire
        constructor
        · intro v hv
          exact absurd (hwire ▸ hv) (readHeaders_ne_line _ _ _ _ _ _ _)
        · intro _
          exact ⟨p.1, by simp [requestLineOf, hc]⟩
    | _ =>
      constructor
      · intro v hv
        exact absurd (hfeed ▸ hv) (feed_ne_line (by simp [hw]) _ _ v)
      · intro _
        exact hread (by simp [hw])

theorem lineHere_new : LineHere .new where
  waits _ hu := (Wire.line.inj hu).symm
  read hu := absurd rfl (hu [])

/-- One resting node, whose head is sound if it is complete. -/
def Reading (b : Build) (c : ClientConn) : Prop :=
  ∃ ctx, c = .single ctx ∧ ctx.Rests b ∧ LineHere ctx ∧ (ctx.wire = .ended → HeadSoFar ctx.post)

theorem reading_new (b : Build) : Reading b .new :=
  ⟨_, rfl, rests_new b, lineHere_new, by decide⟩

theorem LineHere.head_iff {ctx : HttpParseCtx} (h : LineHere ctx) (hend : ctx.wire = .ended) :
    HeadWellFormed ctx.post ↔ HeadSoFar ctx.post := by
  obtain ⟨l, hl⟩ := h.read fun u hu => by
    rw [hend] at hu
    cases hu
  simp [HeadWellFormed, HeadSoFar, hl]

theorem fate_dropped {w : Wire} (hw : w = .ended) {alloc : Alloc} {chunk : Bytes}
    (h : (w.feed alloc chunk).fate ≠ .complete) : alloc .append = false := by
  subst hw
  by_contra halloc
  rw [Bool.not_eq_false] at halloc
  simp [Wire.feed, halloc] at h

/-- A call that is turned down leaves no complete message behind, unless it was complete before
and its bytes did not come in. -/
theorem open_of_turnedDown {ctx ctx' : HttpParseCtx} {i : Feed}
    (hended : ctx.wire = .ended → HeadSoFar ctx.post)
    (hwire : ctx'.wire = (ctx.wire.feed i.alloc i.post).wire)
    (hpost : ctx'.post = postAfter i.alloc ctx.post i.post)
    (hdown : TurnedDown (.single ctx) i) (hbad : ¬ HeadSoFar ctx'.post) : ctx'.wire ≠ .ended := by
  have hopen : (ctx.wire.feed i.alloc i.post).fate ≠ .complete := by
    intro hc
    simp [TurnedDown, hc] at hdown
  intro hend
  by_cases hw : ctx.wire = .ended
  · rw [hpost, postAfter, fate_dropped hw hopen, if_neg Bool.false_ne_true] at hbad
    exact hbad (hended hw)
  · exact hopen ((feed_ends hw i.post).mpr (hwire ▸ hend))

theorem givesUp_iff {ctx : HttpParseCtx} {i : Feed} :
    GivesUp (ctx.wire.feed i.alloc i.post).fate.code ↔ TurnedDown (.single ctx) i := by
  simp only [TurnedDown, verdict_single, Option.mem_def, Option.some.injEq, exists_eq_left',
    GivesUp]
  cases (ctx.wire.feed i.alloc i.post).fate <;> simp [Fate.code]

theorem rejectsMalformed_iff {c t : ClientConn} {i : Feed} {herr : HttpErr} (h : Reading b c)
    (hs : c.feedStep b i = .ok (herr, t)) : RejectsMalformed herr t ↔ SoundOrTurnedDown c i := by
  obtain ⟨ctx, rfl, hrests, hline, hended⟩ := h
  obtain ⟨ctx', rfl, hrests', rfl, hwire, hpost, -⟩ := feedStep_single_ok hrests hs
  have hline' := hline.step hwire hpost
  have hend := waitState_eq_parseEnd_iff hrests'
  have hsound : (∀ c ∈ (ClientConn.single ctx).node, HeadSoFar (postAfter i.alloc c.post i.post)) ↔
      HeadSoFar ctx'.post := by simp [hpost]
  unfold SoundOrTurnedDown
  rw [hsound]
  constructor
  · intro hrejects
    by_cases hhead : HeadSoFar ctx'.post
    · exact Or.inl hhead
    · exact Or.inr (givesUp_iff.mp (hrejects.ends ctx' rfl hhead))
  · intro hcond
    have hopen (hbad : ¬ HeadSoFar ctx'.post) : ctx'.wire ≠ .ended :=
      open_of_turnedDown hended hwire hpost (hcond.resolve_left hbad) hbad
    constructor
    · rintro _ ⟨⟩ hcomplete
      have hw := hend.mp hcomplete
      rw [hline'.head_iff hw]
      by_contra hbad
      exact hopen hbad hw
    · rintro _ ⟨⟩ hbad
      exact givesUp_iff.mpr (hcond.resolve_left hbad)
    · rintro _ ⟨⟩ hbad request c' hpop
      rw [pop_waiting fun hcomplete => hopen hbad (hend.mp hcomplete)] at hpop
      simp at hpop

theorem reading_step {c t : ClientConn} {i : Feed} {herr : HttpErr} (h : Reading b c)
    (hc : SoundOrTurnedDown c i) (hs : c.feedStep b i = .ok (herr, t)) : Reading b t := by
  obtain ⟨ctx, rfl, hrests, hline, hended⟩ := h
  obtain ⟨ctx', rfl, hrests', -, hwire, hpost, -⟩ := feedStep_single_ok hrests hs
  refine ⟨ctx', rfl, hrests', hline.step hwire hpost, fun hw => ?_⟩
  rcases hc with hsound | hdown
  · rw [hpost]
    exact hsound ctx rfl
  · by_contra hbad
    exact open_of_turnedDown hended hwire hpost hdown hbad hw

end Run

/-- Over every run, malformed messages are rejected exactly when no call brings or keeps a
malformed line without being turned down for a reason of its own. -/
theorem run_rejects_iff (b : Build) (is : List Feed) {herrs : List HttpErr} {c : ClientConn}
    (hx : exec (ClientConn.feedStep b) .new is = .ok (herrs, c)) :
    (∀ herrs t, Reaches (ClientConn.feedStep b) .new is herrs t → ∀ herr ∈ herrs.getLast?,
        RejectsMalformed herr t) ↔
      Meets (ClientConn.feedStep b) SoundOrTurnedDown .new is :=
  forall_last_iff rejectsMalformed_iff reading_step (reading_new b) hx

/-- The second call brings a header line without a colon and finds no memory for it. -/
def malformedTurnedDown : List Feed :=
  [⟨fun _ => true, ascii "GET / HTTP/1.1\r\nHo".toList⟩,
   ⟨fun site => site ≠ .line 1, ascii "st\r\n\r\n".toList⟩]

theorem malformedTurnedDown_rejected : ∃ c,
    exec (ClientConn.feedStep .debug) .new malformedTurnedDown =
      .ok ([.parseCannotFindClrf, .malloc], c) ∧
    ∀ herrs t, Reaches (ClientConn.feedStep .debug) .new malformedTurnedDown herrs t →
      ∀ herr ∈ herrs.getLast?, RejectsMalformed herr t := by
  obtain ⟨c, hx⟩ : ∃ c, exec (ClientConn.feedStep .debug) .new malformedTurnedDown =
      .ok ([.parseCannotFindClrf, .malloc], c) := ⟨_, rfl⟩
  exact ⟨c, hx, (run_rejects_iff .debug malformedTurnedDown hx).mpr (by decide +kernel)⟩

def garbage : List Feed := [⟨fun _ => true, ascii "GARBAGE\r\nnocolon\r\n\r\n".toList⟩]

theorem garbage_accepted :
    (∃ c request c', exec (ClientConn.feedStep .debug) .new garbage = .ok ([.success], c) ∧
      c.pop = .ok (some request, c')) ∧
    ¬ ∀ herrs t, Reaches (ClientConn.feedStep .debug) .new garbage herrs t →
      ∀ herr ∈ herrs.getLast?, RejectsMalformed herr t := by
  refine ⟨⟨_, _, _, rfl, rfl⟩, ?_⟩
  intro h
  have hrejects := h [.success] _ ⟨garbage, List.prefix_rfl, rfl⟩ .success rfl
  exact (hrejects.ends _ rfl (by decide +kernel)).1 rfl

end LiteHttp
