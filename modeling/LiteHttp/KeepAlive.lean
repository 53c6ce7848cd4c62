import LiteHttp.Node

/-!
# The chain of a connection across events

`ctx_tail` is moved by `http_parse_feed` only, and `ctx_beg` by the pop only. A
request that is complete is popped with its node, and no event puts another node
in its place: the chain is sound exactly as long as no event has completed the
request it waits for.
-/

namespace LiteHttp

open Run

set_option autoImplicit false

universe u
variable {Response : Type u}

/-- Following `next_ctx` from a node over live nodes ends at the node `t`. -/
inductive Chain (h : NodeHeap) : Option NodeId → NodeId → Prop where
  | last {t : NodeId} {ctx : HttpParseCtx} (hlive : h.deref t = .ok ctx)
      (hend : ctx.nextCtx = none) : Chain h (some t) t
  | next {n m t : NodeId} {ctx : HttpParseCtx} (hlive : h.deref n = .ok ctx)
      (hnext : ctx.nextCtx = some m) (hrest : Chain h (some m) t) : Chain h (some n) t

/-- `ctx_tail` is live and is the last node of the chain that starts at `ctx_beg`. -/
def KeepAlive (c : ClientConn) : Prop := Chain c.heap c.ctxBeg c.ctxTail

/-- One readable event. On a closed connection there is none. -/
def clientStep (b : Build) (c : Option ClientConn) (event : ClientEvent Response) :
    Except Fault (HttpErr × Option ClientConn) :=
  match c with
  | none => .ok (.success, none)
  | some c => handleClientFd b event c

/-- The bytes of an event: what each `read` delivered and could be appended. -/
def received : List ReadStep → Bytes
  | [] => []
  | .data bytes allocOk :: steps => (if allocOk then bytes else []) ++ received steps
  | .eintr :: steps => received steps

/-- The bytes of the event do not complete the request the tail waits for. -/
def Incomplete (c : Option ClientConn) (event : ClientEvent Response) : Prop :=
  event.last = .again →
    ∀ conn ∈ c, ∀ v ∈ conn.verdict ⟨event.alloc, received event.reads⟩, v.fate ≠ .complete

instance (c : Option ClientConn) (event : ClientEvent Response) :
    Decidable (Incomplete c event) := by unfold Incomplete; infer_instance

theorem readClient_ok {last : ReadEnd} {steps : List ReadStep} {recStr : Bytes}
    {r : HttpErr × Bytes} (h : readClient last steps recStr = .ok r) :
    r = (if last = .again then .success else .clientClose, recStr ++ received steps) := by
  induction steps generalizing recStr with
  | nil =>
    cases last with
    | again => simpa [readClient, received] using h.symm
    | eof => simpa [readClient, received] using h.symm
    | failed => simpa [readClient, received] using h.symm
  | cons step steps ih =>
    cases step with
    | eintr => exact ih h
    | data bytes allocOk =>
      obtain ⟨p, happ, h⟩ := bind_ok h
      rw [ih h]
      rcases stringAppendView_ok happ with ⟨rfl, rfl, -⟩ | ⟨rfl, rfl⟩
      · simp [received]
      · simp [received]

section Single

variable {b : Build} {ctx : HttpParseCtx}

theorem keepAlive_single (h : ctx.Sane) : KeepAlive (.single ctx) := .last rfl h.last

theorem waitState_eq_parseEnd_iff (h : ctx.Rests b) :
    ctx.waitState = .parseEnd ↔ ctx.wire = .ended := by
  have hcursors := h.cursors
  unfold HttpParseCtx.wire
  cases hstate : ctx.waitState with
  | waitClen => simp [HttpParseCtx.Cursors, hstate] at hcursors
  | waitCval => simp [HttpParseCtx.Cursors, hstate] at hcursors
  | _ => simp

theorem pop_waiting (h : ctx.waitState ≠ .parseEnd) :
    (ClientConn.single ctx).pop = .ok (none, .single ctx) := by
  have hderef : NodeHeap.deref [some ctx] 0 = .ok ctx := rfl
  simp [ClientConn.pop, ClientConn.single, httpParsePopRequestAndRelease, hderef, h, bind,
    Except.bind, pure, Except.pure]

/-- The connection whose only node was popped. -/
def ClientConn.severed : ClientConn := ⟨[none], none, 0⟩

theorem pop_ended (hlast : ctx.nextCtx = none) (h : ctx.waitState = .parseEnd) :
    (ClientConn.single ctx).pop = .ok (some ctx.httpRequest, .severed) := by
  have hderef : NodeHeap.deref [some ctx] 0 = .ok ctx := rfl
  simp [ClientConn.pop, ClientConn.single, httpParsePopRequestAndRelease, hderef, h, hlast, bind,
    Except.bind, pure, Except.pure, ClientConn.severed, NodeHeap.free]

theorem not_keepAlive_severed : ¬ KeepAlive .severed := by
  intro h
  cases h

theorem serveLoop_single {handlers : Handlers Response} {fuel k : Nat} {herr : HttpErr}
    {r : HttpErr × ClientConn} (hs : ctx.Sane)
    (h : serveLoop b handlers (fuel + 1) k herr (.single ctx) = .ok r) :
    r.2 = if ctx.waitState = .parseEnd then .severed else .single ctx := by
  by_cases hend : ctx.waitState = .parseEnd
  · simp only [serveLoop, pop_ended hs.last hend, bind, Except.bind] at h
    simp only [hend, if_true]
    split at h
    · simp only [pure, Except.pure, Except.ok.injEq] at h
      rw [← h]
    · split at h
      · simp at h
      · split at h
        · simp at h
        · split at h
          · simp only [pure, Except.pure, Except.ok.injEq] at h
            rw [← h]
          · cases fuel with
            | zero => simp [serveLoop] at h
            | succ fuel =>
              simp only [serveLoop, ClientConn.pop, ClientConn.severed,
                httpParsePopRequestAndRelease, bind, Except.bind, pure, Except.pure,
                Except.ok.injEq] at h
              rw [← h]
              rfl
  · simp only [serveLoop, pop_waiting hend, bind, Except.bind, pure, Except.pure,
      Except.ok.injEq] at h
    simp only [hend, if_false, ← h]

end Single

/-- One event on a connection with a single resting node: it is closed, or keeps
its node, or loses it because the event completed the request. -/
theorem handleClientFd_single {b : Build} {event : ClientEvent Response} {ctx : HttpParseCtx}
    (hrests : ctx.Rests b) (hwait : ctx.wire ≠ .ended) {r : HttpErr × Option ClientConn}
    (h : handleClientFd b event (.single ctx) = .ok r) :
    r.2 = none ∨
    (Incomplete (some (.single ctx)) event ∧ ∃ ctx', r.2 = some (.single ctx') ∧ ctx'.Rests b ∧
      ctx'.wire ≠ .ended) ∨
    (¬ Incomplete (some (.single ctx)) event ∧ r.2 = some .severed) := by
  obtain ⟨p, hread, h⟩ := bind_ok h
  have hp := readClient_ok hread
  by_cases hlast : event.last = .again
  · simp only [hlast, if_true, List.nil_append] at hp
    rw [hp] at h
    simp only [reduceCtorEq, if_false, ne_eq, not_true_eq_false] at h
    have hinc : Incomplete (some (.single ctx)) event ↔
        (ctx.wire.feed event.alloc (received event.reads)).fate ≠ .complete := by
      simp [Incomplete, hlast]
    have hends : (ctx.wire.feed event.alloc (received event.reads)).Ends :=
      feed_ends hwait (received event.reads)
    obtain ⟨fed, hfed, h⟩ := bind_ok h
    rcases feed_cases hrests event.alloc (received event.reads) with hr | ⟨a, -, -, hr⟩ |
        ⟨ctx', hr, hrests', hw, -⟩
    · simp [hr] at hfed
    · simp [hr] at hfed
    · rw [hr, Except.ok.injEq] at hfed
      subst hfed
      have hend : ctx'.waitState = .parseEnd ↔
          (ctx.wire.feed event.alloc (received event.reads)).fate = .complete := by
        rw [waitState_eq_parseEnd_iff hrests', hw]
        exact hends.symm
      split at h
      · rename_i hfatal
        have hne : (ctx.wire.feed event.alloc (received event.reads)).fate ≠ .complete := by
          intro hc
          simp [hc, Fate.code] at hfatal
        obtain rfl := pure_ok.mp h
        refine Or.inr (Or.inl ⟨hinc.mpr hne, ctx', rfl, hrests', ?_⟩)
        rw [hw]
        exact fun he => hne (hends.mpr he)
      · obtain ⟨q, hserve, h⟩ := bind_ok h
        have hq := serveLoop_single hrests'.toSane hserve
        obtain rfl := pure_ok.mp h
        by_cases hc : (ctx.wire.feed event.alloc (received event.reads)).fate = .complete
        · simp only [hend.mpr hc, if_true] at hq
          exact Or.inr (Or.inr ⟨fun hi => hinc.mp hi hc, congrArg some hq⟩)
        · simp only [show ¬ ctx'.waitState = .parseEnd from fun he => hc (hend.mp he),
            if_false] at hq
          refine Or.inr (Or.inl ⟨hinc.mpr hc, ctx', congrArg some hq, hrests', ?_⟩)
          rw [hw]
          exact fun he => hc (hends.mpr he)
  · simp only [hlast, if_false, List.nil_append] at hp
    rw [hp] at h
    simp only [if_true] at h
    obtain rfl := pure_ok.mp h
    exact Or.inl rfl

theorem exec_closed {b : Build} {events : List (ClientEvent Response)} {herrs : List HttpErr}
    {c : Option ClientConn} (h : exec (clientStep b) none events = .ok (herrs, c)) : c = none := by
  induction events generalizing herrs with
  | nil =>
    simp only [exec_nil, Except.ok.injEq, Prod.mk.injEq] at h
    exact h.2.symm
  | cons event events ih =>
    obtain ⟨herr, t, herrs', hs, hr, -⟩ := exec_cons_ok h
    simp only [clientStep, Except.ok.injEq, Prod.mk.injEq] at hs
    rw [← hs.2] at hr
    exact ih hr

/-- Feeding through the dangling tail has no meaning: the next event closes the
connection or the run does not go on. -/
theorem exec_severed {b : Build} {events : List (ClientEvent Response)} {herrs : List HttpErr}
    {c : Option ClientConn} (h : exec (clientStep b) (some .severed) events = .ok (herrs, c)) :
    c = none ∨ c = some .severed ∧ events = [] := by
  cases events with
  | nil =>
    simp only [exec_nil, Except.ok.injEq, Prod.mk.injEq] at h
    exact Or.inr ⟨h.2.symm, rfl⟩
  | cons event events =>
    obtain ⟨herr, t, herrs', hs, hr, -⟩ := exec_cons_ok h
    have hderef : NodeHeap.deref [none] 0 = .error .undefined := rfl
    obtain ⟨p, hread, hs⟩ := bind_ok hs
    have hp := readClient_ok hread
    by_cases hlast : event.last = .again
    · simp [hp, hlast, ClientConn.feed, ClientConn.severed, httpParseFeed, hderef, bind,
        Except.bind] at hs
    · simp only [hp, hlast, if_false, if_true] at hs
      obtain ⟨-, rfl⟩ := Prod.mk.inj (pure_ok.mp hs)
      exact Or.inl (exec_closed hr)

theorem keepAlive_iff_single {b : Build} {events : List (ClientEvent Response)}
    {herrs : List HttpErr} {ctx : HttpParseCtx} {c : ClientConn} (hrests : ctx.Rests b)
    (hwait : ctx.wire ≠ .ended)
    (hx : exec (clientStep b) (some (.single ctx)) events = .ok (herrs, some c)) :
    KeepAlive c ↔ Meets (clientStep b) Incomplete (some (.single ctx)) events := by
  induction events generalizing ctx herrs with
  | nil =>
    simp only [exec_nil, Except.ok.injEq, Prod.mk.injEq, Option.some.injEq] at hx
    rw [← hx.2]
    exact iff_of_true (keepAlive_single hrests.toSane) trivial
  | cons event events ih =>
    obtain ⟨herr, t, herrs', hs, hr, -⟩ := exec_cons_ok hx
    rcases handleClientFd_single hrests hwait hs with rfl | ⟨hinc, ctx', rfl, hrests', hwait'⟩ |
        ⟨hinc, rfl⟩
    · simpa using exec_closed hr
    · rw [ih hrests' hwait' hr, meets_cons_iff hs]
      exact (and_iff_right hinc).symm
    · rcases exec_severed hr with h | ⟨h, rfl⟩
      · simp at h
      · rw [Option.some.injEq] at h
        subst h
        exact iff_of_false not_keepAlive_severed fun hm => hinc hm.1

/-- Over every run that leaves the connection open, the chain is sound exactly
when no event of it completed a request. -/
theorem run_keepAlive_iff (b : Build) (events : List (ClientEvent Response))
    {herrs : List HttpErr} {c : ClientConn}
    (hx : exec (clientStep b) (some .new) events = .ok (herrs, some c)) :
    KeepAlive c ↔ Meets (clientStep b) Incomplete (some .new) events :=
  keepAlive_iff_single (rests_new b) (by decide) hx

def readable (post : Bytes) : ClientEvent Unit :=
  ⟨[.data post true], .again, fun _ => true, ⟨fun _ _ => (.success, some ()), fun _ _ => .success⟩,
    true⟩

def partialEvents : List (ClientEvent Unit) :=
  [readable (ascii "GET / HTTP/1.1\r\nHost".toList), readable (ascii ": a\r\n\r".toList)]

theorem partialEvents_keepAlive : ∃ c,
    exec (clientStep .debug) (some .new) partialEvents =
      .ok ([.parseCannotFindClrf, .parseCannotFindClrf], some c) ∧ KeepAlive c := by
  obtain ⟨c, hx⟩ : ∃ c, exec (clientStep .debug) (some .new) partialEvents =
      .ok ([.parseCannotFindClrf, .parseCannotFindClrf], some c) := ⟨_, rfl⟩
  exact ⟨c, hx, (run_keepAlive_iff .debug partialEvents hx).mpr (by decide +kernel)⟩

/-- One event with one whole request leaves `ctx_tail` on a released node. -/
theorem whole_not_keepAlive :
    exec (clientStep .release) (some .new)
      [readable (ascii "GET / HTTP/1.1\r\n\r\n".toList)] = .ok ([.success], some .severed) ∧
    ¬ KeepAlive .severed :=
  ⟨rfl, not_keepAlive_severed⟩

end LiteHttp
