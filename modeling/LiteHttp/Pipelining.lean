import LiteHttp.Reading

/-!
# Requests that arrive together

The glued-packet branch of `end` is entered for `next_line < post_full_length`,
which the line above it asserts not to hold and which no label brings about. So
only one request comes out of a call: a debug build stops at the assertion that
the message ends the buffer, a release drops what is behind the message.
-/

namespace LiteHttp

open Delim

set_option autoImplicit false

/-- The pops of the head return these requests, in order, and then nothing. -/
def Pops : ClientConn → List HttpRequest → Prop
  | c, [] => ∃ c', c.pop = .ok (none, c')
  | c, request :: requests => ∃ c', c.pop = .ok (some request, c') ∧ Pops c' requests

/-- One call with all the bytes succeeds, and the pops return the requests. -/
def Delivered (b : Build) (ms : List WireRequest) : Prop :=
  ∃ c, ClientConn.new.feed b allOk (ms.flatMap WireRequest.bytes) = .ok (.success, c) ∧
    Pops c (ms.map WireRequest.request)

theorem pops_severed {requests : List HttpRequest} (h : Pops .severed requests) :
    requests = [] := by
  cases requests with
  | nil => rfl
  | cons request requests =>
    obtain ⟨c', hpop, -⟩ := h
    simp [ClientConn.pop, ClientConn.severed, httpParsePopRequestAndRelease, bind, Except.bind,
      pure, Except.pure] at hpop

theorem length_of_delivered {b : Build} {ms : List WireRequest} (h : Delivered b ms) :
    ms.length = 1 := by
  obtain ⟨c, hfeed, hpops⟩ := h
  have hstep : (ClientConn.single .new).feedStep b ⟨allOk, ms.flatMap WireRequest.bytes⟩ =
      .ok (.success, c) := hfeed
  obtain ⟨ctx, rfl, hrests, hherr, hwire, -⟩ := feedStep_single_ok (rests_new b) hstep
  have hfate : (HttpParseCtx.new.wire.feed allOk (ms.flatMap WireRequest.bytes)).fate = .complete := by
    revert hherr
    cases (HttpParseCtx.new.wire.feed allOk (ms.flatMap WireRequest.bytes)).fate <;>
      simp [Fate.code]
  have hend : ctx.waitState = .parseEnd := by
    rw [waitState_eq_parseEnd_iff hrests, hwire]
    exact (feed_ends (by decide) _).mp hfate
  have hpop := pop_ended hrests.last hend
  cases ms with
  | nil =>
    obtain ⟨c', hnone⟩ := hpops
    rw [hpop, Except.ok.injEq, Prod.mk.injEq] at hnone
    simp at hnone
  | cons m ms =>
    obtain ⟨c', hsome, hrest⟩ := hpops
    rw [hpop, Except.ok.injEq, Prod.mk.injEq] at hsome
    obtain ⟨-, rfl⟩ := hsome
    have := pops_severed hrest
    rw [List.map_eq_nil_iff] at this
    rw [this]
    rfl

theorem pop_severed : ClientConn.severed.pop = .ok (none, .severed) := rfl

theorem delivered_single (b : Build) {m : WireRequest} (hlines : m.headers.length < 99)
    (hsize : m.bytes.length < 2 ^ 30) : Delivered b [m] := by
  have hnode : feedNode b allOk .new m.bytes = bodySwitch b allOk (m.bodyNode m.bytes) := by
    have hcnt : ¬ 1 + m.headers.length = 100 := by omega
    have hhead : m.bytes = m.head ++ m.body := rfl
    rw [feedNode_new hsize, WireRequest.labelWaitReq_head b hhead hsize (by omega)]
    simp only [behindLoop, hcnt, if_false]
  have hrest : m.bytes = m.bytes ++ [] := (List.append_nil _).symm
  rcases WireRequest.bodySwitch_whole b hrest hsize with ⟨-, hne, -⟩ | ⟨-, ctx, hswitch, hwhole⟩
  · exact absurd rfl hne
  · refine ⟨.single ctx, ?_, .severed, hwhole.pop, .severed, pop_severed⟩
    rw [List.flatMap_singleton]
    exact feed_of_feedNode (hnode.trans hswitch)

/-- Whatever is fed at once, nothing but a single request is delivered; and one
request of ordinary size is. -/
theorem delivered_iff_single (b : Build) (ms : List WireRequest)
    (hlines : ∀ m ∈ ms, m.headers.length < 99) :
    (Delivered b ms → ms.length = 1) ∧
    ((ms.flatMap WireRequest.bytes).length < 2 ^ 30 → (Delivered b ms ↔ ms.length = 1)) := by
  refine ⟨length_of_delivered, ?_⟩
  intro hsize
  constructor
  · exact length_of_delivered
  · intro hone
    obtain ⟨m, rfl⟩ := List.length_eq_one_iff.mp hone
    rw [List.flatMap_singleton] at hsize
    exact delivered_single b (hlines m List.mem_cons_self) hsize

theorem bareGet_delivered : Delivered .debug [bareGet] :=
  ((delivered_iff_single .debug [bareGet] (by decide +kernel)).2 (by decide +kernel)).mpr rfl

/-- Of two requests in one call a release delivers the first, and a debug build stops. -/
theorem glued_not_delivered :
    ¬ Delivered .release [bareGet, bareGet] ∧ ¬ Delivered .debug [bareGet, bareGet] ∧
    (∃ c, ClientConn.new.feed .release allOk ([bareGet, bareGet].flatMap WireRequest.bytes) =
        .ok (.success, c) ∧ c.pop = .ok (some bareGet.request, .severed)) ∧
    ClientConn.new.feed .debug allOk ([bareGet, bareGet].flatMap WireRequest.bytes) =
      .error (.assertFailed .endLength) := by
  refine ⟨?_, ?_, ⟨_, rfl, by decide +kernel⟩, by decide +kernel⟩
  · intro h
    exact absurd (length_of_delivered h) (by decide)
  · intro h
    exact absurd (length_of_delivered h) (by decide)

end LiteHttp
