import LiteHttp.Answers
import LiteHttp.Segmentation

/-!
# A request from its first byte to its answer

The events of one connection while a message comes in, cut into events and reads in
any way: nothing is sent before the event that brings the last byte, and what
that event sends is what the round of its request sends.
-/

namespace LiteHttp

open Delim Run

set_option autoImplicit false

/-- One event of a connection, with what the rounds of its loop find. -/
structure ServedEvent where
  read : ReadEvent
  envs : Nat → AnswerEnv

/-- One event on a connection that may be closed: what it sent, and its code. -/
def answerStep (b : Build) (c : Option ClientConn) (event : ServedEvent) :
    Except Fault ((List Answer × HttpErr) × Option ClientConn) :=
  match c with
  | none => .ok (([], .success), none)
  | some c => do
    let (answers, left) := answerClientFd b event.read event.envs c
    let (herr, c) ← left
    return ((answers, herr), c)

/-- A read of the event that brought bytes has also stored them. -/
def ReadStep.Stored : ReadStep → Prop
  | .data _ allocOk => allocOk = true
  | .eintr => True

/-- The event ends with the socket drained, and no allocation fails. -/
structure ReadEvent.Sound (event : ReadEvent) : Prop where
  last : event.last = .again
  stored : ∀ step ∈ event.reads, step.Stored
  alloc : event.alloc = allOk

def ReadEvent.bytes (event : ReadEvent) : Bytes := received event.reads

theorem readClient_stored {steps : List ReadStep} (hall : ∀ step ∈ steps, step.Stored)
    {recStr : Bytes} (hsize : (recStr ++ received steps).length < 2 ^ 30) :
    readClient .again steps recStr = .ok (.success, recStr ++ received steps) := by
  induction steps generalizing recStr with
  | nil => simp [readClient, received]
  | cons step steps ih =>
    rw [List.forall_mem_cons] at hall
    cases step with
    | eintr => exact ih hall.2 hsize
    | data bytes allocOk =>
      obtain rfl : allocOk = true := hall.1
      simp only [received, if_true, ← List.append_assoc] at hsize ⊢
      have happ : stringAppendView true recStr bytes = .ok (true, recStr ++ bytes) := by
        simp only [List.length_append] at hsize
        exact stringAppendView_true (storable_of_lt (by omega)) (by omega)
      simp only [readClient, happ, bind, Except.bind]
      exact ih hall.2 hsize

/-- The loop goes on behind a round that is a success. -/
theorem answerLoop_left {b : Build} {envs : Nat → AnswerEnv} {fuel k : Nat} {herr : HttpErr}
    {c c' : ClientConn} {request : HttpRequest} {answer : Answer}
    (hpop : c.pop = .ok (some request, c')) (hround : roundAnswer b (envs k) request = some answer)
    (hherr : answer.herr = .success) :
    (answerLoop b envs (fuel + 1) k herr c).2 = (answerLoop b envs fuel (k + 1) .success c').2 := by
  obtain ⟨hhandle, hsend⟩ := roundAnswer_some hround
  rw [hherr] at hsend
  have hset : assert b .responseNotNull ((some answer.response).isSome = true) = .ok () :=
    assert_of rfl
  simp only [answerLoop, hpop, hhandle, hsend, hset, ne_eq, not_true_eq_false, if_false]

section Event

variable {b : Build} {event : ReadEvent} {envs : Nat → AnswerEnv}

theorem arrive_sound (hsound : event.Sound) (hsize : event.bytes.length < 2 ^ 30)
    {c c' : ClientConn} {herr : HttpErr} (hfeed : c.feed b allOk event.bytes = .ok (herr, c'))
    (hfatal : herr ≠ .requestFatal) : arrive b event c = .ok (.loop herr c') := by
  have hread : readClient event.last event.reads [] = .ok (.success, event.bytes) := by
    rw [hsound.last]
    exact readClient_stored hsound.stored hsize
  unfold arrive
  simp only [hread, hsound.alloc, hfeed, hfatal, bind, Except.bind, reduceCtorEq, if_false, ne_eq,
    not_true_eq_false]
  rfl

/-- An event whose call waits sends nothing. -/
theorem answerClientFd_waits (hsound : event.Sound) (hsize : event.bytes.length < 2 ^ 30)
    {c : ClientConn} {ctx : HttpParseCtx} {herr : HttpErr}
    (hfeed : c.feed b allOk event.bytes = .ok (herr, .single ctx))
    (hwaits : WireRequest.Waits herr) (hstate : ctx.waitState ≠ .parseEnd) :
    answerClientFd b event envs c = ([], .ok (herr, some (.single ctx))) := by
  have hfatal : herr ≠ .requestFatal := by
    rcases hwaits with rfl | rfl
    · decide
    · decide
  unfold answerClientFd
  simp only [arrive_sound hsound hsize hfeed hfatal, answerLoop, pop_waiting hstate, Except.map]

/-- An event whose call completes a request runs one round of the loop. -/
theorem answerClientFd_whole (envs : Nat → AnswerEnv) (hsound : event.Sound)
    (hsize : event.bytes.length < 2 ^ 30) {c : ClientConn} {ctx : HttpParseCtx}
    (hfeed : c.feed b allOk event.bytes = .ok (.success, .single ctx))
    (hlast : ctx.nextCtx = none) (hstate : ctx.waitState = .parseEnd) :
    (answerClientFd b event envs c).1 = (roundAnswer b (envs 0) ctx.httpRequest).toList ∧
      ∀ answer, roundAnswer b (envs 0) ctx.httpRequest = some answer → answer.herr = .success →
        (answerClientFd b event envs c).2 = .ok (.success, some .severed) := by
  have hpop := pop_ended hlast hstate
  have hlength : (ClientConn.single ctx).heap.length = 1 := rfl
  unfold answerClientFd
  simp only [arrive_sound hsound hsize hfeed (by decide), hlength]
  constructor
  · rw [answerLoop_pop hpop]
    cases roundAnswer b (envs 0) ctx.httpRequest with
    | none => rfl
    | some answer =>
      simp only [Option.toList_some]
      split
      · rfl
      · rfl
  · intro answer hround hherr
    rw [answerLoop_left hpop hround hherr]
    rfl

end Event

section Run

variable (b : Build) {m : WireRequest} (hsize : m.bytes.length < 2 ^ 30)
include hsize

/-- The events that bring a proper prefix of a message send nothing. -/
theorem exec_waiting {events : List ServedEvent} {p s : Bytes} {j : Nat} {ctx : HttpParseCtx}
    (h : m.Phase p j ctx) (hsound : ∀ event ∈ events, event.read.Sound)
    (hs : p ++ (events.map (·.read.bytes)).flatten ++ s = m.bytes) (hrest : s ≠ [])
    (hwithin : m.Within p.length (events.map (·.read.bytes))) :
    ∃ outs i ctx', exec (answerStep b) (some (.single ctx)) events =
        .ok (outs, some (.single ctx')) ∧
      (∀ out ∈ outs, out.1 = [] ∧ WireRequest.Waits out.2) ∧
      m.Phase (p ++ (events.map (·.read.bytes)).flatten) i ctx' := by
  induction events generalizing p j ctx with
  | nil =>
    refine ⟨[], j, ctx, rfl, by simp, ?_⟩
    rwa [List.map_nil, List.flatten_nil, List.append_nil]
  | cons event events ih =>
    rw [List.forall_mem_cons] at hsound
    rw [List.map_cons] at hs hwithin ⊢
    obtain ⟨hfirst, hlater⟩ := hwithin
    rw [← List.length_append] at hfirst hlater
    rw [List.flatten_cons, ← List.append_assoc] at hs ⊢
    have hcall : p ++ event.read.bytes ++ ((events.map (·.read.bytes)).flatten ++ s) = m.bytes := by
      rw [← hs, List.append_assoc (p ++ event.read.bytes)]
    have hlt : event.read.bytes.length < 2 ^ 30 := by
      rw [← hs] at hsize
      simp only [List.length_append] at hsize
      omega
    rcases h.feedNode_within b hsize event.read.bytes hcall hfirst with
      ⟨-, herr, i, ctx', hfeed, hwaits, hphase⟩ | ⟨hnil, -⟩
    · obtain ⟨outs, i', ctx'', hx, hall, hphase'⟩ := ih hphase hsound.2 hs hlater
      have hstep : answerStep b (some (.single ctx)) event = .ok (([], herr), some (.single ctx')) := by
        simp only [answerStep, answerClientFd_waits hsound.1 hlt (feed_of_feedNode hfeed) hwaits
          hphase.waitState_ne, bind, Except.bind]
        rfl
      refine ⟨([], herr) :: outs, i', ctx'', exec_cons hstep hx, ?_, hphase'⟩
      exact List.forall_mem_cons.mpr ⟨⟨rfl, hwaits⟩, hall⟩
    · exact absurd (List.append_eq_nil_iff.mp hnil).2 hrest

end Run

/-- The events that bring a message of at most 98 header lines, cut in any way, send nothing
before the last, and the last sends what the round of the request sends: one whole
response exactly when the request is served in full. -/
theorem run_serves (b : Build) (m : WireRequest) (hlines : m.headers.length ≤ 98)
    (hsize : m.bytes.length < 2 ^ 30) {events : List ServedEvent} {last : ServedEvent}
    (hsound : ∀ event ∈ events ++ [last], event.read.Sound) (hlast : last.read.bytes ≠ [])
    (hcut : ((events ++ [last]).map (·.read.bytes)).flatten = m.bytes) :
    ∃ outs c, exec (answerStep b) (some .new) events = .ok (outs, some c) ∧
      (∀ out ∈ outs, out.1 = [] ∧ WireRequest.Waits out.2) ∧
      (answerClientFd b last.read last.envs c).1 = (roundAnswer b (last.envs 0) m.request).toList ∧
      (AnsweredFrom last.envs 0 [m.request] (answerClientFd b last.read last.envs c).1 ↔
        ServedInFull (last.envs 0) m.request) ∧
      (ServedInFull (last.envs 0) m.request →
        ∃ answer, exec (answerStep b) (some .new) (events ++ [last]) =
            .ok (outs ++ [([answer], .success)], some .severed) ∧
          answer.Answers (last.envs 0) m.request) := by
  rw [List.forall_mem_append] at hsound
  obtain ⟨hsound, hsoundLast⟩ := hsound
  have hsoundLast := hsoundLast last List.mem_cons_self
  have hs : [] ++ (events.map (·.read.bytes)).flatten ++ last.read.bytes = m.bytes := by
    rw [← hcut]
    simp
  obtain ⟨outs, j, ctx, hx, hquiet, hphase⟩ := exec_waiting b hsize (WireRequest.Phase.new (m := m))
    hsound hs hlast (m.within_of_le hlines 0 _)
  have hlt : last.read.bytes.length < 2 ^ 30 := by
    rw [← hs] at hsize
    simp only [List.length_append] at hsize
    omega
  have hall := m.within_of_le hlines 0 [(events.map (·.read.bytes)).flatten, last.read.bytes]
  obtain ⟨-, hcall, -⟩ := hall
  rw [Nat.zero_add, ← List.length_append] at hcall
  rw [← List.append_nil (_ ++ last.read.bytes)] at hs
  rcases hphase.feedNode_within b hsize last.read.bytes hs hcall with
    ⟨hne, -⟩ | ⟨-, ctx', hfeed, hwhole⟩
  · exact absurd rfl hne
  · obtain ⟨hsent, hleft⟩ := answerClientFd_whole last.envs hsoundLast hlt
      (feed_of_feedNode hfeed) hwhole.nextCtx hwhole.waitState
    rw [hwhole.httpRequest] at hsent hleft
    refine ⟨outs, .single ctx, hx, hquiet, hsent, ?_, ?_⟩
    · rw [hsent, ← roundAnswer_iff b]
      cases hround : roundAnswer b (last.envs 0) m.request with
      | none => simp [AnsweredFrom]
      | some answer => simp [AnsweredFrom]
    · intro hserved
      obtain ⟨answer, hround, hanswers⟩ := (roundAnswer_iff b).mpr hserved
      have hherr := Sent.Whole.success (roundAnswer_some hround).2 hanswers.1
      rw [hround] at hsent
      refine ⟨answer, exec_append hx ?_, hanswers⟩
      apply exec_cons _ rfl
      simp only [answerStep, bind, Except.bind]
      rw [hleft answer hround hherr, hsent]
      rfl

def indexGet : WireRequest := { bareGet with
  path := fileRequest.path
  path_free := by decide +kernel
  path_token := by decide +kernel }

/-- A read that is interrupted, then bytes, then no more of them. -/
def chunkEvent (chunk : Bytes) (env : AnswerEnv) : ServedEvent :=
  ⟨⟨[.eintr, .data chunk true], .again, allOk, true⟩, fun _ => env⟩

theorem chunkEvent_sound (chunk : Bytes) (env : AnswerEnv) : (chunkEvent chunk env).read.Sound where
  last := rfl
  stored := by simp [chunkEvent, ReadStep.Stored]
  alloc := rfl

/-- The request for a file, in two events. -/
theorem indexGet_served : ∃ outs answer,
    exec (answerStep .debug) (some .new) ([chunkEvent (ascii "GET /ind".toList) hiEnv] ++
        [chunkEvent (ascii "ex.html HTTP/1.1\r\n\r\n".toList) hiEnv]) =
      .ok (outs ++ [([answer], .success)], some .severed) ∧
    answer.Answers hiEnv indexGet.request := by
  obtain ⟨outs, c, -, -, -, -, hserves⟩ := @run_serves .debug indexGet (by decide) (by decide +kernel)
    [chunkEvent (ascii "GET /ind".toList) hiEnv]
    (chunkEvent (ascii "ex.html HTTP/1.1\r\n\r\n".toList) hiEnv) (by simp [chunkEvent_sound])
    (by decide +kernel) (by decide +kernel)
  obtain ⟨answer, hx, hanswers⟩ := hserves hiEnv_servedInFull
  exact ⟨outs, answer, hx, hanswers⟩

end LiteHttp
