import LiteHttp.Lib.Seen
import LiteHttp.Outstanding
import LiteHttp.Resegment
import LiteHttp.Serving

/-!
# The clients of one reactor

Clients share the descriptors, the queue and the workers, and nothing of what their
jobs read or parse: what became of a client is what its own events make of a new
connection, under any schedule and whatever the other clients do. The state of its
parser is then a matter of the bytes alone that it sent.
-/

namespace LiteHttp

open Run

set_option autoImplicit false

universe u
variable {Response : Type u}

namespace Reactor

/-- The event that a step runs the job of the client on. -/
def jobEvent (id : Nat) (s : Reactor) : ReactorInput Response → Option (ClientEvent Response)
  | .finish k _ event => if s.running[k]? = some (.client id) then some event else none
  | _ => none

/-- The events of one client in a run, in the order its jobs acted. -/
def clientEvents (b : Build) (threads id : Nat) (s : Reactor)
    (inputs : List (ReactorInput Response)) : List (ClientEvent Response) :=
  seen (step b threads) (jobEvent id) s inputs

/-- What became of a client, going by its events: nothing before it is accepted and where it is
refused; then a connection as long as every event ends with the socket drained, and its end
with the first event that does not, behind which it has none. -/
def Became (b : Build) (events : List (ClientEvent Response)) : Option ClientData → Prop
  | none => events = []
  | some .unregistered => events = []
  | some (.live conn) => (∀ event ∈ events, event.last = .again) ∧
      ∃ herrs, exec (clientStep b) (some .new) events = .ok (herrs, some conn)
  | some .freed => ∃ before last, events = before ++ [last] ∧
      (∀ event ∈ before, event.last = .again) ∧ last.last ≠ .again ∧
      ∃ herrs, exec (clientStep b) (some .new) events = .ok (herrs, none)

/-- The data of a client. -/
def dataOf (id : Nat) (s : Reactor) : Option ClientData := s.clients[id]?.map ClientEntry.data

variable {b : Build} {threads k id : Nat} {s t : Reactor}

/-- Only a step that finishes a job changes what the clients are. -/
theorem dataOf_of_not_finish {input : ReactorInput Response} {o : Unit}
    (h : s.step b threads input = .ok (o, t))
    (hnot : ∀ k accept event, input ≠ .finish k accept event) : t.dataOf id = s.dataOf id := by
  rcases step_cases h with hmoves | ⟨data, evs, job, addOk, -, -, -, rfl⟩ | ⟨k, rfl⟩ |
      ⟨k, accept, event, rfl, -⟩
  · rw [dataOf, dataOf, (sameJobs_of_loopMoves hmoves).2.2]
  · rfl
  · rw [dataOf, dataOf, take_clients]
  · exact absurd rfl (hnot k accept event)

/-- A client is told apart from those the server accepts by its number. -/
theorem dataOf_addClient (fd : Nat) (data : ClientData) :
    (s.addClient fd data).dataOf id =
      if id = s.clients.length then some data else s.dataOf id := by
  rw [dataOf, getElem?_addClient]
  split
  · rfl
  · rfl

theorem dataOf_length : s.dataOf s.clients.length = none := by
  simp [dataOf]

/-- The job of the server changes no client that was there. -/
theorem dataOf_handleServerFd (accept : AcceptAnswer) (id : Nat) :
    (s.handleServerFd accept).dataOf id = s.dataOf id ∨
      s.dataOf id = none ∧ ((s.handleServerFd accept).dataOf id = some (.live .new) ∨
        (s.handleServerFd accept).dataOf id = some .unregistered) := by
  rcases handleServerFd_cases accept s with heq | ⟨fd, -, -, heq⟩ | ⟨fd, -, heq⟩
  · exact .inl (congrArg _ heq)
  · have hdata : (s.handleServerFd accept).dataOf id =
        if id = s.clients.length then some (.live .new) else s.dataOf id := by
      rw [heq]
      exact dataOf_addClient fd (.live .new)
    by_cases hid : id = s.clients.length
    · subst hid
      exact .inr ⟨dataOf_length, .inl (hdata.trans (if_pos rfl))⟩
    · exact .inl (hdata.trans (if_neg hid))
  · have hdata : (s.handleServerFd accept).dataOf id =
        if id = s.clients.length then some .unregistered else s.dataOf id := by
      rw [heq, dataOf, close_clients]
      exact dataOf_addClient fd .unregistered
    by_cases hid : id = s.clients.length
    · subst hid
      exact .inr ⟨dataOf_length, .inr (hdata.trans (if_pos rfl))⟩
    · exact .inl (hdata.trans (if_neg hid))

/-- What the job of a client leaves of it. -/
def dataAfter : Option ClientConn → ClientData
  | some conn => .live conn
  | none => .freed

theorem dataOf_setData (j : Nat) (data : ClientData) :
    (s.setData j data).dataOf id =
      if id = j then (s.dataOf id).map fun _ => data else s.dataOf id := by
  rw [dataOf, getElem?_setData, dataOf]
  split
  · cases s.clients[id]? <;> rfl
  · rfl

theorem dataOf_closefd (j : Nat) (ctlOk : Bool) :
    (s.closefd j ctlOk).dataOf id =
      if id = j then (s.dataOf id).map fun _ => .freed else s.dataOf id := by
  have hclients : (s.closefd j ctlOk).clients = (s.setData j .freed).clients := by
    simp only [closefd, setData, close_clients]
    split
    · rfl
    · rfl
  rw [dataOf, hclients]
  exact dataOf_setData j .freed

/-- The job of a client is its `handle_client_fd`, and changes no other client. -/
theorem dataOf_runClient (id : Nat) {j : Nat} {event : ClientEvent Response}
    (h : s.runClient b j event = .ok t) :
    ∃ conn herr conn', s.dataOf j = some (.live conn) ∧
      handleClientFd b event conn = .ok (herr, conn') ∧
      t.dataOf id = if id = j then some (dataAfter conn') else s.dataOf id := by
  unfold runClient at h
  split at h
  · rename_i fd conn hlive
    obtain ⟨⟨herr, conn'⟩, hjob, ht⟩ := bind_ok h
    have hdata : s.dataOf j = some (.live conn) := by rw [dataOf, hlive, Option.map_some]
    refine ⟨conn, herr, conn', hdata, hjob, ?_⟩
    cases conn' with
    | some conn' =>
      rw [← pure_ok.mp ht, dataOf_setData]
      split
      · rename_i hid
        rw [hid, hdata]
        rfl
      · rfl
    | none =>
      rw [← pure_ok.mp ht, dataOf_closefd]
      split
      · rename_i hid
        rw [hid, hdata]
        rfl
      · rfl
  · simp at h

/-- One more event of a client, run on the connection that its events left. -/
theorem Became.snoc {events : List (ClientEvent Response)} {event : ClientEvent Response}
    {conn : ClientConn} (h : Became b events (some (.live conn))) {herr : HttpErr}
    {conn' : Option ClientConn} (hjob : handleClientFd b event conn = .ok (herr, conn')) :
    Became b (events ++ [event]) (some (dataAfter conn')) := by
  obtain ⟨hdrained, herrs, hx⟩ := h
  have hclosed := handleClientFd_closed hjob
  have hx' : exec (clientStep b) (some .new) (events ++ [event]) = .ok (herrs ++ [herr], conn') :=
    exec_append hx (exec_cons hjob (exec_nil conn'))
  cases conn' with
  | some conn' =>
    have hlast : event.last = .again := by simpa using hclosed
    refine ⟨?_, herrs ++ [herr], hx'⟩
    intro e he
    rcases List.mem_append.mp he with he | he
    · exact hdrained e he
    · rw [List.mem_singleton.mp he]
      exact hlast
  | none =>
    have hlast : event.last ≠ .again := by simpa using hclosed
    exact ⟨events, event, rfl, hdrained, hlast, herrs ++ [herr], hx'⟩

/-- A client whose events all end with the socket drained still has its connection: what they
alone make of a new one. -/
theorem Became.live {events : List (ClientEvent Response)} {data : Option ClientData}
    (h : Became b events data) (hne : events ≠ []) (hdrained : ∀ event ∈ events, event.last = .again) :
    ∃ conn herrs, data = some (.live conn) ∧
      exec (clientStep b) (some .new) events = .ok (herrs, some conn) := by
  cases data with
  | none => exact absurd h hne
  | some data =>
    cases data with
    | live conn =>
      obtain ⟨-, herrs, hx⟩ := h
      exact ⟨conn, herrs, rfl, hx⟩
    | freed =>
      obtain ⟨before, last, rfl, -, hlast, -⟩ := h
      exact absurd (hdrained last (by simp)) hlast
    | unregistered => exact absurd h hne

/-- One step of the reactor is one event of at most one client. -/
theorem became_step {events : List (ClientEvent Response)} {input : ReactorInput Response} {o : Unit}
    (h : Became b events (s.dataOf id)) (hs : s.step b threads input = .ok (o, t)) :
    Became b (events ++ (jobEvent id s input).toList) (t.dataOf id) := by
  by_cases hfinish : ∃ k accept event, input = .finish k accept event
  · obtain ⟨k, accept, event, rfl⟩ := hfinish
    rcases finish_ok (step_ok hs) with ⟨hnone, rfl⟩ | ⟨hserver, rfl⟩ | ⟨j, hjob, hrun⟩
    · simpa [jobEvent, hnone] using h
    · have hview : jobEvent id s (.finish k accept event) = none := by simp [jobEvent, hserver]
      rw [hview, Option.toList_none, List.append_nil]
      rcases dataOf_handleServerFd (s := { s with running := s.running.eraseIdx k }) accept id with
        hsame | ⟨hnew, hlive | hrefused⟩
      · rw [hsame]
        exact h
      · have hnil : events = [] := by
          rw [show s.dataOf id = none from hnew] at h
          exact h
        rw [hlive, hnil]
        exact ⟨by simp, [], rfl⟩
      · have hnil : events = [] := by
          rw [show s.dataOf id = none from hnew] at h
          exact h
        rw [hrefused, hnil]
        rfl
    · obtain ⟨conn, herr, conn', hdata, hhandled, hafter⟩ := dataOf_runClient id hrun
      rw [hafter]
      by_cases hid : id = j
      · subst hid
        have hview : jobEvent id s (.finish k accept event) = some event := by simp [jobEvent, hjob]
        rw [hview, Option.toList_some, if_pos rfl]
        rw [show s.dataOf id = some (.live conn) from hdata] at h
        exact h.snoc hhandled
      · have hview : jobEvent id s (.finish k accept event) = none := by
          simp [jobEvent, hjob, Ne.symm hid]
        rw [hview, Option.toList_none, List.append_nil, if_neg hid]
        exact h
  · have hnot : ∀ k accept event, input ≠ .finish k accept event := by
      intro k accept event heq
      exact hfinish ⟨k, accept, event, heq⟩
    have hview : jobEvent id s input = none := by
      cases input with
      | finish k accept event => exact absurd rfl (hnot k accept event)
      | _ => rfl
    rw [hview, Option.toList_none, List.append_nil, dataOf_of_not_finish hs hnot]
    exact h

/-- No two jobs of a client are queued or running, and one that is has the client's data. -/
structure Held (s : Reactor) : Prop extends s.Exclusive where
  backed : ∀ id, s.outstanding id ≠ 0 → ∃ conn, s.dataOf id = some (.live conn)

theorem outstanding_sameJobs (h : SameJobs s t) (id : Nat) : t.outstanding id = s.outstanding id := by
  rw [outstanding, outstanding, h.1, h.2.1]

/-- The job that ends is the one its client had, whatever becomes of the data. -/
theorem Held.finish {accept : AcceptAnswer} {event : ClientEvent Response} (h : s.Held)
    (hs : s.finish b k accept event = .ok t) (hid : t.outstanding id ≠ 0) :
    ∃ conn, t.dataOf id = some (.live conn) := by
  rcases finish_ok hs with ⟨-, rfl⟩ | ⟨hjob, rfl⟩ | ⟨j, hjob, hrun⟩
  · exact h.backed id hid
  · obtain ⟨hqueue, hrunning⟩ :=
      handleServerFd_jobs (s := { s with running := s.running.eraseIdx k }) accept
    have hdone := outstanding_done hjob id
    rw [outstanding, hqueue, hrunning] at hid
    have hold : s.outstanding id ≠ 0 := by
      intro hzero
      rw [hzero] at hdone
      exact hid (Nat.eq_zero_of_add_eq_zero_right hdone)
    obtain ⟨conn, hdata⟩ := h.backed id hold
    rcases dataOf_handleServerFd (s := { s with running := s.running.eraseIdx k }) accept id with
      hsame | ⟨hnew, -⟩
    · exact ⟨conn, hsame.trans hdata⟩
    · rw [show s.dataOf id = none from hnew] at hdata
      cases hdata
  · obtain ⟨conn, herr, conn', hdata, -, hafter⟩ := dataOf_runClient id hrun
    have hdone := outstanding_done hjob id
    rw [outstanding_runClient hrun] at hid
    rw [hafter]
    by_cases hj : id = j
    · subst hj
      have hone := h.one id
      rw [if_pos rfl] at hdone
      omega
    · rw [if_neg hj]
      apply h.backed
      omega

theorem Held.step {input : ReactorInput Response} {o : Unit} (h : s.Held) (hidle : s.Idle input)
    (hs : s.step b threads input = .ok (o, t)) : t.Held := by
  refine ⟨exclusive_step h.toExclusive hidle hs, ?_⟩
  intro id hid
  rcases step_cases hs with hmoves | ⟨data, evs, job, addOk, -, -, hjob, rfl⟩ | ⟨k, rfl⟩ |
      ⟨k, accept, event, -, hfinish⟩
  · have hsame := sameJobs_of_loopMoves hmoves
    rw [outstanding_sameJobs hsame] at hid
    rw [dataOf, hsame.2.2]
    exact h.backed id hid
  · by_cases hmine : job = .client id
    · subst hmine
      obtain ⟨-, fd, conn, hlive⟩ := jobOf_client hjob
      exact ⟨conn, by rw [dataOf, hlive, Option.map_some]⟩
    · apply h.backed
      cases addOk with
      | false => exact hid
      | true => simpa [outstanding_enqueue, hmine] using hid
  · rw [outstanding_take] at hid
    rw [dataOf, take_clients]
    exact h.backed id hid
  · exact h.finish hfinish hid

/-- A step faults only in the job of a client, on the connection the client has. -/
theorem Held.fault {input : ReactorInput Response} {e : Fault} (h : s.Held) (hidle : s.Idle input)
    (hs : s.step b threads input = .error e) :
    ∃ id event conn, jobEvent id s input = some event ∧ s.dataOf id = some (.live conn) ∧
      handleClientFd b event conn = .error e := by
  have hnext : s.next b threads input = .error e := by
    cases hr : s.next b threads input with
    | error f => simpa [Reactor.step, hr, bind, Except.bind] using hs
    | ok t => simp [Reactor.step, hr, bind, Except.bind, pure, Except.pure] at hs
  cases input with
  | signal => cases hnext
  | wait => cases hnext
  | wake answer => cases hnext
  | take k => cases hnext
  | event mallocOk addOk =>
    simp only [next, handleEachEvent] at hnext
    split at hnext
    · rename_i data evs hloop
      split at hnext
      · rename_i hmalloc
        have hvacant := hidle data (by simp [nextEvent, hloop]) hmalloc
        cases hjob : s.jobOf data with
        | error f =>
          rw [hjob] at hvacant
          exact hvacant.elim
        | ok job => simp [hjob, bind, Except.bind, pure, Except.pure] at hnext
      · cases hnext
    · cases hnext
  | finish k accept event =>
    simp only [next, Reactor.finish] at hnext
    split at hnext
    · cases hnext
    · cases hnext
    · rename_i id hjob
      have hout : s.outstanding id ≠ 0 := by
        have hdone := outstanding_done hjob id
        rw [if_pos rfl] at hdone
        omega
      obtain ⟨conn, hdata⟩ := h.backed id hout
      refine ⟨id, event, conn, by simp [jobEvent, hjob], hdata, ?_⟩
      rw [dataOf, Option.map_eq_some_iff] at hdata
      obtain ⟨⟨fd, data⟩, hentry, rfl⟩ := hdata
      unfold runClient at hnext
      simp only [hentry] at hnext
      cases hjob' : handleClientFd b event conn with
      | error f => simpa [hjob', bind, Except.bind] using hnext
      | ok p =>
        obtain ⟨herr, conn'⟩ := p
        simp only [hjob', bind, Except.bind] at hnext
        split at hnext
        · cases hnext
        · cases hnext

end Reactor

open Reactor

section Isolation

variable {b : Build} {threads serverFd epollFd : Nat} {inputs : List (ReactorInput Response)}
  {os : List Unit} {t : Reactor}

theorem held_start (serverFd epollFd : Nat) : (start serverFd epollFd).Held where
  toExclusive := exclusive_start serverFd epollFd
  backed id hid := by simp [start, outstanding] at hid

theorem held_of_run (hidle : Meets (step b threads) Idle (start serverFd epollFd) inputs)
    (hx : exec (step b threads) (start serverFd epollFd) inputs = .ok (os, t)) : t.Held := by
  have keep : ∀ {s : Reactor} {input : ReactorInput Response} {o : Unit} {t : Reactor},
      s.Held → s.Idle input → s.step b threads input = .ok (o, t) → t.Held := by
    intro s input o t h hi hs
    exact h.step hi hs
  exact inv_of_meets keep (held_start serverFd epollFd) hidle hx

theorem became_of_run (hx : exec (step b threads) (start serverFd epollFd) inputs = .ok (os, t))
    (id : Nat) :
    Became b (clientEvents b threads id (start serverFd epollFd) inputs) (t.dataOf id) := by
  have hstart : Became b ([] : List (ClientEvent Response))
      ((start serverFd epollFd).dataOf id) := by
    simp [start, dataOf, Became]
  have keep : ∀ {s : Reactor} {input : ReactorInput Response} {o : Unit} {t : Reactor}
      {events : List (ClientEvent Response)}, Became b events (s.dataOf id) →
      s.step b threads input = .ok (o, t) →
      Became b (events ++ (jobEvent id s input).toList) (t.dataOf id) := by
    intro s input o t events h hs
    exact became_step h hs
  exact inv_seen (fun s events => Became b events (s.dataOf id)) keep hstart hx

end Isolation

/-- In a run that makes a job only of an event whose client is there and has no other job, what
became of any client is what its own events alone make of a new connection; a job that is queued
or running is the only one of its client and has its data, so none runs behind the one that ended
it; and where the run faults, a client's own events alone do. -/
theorem run_isolated (b : Build) (threads serverFd epollFd : Nat)
    (inputs : List (ReactorInput Response))
    (hidle : Meets (step b threads) Idle (start serverFd epollFd) inputs) :
    (∀ os t, exec (step b threads) (start serverFd epollFd) inputs = .ok (os, t) → ∀ id,
      Became b (clientEvents b threads id (start serverFd epollFd) inputs) (t.dataOf id) ∧
        t.outstanding id ≤ 1 ∧
        (t.outstanding id ≠ 0 → ∃ conn, t.dataOf id = some (.live conn))) ∧
    ∀ e, exec (step b threads) (start serverFd epollFd) inputs = .error e →
      ∃ js i os t id event, js ++ [i] <+: inputs ∧
        exec (step b threads) (start serverFd epollFd) js = .ok (os, t) ∧
        jobEvent id t i = some event ∧
        exec (clientStep b) (some .new)
          (clientEvents b threads id (start serverFd epollFd) js ++ [event]) = .error e := by
  constructor
  · intro os t hx id
    have hheld := held_of_run hidle hx
    exact ⟨became_of_run hx id, hheld.one id, hheld.backed id⟩
  · intro e hx
    obtain ⟨js, i, os, t, hjs, hrun, hstep⟩ := exec_error hx
    have hmeets := meets_mono hjs hidle
    have hheld := held_of_run (meets_mono (List.prefix_append js [i]) hmeets) hrun
    obtain ⟨id, event, conn, hevent, hdata, hjob⟩ := hheld.fault (meets_last hmeets hrun) hstep
    have hbecame := became_of_run hrun id
    rw [hdata] at hbecame
    obtain ⟨-, herrs, hevents⟩ := hbecame
    exact ⟨js, i, os, t, id, event, hjs, hrun, hevent, exec_snoc_error hevents hjob⟩

/-- Two clients whose jobs run at the same time and end in the other order. -/
def twoTalk : List (ReactorInput Unit) :=
  acceptOne ++ turn .server (.accepted 6 true true true) (readable []) ++
    [.wait, .wake (.ready [.client 0, .client 1]), .event true true, .event true true,
      .take 0, .take 0, .finish 1 .again (readable (ascii "POST /x".toList)),
      .finish 0 .again (readable (ascii "GET / HT".toList))] ++
    turn (.client 0) .again (readable (ascii "TP/1.1\r\nHost".toList))

theorem twoTalk_idle : Meets (step .debug 4) Idle (start 3 4) twoTalk := by decide +kernel

theorem twoTalk_isolated : ∃ os t, exec (step .debug 4) (start 3 4) twoTalk = .ok (os, t) ∧
    Became .debug (clientEvents .debug 4 1 (start 3 4) twoTalk) (t.dataOf 1) := by
  obtain ⟨os, t, hx⟩ : ∃ os t, exec (step .debug 4) (start 3 4) twoTalk = .ok (os, t) :=
    ⟨_, _, rfl⟩
  obtain ⟨hbecame, -⟩ := (run_isolated .debug 4 3 4 twoTalk twoTalk_idle).1 os t hx 1
  exact ⟨os, t, hx, hbecame⟩

/-- What the event reads and the allocator answers, without its handlers. -/
def ClientEvent.read (event : ClientEvent Response) : ReadEvent :=
  ⟨event.reads, event.last, event.alloc, event.epollCtlOk⟩

section Bytes

variable {b : Build}

/-- A call that waits has not completed the request. -/
theorem feed_waits {ctx : HttpParseCtx} (hrests : ctx.Rests b) (hwait : ctx.wire ≠ .ended)
    {alloc : Alloc} {chunk : Bytes} {herr : HttpErr} {c : ClientConn}
    (hfeed : (ClientConn.single ctx).feed b alloc chunk = .ok (herr, c))
    (hwaits : WireRequest.Waits herr) :
    ∃ ctx', c = .single ctx' ∧ ctx'.Rests b ∧ ctx'.wire ≠ .ended := by
  rcases feed_cases hrests alloc chunk with hr | ⟨a, -, -, hr⟩ | ⟨ctx', hr, hrests', hw, -⟩
  · simp [hr] at hfeed
  · simp [hr] at hfeed
  · rw [hr, Except.ok.injEq, Prod.mk.injEq] at hfeed
    obtain ⟨hcode, rfl⟩ := hfeed
    refine ⟨ctx', rfl, hrests', ?_⟩
    intro hended
    rw [hw] at hended
    have hends : (ctx.wire.feed alloc chunk).Ends := feed_ends hwait chunk
    rw [hends.mpr hended] at hcode
    rw [← hcode] at hwaits
    exact not_waits_success hwaits

/-- An event whose call waits is that call. -/
theorem handleClientFd_waits {event : ClientEvent Response} (hsound : event.read.Sound)
    (hsize : event.read.bytes.length < 2 ^ 30) {c : ClientConn} {ctx : HttpParseCtx} {herr : HttpErr}
    (hfeed : c.feed b allOk event.read.bytes = .ok (herr, .single ctx))
    (hwaits : WireRequest.Waits herr) (hstate : ctx.waitState ≠ .parseEnd) :
    handleClientFd b event c = .ok (herr, some (.single ctx)) := by
  have hread : readClient event.last event.reads [] = .ok (.success, event.read.bytes) := by
    rw [show event.last = .again from hsound.last]
    exact readClient_stored hsound.stored hsize
  have halloc : event.alloc = allOk := hsound.alloc
  have hfatal : herr ≠ .requestFatal := by
    rcases hwaits with rfl | rfl
    · decide
    · decide
  unfold handleClientFd
  simp only [hread, halloc, hfeed, hfatal, serveLoop, pop_waiting hstate, bind, Except.bind,
    reduceCtorEq, if_false, ne_eq, not_true_eq_false]
  rfl

/-- Events whose calls all wait are those calls. -/
theorem exec_client_waits {events : List (ClientEvent Response)} {ctx : HttpParseCtx}
    (hrests : ctx.Rests b) (hwait : ctx.wire ≠ .ended)
    (hsound : ∀ event ∈ events, event.read.Sound)
    (hsize : (events.map (·.read.bytes)).flatten.length < 2 ^ 30)
    {herrs : List HttpErr} {c : ClientConn}
    (hx : exec (ClientConn.feedStep b) (.single ctx) (feeds (events.map (·.read.bytes))) =
      .ok (herrs, c)) (hwaits : ∀ herr ∈ herrs, WireRequest.Waits herr) :
    exec (clientStep b) (some (.single ctx)) events = .ok (herrs, some c) := by
  induction events generalizing ctx herrs with
  | nil =>
    obtain ⟨rfl, rfl⟩ := Prod.mk.inj (Except.ok.inj hx)
    rfl
  | cons event events ih =>
    rw [List.forall_mem_cons] at hsound
    rw [List.map_cons, List.flatten_cons, List.length_append] at hsize
    obtain ⟨herr, c₁, herrs, hstep, hrest, rfl⟩ := exec_cons_ok hx
    rw [List.forall_mem_cons] at hwaits
    obtain ⟨ctx₁, rfl, hrests₁, hwait₁⟩ := feed_waits hrests hwait hstep hwaits.1
    have hstate : ctx₁.waitState ≠ .parseEnd := by
      intro hend
      exact hwait₁ ((waitState_eq_parseEnd_iff hrests₁).mp hend)
    have hjob := handleClientFd_waits hsound.1 (by omega) hstep hwaits.1 hstate
    exact exec_cons hjob (ih hrests₁ hwait₁ hsound.2 (by omega) hrest hwaits.2)

end Bytes

/-- In a run that makes a job only of an event whose client is there and has no other job, a
client that has sent bytes which one call would wait with has one job at a time, and is left as
that call leaves it, however the bytes were cut into events and these came between the events of
others; and the next call does what one call with all the bytes does. -/
theorem run_scheduled (b : Build) (threads serverFd epollFd : Nat)
    (inputs : List (ReactorInput Response))
    (hidle : Meets (step b threads) Idle (start serverFd epollFd) inputs) {os : List Unit} {t : Reactor}
    (hx : exec (step b threads) (start serverFd epollFd) inputs = .ok (os, t)) {id : Nat}
    {events : List (ClientEvent Response)}
    (hevents : clientEvents b threads id (start serverFd epollFd) inputs = events)
    (hne : events ≠ []) (hsound : ∀ event ∈ events, event.read.Sound) {sent : Bytes}
    (hsent : (events.map (·.read.bytes)).flatten = sent) (hsize : sent.length < 2 ^ 30)
    (hlines : linesAhead sent ≤ 98) {herr : HttpErr} {c : ClientConn}
    (hcall : ClientConn.new.feed b allOk sent = .ok (herr, c)) (hwait : WireRequest.Waits herr) :
    (∀ os u, Reaches (step b threads) (start serverFd epollFd) inputs os u → u.outstanding id ≤ 1) ∧
    t.dataOf id = some (.live c) ∧
    ∀ last, (sent ++ last).length < 2 ^ 30 → linesAhead (sent ++ last) ≤ 98 →
      c.feed b allOk last = ClientConn.new.feed b allOk (sent ++ last) := by
  have hbecame := became_of_run hx id
  rw [hevents] at hbecame
  obtain ⟨conn, herrs, hdata, hevs⟩ := hbecame.live hne fun event he => (hsound event he).last
  subst hsent
  obtain ⟨ctx, rfl, hnode, -⟩ := feedNode_of_feedStep (i := ⟨allOk, _⟩) (rests_new b) hcall
  have hchunks : events.map (·.read.bytes) ≠ [] := by simpa using hne
  obtain ⟨codes, hrun, hwaits⟩ := run_of_node b hchunks hsize hlines hnode hwait
  have hjobs := exec_client_waits (rests_new b) (by decide) hsound hsize hrun hwaits
  rw [← new_eq_single, hevs, Except.ok.injEq, Prod.mk.injEq, Option.some.injEq] at hjobs
  refine ⟨?_, by rw [hdata, hjobs.2], ?_⟩
  · intro os u hreach
    obtain ⟨js, hjs, hrun⟩ := hreach
    exact (held_of_run (meets_mono hjs hidle) hrun).one id
  · intro last hsize' hlines'
    obtain ⟨ctx', hc, hrests, hlast⟩ := feedNode_of_run b hrun hwaits hsize' hlines'
    rw [hc]
    exact feed_eq_of_feedNode b hrests hlast

theorem twoTalk_scheduled : ∃ os t conn herr,
    exec (step .debug 4) (start 3 4) twoTalk = .ok (os, t) ∧ t.dataOf 0 = some (.live conn) ∧
    ClientConn.new.feed .debug allOk (ascii "GET / HTTP/1.1\r\nHost".toList) = .ok (herr, conn) := by
  obtain ⟨os, t, hx⟩ : ∃ os t, exec (step .debug 4) (start 3 4) twoTalk = .ok (os, t) :=
    ⟨_, _, rfl⟩
  obtain ⟨herr, c, hcall, hwait⟩ : ∃ herr c, ClientConn.new.feed .debug allOk
      (ascii "GET / HTTP/1.1\r\nHost".toList) = .ok (herr, c) ∧ WireRequest.Waits herr :=
    ⟨_, _, rfl, .inl rfl⟩
  have hevents : clientEvents .debug 4 0 (start 3 4) twoTalk =
      [readable (ascii "GET / HT".toList), readable (ascii "TP/1.1\r\nHost".toList)] := rfl
  have hsound (post : Bytes) : (readable post).read.Sound :=
    ⟨rfl, by simp [readable, ClientEvent.read, ReadStep.Stored], rfl⟩
  obtain ⟨-, hlive, -⟩ := run_scheduled .debug 4 3 4 twoTalk twoTalk_idle hx hevents (by decide)
    (by simp [hsound]) (show _ = ascii "GET / HTTP/1.1\r\nHost".toList by decide) (by decide)
    (by decide +kernel) hcall hwait
  exact ⟨os, t, c, herr, hx, hlive, hcall⟩

end LiteHttp
