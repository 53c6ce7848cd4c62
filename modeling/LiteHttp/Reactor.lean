import LiteHttp.KeepAlive
import Mathlib.Logic.Function.Basic

/-!
# The reactor

`handle_ipv4_main_loop`, the thread pool and the jobs it runs, as one step relation over
the descriptors of the process. The kernel, the allocator, the pool's choice of the next job
and what a job reads are inputs, so a run is any order of events under any schedule. A job
is taken, and acts at the step that finishes it.
-/

namespace LiteHttp

set_option autoImplicit false

universe u
variable {Response : Type u}

/-- What an open descriptor stands for; the clients are numbered in the order of `accept`. -/
inductive Desc where
  | server
  | epoll
  | client (id : Nat)
  deriving DecidableEq, Repr

/-- What `data.ptr` of an event points to, and which data a job is run on. -/
inductive Target where
  | server
  | client (id : Nat)
  deriving DecidableEq, Repr

/-- Who calls `close`: the main loop, the job of the server, or the job of a client. -/
inductive Closer where
  | loop
  | server
  | client (id : Nat)
  deriving DecidableEq, Repr

/-- `client_data_t`: allocated, freed, or with a registration that failed. -/
inductive ClientData where
  | live (conn : ClientConn)
  | freed
  | unregistered
  deriving DecidableEq, Repr

structure ClientEntry where
  fd : Nat
  data : ClientData
  deriving DecidableEq, Repr

/-- Where the main loop stands: over the events it was given, in `epoll_wait`, or past its
`clean_fd`. With no event left it is at the test of `loop_terminal`. -/
inductive MainLoop where
  | handling (evs : List Target)
  | waiting
  | left
  deriving DecidableEq, Repr

/-- The descriptor table, the epoll interest list without the server, the clients accepted
so far, the main loop and the pool; `closes` is the history of what was closed and by whom. -/
structure Reactor where
  fds : Nat → Option Desc
  serverFd : Nat
  epollFd : Nat
  clients : List ClientEntry
  interest : List Nat
  loop : MainLoop
  loopTerminal : Bool
  queue : List Target
  running : List Target
  closes : List (Closer × Desc)

/-- What `epoll_wait` answers. -/
inductive WaitAnswer where
  | eintr
  | failed
  | ready (evs : List Target)
  deriving DecidableEq, Repr

/-- What `accept` answers, with the allocation of `client_data_t`, `setnoblocking` and
`EPOLL_CTL_ADD` after it. -/
inductive AcceptAnswer where
  | again
  | failed
  | accepted (fd : Nat) (createOk nonblockOk ctlOk : Bool)
  deriving DecidableEq, Repr

/-- A job of a client goes to `closefd` exactly when its last `read` is no EAGAIN. -/
theorem handleClientFd_closed {b : Build} {event : ClientEvent Response} {c : ClientConn}
    {herr : HttpErr} {c' : Option ClientConn} (h : handleClientFd b event c = .ok (herr, c')) :
    c' = none ↔ event.last ≠ .again := by
  obtain ⟨p, hread, h⟩ := bind_ok h
  have hp := readClient_ok hread
  by_cases hlast : event.last = .again
  · simp only [hp, hlast, if_true, reduceCtorEq, if_false, ne_eq, not_true_eq_false] at h
    obtain ⟨⟨herr', fed⟩, -, h⟩ := bind_ok h
    split at h
    · have hconn := (Prod.mk.inj (pure_ok.mp h)).2
      simp [← hconn, hlast]
    · obtain ⟨served, -, h⟩ := bind_ok h
      have hconn := (Prod.mk.inj (pure_ok.mp h)).2
      simp [← hconn, hlast]
  · simp only [hp, hlast, if_false, if_true] at h
    have hconn := (Prod.mk.inj (pure_ok.mp h)).2
    simp [← hconn, hlast]

inductive ReactorInput (Response : Type u) where
  | signal
  | wait
  | wake (answer : WaitAnswer)
  | event (mallocOk addOk : Bool)
  | take (k : Nat)
  | finish (k : Nat) (accept : AcceptAnswer) (event : ClientEvent Response)

namespace Reactor

/-- The loop about to call `epoll_wait` for the first time. -/
def start (serverFd epollFd : Nat) : Reactor where
  fds := Function.update (Function.update (fun _ => none) serverFd (some .server)) epollFd
    (some .epoll)
  serverFd := serverFd
  epollFd := epollFd
  clients := []
  interest := []
  loop := .handling []
  loopTerminal := false
  queue := []
  running := []
  closes := []

/-- `close(fd)`; a closed descriptor leaves the interest list. -/
def close (who : Closer) (fd : Nat) (s : Reactor) : Reactor :=
  match s.fds fd with
  | none => s
  | some d =>
    { s with
      fds := Function.update s.fds fd none
      interest := s.interest.filter (Desc.client · ≠ d)
      closes := s.closes ++ [(who, d)] }

/-- `clean_fd` of `handle_ipv4_main_loop`. -/
def leave (s : Reactor) : Reactor := { s.close .loop s.epollFd with loop := .left }

/-- The head of the loop: the test of `loop_terminal`, and the call of `epoll_wait`, which
fails at once on a descriptor that is no epoll. -/
def epollWait (s : Reactor) : Reactor :=
  match s.loop with
  | .handling [] =>
    if s.loopTerminal then s.leave
    else if s.fds s.epollFd = some .epoll then { s with loop := .waiting }
    else s.leave
  | _ => s

def Registered (s : Reactor) : Target → Prop
  | .server => True
  | .client id => id ∈ s.interest

instance (s : Reactor) : DecidablePred s.Registered
  | .server => isTrue trivial
  | .client id => inferInstanceAs (Decidable (id ∈ s.interest))

/-- The return of `epoll_wait`: one event at most for each registered descriptor. -/
def wake (answer : WaitAnswer) (s : Reactor) : Reactor :=
  match s.loop with
  | .waiting =>
    match answer with
    | .eintr => { s with loop := .handling [] }
    | .failed => s.leave
    | .ready evs => { s with loop := .handling (evs.filter s.Registered).dedup }
  | _ => s

/-- The job `handle_each_event` makes of an event, which it tells by `data->fd`. -/
def jobOf (s : Reactor) : Target → Except Fault Target
  | .server => .ok .server
  | .client id =>
    match s.clients[id]? with
    | some ⟨fd, .live _⟩ => .ok (if fd = s.serverFd then .server else .client id)
    | _ => .error .undefined

/-- One turn of `handle_each_event`; the result of `thdpool_addjob` is not looked at. -/
def handleEachEvent (mallocOk addOk : Bool) (s : Reactor) : Except Fault Reactor :=
  match s.loop with
  | .handling (data :: evs) =>
    if mallocOk then do
      let job ← s.jobOf data
      return { s with
        loop := .handling evs
        queue := if addOk then s.queue ++ [job] else s.queue }
    else .ok s.leave
  | _ => .ok s

/-- A free worker takes a queued job. -/
def take (threads k : Nat) (s : Reactor) : Reactor :=
  match s.queue[k]? with
  | some job =>
    if s.running.length < threads then
      { s with queue := s.queue.eraseIdx k, running := s.running ++ [job] }
    else s
  | none => s

/-- A connection accepted as `fd`, with its new `client_data_t`. -/
def addClient (fd : Nat) (data : ClientData) (s : Reactor) : Reactor :=
  { s with
    fds := Function.update s.fds fd (some (.client s.clients.length))
    clients := s.clients ++ [⟨fd, data⟩] }

/-- `handle_server_fd`: it takes one connection. The kernel gives a free number only. -/
def handleServerFd (accept : AcceptAnswer) (s : Reactor) : Reactor :=
  match accept with
  | .again => s
  | .failed => s
  | .accepted fd createOk nonblockOk ctlOk =>
    if (s.fds fd).isSome then s
    else if createOk ∧ nonblockOk ∧ ctlOk ∧ s.fds s.epollFd = some .epoll then
      { s.addClient fd (.live .new) with interest := s.interest ++ [s.clients.length] }
    else (s.addClient fd .unregistered).close .server fd

def setData (id : Nat) (data : ClientData) (s : Reactor) : Reactor :=
  { s with clients := s.clients.modify id fun c => { c with data := data } }

/-- `closefd` of `handle_client_fd`: the descriptor it closes is `epoll_fd`. -/
def closefd (id : Nat) (ctlOk : Bool) (s : Reactor) : Reactor :=
  let s := if ctlOk ∧ s.fds s.epollFd = some .epoll then
    { s with interest := s.interest.filter (· ≠ id) } else s
  (s.close (.client id) s.epollFd).setData id .freed

/-- The job of a client. Its `pherr` is null, so nobody sees the code it returns. -/
def runClient (b : Build) (id : Nat) (event : ClientEvent Response) (s : Reactor) :
    Except Fault Reactor :=
  match s.clients[id]? with
  | some ⟨_, .live conn⟩ => do
    let (_, conn) ← handleClientFd b event conn
    match conn with
    | some conn => return s.setData id (.live conn)
    | none => return s.closefd id event.epollCtlOk
  | _ => .error .undefined

def finish (b : Build) (k : Nat) (accept : AcceptAnswer) (event : ClientEvent Response)
    (s : Reactor) : Except Fault Reactor :=
  let done := { s with running := s.running.eraseIdx k }
  match s.running[k]? with
  | none => .ok s
  | some .server => .ok (done.handleServerFd accept)
  | some (.client id) => done.runClient b id event

def next (b : Build) (threads : Nat) (s : Reactor) :
    ReactorInput Response → Except Fault Reactor
  | .signal => .ok { s with loopTerminal := true }
  | .wait => .ok s.epollWait
  | .wake answer => .ok (s.wake answer)
  | .event mallocOk addOk => s.handleEachEvent mallocOk addOk
  | .take k => .ok (s.take threads k)
  | .finish k accept event => s.finish b k accept event

/-- The step of the reactor, as runs are made of. -/
def step (b : Build) (threads : Nat) (s : Reactor) (input : ReactorInput Response) :
    Except Fault (Unit × Reactor) := do
  let s ← s.next b threads input
  return ((), s)

section Steps

variable {b : Build} {threads k : Nat} {s t : Reactor}

theorem close_of_some (who : Closer) {fd : Nat} {d : Desc} (h : s.fds fd = some d) :
    s.close who fd =
      { s with
        fds := Function.update s.fds fd none
        interest := s.interest.filter (Desc.client · ≠ d)
        closes := s.closes ++ [(who, d)] } := by simp [close, h]

@[simp] theorem close_clients (who : Closer) (fd : Nat) : (s.close who fd).clients = s.clients := by
  unfold close
  split <;> rfl

@[simp] theorem close_loop (who : Closer) (fd : Nat) : (s.close who fd).loop = s.loop := by
  unfold close
  split <;> rfl

@[simp] theorem close_queue (who : Closer) (fd : Nat) : (s.close who fd).queue = s.queue := by
  unfold close
  split <;> rfl

@[simp] theorem close_running (who : Closer) (fd : Nat) :
    (s.close who fd).running = s.running := by
  unfold close
  split <;> rfl

theorem close_fds_of_ne {who : Closer} {fd f : Nat} (h : f ≠ fd) :
    (s.close who fd).fds f = s.fds f := by
  unfold close
  split
  · rfl
  · simp [h]

@[simp] theorem setData_fds (id : Nat) (data : ClientData) : (s.setData id data).fds = s.fds := rfl

theorem getElem?_addClient {fd id : Nat} {data : ClientData} :
    (s.addClient fd data).clients[id]? =
      if id = s.clients.length then some ⟨fd, data⟩ else s.clients[id]? := by
  simp only [addClient, List.getElem?_append, List.getElem?_singleton]
  grind

theorem getElem?_setData {id j : Nat} {data : ClientData} :
    (s.setData id data).clients[j]? =
      if j = id then s.clients[j]?.map fun c => ⟨c.fd, data⟩ else s.clients[j]? := by
  simp only [setData, List.getElem?_modify]
  grind

/-- The job of the server has taken no connection, or admitted one, or refused one. -/
theorem handleServerFd_cases (accept : AcceptAnswer) (s : Reactor) :
    s.handleServerFd accept = s ∨
    (∃ fd, s.fds fd = none ∧ s.fds s.epollFd = some .epoll ∧ s.handleServerFd accept =
      { s.addClient fd (.live .new) with interest := s.interest ++ [s.clients.length] }) ∨
    ∃ fd, s.fds fd = none ∧
      s.handleServerFd accept = (s.addClient fd .unregistered).close .server fd := by
  cases accept with
  | again => exact .inl rfl
  | failed => exact .inl rfl
  | accepted fd createOk nonblockOk ctlOk =>
    unfold handleServerFd
    dsimp only
    split
    · exact .inl rfl
    · rename_i hfree
      rw [Option.not_isSome_iff_eq_none] at hfree
      split
      · rename_i hok
        exact .inr (.inl ⟨fd, hfree, hok.2.2.2, rfl⟩)
      · exact .inr (.inr ⟨fd, hfree, rfl⟩)

theorem handleEachEvent_ok {mallocOk addOk : Bool} (h : s.handleEachEvent mallocOk addOk = .ok t) :
    ((∀ data evs, s.loop ≠ .handling (data :: evs)) ∧ t = s) ∨
      (∃ data evs, s.loop = .handling (data :: evs) ∧ mallocOk = false ∧ t = s.leave) ∨
      ∃ data evs job, s.loop = .handling (data :: evs) ∧ mallocOk = true ∧
        s.jobOf data = .ok job ∧
        t = { s with
          loop := .handling evs
          queue := if addOk then s.queue ++ [job] else s.queue } := by
  unfold handleEachEvent at h
  split at h
  · rename_i data evs hloop
    cases mallocOk with
    | false => exact .inr (.inl ⟨data, evs, hloop, rfl, by simpa using h.symm⟩)
    | true =>
      obtain ⟨job, hjob, ht⟩ := bind_ok h
      exact .inr (.inr ⟨data, evs, job, hloop, rfl, hjob, (pure_ok.mp ht).symm⟩)
  · rename_i hloop
    exact .inl ⟨hloop, by simpa using h.symm⟩

theorem runClient_ok {id : Nat} {event : ClientEvent Response}
    (h : s.runClient b id event = .ok t) :
    ∃ fd conn, s.clients[id]? = some ⟨fd, .live conn⟩ ∧
      ((event.last = .again ∧ ∃ conn', t = s.setData id (.live conn')) ∨
        (event.last ≠ .again ∧ t = s.closefd id event.epollCtlOk)) := by
  unfold runClient at h
  split at h
  · rename_i fd conn hlive
    obtain ⟨⟨herr, conn'⟩, hjob, ht⟩ := bind_ok h
    refine ⟨fd, conn, hlive, ?_⟩
    have hclosed := handleClientFd_closed hjob
    cases conn' with
    | some conn' =>
      refine .inl ⟨?_, conn', (pure_ok.mp ht).symm⟩
      simpa using hclosed
    | none => exact .inr ⟨by simpa using hclosed, (pure_ok.mp ht).symm⟩
  · simp at h

theorem finish_ok {accept : AcceptAnswer} {event : ClientEvent Response}
    (h : s.finish b k accept event = .ok t) :
    (s.running[k]? = none ∧ t = s) ∨ (s.running[k]? = some .server ∧
        t = handleServerFd accept { s with running := s.running.eraseIdx k }) ∨
      ∃ id, s.running[k]? = some (.client id) ∧
        runClient b id event { s with running := s.running.eraseIdx k } = .ok t := by
  unfold finish at h
  split at h
  · rename_i hnone
    exact .inl ⟨hnone, by simpa using h.symm⟩
  · rename_i hjob
    exact .inr (.inl ⟨hjob, by simpa using h.symm⟩)
  · rename_i id hjob
    exact .inr (.inr ⟨id, hjob, h⟩)

/-- The main loop has left, or has gone on to another place. -/
def LoopMoves (s t : Reactor) : Prop :=
  (s.loop ≠ .left ∧ t = s.leave) ∨
    ∃ loop loopTerminal, (loop ≠ .left → s.loop ≠ .left) ∧
      t = { s with loop := loop, loopTerminal := loopTerminal }

theorem loopMoves_refl (s : Reactor) : LoopMoves s s := .inr ⟨s.loop, s.loopTerminal, id, rfl⟩

theorem loopMoves_wait (s : Reactor) : LoopMoves s s.epollWait := by
  unfold epollWait
  split
  · rename_i hloop
    have hin : s.loop ≠ .left := by simp [hloop]
    split
    · exact .inl ⟨hin, rfl⟩
    · split
      · exact .inr ⟨.waiting, s.loopTerminal, fun _ => hin, rfl⟩
      · exact .inl ⟨hin, rfl⟩
  · exact loopMoves_refl s

theorem loopMoves_wake (answer : WaitAnswer) (s : Reactor) : LoopMoves s (s.wake answer) := by
  unfold wake
  split
  · rename_i hloop
    have hin : s.loop ≠ .left := by simp [hloop]
    cases answer with
    | eintr => exact .inr ⟨.handling [], s.loopTerminal, fun _ => hin, rfl⟩
    | failed => exact .inl ⟨hin, rfl⟩
    | ready evs =>
      exact .inr ⟨.handling (evs.filter s.Registered).dedup, s.loopTerminal, fun _ => hin, rfl⟩
  · exact loopMoves_refl s

theorem step_ok {input : ReactorInput Response} {o : Unit}
    (h : s.step b threads input = .ok (o, t)) : s.next b threads input = .ok t := by
  obtain ⟨t', hnext, ht⟩ := bind_ok h
  rw [hnext, (Prod.mk.inj (pure_ok.mp ht)).2]

/-- What a step that returns has done. -/
theorem step_cases {input : ReactorInput Response} {o : Unit}
    (h : s.step b threads input = .ok (o, t)) :
    LoopMoves s t ∨
    (∃ data evs job addOk, input = .event true addOk ∧ s.loop = .handling (data :: evs) ∧
      s.jobOf data = .ok job ∧
      t = { s with loop := .handling evs, queue := if addOk then s.queue ++ [job] else s.queue }) ∨
    (∃ k, t = s.take threads k) ∨
    ∃ k accept event, input = .finish k accept event ∧ s.finish b k accept event = .ok t := by
  have hnext := step_ok h
  cases input with
  | signal =>
    rw [next, Except.ok.injEq] at hnext
    exact .inl (.inr ⟨s.loop, true, id, hnext.symm⟩)
  | wait =>
    rw [next, Except.ok.injEq] at hnext
    exact .inl (hnext ▸ loopMoves_wait s)
  | wake answer =>
    rw [next, Except.ok.injEq] at hnext
    exact .inl (hnext ▸ loopMoves_wake answer s)
  | event mallocOk addOk =>
    rcases handleEachEvent_ok hnext with ⟨-, rfl⟩ | ⟨data, evs, hloop, -, rfl⟩ |
        ⟨data, evs, job, hloop, rfl, hjob, rfl⟩
    · exact .inl (loopMoves_refl t)
    · exact .inl (.inl ⟨by simp [hloop], rfl⟩)
    · exact .inr (.inl ⟨data, evs, job, addOk, rfl, hloop, hjob, rfl⟩)
  | take k =>
    rw [next, Except.ok.injEq] at hnext
    exact .inr (.inr (.inl ⟨k, hnext.symm⟩))
  | finish k accept event => exact .inr (.inr (.inr ⟨k, accept, event, rfl, hnext⟩))

end Steps

end Reactor

/-- The main loop waits, hands the one event to the pool, and a worker runs its job. -/
def turn (data : Target) (accept : AcceptAnswer) (event : ClientEvent Unit) :
    List (ReactorInput Unit) :=
  [.wait, .wake (.ready [data]), .event true true, .take 0, .finish 0 accept event]

def hungUp : ClientEvent Unit := { readable [] with reads := [], last := .eof }

def acceptOne : List (ReactorInput Unit) := turn .server (.accepted 5 true true true) (readable [])

end LiteHttp
