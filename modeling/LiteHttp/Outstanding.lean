import LiteHttp.Reactor
import Mathlib.Data.List.Perm.Basic

/-!
# The jobs of one client

A client is registered without `EPOLLONESHOT`, and `handle_each_event` makes a job of every
event it is given. Nothing but the order of the events keeps two jobs of a client apart.
-/

namespace LiteHttp

open Run

set_option autoImplicit false

universe u
variable {Response : Type u}

namespace Reactor

/-- The jobs of a client that are queued or running. -/
def outstanding (s : Reactor) (id : Nat) : Nat :=
  s.queue.count (.client id) + s.running.count (.client id)

/-- At most one job of a client is queued or running, and none once its data is freed. -/
structure Exclusive (s : Reactor) : Prop where
  one : ∀ id, s.outstanding id ≤ 1
  freed : ∀ {id fd : Nat}, s.clients[id]? = some ⟨fd, .freed⟩ → s.outstanding id = 0

/-- The event `handle_each_event` looks at next. -/
def nextEvent (s : Reactor) : Option Target :=
  match s.loop with
  | .handling (data :: _) => some data
  | _ => none

/-- A job made of an event may be queued: its data is there, and if it is a client's the
client has no other job. -/
def Vacant (s : Reactor) (addOk : Bool) : Except Fault Target → Prop
  | .ok (.client id) => addOk → s.outstanding id = 0
  | .ok .server => True
  | .error _ => False

instance (s : Reactor) (addOk : Bool) : DecidablePred (s.Vacant addOk)
  | .ok (.client id) => inferInstanceAs (Decidable (addOk → s.outstanding id = 0))
  | .ok .server => isTrue trivial
  | .error _ => isFalse id

/-- No event is made a job of while its client is gone or has a job. -/
def Idle (s : Reactor) : ReactorInput Response → Prop
  | .event mallocOk addOk => ∀ data ∈ s.nextEvent, mallocOk → s.Vacant addOk (s.jobOf data)
  | _ => True

instance (s : Reactor) : DecidablePred (s.Idle : ReactorInput Response → Prop)
  | .signal => isTrue trivial
  | .wait => isTrue trivial
  | .wake _ => isTrue trivial
  | .event mallocOk addOk => inferInstanceAs
      (Decidable (∀ data ∈ s.nextEvent, mallocOk → s.Vacant addOk (s.jobOf data)))
  | .take _ => isTrue trivial
  | .finish _ _ _ => isTrue trivial

variable {b : Build} {threads k : Nat} {s t : Reactor}

/-- The queue, the workers and the data of the clients are left as they are. -/
def SameJobs (s t : Reactor) : Prop :=
  t.queue = s.queue ∧ t.running = s.running ∧ t.clients = s.clients

theorem Exclusive.of_le (h : s.Exclusive) (hle : ∀ id, t.outstanding id ≤ s.outstanding id)
    (hfreed : ∀ {id fd : Nat}, t.clients[id]? = some ⟨fd, .freed⟩ →
      s.clients[id]? = some ⟨fd, .freed⟩) : t.Exclusive where
  one id := (hle id).trans (h.one id)
  freed hdata := Nat.le_zero.mp ((hle _).trans (h.freed (hfreed hdata)).le)

theorem Exclusive.sameJobs (h : s.Exclusive) (hsame : SameJobs s t) : t.Exclusive := by
  obtain ⟨hqueue, hrunning, hclients⟩ := hsame
  apply h.of_le
  · intro id
    rw [outstanding, outstanding, hqueue, hrunning]
  · intro id fd hdata
    rw [← hclients]
    exact hdata

theorem sameJobs_leave : SameJobs s s.leave := by simp [SameJobs, leave]

theorem sameJobs_of_loopMoves (h : LoopMoves s t) : SameJobs s t := by
  rcases h with ⟨-, rfl⟩ | ⟨loop, loopTerminal, -, rfl⟩
  · exact sameJobs_leave
  · exact ⟨rfl, rfl, rfl⟩

/-- Taking an entry out of a list takes it out of the count. -/
theorem count_eraseIdx {jobs : List Target} {job : Target} (h : jobs[k]? = some job) (x : Target) :
    (jobs.eraseIdx k).count x + (if job = x then 1 else 0) = jobs.count x := by
  obtain ⟨hk, rfl⟩ := List.getElem?_eq_some_iff.mp h
  have hperm := (List.getElem_cons_eraseIdx_perm hk).count_eq x
  rw [List.count_cons] at hperm
  simpa using hperm

theorem outstanding_take (id : Nat) : (s.take threads k).outstanding id = s.outstanding id := by
  unfold take
  split
  · rename_i job hjob
    split
    · have hcount := count_eraseIdx hjob (.client id)
      simp only [outstanding, List.count_append, List.count_singleton, beq_iff_eq]
      omega
    · rfl
  · rfl

theorem take_clients : (s.take threads k).clients = s.clients := by
  unfold take
  split
  · split <;> rfl
  · rfl

/-- The jobs of a client that is not the one whose job ended, or of none, are as before. -/
theorem outstanding_done {job : Target} (h : s.running[k]? = some job) (id : Nat) :
    outstanding { s with running := s.running.eraseIdx k } id +
      (if job = .client id then 1 else 0) = s.outstanding id := by
  have hcount := count_eraseIdx h (.client id)
  simp only [outstanding]
  omega

theorem handleServerFd_jobs (accept : AcceptAnswer) :
    (s.handleServerFd accept).queue = s.queue ∧ (s.handleServerFd accept).running = s.running := by
  rcases handleServerFd_cases accept s with heq | ⟨fd, -, -, heq⟩ | ⟨fd, -, heq⟩
  · rw [heq]
    exact ⟨rfl, rfl⟩
  · rw [heq]
    exact ⟨rfl, rfl⟩
  · rw [heq, close_queue, close_running]
    exact ⟨rfl, rfl⟩

theorem freed_of_addClient {id fd fd' : Nat} {data : ClientData} (hdata : data ≠ .freed)
    (h : (s.addClient fd' data).clients[id]? = some ⟨fd, .freed⟩) :
    s.clients[id]? = some ⟨fd, .freed⟩ := by
  rw [getElem?_addClient] at h
  split at h
  · simp only [Option.some.injEq, ClientEntry.mk.injEq] at h
    exact absurd h.2 hdata
  · exact h

theorem freed_of_handleServerFd {accept : AcceptAnswer} {id fd : Nat}
    (h : (s.handleServerFd accept).clients[id]? = some ⟨fd, .freed⟩) :
    s.clients[id]? = some ⟨fd, .freed⟩ := by
  rcases handleServerFd_cases accept s with heq | ⟨fd', -, -, heq⟩ | ⟨fd', -, heq⟩
  · rwa [heq] at h
  · rw [heq] at h
    exact freed_of_addClient (by simp) h
  · rw [heq, close_clients] at h
    exact freed_of_addClient (by simp) h

theorem jobOf_client {data : Target} {id : Nat} (h : s.jobOf data = .ok (.client id)) :
    data = .client id ∧ ∃ fd conn, s.clients[id]? = some ⟨fd, .live conn⟩ := by
  cases data with
  | server => simp [jobOf] at h
  | client j =>
    simp only [jobOf] at h
    split at h
    · rename_i fd conn hlive
      split at h
      · simp at h
      · simp only [Except.ok.injEq, Target.client.injEq] at h
        subst h
        exact ⟨rfl, fd, conn, hlive⟩
    · simp at h

theorem outstanding_enqueue {evs : List Target} {job : Target} (id : Nat) :
    outstanding { s with loop := .handling evs, queue := s.queue ++ [job] } id =
      s.outstanding id + if job = .client id then 1 else 0 := by
  simp only [outstanding, List.count_append, List.count_singleton, beq_iff_eq]
  omega

theorem exclusive_enqueue {data job : Target} {evs : List Target} {addOk : Bool} (h : s.Exclusive)
    (hjob : s.jobOf data = .ok job) (hvacant : s.Vacant addOk (.ok job)) :
    Exclusive { s with
      loop := .handling evs
      queue := if addOk then s.queue ++ [job] else s.queue } := by
  cases addOk with
  | false => exact h.sameJobs ⟨rfl, rfl, rfl⟩
  | true =>
    cases job with
    | server =>
      apply h.of_le
      · intro id
        simp [outstanding_enqueue]
      · exact fun hdata => hdata
    | client id =>
      obtain ⟨-, fd, conn, hlive⟩ := jobOf_client hjob
      have hnone : s.outstanding id = 0 := hvacant rfl
      constructor
      · intro j
        simp only [if_true, outstanding_enqueue, Target.client.injEq]
        split
        · rename_i hj
          rw [← hj, hnone]
        · exact h.one j
      · intro j fd' hdata
        have hj : id ≠ j := by
          rintro rfl
          simp [hlive] at hdata
        simp only [if_true, outstanding_enqueue, Target.client.injEq, if_neg hj]
        exact h.freed hdata

/-- What the job of a client does leaves the queue and the workers alone. -/
theorem outstanding_runClient {j : Nat} {event : ClientEvent Response}
    (h : s.runClient b j event = .ok t) (id : Nat) : t.outstanding id = s.outstanding id := by
  obtain ⟨fd, conn, -, ht⟩ := runClient_ok h
  rcases ht with ⟨-, conn', rfl⟩ | ⟨-, rfl⟩
  · rfl
  · simp only [closefd, outstanding, setData]
    split <;> simp

/-- The last job of a client may free its data. -/
theorem exclusive_finish {accept : AcceptAnswer} {event : ClientEvent Response}
    (h : s.Exclusive) (hs : s.finish b k accept event = .ok t) : t.Exclusive := by
  rcases finish_ok hs with ⟨-, rfl⟩ | ⟨hjob, rfl⟩ | ⟨id, hjob, hrun⟩
  · exact h
  · apply h.of_le
    · intro id
      have hdone := outstanding_done hjob id
      obtain ⟨hqueue, hrunning⟩ :=
        handleServerFd_jobs (s := { s with running := s.running.eraseIdx k }) accept
      rw [outstanding, hqueue, hrunning]
      exact Nat.le.intro hdone
    · intro id fd hdata
      exact freed_of_handleServerFd (s := { s with running := s.running.eraseIdx k }) hdata
  · obtain ⟨fd, conn, hlive, ht⟩ := runClient_ok hrun
    have hdone := outstanding_done hjob
    have hmine := hdone id
    rw [if_pos rfl] at hmine
    have hone := h.one id
    have hout := outstanding_runClient hrun
    rcases ht with ⟨-, conn', rfl⟩ | ⟨-, rfl⟩
    · apply h.of_le
      · intro j
        rw [hout]
        exact Nat.le.intro (hdone j)
      · intro j fd' hdata
        rw [getElem?_setData] at hdata
        split at hdata
        · simp at hdata
        · exact hdata
    · constructor
      · intro j
        rw [hout]
        exact (Nat.le.intro (hdone j)).trans (h.one j)
      · intro j fd' hdata
        rw [hout]
        by_cases hj : j = id
        · subst hj
          omega
        · simp only [closefd, getElem?_setData, if_neg hj, close_clients] at hdata
          have hfreed : s.clients[j]? = some ⟨fd', .freed⟩ := by
            split at hdata <;> exact hdata
          exact Nat.le_zero.mp ((Nat.le.intro (hdone j)).trans (h.freed hfreed).le)

theorem exclusive_step {input : ReactorInput Response} {o : Unit} (h : s.Exclusive)
    (hidle : s.Idle input) (hs : s.step b threads input = .ok (o, t)) : t.Exclusive := by
  rcases step_cases hs with hmoves | ⟨data, evs, job, addOk, rfl, hloop, hjob, rfl⟩ | ⟨k, rfl⟩ |
      ⟨k, accept, event, rfl, hfinish⟩
  · exact h.sameJobs (sameJobs_of_loopMoves hmoves)
  · have hvacant : s.Vacant addOk (s.jobOf data) := hidle data (by simp [nextEvent, hloop]) rfl
    rw [hjob] at hvacant
    exact exclusive_enqueue h hjob hvacant
  · apply h.of_le
    · intro id
      exact outstanding_take id |>.le
    · intro id fd hdata
      rwa [take_clients] at hdata
  · exact exclusive_finish h hfinish

theorem idle_of_exclusive {input : ReactorInput Response} {o : Unit}
    (hs : s.step b threads input = .ok (o, t)) (h : t.Exclusive) : s.Idle input := by
  cases input with
  | event mallocOk addOk =>
    intro data hdata hmalloc
    rcases handleEachEvent_ok (step_ok hs) with ⟨hnone, -⟩ | ⟨_, _, _, hfail, -⟩ |
        ⟨data', evs, job, hloop, -, hjob, rfl⟩
    · unfold nextEvent at hdata
      split at hdata
      · rename_i data' evs hloop
        exact absurd hloop (hnone data' evs)
      · simp at hdata
    · simp [hmalloc] at hfail
    · simp only [nextEvent, hloop, Option.mem_def, Option.some.injEq] at hdata
      subst hdata
      rw [hjob]
      cases job with
      | server => trivial
      | client id =>
        intro hadd
        have hone := h.one id
        simp only [hadd, if_true, outstanding_enqueue] at hone
        omega
  | _ => trivial

end Reactor

open Reactor

theorem exclusive_start (serverFd epollFd : Nat) : (start serverFd epollFd).Exclusive where
  one id := by simp [start, outstanding]
  freed hdata := by simp [start] at hdata

/-- In a run that makes a job only of an event whose client is there and has no other job, the
jobs of a client exclude each other throughout; and no other run that returns has that. -/
theorem run_exclusive (b : Build) (threads serverFd epollFd : Nat)
    (inputs : List (ReactorInput Response)) :
    (Meets (step b threads) Idle (start serverFd epollFd) inputs →
      ∀ os t, Reaches (step b threads) (start serverFd epollFd) inputs os t → t.Exclusive) ∧
    ((∃ os t, exec (step b threads) (start serverFd epollFd) inputs = .ok (os, t)) →
      (∀ os t, Reaches (step b threads) (start serverFd epollFd) inputs os t → t.Exclusive) →
      Meets (step b threads) Idle (start serverFd epollFd) inputs) := by
  have keep : ∀ {s : Reactor} {input : ReactorInput Response} {o : Unit} {t : Reactor},
      s.Exclusive → s.Idle input → s.step b threads input = .ok (o, t) → t.Exclusive :=
    fun h hidle hs => exclusive_step h hidle hs
  constructor
  · intro hm os t hreach
    exact inv_of_reaches keep (exclusive_start serverFd epollFd) hm hreach
  · intro hx hall
    exact meets_of_reaches keep (fun _ hs h => idle_of_exclusive hs h)
      (exclusive_start serverFd epollFd) hx hall

def talk : ClientEvent Unit := readable (ascii "GET / HTTP/1.1\r\n".toList)

theorem oneAfterAnother_exclusive : ∀ os t,
    Reaches (step .debug 4) (start 3 4)
      (acceptOne ++ turn (.client 0) .again talk ++ turn (.client 0) .again hungUp) os t →
      t.Exclusive :=
  (run_exclusive .debug 4 3 4 _).1 (by decide +kernel)

/-- New bytes arrive, and the main loop is told of them before a worker has taken the job of
the first; the peer then hangs up. -/
def twiceReadable : List (ReactorInput Unit) :=
  acceptOne ++ [.wait, .wake (.ready [.client 0]), .event true true,
    .wait, .wake (.ready [.client 0]), .event true true,
    .take 0, .take 0, .finish 0 .again hungUp]

/-- Two jobs of one client are queued, and the first to end frees the data of the other. -/
theorem twiceReadable_not_exclusive :
    (∃ os t, Reaches (step .debug 4) (start 3 4) twiceReadable os t ∧
      t.queue = [.client 0, .client 0] ∧ ¬ t.Exclusive) ∧
    ∃ os t, Reaches (step .debug 4) (start 3 4) twiceReadable os t ∧
      t.clients = [⟨5, .freed⟩] ∧ t.running = [.client 0] ∧ ¬ t.Exclusive := by
  constructor
  · refine ⟨_, _, ⟨twiceReadable.take 11, List.take_prefix 11 _, rfl⟩, rfl, ?_⟩
    intro h
    exact absurd (h.one 0) (by decide)
  · refine ⟨_, _, ⟨twiceReadable, List.prefix_rfl, rfl⟩, rfl, rfl, ?_⟩
    intro h
    exact absurd (@Exclusive.freed _ h 0 5 rfl) (by decide)

end LiteHttp
