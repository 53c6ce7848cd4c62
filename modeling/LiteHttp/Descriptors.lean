import LiteHttp.Reactor

/-!
# Which descriptors are closed, and by whom

Only a failed registration closes a client's descriptor. The job that ends a client closes
`epoll_fd` in its place, so the life cycle of the descriptors is right exactly as long as
no job has read an end of file or an error.
-/

namespace LiteHttp

open Run

set_option autoImplicit false

universe u
variable {Response : Type u}

namespace Reactor

/-- How often the descriptor of a client has been closed. -/
def timesClosed (s : Reactor) (id : Nat) : Nat := s.closes.countP (·.2 = .client id)

/-- The epoll is open until the loop is left; the descriptor of a client is open as long as
its data is live, and has been closed once when it is not; the jobs of a client close no
descriptor but that client's. -/
structure LifeCycle (s : Reactor) : Prop where
  epoll : s.loop ≠ .left → s.fds s.epollFd = some .epoll
  live : ∀ {id fd conn}, s.clients[id]? = some ⟨fd, .live conn⟩ →
    s.fds fd = some (.client id) ∧ s.timesClosed id = 0
  ended : ∀ {id fd data}, s.clients[id]? = some ⟨fd, data⟩ → (∀ conn, data ≠ .live conn) →
    (∀ f, s.fds f ≠ some (.client id)) ∧ s.timesClosed id = 1
  own : ∀ {id d}, (.client id, d) ∈ s.closes → d = .client id

/-- What a run keeps as long as no client ends: every descriptor of a client has its entry,
apart from the epoll, and no job of a client has closed anything. -/
structure Tracked (s : Reactor) : Prop where
  epoll : s.loop ≠ .left → s.fds s.epollFd = some .epoll
  held : ∀ {f id}, s.fds f = some (.client id) → ∃ conn, s.clients[id]? = some ⟨f, .live conn⟩
  live : ∀ {id fd conn}, s.clients[id]? = some ⟨fd, .live conn⟩ →
    s.fds fd = some (.client id) ∧ fd ≠ s.epollFd ∧ s.timesClosed id = 0
  ended : ∀ {id fd data}, s.clients[id]? = some ⟨fd, data⟩ → (∀ conn, data ≠ .live conn) →
    s.timesClosed id = 1
  known : ∀ {who id}, (who, .client id) ∈ s.closes → id < s.clients.length
  none : ∀ {id d}, (.client id, d) ∉ s.closes

/-- Nothing is opened, closed or allocated. -/
def SameTable (s t : Reactor) : Prop :=
  t.fds = s.fds ∧ t.epollFd = s.epollFd ∧ t.clients = s.clients ∧ t.closes = s.closes

variable {b : Build} {threads k : Nat} {s t : Reactor}

theorem Tracked.lifeCycle (h : s.Tracked) : s.LifeCycle where
  epoll := h.epoll
  live hlive := ⟨(h.live hlive).1, (h.live hlive).2.2⟩
  ended hdata hnot := by
    refine ⟨?_, h.ended hdata hnot⟩
    intro f hf
    obtain ⟨conn, hlive⟩ := h.held hf
    rw [hdata, Option.some.injEq, ClientEntry.mk.injEq] at hlive
    exact hnot conn hlive.2
  own hin := absurd hin h.none

theorem tracked_start (serverFd epollFd : Nat) : (start serverFd epollFd).Tracked where
  epoll _ := by simp [start]
  held hf := by
    simp only [start, Function.update_apply] at hf
    grind
  live hlive := by simp [start] at hlive
  ended hdata := by simp [start] at hdata
  known hin := by simp [start] at hin
  none hin := by simp [start] at hin

theorem Tracked.sameTable (h : s.Tracked) (hsame : SameTable s t)
    (hloop : t.loop ≠ .left → s.loop ≠ .left) : t.Tracked := by
  obtain ⟨hfds, hepoll, hclients, hcloses⟩ := hsame
  have htimes : ∀ id, t.timesClosed id = s.timesClosed id := fun id => by
    rw [timesClosed, timesClosed, hcloses]
  constructor
  · intro hne
    rw [hfds, hepoll]
    exact h.epoll (hloop hne)
  · intro f id hf
    rw [hclients]
    exact h.held (hfds ▸ hf)
  · intro id fd conn hlive
    rw [hfds, hepoll, htimes]
    exact h.live (hclients ▸ hlive)
  · intro id fd data hdata hnot
    rw [htimes]
    exact h.ended (hclients ▸ hdata) hnot
  · intro who id hin
    rw [hclients]
    exact h.known (hcloses ▸ hin)
  · intro id d hin
    exact h.none (hcloses ▸ hin)

theorem timesClosed_eq_zero (h : s.Tracked) {id : Nat} (hid : s.clients.length ≤ id) :
    s.timesClosed id = 0 := by
  rw [timesClosed, List.countP_eq_zero]
  rintro ⟨who, d⟩ hin hd
  have hmine : (who, .client id) ∈ s.closes := (decide_eq_true_iff.mp hd) ▸ hin
  have hlt := h.known hmine
  omega

/-- Leaving the loop closes the epoll, which was still open, and nothing else. -/
theorem tracked_leave (h : s.Tracked) (hloop : s.loop ≠ .left) : s.leave.Tracked := by
  have hleave : s.leave = { s with
      fds := Function.update s.fds s.epollFd none
      interest := s.interest.filter (Desc.client · ≠ .epoll)
      closes := s.closes ++ [(.loop, .epoll)]
      loop := .left } := by rw [leave, close_of_some .loop (h.epoll hloop)]
  have htimes : ∀ id, s.leave.timesClosed id = s.timesClosed id := by
    intro id
    simp [hleave, timesClosed, List.countP_append]
  constructor
  · intro hne
    simp [hleave] at hne
  · intro f id hf
    simp only [hleave, Function.update_apply] at hf ⊢
    split at hf
    · simp at hf
    · exact h.held hf
  · intro id fd conn hlive
    obtain ⟨hfd, hapart, hzero⟩ := h.live (by simpa [hleave] using hlive)
    refine ⟨?_, by simpa [hleave] using hapart, (htimes id).trans hzero⟩
    simpa [hleave, Function.update_apply, hapart] using hfd
  · intro id fd data hdata hnot
    rw [htimes]
    exact h.ended (by simpa [hleave] using hdata) hnot
  · intro who id hin
    simp only [hleave, List.mem_append, List.mem_singleton, Prod.mk.injEq, reduceCtorEq, and_false,
      or_false] at hin ⊢
    exact h.known hin
  · intro id d hin
    simp only [hleave, List.mem_append, List.mem_singleton, Prod.mk.injEq, reduceCtorEq, false_and,
      or_false] at hin
    exact h.none hin

/-- A connection the epoll takes: its descriptor was free, and the epoll's was not. -/
theorem tracked_admit (h : s.Tracked) {fd : Nat} (hfree : s.fds fd = none)
    (hepoll : s.fds s.epollFd = some .epoll) :
    Tracked { s.addClient fd (.live .new) with interest := s.interest ++ [s.clients.length] } := by
  have hapart : fd ≠ s.epollFd := by
    intro heq
    simp [heq, hepoll] at hfree
  constructor
  · intro hne
    simpa [addClient, Function.update_apply, hapart.symm] using hepoll
  · intro f id hf
    rw [getElem?_addClient]
    simp only [addClient, Function.update_apply] at hf
    split at hf
    · rename_i hfd
      simp only [Option.some.injEq, Desc.client.injEq] at hf
      exact ⟨.new, by simp [hf, hfd]⟩
    · obtain ⟨conn, hlive⟩ := h.held hf
      have hlt := (List.getElem?_eq_some_iff.mp hlive).1
      exact ⟨conn, by rwa [if_neg (by omega)]⟩
  · intro id fd' conn hlive
    rw [getElem?_addClient] at hlive
    split at hlive
    · rename_i hid
      simp only [Option.some.injEq, ClientEntry.mk.injEq] at hlive
      obtain ⟨rfl, -⟩ := hlive
      exact ⟨by simp [addClient, hid], hapart, timesClosed_eq_zero h hid.ge⟩
    · obtain ⟨hfd, hne, hzero⟩ := h.live hlive
      refine ⟨?_, hne, hzero⟩
      have hother : fd' ≠ fd := by
        intro heq
        simp [heq, hfree] at hfd
      simpa [addClient, Function.update_apply, hother] using hfd
  · intro id fd' data hdata hnot
    rw [getElem?_addClient] at hdata
    split at hdata
    · simp only [Option.some.injEq, ClientEntry.mk.injEq] at hdata
      exact absurd hdata.2.symm (hnot .new)
    · exact h.ended hdata hnot
  · intro who id hin
    have hlt := h.known hin
    simp only [addClient, List.length_append, List.length_singleton]
    omega
  · exact h.none

/-- A connection that is refused: its descriptor is closed before anything can hold it. -/
theorem tracked_refuse (h : s.Tracked) {fd : Nat} (hfree : s.fds fd = none) :
    ((s.addClient fd .unregistered).close .server fd).Tracked := by
  have hheld : (s.addClient fd .unregistered).fds fd = some (.client s.clients.length) := by
    simp [addClient]
  have hclose := close_of_some (s := s.addClient fd .unregistered) .server hheld
  have hfds : Function.update (s.addClient fd .unregistered).fds fd none = s.fds := by
    simp only [addClient, Function.update_idem]
    rw [← hfree, Function.update_eq_self]
  rw [hfds] at hclose
  have htimes : ∀ id, ((s.addClient fd .unregistered).close .server fd).timesClosed id =
      s.timesClosed id + if id = s.clients.length then 1 else 0 := by
    intro id
    rw [hclose, timesClosed, List.countP_append]
    simp [addClient, timesClosed, List.countP_cons, eq_comm]
  constructor
  · intro hne
    rw [hclose]
    exact h.epoll (by simpa [addClient] using hne)
  · intro f id hf
    rw [hclose] at hf
    obtain ⟨conn, hlive⟩ := h.held hf
    have hlt := (List.getElem?_eq_some_iff.mp hlive).1
    refine ⟨conn, ?_⟩
    rw [close_clients, getElem?_addClient, if_neg (by omega), hlive]
  · intro id fd' conn hlive
    rw [close_clients, getElem?_addClient] at hlive
    split at hlive
    · simp at hlive
    · rename_i hid
      obtain ⟨hfd, hne, hzero⟩ := h.live hlive
      rw [htimes, if_neg hid]
      exact ⟨by rw [hclose]; exact hfd, by rw [hclose]; exact hne, hzero⟩
  · intro id fd' data hdata hnot
    rw [close_clients, getElem?_addClient] at hdata
    rw [htimes]
    split at hdata
    · rename_i hid
      rw [if_pos hid, timesClosed_eq_zero h hid.ge]
    · rename_i hid
      rw [if_neg hid]
      exact h.ended hdata hnot
  · intro who id hin
    rw [hclose] at hin
    simp only [addClient, List.mem_append, List.mem_singleton, Prod.mk.injEq,
      Desc.client.injEq] at hin
    rw [close_clients]
    simp only [addClient, List.length_append, List.length_singleton]
    rcases hin with hin | ⟨-, rfl⟩
    · have hlt := h.known hin
      omega
    · omega
  · intro id d hin
    rw [hclose] at hin
    simp only [addClient, List.mem_append, List.mem_singleton, Prod.mk.injEq, reduceCtorEq,
      false_and, or_false] at hin
    exact h.none hin

theorem tracked_feed (h : s.Tracked) {id fd : Nat} {conn : ClientConn}
    (hlive : s.clients[id]? = some ⟨fd, .live conn⟩) (conn' : ClientConn) :
    (s.setData id (.live conn')).Tracked := by
  constructor
  · exact h.epoll
  · intro f j hf
    obtain ⟨conn₀, hj⟩ := h.held hf
    rw [getElem?_setData, hj]
    split
    · exact ⟨conn', rfl⟩
    · exact ⟨conn₀, rfl⟩
  · intro j fd' conn₀ hj
    rw [getElem?_setData] at hj
    split at hj
    · rename_i heq
      subst heq
      simp only [hlive, Option.map_some, Option.some.injEq, ClientEntry.mk.injEq] at hj
      exact hj.1 ▸ h.live hlive
    · exact h.live hj
  · intro j fd' data hj hnot
    rw [getElem?_setData] at hj
    split at hj
    · rename_i heq
      subst heq
      simp only [hlive, Option.map_some, Option.some.injEq, ClientEntry.mk.injEq] at hj
      exact absurd hj.2.symm (hnot conn')
    · exact h.ended hj hnot
  · intro who j hin
    simpa [setData] using h.known hin
  · exact h.none

/-- The job a step finishes is of no client, or it reads neither an end of file nor an error. -/
def KeepsClients (s : Reactor) : ReactorInput Response → Prop
  | .finish k _ event => ∀ job ∈ s.running[k]?, job ≠ .server → event.last = .again
  | _ => True

instance (s : Reactor) : DecidablePred (s.KeepsClients : ReactorInput Response → Prop)
  | .signal => isTrue trivial
  | .wait => isTrue trivial
  | .wake _ => isTrue trivial
  | .event _ _ => isTrue trivial
  | .take _ => isTrue trivial
  | .finish k _ event =>
    inferInstanceAs (Decidable (∀ job ∈ s.running[k]?, job ≠ .server → event.last = .again))

theorem tracked_serve (h : s.Tracked) (accept : AcceptAnswer) :
    (s.handleServerFd accept).Tracked := by
  rcases handleServerFd_cases accept s with heq | ⟨fd, hfree, hepoll, heq⟩ | ⟨fd, hfree, heq⟩
  · rw [heq]
    exact h
  · rw [heq]
    exact tracked_admit h hfree hepoll
  · rw [heq]
    exact tracked_refuse h hfree

theorem tracked_finish {accept : AcceptAnswer} {event : ClientEvent Response} (h : s.Tracked)
    (hkeeps : s.KeepsClients (.finish k accept event)) (hs : s.finish b k accept event = .ok t) :
    t.Tracked := by
  have hdone : Tracked { s with running := s.running.eraseIdx k } :=
    h.sameTable ⟨rfl, rfl, rfl, rfl⟩ id
  rcases finish_ok hs with ⟨-, rfl⟩ | ⟨-, rfl⟩ | ⟨id, hjob, hrun⟩
  · exact h
  · exact tracked_serve hdone accept
  · have hlast : event.last = .again := hkeeps (.client id) hjob (by simp)
    obtain ⟨fd, conn, hlive, ⟨-, conn', rfl⟩ | ⟨hnot, -⟩⟩ := runClient_ok hrun
    · exact tracked_feed hdone hlive conn'
    · exact absurd hlast hnot

theorem tracked_step {input : ReactorInput Response} {o : Unit} (h : s.Tracked)
    (hkeeps : s.KeepsClients input) (hs : s.step b threads input = .ok (o, t)) : t.Tracked := by
  rcases step_cases hs with hmoves | ⟨data, evs, job, addOk, -, hloop, -, rfl⟩ | ⟨k, rfl⟩ |
      ⟨k, accept, event, rfl, hfinish⟩
  · rcases hmoves with ⟨hin, rfl⟩ | ⟨loop, loopTerminal, hin, rfl⟩
    · exact tracked_leave h hin
    · exact h.sameTable ⟨rfl, rfl, rfl, rfl⟩ hin
  · exact h.sameTable ⟨rfl, rfl, rfl, rfl⟩ fun _ => by simp [hloop]
  · unfold take
    split
    · split
      · exact h.sameTable ⟨rfl, rfl, rfl, rfl⟩ id
      · exact h
    · exact h
  · exact tracked_finish h hkeeps hfinish

/-- The job that ends a client leaves its data freed and its descriptor open. -/
theorem closefd_not_lifeCycle (h : s.Tracked) {id fd : Nat} {conn : ClientConn}
    (hlive : s.clients[id]? = some ⟨fd, .live conn⟩) (ctlOk : Bool) :
    ¬ (s.closefd id ctlOk).LifeCycle := by
  intro hcycle
  obtain ⟨hfd, hapart, hzero⟩ := h.live hlive
  have hfreed : (s.closefd id ctlOk).clients[id]? = some ⟨fd, .freed⟩ := by
    simp only [closefd, getElem?_setData, if_true, close_clients]
    split <;> simp [hlive]
  have hopen := (hcycle.ended hfreed (by simp)).1 fd
  apply hopen
  rw [closefd, setData_fds, close_fds_of_ne]
  · split <;> exact hfd
  · split <;> exact hapart

theorem keepsClients_of_lifeCycle {input : ReactorInput Response} {o : Unit} (h : s.Tracked)
    (hs : s.step b threads input = .ok (o, t)) (hcycle : t.LifeCycle) : s.KeepsClients input := by
  cases input with
  | finish k accept event =>
    rcases finish_ok (step_ok hs) with ⟨hnone, -⟩ | ⟨hserver, -⟩ | ⟨id, hjob, hrun⟩
    · simp [KeepsClients, hnone]
    · simp [KeepsClients, hserver]
    · intro job _ _
      obtain ⟨fd, conn, hlive, ⟨hlast, -⟩ | ⟨-, rfl⟩⟩ := runClient_ok hrun
      · exact hlast
      · have hdone : Tracked { s with running := s.running.eraseIdx k } :=
          h.sameTable ⟨rfl, rfl, rfl, rfl⟩ fun hne => hne
        exact absurd hcycle (closefd_not_lifeCycle hdone hlive event.epollCtlOk)
  | _ => trivial

end Reactor

open Reactor

/-- In a run whose jobs of clients read no end of file and no error, the descriptors have
their life cycle throughout; and no other run that returns has it. -/
theorem run_lifeCycle (b : Build) (threads serverFd epollFd : Nat)
    (inputs : List (ReactorInput Response)) :
    (Meets (step b threads) KeepsClients (start serverFd epollFd) inputs →
      ∀ os t, Reaches (step b threads) (start serverFd epollFd) inputs os t → t.LifeCycle) ∧
    ((∃ os t, exec (step b threads) (start serverFd epollFd) inputs = .ok (os, t)) →
      (∀ os t, Reaches (step b threads) (start serverFd epollFd) inputs os t → t.LifeCycle) →
      Meets (step b threads) KeepsClients (start serverFd epollFd) inputs) := by
  have keep : ∀ {s : Reactor} {input : ReactorInput Response} {o : Unit} {t : Reactor},
      s.Tracked → s.KeepsClients input → s.step b threads input = .ok (o, t) → t.Tracked :=
    fun h hstay hs => tracked_step h hstay hs
  constructor
  · intro hm os t hreach
    exact (inv_of_reaches keep (tracked_start serverFd epollFd) hm hreach).lifeCycle
  · intro hx hall
    exact meets_of_reaches keep (fun h hs hcycle => keepsClients_of_lifeCycle h hs hcycle)
      (tracked_start serverFd epollFd) hx hall

def oneTalks : List (ReactorInput Unit) :=
  acceptOne ++ turn (.client 0) .again (readable (ascii "GET / HTTP/1.1\r\n".toList)) ++ [.wait]

theorem oneTalks_lifeCycle : ∀ os t,
    Reaches (step .debug 4) (start 3 4) oneTalks os t → t.LifeCycle :=
  (run_lifeCycle .debug 4 3 4 oneTalks).1 (by decide +kernel)

/-- One client connects and hangs up: the epoll is closed, by the client's job, its own
descriptor stays open, and the loop has not been left. -/
theorem hungUp_not_lifeCycle : ∃ os t,
    Reaches (step .debug 4) (start 3 4) (acceptOne ++ turn (.client 0) .again hungUp) os t ∧
      t.loop = .handling [] ∧ t.fds t.epollFd = none ∧ t.clients = [⟨5, .freed⟩] ∧
      t.fds 5 = some (.client 0) ∧ t.closes = [(.client 0, .epoll)] ∧ ¬ t.LifeCycle := by
  refine ⟨_, _, ⟨_, List.prefix_rfl, rfl⟩, rfl, rfl, rfl, rfl, rfl, ?_⟩
  intro h
  exact absurd (h.epoll (by decide)) (by decide)

end LiteHttp
