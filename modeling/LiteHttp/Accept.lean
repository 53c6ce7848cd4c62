import LiteHttp.Reactor

/-!
# Accepting the pending connections

The loop of `handle_server_fd` over what `accept` answers it. The listening socket is
registered edge-triggered, so a connection left in the queue gets no event of its own.
Every path of the loop's body leaves it.
-/

namespace LiteHttp

set_option autoImplicit false

/-- A connection `accept` takes off the queue, with what the three steps after it answer. -/
structure NewClient where
  fd : Nat
  create : HttpErr
  nonblock : HttpErr
  ctlOk : Bool
  deriving DecidableEq, Repr

/-- What one call of `accept` answers; EAGAIN is the end of the answers. -/
inductive AcceptResult where
  | eintr
  | failed
  | accepted (client : NewClient)
  deriving DecidableEq, Repr

/-- What becomes of an accepted connection. -/
inductive Placement where
  | registered
  | closed
  deriving DecidableEq, Repr

/-- `handle_server_fd` from the outside: the code it returns, the connections it took with what
it did with each, and the answers it has not asked for. -/
structure ServerRun where
  herr : HttpErr
  taken : List (NewClient × Placement)
  left : List AcceptResult
  deriving DecidableEq, Repr

/-- How a turn of the loop ends. -/
inductive Turn where
  | next
  | leave
  | ret (herr : HttpErr)
  deriving DecidableEq, Repr

/-- The body of the loop behind `accept`. A failed `epoll_ctl` leaves `herr` as it is. -/
def placeClient (client : NewClient) : HttpErr × Placement :=
  if client.create ≠ .success then (client.create, .closed)
  else if client.nonblock ≠ .success then (client.nonblock, .closed)
  else if !client.ctlOk then (client.nonblock, .closed)
  else (client.nonblock, .registered)

def acceptTurn : AcceptResult → Turn × List (NewClient × Placement)
  -- an interrupted call takes the break of EAGAIN
  | .eintr => (.leave, [])
  | .failed => (.ret .accept, [])
  | .accepted client => (.ret (placeClient client).1, [(client, (placeClient client).2)])

def acceptLoop (herr : HttpErr) : List AcceptResult → ServerRun
  | [] => ⟨herr, [], []⟩
  | result :: results =>
    let (turn, taken) := acceptTurn result
    match turn with
    | .next =>
      let run := acceptLoop herr results
      { run with taken := taken ++ run.taken }
    | .leave => ⟨herr, taken, results⟩
    | .ret herr => ⟨herr, taken, results⟩

def handleServerFd (results : List AcceptResult) : ServerRun := acceptLoop .success results

/-- The connections that are pending. -/
def pending : List AcceptResult → List NewClient
  | [] => []
  | .accepted client :: results => client :: pending results
  | _ :: results => pending results

/-- A connection that is closed although no step on it put an error in `herr`. -/
def ClosedSilently (client : NewClient) : Prop :=
  client.create = .success ∧ client.nonblock = .success ∧ client.ctlOk = false

/-- All pending connections are accepted, each is registered or closed with an error, and none is
left behind. -/
structure Drains (results : List AcceptResult) : Prop where
  accepted : (handleServerFd results).taken.map Prod.fst = pending results
  placed : ∀ e ∈ (handleServerFd results).taken,
    e.2 = .registered ∨ e.2 = .closed ∧ (handleServerFd results).herr ≠ .success
  none_left : pending (handleServerFd results).left = []

/-- The loop is left in its first turn. -/
theorem acceptTurn_leaves (result : AcceptResult) : (acceptTurn result).1 ≠ .next := by
  cases result with
  | eintr => simp [acceptTurn]
  | failed => simp [acceptTurn]
  | accepted client => simp [acceptTurn]

theorem acceptLoop_cons (herr : HttpErr) (result : AcceptResult) (results : List AcceptResult) :
    (acceptLoop herr (result :: results)).taken = (acceptTurn result).2 ∧
      (acceptLoop herr (result :: results)).left = results := by
  have hleaves := acceptTurn_leaves result
  simp only [acceptLoop]
  split
  · rename_i h
    exact absurd h hleaves
  · exact ⟨rfl, rfl⟩
  · exact ⟨rfl, rfl⟩

/-- One call asks `accept` once. -/
theorem handleServerFd_left (results : List AcceptResult) :
    (handleServerFd results).left = results.tail := by
  cases results with
  | nil => rfl
  | cons result results => exact (acceptLoop_cons .success result results).2

theorem handleServerFd_taken (results : List AcceptResult) :
    (handleServerFd results).taken.map Prod.fst = pending (results.take 1) := by
  cases results with
  | nil => rfl
  | cons result results =>
    rw [handleServerFd, (acceptLoop_cons .success result results).1]
    cases result with
    | eintr => rfl
    | failed => rfl
    | accepted client => rfl

theorem handleServerFd_accepted (client : NewClient) (results : List AcceptResult) :
    handleServerFd (.accepted client :: results) =
      ⟨(placeClient client).1, [(client, (placeClient client).2)], results⟩ := rfl

theorem pending_cons (result : AcceptResult) (results : List AcceptResult) :
    pending (result :: results) = pending [result] ++ pending results := by
  cases result with
  | eintr => rfl
  | failed => rfl
  | accepted client => rfl

theorem placeClient_registered_iff (client : NewClient) : (placeClient client).2 = .registered ↔
    client.create = .success ∧ client.nonblock = .success ∧ client.ctlOk = true := by
  unfold placeClient
  by_cases hcreate : client.create = .success
  · by_cases hnonblock : client.nonblock = .success
    · cases hctl : client.ctlOk with
      | true => simp [hcreate, hnonblock]
      | false => simp [hcreate, hnonblock]
    · simp [hcreate, hnonblock]
  · simp [hcreate]

theorem placeClient_success_iff (client : NewClient) : (placeClient client).1 = .success ↔
    client.create = .success ∧ client.nonblock = .success := by
  unfold placeClient
  by_cases hcreate : client.create = .success
  · by_cases hnonblock : client.nonblock = .success
    · simp only [hcreate, hnonblock, ne_eq, not_true_eq_false, if_false]
      split
      · simp
      · simp
    · simp [hcreate, hnonblock]
  · simp [hcreate]

/-- A connection is registered, or closed with an error, unless it is closed silently. -/
theorem placeClient_iff (client : NewClient) : ((placeClient client).2 = .registered ∨
    (placeClient client).2 = .closed ∧ (placeClient client).1 ≠ .success) ↔
      ¬ ClosedSilently client := by
  have hclosed : (placeClient client).2 = .closed ↔ (placeClient client).2 ≠ .registered := by
    cases (placeClient client).2 with
    | registered => simp
    | closed => simp
  rw [hclosed, ne_eq, ne_eq, placeClient_registered_iff, placeClient_success_iff, ClosedSilently]
  cases client.ctlOk with
  | true => simpa using fun _ => em (client.nonblock = .success)
  | false => simp

/-- A call drains the queue exactly when no connection is pending, or one is, the first `accept`
gives it, and it is not closed without an error. -/
theorem drains_iff (results : List AcceptResult) : Drains results ↔
    pending results = [] ∨ ∃ client rest, results = .accepted client :: rest ∧
      pending rest = [] ∧ ¬ ClosedSilently client := by
  constructor
  · intro h
    cases results with
    | nil => exact Or.inl rfl
    | cons result rest =>
      have hrest : pending rest = [] := by
        have hleft := h.none_left
        rwa [handleServerFd_left] at hleft
      cases result with
      | eintr => exact Or.inl hrest
      | failed => exact Or.inl hrest
      | accepted client =>
        have hplaced := h.placed (client, (placeClient client).2) List.mem_cons_self
        exact Or.inr ⟨client, rest, rfl, hrest, (placeClient_iff client).mp hplaced⟩
  · intro h
    rcases h with hnone | ⟨client, rest, rfl, hrest, hloud⟩
    · have hfirst : pending (results.take 1) = [] ∧ pending results.tail = [] := by
        cases results with
        | nil => exact ⟨rfl, rfl⟩
        | cons result rest =>
          rw [pending_cons] at hnone
          exact List.append_eq_nil_iff.mp hnone
      have htaken := handleServerFd_taken results
      rw [hfirst.1] at htaken
      constructor
      · rw [htaken, hnone]
      · intro e he
        rw [List.map_eq_nil_iff.mp htaken] at he
        exact absurd he List.not_mem_nil
      · rw [handleServerFd_left]
        exact hfirst.2
    · constructor
      · rw [handleServerFd_taken]
        simp [pending, hrest]
      · intro e he
        rw [handleServerFd_accepted, List.mem_singleton] at he
        rw [he]
        exact (placeClient_iff client).mpr hloud
      · rw [handleServerFd_left]
        exact hrest

/-- What the reactor is told of the answers. -/
def firstAnswer : List AcceptResult → AcceptAnswer
  | [] => .again
  | .eintr :: _ => .again
  | .failed :: _ => .failed
  | .accepted client :: _ =>
    .accepted client.fd (client.create = .success) (client.nonblock = .success) client.ctlOk

def takenEntry (e : NewClient × Placement) : ClientEntry :=
  ⟨e.1.fd, if e.2 = .registered then .live .new else .unregistered⟩

/-- The job of the server in the reactor takes the connections the loop takes. -/
theorem reactor_handleServerFd (s : Reactor) (results : List AcceptResult)
    (hfree : ∀ client ∈ pending (results.take 1), s.fds client.fd = none)
    (hepoll : s.fds s.epollFd = some .epoll) :
    (s.handleServerFd (firstAnswer results)).clients =
      s.clients ++ (handleServerFd results).taken.map takenEntry := by
  cases results with
  | nil => exact (List.append_nil _).symm
  | cons result rest =>
    cases result with
    | eintr => exact (List.append_nil _).symm
    | failed => exact (List.append_nil _).symm
    | accepted client =>
      have hnone := hfree client List.mem_cons_self
      rw [handleServerFd_accepted, firstAnswer]
      simp only [Reactor.handleServerFd, hnone, Option.isSome_none, Bool.false_eq_true, if_false,
        hepoll, and_true, decide_eq_true_eq, List.map_cons, List.map_nil, takenEntry]
      by_cases hplaced : (placeClient client).2 = .registered
      · rw [if_pos ((placeClient_registered_iff client).mp hplaced), if_pos hplaced]
        rfl
      · rw [if_neg (mt (placeClient_registered_iff client).mpr hplaced), if_neg hplaced,
          Reactor.close_clients]
        rfl

def quickClient (fd : Nat) : NewClient := ⟨fd, .success, .success, true⟩

/-- Two connections at once, an interrupted call in front of one, and one that cannot be
registered. -/
theorem backlog_not_drains :
    ¬ Drains [.accepted (quickClient 5), .accepted (quickClient 6)] ∧
    ¬ Drains [.eintr, .accepted (quickClient 5)] ∧
    ¬ Drains [.accepted { quickClient 5 with ctlOk := false }] := by
  refine ⟨?_, ?_, ?_⟩
  · intro h
    exact absurd h.none_left (by decide)
  · intro h
    exact absurd h.none_left (by decide)
  · intro h
    have hplaced := h.placed ({ quickClient 5 with ctlOk := false }, .closed) List.mem_cons_self
    exact absurd hplaced (by decide)

end LiteHttp
