import LiteHttp.Dispatch
import LiteHttp.KeepAlive
import LiteHttp.Send

/-!
# What becomes of the requests of one event

The loop of `handle_client_fd` over the requests the parser has finished, with
the request handler and the send it really calls. It leaves at the first request
that is not served, so every request gets an answer only where each of them is
served in full.
-/

namespace LiteHttp

set_option autoImplicit false

/-- What one round of the loop finds and is answered. -/
structure AnswerEnv where
  get : GetEnv
  alloc : Nat → Bool
  frame : Frame
  write : Option Nat

/-- One call of `http_send_response` that returned. -/
structure Answer where
  response : HttpResponse
  herr : HttpErr
  sent : Sent

/-- The `while` loop of `handle_client_fd`: the responses it sent, and how it was left. -/
def answerLoop (b : Build) (envs : Nat → AnswerEnv) :
    Nat → Nat → HttpErr → ClientConn → List Answer × Except Fault (HttpErr × ClientConn)
  | 0, _, _, _ => ([], .error .diverges)
  | fuel + 1, k, herr, c =>
    match c.pop with
    | .error e => ([], .error e)
    | .ok (none, c) => ([], .ok (herr, c))
    | .ok (some request, c) =>
      match handleHttpRequest b (envs k).get request with
      | .error e => ([], .error e)
      | .ok (herr, response) =>
        if herr ≠ .success then ([], .ok (herr, c))
        else
          match assert b .responseNotNull response.isSome, response with
          | .error e, _ => ([], .error e)
          | .ok (), none => ([], .error .undefined)
          | .ok (), some response =>
            match httpSendResponse (envs k).alloc (envs k).frame (envs k).write response with
            | .error e => ([], .error e)
            | .ok (herr, sent) =>
              if herr ≠ .success then ([⟨response, herr, sent⟩], .ok (herr, c))
              else
                let (answers, left) := answerLoop b envs fuel (k + 1) herr c
                (⟨response, herr, sent⟩ :: answers, left)

/-- How `handle_client_fd` comes to its loop, or returns before it. -/
inductive Arrival where
  | ret (herr : HttpErr) (c : Option ClientConn)
  | loop (herr : HttpErr) (c : ClientConn)
  deriving DecidableEq

structure ReadEvent where
  reads : List ReadStep
  last : ReadEnd
  alloc : Alloc
  epollCtlOk : Bool

def arrive (b : Build) (event : ReadEvent) (c : ClientConn) : Except Fault Arrival := do
  let (herr, receivePost) ← readClient event.last event.reads []
  if herr = .clientClose then return .ret (if event.epollCtlOk then herr else .epollCtlDel) none
  else if herr ≠ .success then return .ret herr (some c)
  else
    let (herr, c) ← c.feed b event.alloc receivePost
    if herr = .requestFatal then return .ret herr (some c) else return .loop herr c

/-- `handle_client_fd` with the responses it sent. -/
def answerClientFd (b : Build) (event : ReadEvent) (envs : Nat → AnswerEnv) (c : ClientConn) :
    List Answer × Except Fault (HttpErr × Option ClientConn) :=
  match arrive b event c with
  | .error e => ([], .error e)
  | .ok (.ret herr c) => ([], .ok (herr, c))
  | .ok (.loop herr c) =>
    let (answers, left) := answerLoop b envs (c.heap.length + 1) 0 herr c
    (answers, left.map fun (herr, c) => (herr, some c))

/-- The finished requests at the head of a chain, in the order the pop gives them. -/
inductive Finished : ClientConn → List HttpRequest → Prop where
  | done {c c' : ClientConn} (hpop : c.pop = .ok (none, c')) : Finished c []
  | more {c c' : ClientConn} {request : HttpRequest} {rest : List HttpRequest}
      (hpop : c.pop = .ok (some request, c')) (hrest : Finished c' rest) :
      Finished c (request :: rest)

/-- The path's resource is at hand: a real mapping in the table, or a file that opens
and is stored. -/
def Found (env : GetEnv) (path : Bytes) : Prop :=
  env.lookup.lookupLock = true ∧ env.lookup.lastUnlock = true ∧ ∃ t, env.getter.table = some t ∧
    ((∃ mem, t.lookup (resourceKey path) = some mem ∧ mem.Real) ∨
      (resourceKey path ∉ t ∧ env.lookup.missUnlock = true ∧ env.lookup.opened.Opens ∧
        env.lookup.insertLock = true ∧ env.lookup.putOk = true))

/-- The view the lookup of a path leaves where it is found. -/
def foundView (env : GetEnv) (path : Bytes) : ResView :=
  match env.getter.table with
  | none => ⟨.null, 0⟩
  | some t =>
    if resourceKey path ∈ t then ⟨.null, 0⟩
    else (openResource env.lookup.opened env.getter.mapped .zero).2.view

/-- A request the server can serve: a GET for a path with a resource. -/
def Servable (env : GetEnv) (request : HttpRequest) : Prop :=
  request.method = .get ∧
    ∃ path, getAbsoluePath env.path request.path = .ok (.success, path) ∧ Found env path

/-- The whole text of a response left for the request, and it is an error response if the
request cannot be served. -/
def Answer.Answers (answer : Answer) (env : AnswerEnv) (request : HttpRequest) : Prop :=
  answer.sent.Whole env.frame answer.response ∧
    (¬ Servable env.get request → 400 ≤ answer.response.status.code)

/-- One response for each request, in order. -/
def AnsweredFrom (envs : Nat → AnswerEnv) : Nat → List HttpRequest → List Answer → Prop
  | _, [], [] => True
  | k, request :: requests, answer :: answers =>
    answer.Answers (envs k) request ∧ AnsweredFrom envs (k + 1) requests answers
  | _, _, _ => False

/-- Nothing is in the way of the text of a response. -/
def Deliverable (env : AnswerEnv) (response : HttpResponse) : Prop :=
  (∀ i, i < response.pieces.length → env.alloc i = true) ∧
    (∀ view ∈ response.pieces, ∃ bytes, view.read env.frame = .ok bytes) ∧
    Appendable 0 (response.pieces.map View.len) ∧
    ∃ n, env.write = some n ∧ response.textLength ≤ n

/-- The request is served in full: a GET whose path is built and whose resource is at hand, with
memory for the response and its first header, and nothing in the way of its text. -/
def ServedInFull (env : AnswerEnv) (request : HttpRequest) : Prop :=
  request.method = .get ∧ env.get.callocOk = true ∧ env.get.pushType = true ∧
    ∃ path, getAbsoluePath env.get.path request.path = .ok (.success, path) ∧
      Found env.get path ∧
      Deliverable env (servedResponse env.get.pushLength (foundView env.get path))

/-- What one round of the loop sends, if it comes to a send that returns. -/
def roundAnswer (b : Build) (env : AnswerEnv) (request : HttpRequest) : Option Answer :=
  match handleHttpRequest b env.get request with
  | .ok (.success, some response) =>
    match httpSendResponse env.alloc env.frame env.write response with
    | .ok (herr, sent) => some ⟨response, herr, sent⟩
    | .error _ => none
  | _ => none

theorem getResourceCached_found (b : Build) {env : GetEnv} {path : Bytes} (h : Found env path) :
    ∃ result getter, getResourceCached b env.getter (resourceKey path) ⟨.null, 0⟩ env.lookup =
        .ok (result, getter) ∧ result.herr = .success ∧ result.res = foundView env path := by
  obtain ⟨hlock, hlast, t, htable, ⟨mem, hmem, -⟩ | ⟨hmiss, hunlock, hopens, hinsert, hput⟩⟩ := h
  · have hin : resourceKey path ∈ t := by
      rw [← AList.lookup_isSome, hmem]
      rfl
    refine ⟨⟨.success, ⟨.null, 0⟩, none⟩, env.getter, ?_, rfl, by simp [foundView, htable, hin]⟩
    simp [getResourceCached, getResourceLazy, htable, lazyLookup, hlock, hin, lastUnlock, hlast]
  · cases hopened : env.lookup.opened with
    | openFails => simp [hopened, OpenAnswer.Opens] at hopens
    | fstatFails => simp [hopened, OpenAnswer.Opens] at hopens
    | file content mmapOk =>
      rw [hopened] at hopens
      obtain ⟨hne, rfl⟩ := hopens
      let call : LazyCall (Bytes × Nat) := ⟨resourceKey path, false, ⟨.null, 0⟩, env.lookup⟩
      have henv : call.env = ⟨env.lookup.lookupLock, env.lookup.missUnlock, env.lookup.opened,
        env.lookup.insertLock, env.lookup.putOk, env.lookup.lastUnlock⟩ := rfl
      rw [hlock, hunlock, hopened, hinsert, hput, hlast] at henv
      obtain ⟨r, getter, hcall, hherr, hres⟩ :=
        getResourceLazy_file b _ call htable hmiss henv hne
      refine ⟨r, getter, hcall, hherr, ?_⟩
      rw [hres]
      simp [foundView, htable, hmiss, hopened, openResource, hne, MappedMemory.view,
        stringViewFromParts]

/-- A send leaves the whole text exactly when nothing is in its way. -/
theorem httpSendResponse_whole_iff {env : AnswerEnv} {response : HttpResponse} :
    (∃ herr sent, httpSendResponse env.alloc env.frame env.write response = .ok (herr, sent) ∧
        sent.Whole env.frame response) ↔
      response.version ≠ .unkown ∧ Deliverable env response := by
  constructor
  · rintro ⟨herr, sent, h, hwhole⟩
    obtain ⟨hpost, hwrite⟩ := httpSendResponse_ok h
    obtain ⟨hversion, hserialised⟩ := httpResponseToString_ok hpost
    obtain ⟨hsuccess, hcomplete, htext⟩ := hwhole
    obtain ⟨hall, hfull⟩ := hserialised hsuccess
    obtain ⟨hpostText, hlen⟩ := hfull hcomplete
    rw [hpostText, Except.ok.injEq] at htext
    rw [hsuccess] at hpost
    have hfold := httpResponseToString_success hpost
    have hall' := hall.mp hcomplete
    have hallocs : ∀ i, Draft.empty.appends ≤ i →
        i < Draft.empty.appends + response.pieces.length → env.alloc i = true := by
      intro i _ hi
      exact hall' i (by simpa [Draft.empty] using hi)
    have hfit := (Draft.foldlM_append_iff hallocs).mp ⟨_, hfold⟩
    refine ⟨hversion.mp hsuccess, hall', hfit.1, hfit.2, ?_⟩
    have hpos := response.textLength_pos
    rcases hwrite with ⟨-, -, hnone⟩ | ⟨n, hn, -, htaken⟩
    · rw [htext, hnone, List.length_nil] at hlen
      omega
    · refine ⟨n, hn, ?_⟩
      have htake := congrArg List.length (htext.trans htaken)
      rw [List.length_take, hlen] at htake
      omega
  · rintro ⟨hknown, hall, hread, hstore, n, hwrite, hle⟩
    have hallocs : ∀ i, Draft.empty.appends ≤ i →
        i < Draft.empty.appends + response.pieces.length → env.alloc i = true := by
      intro i _ hi
      exact hall i (by simpa [Draft.empty] using hi)
    have happend : ∃ post,
        response.pieces.foldlM (Draft.append env.alloc env.frame) .empty = .ok post :=
      (Draft.foldlM_append_iff hallocs).mpr ⟨hread, hstore⟩
    obtain ⟨post, hpost⟩ := happend
    have hserialised : httpResponseToString env.alloc env.frame response = .ok (.success, post) := by
      rw [httpResponseToString_eq, if_neg hknown, hpost]
      rfl
    have hcomplete := ((httpResponseToString_ok hserialised).2 rfl).1.mpr hall
    obtain ⟨htext, hlen⟩ := ((httpResponseToString_ok hserialised).2 rfl).2 hcomplete
    refine ⟨.success, ⟨.success, post, post.post.take n⟩, ?_, rfl, hcomplete, ?_⟩
    · simp only [httpSendResponse, hserialised, hwrite, bind, Except.bind, pure, Except.pure]
    · rw [htext, List.take_of_length_le (by omega)]

theorem looks_iff (b : Build) {env : GetEnv} {request : HttpRequest} {path : Bytes} {res : ResView}
    (hpath : getAbsoluePath env.path request.path = .ok (.success, path)) (hfound : Found env path) :
    Looks b env request res ↔ res = foundView env path := by
  obtain ⟨result, getter, hlook, hherr, hres⟩ := getResourceCached_found b hfound
  constructor
  · rintro ⟨path', result', getter', hpath', hlook', -, rfl⟩
    rw [hpath] at hpath'
    obtain rfl : path = path' := by simpa using hpath'
    rw [hlook, Except.ok.injEq, Prod.mk.injEq] at hlook'
    rw [← hlook'.1]
    exact hres
  · rintro rfl
    exact ⟨path, result, getter, hpath, hlook, hherr, hres⟩

theorem roundAnswer_some {b : Build} {env : AnswerEnv} {request : HttpRequest} {answer : Answer}
    (h : roundAnswer b env request = some answer) :
    handleHttpRequest b env.get request = .ok (.success, some answer.response) ∧
      httpSendResponse env.alloc env.frame env.write answer.response =
        .ok (answer.herr, answer.sent) := by
  unfold roundAnswer at h
  split at h
  · rename_i response hhandle
    split at h
    · rename_i herr sent hsend
      simp only [Option.some.injEq] at h
      subst h
      exact ⟨hhandle, hsend⟩
    · simp at h
  · simp at h

/-- A send that left a whole text is a success. -/
theorem Sent.Whole.success {alloc : Nat → Bool} {frame : Frame} {write : Option Nat}
    {response : HttpResponse} {herr : HttpErr} {sent : Sent}
    (h : httpSendResponse alloc frame write response = .ok (herr, sent))
    (hwhole : sent.Whole frame response) : herr = .success := by
  obtain ⟨hpost, ⟨-, -, hnone⟩ | ⟨n, -, hherr, -⟩⟩ := httpSendResponse_ok h
  · obtain ⟨hsuccess, hcomplete, htext⟩ := hwhole
    obtain ⟨hpostText, hlen⟩ := ((httpResponseToString_ok hpost).2 hsuccess).2 hcomplete
    rw [hpostText, Except.ok.injEq, hnone] at htext
    rw [htext, List.length_nil] at hlen
    have := response.textLength_pos
    omega
  · exact hherr

/-- A round answers its request exactly when the request is served in full. -/
theorem roundAnswer_iff (b : Build) {env : AnswerEnv} {request : HttpRequest} :
    (∃ answer, roundAnswer b env request = some answer ∧ answer.Answers env request) ↔
      ServedInFull env request := by
  constructor
  · rintro ⟨answer, hround, hwhole, herror⟩
    obtain ⟨hhandle, hsend⟩ := roundAnswer_some hround
    obtain ⟨-, hmethod, res, hlooks, hcalloc, htype, hresponse⟩ :=
      handleHttpRequest_some_iff.mp hhandle
    have hservable : Servable env.get request := by
      by_contra hnot
      have hcode := herror hnot
      rw [hresponse, servedResponse, httpSetStatus_snd] at hcode
      simp at hcode
    obtain ⟨-, path, hpath, hfound⟩ := hservable
    have hres := (looks_iff b hpath hfound).mp hlooks
    obtain ⟨-, hdeliver⟩ := httpSendResponse_whole_iff.mp ⟨_, _, hsend, hwhole⟩
    rw [hresponse, hres] at hdeliver
    exact ⟨hmethod, hcalloc, htype, path, hpath, hfound, hdeliver⟩
  · rintro ⟨hmethod, hcalloc, htype, path, hpath, hfound, hdeliver⟩
    have hlooks := (looks_iff b hpath hfound).mpr rfl
    have hhandle := handleHttpRequest_some_iff.mpr ⟨rfl, hmethod, _, hlooks, hcalloc, htype, rfl⟩
    obtain ⟨herr, sent, hsend, hwhole⟩ := httpSendResponse_whole_iff.mpr ⟨by simp [servedResponse], hdeliver⟩
    refine ⟨⟨servedResponse env.get.pushLength (foundView env.get path), herr, sent⟩, ?_, hwhole,
      fun hnot => absurd ⟨hmethod, path, hpath, hfound⟩ hnot⟩
    simp only [roundAnswer, hhandle, hsend]

/-- The loop stops with the first round that is no success. -/
theorem answerLoop_pop {b : Build} {envs : Nat → AnswerEnv} {fuel k : Nat} {herr : HttpErr}
    {c c' : ClientConn} {request : HttpRequest} (hpop : c.pop = .ok (some request, c')) :
    (answerLoop b envs (fuel + 1) k herr c).1 =
      match roundAnswer b (envs k) request with
      | none => []
      | some answer =>
        answer :: if answer.herr = .success then (answerLoop b envs fuel (k + 1) .success c').1
          else [] := by
  simp only [answerLoop, hpop, roundAnswer]
  cases hhandle : handleHttpRequest b (envs k).get request with
  | error e => rfl
  | ok p =>
    obtain ⟨code, response⟩ := p
    by_cases hcode : code = .success
    · subst hcode
      cases response with
      | none =>
        cases b with
        | debug => rfl
        | release => rfl
      | some response =>
        have hset : assert b .responseNotNull ((some response).isSome = true) = .ok () := assert_of rfl
        simp only [ne_eq, not_true_eq_false, if_false, hset]
        cases hsend : httpSendResponse (envs k).alloc (envs k).frame (envs k).write response with
        | error e => rfl
        | ok q =>
          obtain ⟨sentCode, sent⟩ := q
          by_cases hsent : sentCode = .success
          · simp [hsent]
          · simp [hsent]
    · simp [hcode]

/-- The nodes of a connection that are not released. -/
def ClientConn.live (c : ClientConn) : Nat := c.heap.countP Option.isSome

theorem getElem_of_deref {h : NodeHeap} {n : NodeId} {ctx : HttpParseCtx}
    (hderef : h.deref n = .ok ctx) : h[n]? = some (some ctx) := by
  unfold NodeHeap.deref at hderef
  split at hderef
  · rename_i found hget
    rw [hget, ← Except.ok.inj hderef]
  · simp at hderef

theorem pop_some_live {c c' : ClientConn} {request : HttpRequest}
    (h : c.pop = .ok (some request, c')) : c.live = c'.live + 1 := by
  obtain ⟨⟨popped, heap, beg⟩, hpop, h⟩ := bind_ok h
  simp only [pure, Except.pure, Except.ok.injEq, Prod.mk.injEq] at h
  obtain ⟨rfl, rfl⟩ := h
  unfold httpParsePopRequestAndRelease at hpop
  cases hhead : c.ctxBeg with
  | none => simp [hhead] at hpop
  | some n =>
    simp only [hhead] at hpop
    obtain ⟨ctx, hderef, hpop⟩ := bind_ok hpop
    split at hpop
    · simp [pure, Except.pure] at hpop
    · simp only [pure, Except.pure, Except.ok.injEq, Prod.mk.injEq] at hpop
      obtain ⟨-, rfl, -⟩ := hpop
      obtain ⟨hlt, hnode⟩ := List.getElem?_eq_some_iff.mp (getElem_of_deref hderef)
      have hone : (if Option.isSome c.heap[n] = true then 1 else 0) ≤ c.live :=
        List.boole_getElem_le_countP hlt
      rw [hnode, Option.isSome_some, if_pos rfl] at hone
      unfold ClientConn.live at hone ⊢
      simp only [NodeHeap.free, List.countP_set hlt, hnode, Option.isSome_some, Option.isSome_none,
        if_true, Bool.false_eq_true, if_false]
      omega

theorem Finished.length_le {c : ClientConn} {requests : List HttpRequest}
    (h : Finished c requests) : requests.length ≤ c.heap.length := by
  have hlive : requests.length ≤ c.live := by
    induction h with
    | done _ => exact Nat.zero_le _
    | more hpop _ ih =>
      rw [pop_some_live hpop, List.length_cons]
      omega
  exact Nat.le_trans hlive List.countP_le_length

theorem answeredFrom_cons {envs : Nat → AnswerEnv} {k : Nat} {request : HttpRequest}
    {requests : List HttpRequest} {answer : Answer} {answers : List Answer} :
    AnsweredFrom envs k (request :: requests) (answer :: answers) ↔
      answer.Answers (envs k) request ∧ AnsweredFrom envs (k + 1) requests answers := Iff.rfl

/-- The loop answers the finished requests, in order, exactly when each of them is served in
full. -/
theorem answerLoop_answered_iff {b : Build} {envs : Nat → AnswerEnv} {c : ClientConn}
    {requests : List HttpRequest} (hfinished : Finished c requests) {fuel k : Nat} (herr : HttpErr)
    (hfuel : requests.length < fuel) :
    AnsweredFrom envs k requests (answerLoop b envs fuel k herr c).1 ↔
      ∀ i request, requests[i]? = some request → ServedInFull (envs (k + i)) request := by
  induction hfinished generalizing fuel k herr with
  | done hpop =>
    cases fuel with
    | zero => simp at hfuel
    | succ fuel => simp [answerLoop, hpop, AnsweredFrom]
  | @more c c' request requests hpop hrest ih =>
    cases fuel with
    | zero => simp at hfuel
    | succ fuel =>
      have hrec : AnsweredFrom envs (k + 1) requests
          (answerLoop b envs fuel (k + 1) .success c').1 ↔
            ∀ i r, requests[i]? = some r → ServedInFull (envs (k + 1 + i)) r :=
        ih .success (by simpa using hfuel)
      have hshift : (∀ i r, (request :: requests)[i]? = some r → ServedInFull (envs (k + i)) r) ↔
          ServedInFull (envs k) request ∧
            ∀ i r, requests[i]? = some r → ServedInFull (envs (k + 1 + i)) r := by
        constructor
        · intro h
          refine ⟨h 0 request rfl, fun i r hi => ?_⟩
          have hnext := h (i + 1) r (by simpa using hi)
          rwa [← Nat.add_assoc, Nat.add_right_comm] at hnext
        · rintro ⟨hfirst, hothers⟩ i r hi
          cases i with
          | zero =>
            obtain rfl : request = r := by simpa using hi
            exact hfirst
          | succ i =>
            rw [← Nat.add_assoc, Nat.add_right_comm]
            exact hothers i r (by simpa using hi)
      rw [hshift, answerLoop_pop hpop, ← roundAnswer_iff b, ← hrec]
      cases hround : roundAnswer b (envs k) request with
      | none => simp [AnsweredFrom]
      | some answer =>
        by_cases hanswers : answer.Answers (envs k) request
        · have hsuccess := Sent.Whole.success (roundAnswer_some hround).2 hanswers.1
          simp only [hsuccess, if_true, answeredFrom_cons]
          exact and_congr_left fun _ => iff_of_true hanswers ⟨answer, rfl, hanswers⟩
        · simp only [answeredFrom_cons]
          apply iff_of_false (fun h => hanswers h.1)
          rintro ⟨⟨answer', hsome, hother⟩, -⟩
          rw [Option.some.injEq] at hsome
          exact hanswers (hsome ▸ hother)

def ReadEvent.with (event : ReadEvent) (handlers : Handlers HttpResponse) :
    ClientEvent HttpResponse :=
  ⟨event.reads, event.last, event.alloc, handlers, event.epollCtlOk⟩

/-- The requests an event finds finished: those at the head of the chain when it comes to the
loop, and none if it returns before. -/
def Pending (b : Build) (event : ReadEvent) (c : ClientConn) (requests : List HttpRequest) : Prop :=
  match arrive b event c with
  | .ok (.loop _ c') => Finished c' requests
  | _ => requests = []

/-- Every request an event finds finished gets one response, in order, exactly when each of them
is served in full. -/
theorem event_answered_iff {b : Build} {event : ReadEvent} {envs : Nat → AnswerEnv}
    {c : ClientConn} {requests : List HttpRequest} (h : Pending b event c requests) :
    AnsweredFrom envs 0 requests (answerClientFd b event envs c).1 ↔
      ∀ k request, requests[k]? = some request → ServedInFull (envs k) request := by
  unfold Pending at h
  unfold answerClientFd
  cases harrive : arrive b event c with
  | error e =>
    simp only [harrive] at h
    simp [h, AnsweredFrom]
  | ok arrival =>
    cases arrival with
    | ret herr c' =>
      simp only [harrive] at h
      simp [h, AnsweredFrom]
    | loop herr c' =>
      simp only [harrive] at h
      simp only [answerLoop_answered_iff h herr (Nat.lt_succ_of_le h.length_le), Nat.zero_add]

/-- A readable connection on which one request without headers arrived. -/
def requestEvent (line : Bytes) : ReadEvent :=
  ⟨[.data (line ++ [cr, lf, cr, lf]) true], .again, fun _ => true, true⟩

/-- The node that holds it, once it is parsed. -/
def endedCtx (line : Bytes) (method : HttpMethod) (path : Bytes) : HttpParseCtx where
  waitState := .parseEnd
  post := line ++ [cr, lf, cr, lf]
  postFullLength := line.length + 4
  cur := line.length + 4
  nextLine := line.length + 4
  requestLine := line
  headerList := []
  bodyType := .unset
  bodyLength := 0
  bodyCur := 0
  bodyView := []
  httpRequest := ⟨method, path, .ver11, [], []⟩
  nextCtx := none

theorem pending_ended {b : Build} {event : ReadEvent} {c : ClientConn} {herr : HttpErr}
    {line path : Bytes} {method : HttpMethod}
    (harrive : arrive b event c = .ok (.loop herr (.single (endedCtx line method path)))) :
    Pending b event c [⟨method, path, .ver11, [], []⟩] := by
  unfold Pending
  rw [harrive]
  exact .more (pop_ended rfl rfl) (.done rfl)

def getLine : Bytes := ascii "GET /index.html HTTP/1.1".toList

def hiEnv : AnswerEnv := ⟨fileEnv (ascii "hi".toList), fun _ => true, some fun _ => 50, some 200⟩

theorem hiEnv_servedInFull : ServedInFull hiEnv ⟨.get, fileRequest.path, .ver11, [], []⟩ := by
  have hpath : ∃ path, getAbsoluePath htmlRoot fileRequest.path = .ok (.success, path) := ⟨_, rfl⟩
  obtain ⟨path, hpath⟩ := hpath
  have hview : foundView hiEnv.get path = ⟨.mapped ⟨0, ascii "hi".toList⟩, 2⟩ := by
    have hmiss : resourceKey path ∉ (∅ : Table (Bytes × Nat)) := AList.notMem_empty _
    simp only [foundView, hiEnv, fileEnv, ResourceGetter.initial, hmiss, if_false]
    rfl
  refine ⟨rfl, rfl, rfl, path, hpath, ?_, ?_⟩
  · exact ⟨rfl, rfl, ∅, rfl, Or.inr ⟨AList.notMem_empty _, rfl, by decide, rfl, rfl⟩⟩
  · rw [hview]
    refine ⟨fun _ _ => rfl, read_servedResponse ⟨_, rfl⟩, appendable_of_lt (by decide), 200, rfl, ?_⟩
    decide

theorem getLine_answered :
    AnsweredFrom (fun _ => hiEnv) 0 [⟨.get, fileRequest.path, .ver11, [], []⟩]
      (answerClientFd .debug (requestEvent getLine) (fun _ => hiEnv) .new).1 := by
  have harrive : arrive .debug (requestEvent getLine) .new =
      .ok (.loop .success (.single (endedCtx getLine .get fileRequest.path))) := by decide +kernel
  apply (event_answered_iff (pending_ended harrive)).mpr
  intro k request hk
  cases k with
  | zero =>
    simp only [List.getElem?_cons_zero, Option.some.injEq] at hk
    rw [← hk]
    exact hiEnv_servedInFull
  | succ k => simp at hk

def headLine : Bytes := ascii "HEAD / HTTP/1.1".toList

/-- A HEAD request is popped and gets no answer. -/
theorem headLine_not_answered :
    Pending .release (requestEvent headLine) .new [⟨.head, [slash], .ver11, [], []⟩] ∧
      ∀ envs, ¬ AnsweredFrom envs 0 [⟨.head, [slash], .ver11, [], []⟩]
        (answerClientFd .release (requestEvent headLine) envs .new).1 := by
  have harrive : arrive .release (requestEvent headLine) .new =
      .ok (.loop .success (.single (endedCtx headLine .head [slash]))) := by decide +kernel
  have hpop : (ClientConn.single (endedCtx headLine .head [slash])).pop =
      .ok (some ⟨.head, [slash], .ver11, [], []⟩, .severed) := pop_ended rfl rfl
  refine ⟨pending_ended harrive, fun envs => ?_⟩
  simp only [answerClientFd, harrive, answerLoop_pop hpop, roundAnswer, handleHttpRequest]
  simp [AnsweredFrom]

end LiteHttp
