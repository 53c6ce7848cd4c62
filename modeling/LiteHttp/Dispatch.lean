import LiteHttp.Message
import LiteHttp.Resource

/-!
# Answering one request

`get_absolue_path` of socket_util.c and http_method_dispatch.c on top of it. The
resource table is shared with other threads, so a request brings the table it
finds along with the answers it gets.
-/

namespace LiteHttp

set_option autoImplicit false

def slash : Byte := 47

/-- What `get_absolue_path` finds and is answered; the allocator's answers to its
appends are numbered. -/
structure PathEnv where
  getcwd : Option Bytes
  baseDir : Bytes
  initOk : Bool
  alloc : Nat → Bool

/-- `get_absolue_path`. No append is looked at. -/
def getAbsoluePath (env : PathEnv) (post : Bytes) : Except Fault (HttpErr × Bytes) :=
  match env.getcwd with
  | none => .ok (.getcwd, [])
  | some buf => do
    let (ok, path) ← stringInitFromStringView env.initOk (toCstr buf)
    if !ok then return (.malloc, path)
    else
      let (_, path) ← stringAppendView (env.alloc 0) path [slash]
      let (_, path) ← stringAppendView (env.alloc 1) path env.baseDir
      let (_, path) ← stringAppendView (env.alloc 2) path [slash]
      let (_, path) ← stringAppendView (env.alloc 3) path post
      return (.success, path)

structure GetEnv where
  path : PathEnv
  getter : ResourceGetter (Bytes × Nat)
  lookup : LazyEnv
  callocOk : Bool
  pushType : Bool
  pushLength : Bool

/-- `snprintf` of a size into `numbuf[16]`. -/
def numbuf (n : Nat) : Bytes := (decimal n).take 15

def htmlType : Bytes := ascii "text/html; charset=UTF-8".toList

/-- `http_method_get_handler` once it has the resource. The Content-Length header is a
view of `numbuf`, which is gone when the handler returns. -/
def okResponse (env : GetEnv) (status : HttpStatus) (htmlPost : ResView) :
    Except Fault (HttpErr × Option HttpResponse) :=
  match httpResponseNew env.callocOk with
  -- the status is written before the code is looked at
  | (_, none) => .error .undefined
  | (_, some response) =>
    let response := { response with status := status }
    let (herr, response) :=
      httpResponseAddHeader env.pushType response .contentType (.live htmlType)
    if herr ≠ .success then .ok (herr, none)
    else
      let (_, response) := httpResponseAddHeader env.pushLength response .contentLength
        (.deadFrame (numbuf htmlPost.len).length)
      .ok (.success, some { response with body := htmlPost.toView })

/-- `http_method_get_handler`: the code and `*res`. -/
def httpMethodGetHandler (b : Build) (env : GetEnv) (request : HttpRequest) :
    Except Fault (HttpErr × Option HttpResponse) := do
  assert b .getMethod (request.method = .get)
  let (herr, path) ← getAbsoluePath env.path request.path
  if herr ≠ .success then return (herr, none)
  else
    let (result, _) ← getResourceCached b env.getter (resourceKey path) ⟨.null, 0⟩ env.lookup
    if result.herr ≠ .success then return (result.herr, none)
    else
      let (herr, status) := httpSetStatus 200
      if herr ≠ .success then return (herr, none)
      else okResponse env status result.res

/-- `handle_http_request`. What the handler returns is dropped. -/
def handleHttpRequest (b : Build) (env : GetEnv) (request : HttpRequest) :
    Except Fault (HttpErr × Option HttpResponse) :=
  match request.method with
  | .get => do
    let (_, res) ← httpMethodGetHandler b env request
    return (.success, res)
  | _ => .ok (.requestUnkownMethod, none)

/-- The response of a GET that went well, with the view the lookup left. -/
def servedResponse (pushLength : Bool) (res : ResView) : HttpResponse where
  method := .get
  version := .ver10
  status := (httpSetStatus 200).2
  headerList := ⟨.contentType, .live htmlType⟩ ::
    if pushLength then [⟨.contentLength, .deadFrame (numbuf res.len).length⟩] else []
  body := res.toView

/-- The lookup of a request's resource succeeds and leaves this view. -/
def Looks (b : Build) (env : GetEnv) (request : HttpRequest) (res : ResView) : Prop :=
  ∃ path result getter, getAbsoluePath env.path request.path = .ok (.success, path) ∧
    getResourceCached b env.getter (resourceKey path) ⟨.null, 0⟩ env.lookup = .ok (result, getter) ∧
    result.herr = .success ∧ result.res = res

/-- What an append of `get_absolue_path` adds. -/
def PathEnv.kept (env : PathEnv) (n : Nat) (piece : Bytes) : Bytes :=
  if env.alloc n then piece else []

theorem append_kept {env : PathEnv} {n : Nat} {s piece : Bytes} {r : Bool × Bytes}
    (h : stringAppendView (env.alloc n) s piece = .ok r) : r.2 = s ++ env.kept n piece := by
  unfold PathEnv.kept
  rcases stringAppendView_ok h with ⟨hok, rfl, -⟩ | ⟨hno, rfl⟩
  · simp [hok]
  · simp [hno]

theorem getAbsoluePath_ok {env : PathEnv} {post path : Bytes}
    (h : getAbsoluePath env post = .ok (.success, path)) :
    ∃ buf, env.getcwd = some buf ∧
      path = toCstr buf ++ env.kept 0 [slash] ++ env.kept 1 env.baseDir ++ env.kept 2 [slash] ++
        env.kept 3 post := by
  unfold getAbsoluePath at h
  cases hcwd : env.getcwd with
  | none => simp [hcwd] at h
  | some buf =>
    refine ⟨buf, rfl, ?_⟩
    simp only [hcwd] at h
    obtain ⟨⟨ok, start⟩, hinit, h⟩ := bind_ok h
    cases ok with
    | false => simp [pure, Except.pure] at h
    | true =>
      have hstart : start = toCstr buf := by
        rcases stringInitFromStringView_cases env.initOk (toCstr buf) with hc | ⟨-, hc⟩ | ⟨-, -, hc⟩
        · simp [hc] at hinit
        · rw [hc, Except.ok.injEq, Prod.mk.injEq] at hinit
          exact hinit.2.symm
        · simp [hc] at hinit
      obtain ⟨r₀, h₀, h⟩ := bind_ok h
      obtain ⟨r₁, h₁, h⟩ := bind_ok h
      obtain ⟨r₂, h₂, h⟩ := bind_ok h
      obtain ⟨r₃, h₃, h⟩ := bind_ok h
      simp only [pure, Except.pure, Except.ok.injEq, Prod.mk.injEq, true_and] at h
      rw [← h, append_kept h₃, append_kept h₂, append_kept h₁, append_kept h₀, hstart]

theorem okResponse_some_iff {env : GetEnv} {res : ResView} {herr : HttpErr}
    {response : HttpResponse} :
    okResponse env (httpSetStatus 200).2 res = .ok (herr, some response) ↔
      herr = .success ∧ env.callocOk = true ∧ env.pushType = true ∧
        response = servedResponse env.pushLength res := by
  unfold okResponse httpResponseNew
  cases env.callocOk with
  | false => simp
  | true =>
    cases env.pushType with
    | false => simp [httpResponseAddHeader]
    | true =>
      cases env.pushLength with
      | false => simp [httpResponseAddHeader, servedResponse, eq_comm]
      | true => simp [httpResponseAddHeader, servedResponse, eq_comm]

/-- A response comes only from a lookup that went well and memory for it and its first header. -/
theorem httpMethodGetHandler_ok {b : Build} {env : GetEnv} {request : HttpRequest} {herr : HttpErr}
    {response : HttpResponse} (h : httpMethodGetHandler b env request = .ok (herr, some response)) :
    herr = .success ∧ ∃ res, Looks b env request res ∧ env.callocOk = true ∧ env.pushType = true ∧
      response = servedResponse env.pushLength res := by
  unfold httpMethodGetHandler at h
  obtain ⟨-, -, h⟩ := bind_ok h
  obtain ⟨⟨code, path⟩, hpath, h⟩ := bind_ok h
  by_cases hbuilt : code = .success
  · subst hbuilt
    simp only [ne_eq, not_true_eq_false, if_false] at h
    obtain ⟨⟨result, getter⟩, hlook, h⟩ := bind_ok h
    by_cases hfound : result.herr = .success
    · simp only [hfound, not_true_eq_false, if_false] at h
      have hok : okResponse env (httpSetStatus 200).2 result.res = .ok (herr, some response) := h
      obtain ⟨hherr, hresponse⟩ := okResponse_some_iff.mp hok
      exact ⟨hherr, result.res, ⟨path, result, getter, hpath, hlook, hfound, rfl⟩, hresponse⟩
    · simp [hfound, pure, Except.pure] at h
  · simp [hbuilt, pure, Except.pure] at h

theorem httpMethodGetHandler_of_looks {b : Build} {env : GetEnv} {request : HttpRequest}
    {res : ResView} (hmethod : request.method = .get) (hlooks : Looks b env request res)
    (hcalloc : env.callocOk = true) (htype : env.pushType = true) :
    httpMethodGetHandler b env request =
      .ok (.success, some (servedResponse env.pushLength res)) := by
  obtain ⟨path, result, getter, hpath, hlook, hfound, rfl⟩ := hlooks
  have hok : okResponse env (httpSetStatus 200).2 result.res =
      .ok (.success, some (servedResponse env.pushLength result.res)) :=
    okResponse_some_iff.mpr ⟨rfl, hcalloc, htype, rfl⟩
  unfold httpMethodGetHandler
  simp only [assert_of hmethod, hpath, hlook, hfound, bind, Except.bind, ne_eq, not_true_eq_false,
    if_false]
  exact hok

/-- A request is answered by a response exactly when it is a GET whose lookup goes well, with
memory for the response and its first header. -/
theorem handleHttpRequest_some_iff {b : Build} {env : GetEnv} {request : HttpRequest}
    {herr : HttpErr} {response : HttpResponse} :
    handleHttpRequest b env request = .ok (herr, some response) ↔
      herr = .success ∧ request.method = .get ∧ ∃ res, Looks b env request res ∧
        env.callocOk = true ∧ env.pushType = true ∧
          response = servedResponse env.pushLength res := by
  constructor
  · intro h
    unfold handleHttpRequest at h
    split at h
    · rename_i hmethod
      obtain ⟨⟨code, made⟩, hhandler, h⟩ := bind_ok h
      simp only [pure, Except.pure, Except.ok.injEq, Prod.mk.injEq] at h
      obtain ⟨rfl, rfl⟩ := h
      exact ⟨rfl, hmethod, (httpMethodGetHandler_ok hhandler).2⟩
    · simp at h
  · rintro ⟨rfl, hmethod, res, hlooks, hcalloc, htype, rfl⟩
    have hhandler := httpMethodGetHandler_of_looks hmethod hlooks hcalloc htype
    simp only [handleHttpRequest, hmethod, hhandler, bind, Except.bind, pure, Except.pure]

/-- The view of a lookup that went well covers what it says it covers. -/
theorem Looks.len {b : Build} {env : GetEnv} {request : HttpRequest} {res : ResView}
    (h : Looks b env request res) : res.toView.len = res.len := by
  obtain ⟨path, result, getter, -, hlook, -, rfl⟩ := h
  rcases getResourceLazy_ok hlook with ⟨hres, -⟩ | ⟨-, -, opened, resmem, -, -, hopen, -, hres, -⟩
  · rw [hres]
    rfl
  · rw [hres]
    have hmem : resmem = (openResource env.lookup.opened env.getter.mapped .zero).2 := by rw [hopen]
    rw [hmem]
    cases env.lookup.opened with
    | openFails => rfl
    | fstatFails => rfl
    | file content mmapOk =>
      simp only [openResource]
      split
      · simp [MappedMemory.view, stringViewFromParts, ResView.toView, View.len]
      · simp [MappedMemory.view, stringViewFromParts, ResView.toView, View.len]

/-- A lookup that can map its file shows no failed mapping. -/
theorem Looks.not_failed {b : Build} {env : GetEnv} {request : HttpRequest} {res : ResView}
    (h : Looks b env request res) (hopens : env.lookup.opened.Opens) : res.data ≠ .failed := by
  obtain ⟨path, result, getter, -, hlook, -, rfl⟩ := h
  rcases getResourceLazy_ok hlook with ⟨hres, -⟩ | ⟨-, -, opened, resmem, -, -, hopen, -, hres, -⟩
  · rw [hres]
    exact nofun
  · rcases openResource_data env.lookup.opened env.getter.mapped with ⟨-, content, hdata⟩ | ⟨hno, -⟩
    · have hmem : resmem = ⟨content.length, .mapped ⟨env.getter.mapped, content⟩⟩ := by
        rw [← hdata, hopen]
      rw [hres, hmem]
      exact nofun
    · exact absurd hopens hno

/-- The head of a response of the GET handler is short. -/
theorem textLength_servedResponse_le (pushLength : Bool) (res : ResView) :
    (servedResponse pushLength res).textLength ≤ res.toView.len + 128 := by
  have hdigits : (numbuf res.len).length ≤ 15 := by
    rw [numbuf, List.length_take]
    exact Nat.min_le_left _ _
  have htable : (httpGetVersionSv .ver10).length = 8 ∧ (httpGetStatusSv 200).length = 3 ∧
      (httpGetStatusMsg 200).length = 2 ∧ htmlType.length = 24 ∧
      (httpGetHeaderFieldSv .contentType).length = 12 ∧
      (httpGetHeaderFieldSv .contentLength).length = 14 := by decide
  obtain ⟨hversion, hstatus, hmessage, hhtml, htype, hlength⟩ := htable
  cases pushLength with
  | false =>
    simp only [HttpResponse.textLength, servedResponse, HttpResponse.pieces, ResponseHeader.pieces,
      crlf, httpSetStatus_snd, View.len, Bool.false_eq_true, if_false, List.flatMap_cons,
      List.flatMap_nil, List.cons_append, List.nil_append, List.map_cons, List.map_nil,
      List.sum_cons, List.sum_nil, List.length_cons, List.length_nil, hversion, hstatus, hmessage,
      hhtml, htype, ← Nat.add_assoc, Nat.zero_add, Nat.reduceAdd]
    clear hversion hstatus hmessage hhtml htype hlength hdigits
    omega
  | true =>
    simp only [HttpResponse.textLength, servedResponse, HttpResponse.pieces, ResponseHeader.pieces,
      crlf, httpSetStatus_snd, View.len, if_true, List.flatMap_cons,
      List.flatMap_nil, List.cons_append, List.nil_append, List.map_cons, List.map_nil,
      List.sum_cons, List.sum_nil, List.length_cons, List.length_nil, hversion, hstatus, hmessage,
      hhtml, htype, hlength, ← Nat.add_assoc, Nat.zero_add, Nat.reduceAdd]
    generalize (numbuf res.len).length = k at hdigits ⊢
    clear hversion hstatus hmessage hhtml htype hlength
    omega

/-- While a read of the dead frame finds something, what reads the body reads the response. -/
theorem read_servedResponse {byte : Nat → Byte} {pushLength : Bool} {res : ResView}
    (hbody : ∃ bytes, res.toView.read (some byte) = .ok bytes) :
    ∀ view ∈ (servedResponse pushLength res).pieces, ∃ bytes, view.read (some byte) = .ok bytes := by
  intro view hview
  cases view with
  | live bytes => exact ⟨bytes, rfl⟩
  | deadFrame len => exact ⟨_, rfl⟩
  | mapFailed len =>
    have hres : View.mapFailed len = res.toView := by
      cases pushLength with
      | false =>
        simpa [servedResponse, HttpResponse.pieces, ResponseHeader.pieces, crlf,
          httpSetStatus_snd] using hview
      | true =>
        simpa [servedResponse, HttpResponse.pieces, ResponseHeader.pieces, crlf,
          httpSetStatus_snd] using hview
    rwa [hres]

def htmlRoot : PathEnv :=
  ⟨some (ascii "/srv".toList), ascii "./res".toList, true, fun _ => true⟩

/-- A request for a file that is there, with every call going well. -/
def fileEnv (content : Bytes) : GetEnv where
  path := htmlRoot
  getter := .initial
  lookup := ⟨true, true, .file content true, true, true, true⟩
  callocOk := true
  pushType := true
  pushLength := true

def fileRequest : HttpRequest := { HttpRequest.new with path := ascii "/index.html".toList }

theorem fileEnv_looks (b : Build) {content : Bytes} (hne : content ≠ []) :
    Looks b (fileEnv content) fileRequest ⟨.mapped ⟨0, content⟩, content.length⟩ := by
  have hpath : ∃ path, getAbsoluePath htmlRoot fileRequest.path = .ok (.success, path) := ⟨_, rfl⟩
  obtain ⟨path, hpath⟩ := hpath
  let call : LazyCall (Bytes × Nat) := ⟨resourceKey path, false, ⟨.null, 0⟩, (fileEnv content).lookup⟩
  obtain ⟨r, getter', hlook, hherr, hres⟩ :=
    getResourceLazy_file b .initial call rfl (AList.notMem_empty _) rfl hne
  exact ⟨path, r, getter', hpath, hlook, hherr, hres⟩

end LiteHttp
