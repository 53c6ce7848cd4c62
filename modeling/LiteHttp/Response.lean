import LiteHttp.HttpTypes

/-!
# Responses and their text

`http_response_t`, the tables a response is written from, and
`http_response_to_string`. A response holds views, and a view may outlive what
it points to, so it is read only where the source reads it.
-/

namespace LiteHttp

set_option autoImplicit false

/-- A `string_view_t` by the memory it points into. -/
inductive View where
  | live (bytes : Bytes)
  /-- The first bytes of an automatic array whose function has returned. -/
  | deadFrame (len : Nat)
  /-- MAP_FAILED with the length that was asked for. -/
  | mapFailed (len : Nat)
  deriving DecidableEq, Repr

def View.len : View → Nat
  | .live bytes => bytes.length
  | .deadFrame len => len
  | .mapFailed len => len

/-- What a read of a returned frame finds: bytes that nobody promised, or
nothing C gives a meaning to. -/
abbrev Frame := Option (Nat → Byte)

def View.read (frame : Frame) : View → Except Fault Bytes
  | .live bytes => .ok bytes
  | .deadFrame len =>
    match frame with
    | some byte => .ok ((List.range len).map byte)
    | none => .error .undefined
  | .mapFailed len => if len = 0 then .ok [] else .error .undefined

structure HttpStatus where
  code : Int
  message : View
  deriving DecidableEq, Repr

/-- An `http_header_t` of a response: nothing writes its other fields. -/
structure ResponseHeader where
  field : HttpHeaderField
  valueSv : View
  deriving DecidableEq, Repr

structure HttpResponse where
  method : HttpMethod
  version : HttpVersion
  status : HttpStatus
  headerList : List ResponseHeader
  body : View
  deriving DecidableEq, Repr

/-- `http_response_new`; calloc zeroes the enumerators. -/
def httpResponseNew (callocOk : Bool) : HttpErr × Option HttpResponse :=
  if callocOk then (.success, some ⟨.get, .ver10, ⟨0, .live []⟩, [], .live []⟩) else (.malloc, none)

def httpResponseAddHeader (pushOk : Bool) (response : HttpResponse) (key : HttpHeaderField)
    (value : View) : HttpErr × HttpResponse :=
  if pushOk then (.success, { response with headerList := response.headerList ++ [⟨key, value⟩] })
  else (.malloc, response)

/-- http_status.def. -/
def httpStatusDef : List (Int × Bytes) :=
  [(100, ascii "Continue".toList), (101, ascii "Switching Protocols".toList),
   (102, ascii "Processing".toList), (103, ascii "Early Hints".toList),
   (200, ascii "OK".toList), (201, ascii "Created".toList), (202, ascii "Accepted".toList),
   (203, ascii "Non-Authoritative Information".toList), (204, ascii "No Content".toList),
   (205, ascii "Reset Content".toList), (206, ascii "Partial Content".toList),
   (207, ascii "Multi-Status".toList), (208, ascii "Already Reported".toList),
   (226, ascii "IM Used".toList),
   (300, ascii "Multiple Choices".toList), (301, ascii "Moved Permanently".toList),
   (302, ascii "Found".toList), (303, ascii "See Other".toList),
   (304, ascii "Not Modified".toList), (305, ascii "Use Proxy".toList),
   (307, ascii "Temporary Redirect".toList), (308, ascii "Permanent Redirect".toList),
   (400, ascii "Bad Request".toList), (401, ascii "Unauthorized".toList),
   (402, ascii "Payment Required".toList), (403, ascii "Forbidden".toList),
   (404, ascii "Not Found".toList), (405, ascii "Method Not Allowed".toList),
   (406, ascii "Not Acceptable".toList), (407, ascii "Proxy Authentication Required".toList),
   (408, ascii "Request Timeout".toList), (409, ascii "Conflict".toList),
   (410, ascii "Gone".toList), (411, ascii "Length Required".toList),
   (412, ascii "Precondition Failed".toList), (413, ascii "Payload Too Large".toList),
   (414, ascii "URI Too Long".toList), (415, ascii "Unsupported Media Type".toList),
   (416, ascii "Range Not Satisfiable".toList), (417, ascii "Expectation Failed".toList),
   (418, ascii "I'm a Teapot".toList), (421, ascii "Misdirected Request".toList),
   (422, ascii "Unprocessable Entity".toList), (423, ascii "Locked".toList),
   (424, ascii "Failed Dependency".toList), (425, ascii "Too Early".toList),
   (426, ascii "Upgrade Required".toList), (428, ascii "Precondition Required".toList),
   (429, ascii "Too Many Requests".toList),
   (431, ascii "Request Header Fields Too Large".toList),
   (451, ascii "Unavailable For Legal Reasons".toList),
   (500, ascii "Internal Server Error".toList), (501, ascii "Not Implemented".toList),
   (502, ascii "Bad Gateway".toList), (503, ascii "Service Unavailable".toList),
   (504, ascii "Gateway Timeout".toList), (505, ascii "HTTP Version Not Supported".toList),
   (506, ascii "Variant Also Negotiates".toList), (507, ascii "Insufficient Storage".toList),
   (508, ascii "Loop Detected".toList), (510, ascii "Not Extended".toList),
   (511, ascii "Network Authentication Required".toList)]

def httpGetStatusMsg (code : Int) : Bytes :=
  match httpStatusDef.find? fun e => e.1 = code with
  | some e => e.2
  | none => []

def httpSetStatus (code : Int) : HttpErr × HttpStatus :=
  let status := ⟨code, .live (httpGetStatusMsg code)⟩
  if httpGetStatusMsg code = [] then (.getUnkownStatus, status) else (.success, status)

/-- The string `http_get_status_sv` leaves in a zeroed buffer. -/
def httpGetStatusSv (code : Int) : Bytes :=
  if 600 < code ∨ code < 100 then []
  else
    let n := code.toNat
    [UInt8.ofNat (n / 100 + 48), UInt8.ofNat (n / 10 % 10 + 48), UInt8.ofNat (n % 10 + 48)]

def httpGetVersionSv : HttpVersion → Bytes
  | .ver10 => ascii ['H', 'T', 'T', 'P', '/', '1', '.', '0']
  | .ver11 => ascii ['H', 'T', 'T', 'P', '/', '1', '.', '1']
  | .ver20 => ascii ['H', 'T', 'T', 'P', '/', '2', '.', '0']
  | .ver30 => ascii ['H', 'T', 'T', 'P', '/', '3', '.', '0']
  | .unkown => []

def httpGetHeaderFieldSv (field : HttpHeaderField) : Bytes :=
  match httpHdrDef.find? fun e => e.1 = field with
  | some e => e.2
  | none => []

/-- The string a response is written to. The source looks at no answer of an
append; `complete` keeps whether all of them succeeded. -/
structure Draft where
  post : Bytes
  appends : Nat
  complete : Bool
  deriving DecidableEq, Repr

def Draft.empty : Draft := ⟨[], 0, true⟩

/-- One append. The view is read once the memory is there. -/
def Draft.append (alloc : Nat → Bool) (frame : Frame) (draft : Draft) (view : View) :
    Except Fault Draft := do
  let ok := alloc draft.appends
  let sv ← if ok then view.read frame else pure (List.replicate view.len 0)
  let (ok, post) ← stringAppendView ok draft.post sv
  return ⟨post, draft.appends + 1, draft.complete && ok⟩

def crlf : View := .live [cr, lf]

/-- `http_response_to_string`; the answers of the allocator are numbered by append. -/
def httpResponseToString (alloc : Nat → Bool) (frame : Frame) (rep : HttpResponse) :
    Except Fault (HttpErr × Draft) := do
  let post := Draft.empty
  let sv := httpGetVersionSv rep.version
  if sv = [] then return (.getUnkownVersion, post)
  else
    let post ← post.append alloc frame (.live sv)
    let post ← post.append alloc frame (.live [space])
    let post ← post.append alloc frame (.live (httpGetStatusSv rep.status.code))
    let post ← post.append alloc frame (.live [space])
    let post ← post.append alloc frame rep.status.message
    let post ← post.append alloc frame crlf
    let post ← rep.headerList.foldlM (fun post header => do
      let post ← post.append alloc frame (.live (httpGetHeaderFieldSv header.field))
      let post ← post.append alloc frame (.live [colon, space])
      let post ← post.append alloc frame header.valueSv
      post.append alloc frame crlf) post
    let post ← post.append alloc frame crlf
    let post ← post.append alloc frame rep.body
    let post ← post.append alloc frame crlf
    return (.success, post)

def ResponseHeader.pieces (header : ResponseHeader) : List View :=
  [.live (httpGetHeaderFieldSv header.field), .live [colon, space], header.valueSv, crlf]

/-- What is appended, in order. -/
def HttpResponse.pieces (rep : HttpResponse) : List View :=
  [.live (httpGetVersionSv rep.version), .live [space], .live (httpGetStatusSv rep.status.code),
    .live [space], rep.status.message, crlf] ++
  (rep.headerList.flatMap ResponseHeader.pieces ++ [crlf, rep.body, crlf])

def HttpResponse.textLength (rep : HttpResponse) : Nat := (rep.pieces.map View.len).sum

/-- The whole text of a response. -/
def HttpResponse.text (frame : Frame) (rep : HttpResponse) : Except Fault Bytes := do
  let pieces ← rep.pieces.mapM (View.read frame)
  return pieces.flatten

theorem httpGetVersionSv_eq_nil_iff {version : HttpVersion} :
    httpGetVersionSv version = [] ↔ version = .unkown := by cases version <;> decide

theorem httpGetHeaderFieldSv_match {e : HttpHeaderField × Bytes} (he : e ∈ httpHdrDef) :
    httpGetHeaderFieldSv e.1 = e.2 ∧ httpMatchHeaderField e.2 = e.1 := by
  have htable : ∀ e ∈ httpHdrDef,
      httpGetHeaderFieldSv e.1 = e.2 ∧ httpMatchHeaderField e.2 = e.1 := by decide +kernel
  exact htable e he

theorem foldlM_pieces (alloc : Nat → Bool) (frame : Frame) (headers : List ResponseHeader)
    (post : Draft) :
    headers.foldlM (fun post header => do
      let post ← post.append alloc frame (.live (httpGetHeaderFieldSv header.field))
      let post ← post.append alloc frame (.live [colon, space])
      let post ← post.append alloc frame header.valueSv
      post.append alloc frame crlf) post =
    (headers.flatMap ResponseHeader.pieces).foldlM (Draft.append alloc frame) post := by
  induction headers generalizing post with
  | nil => rfl
  | cons header headers ih =>
    simp only [List.foldlM_cons, List.flatMap_cons, List.foldlM_append, ResponseHeader.pieces,
      List.foldlM_nil, bind_assoc, bind_pure, ih]

/-- The serialiser is one append after another. -/
theorem httpResponseToString_eq (alloc : Nat → Bool) (frame : Frame) (rep : HttpResponse) :
    httpResponseToString alloc frame rep =
      if rep.version = .unkown then .ok (.getUnkownVersion, .empty)
      else do
        let post ← rep.pieces.foldlM (Draft.append alloc frame) .empty
        return (.success, post) := by
  unfold httpResponseToString
  simp only [httpGetVersionSv_eq_nil_iff, foldlM_pieces, HttpResponse.pieces, List.foldlM_append,
    List.foldlM_cons, List.foldlM_nil, bind_assoc, bind_pure]
  rfl

/-- A serialisation that succeeds has appended every piece. -/
theorem httpResponseToString_success {alloc : Nat → Bool} {frame : Frame} {rep : HttpResponse}
    {post : Draft} (h : httpResponseToString alloc frame rep = .ok (.success, post)) :
    rep.pieces.foldlM (Draft.append alloc frame) .empty = .ok post := by
  rw [httpResponseToString_eq] at h
  split at h
  · simp at h
  · obtain ⟨last, hlast, h⟩ := bind_ok h
    simp only [pure, Except.pure, Except.ok.injEq, Prod.mk.injEq, true_and] at h
    rw [hlast, h]

theorem HttpResponse.textLength_pos (rep : HttpResponse) : 0 < rep.textLength := by
  simp only [HttpResponse.textLength, HttpResponse.pieces, List.cons_append, List.nil_append,
    List.map_cons, List.sum_cons, View.len, List.length_cons, List.length_nil]
  omega

@[simp] theorem View.read_live (frame : Frame) (bytes : Bytes) :
    (View.live bytes).read frame = .ok bytes := rfl

theorem httpSetStatus_snd (code : Int) :
    (httpSetStatus code).2 = ⟨code, .live (httpGetStatusMsg code)⟩ := by
  unfold httpSetStatus
  simp only
  split <;> rfl

theorem View.length_of_read {frame : Frame} {view : View} {bytes : Bytes}
    (h : view.read frame = .ok bytes) : bytes.length = view.len := by
  cases view with
  | live b =>
    simp only [View.read, Except.ok.injEq] at h
    rw [← h, View.len]
  | deadFrame len =>
    cases frame with
    | none => simp [View.read] at h
    | some byte =>
      simp only [View.read, Except.ok.injEq] at h
      rw [← h, List.length_map, List.length_range, View.len]
  | mapFailed len =>
    simp only [View.read] at h
    split at h
    · rename_i hlen
      simp only [Except.ok.injEq] at h
      rw [← h, View.len, hlen, List.length_nil]
    · simp at h

/-- What an append that returns has done. -/
theorem Draft.append_ok {alloc : Nat → Bool} {frame : Frame} {draft post : Draft} {view : View}
    (h : draft.append alloc frame view = .ok post) :
    post.appends = draft.appends + 1 ∧
    ((alloc draft.appends = true ∧ post.complete = draft.complete ∧
        ∃ bytes, view.read frame = .ok bytes ∧ post.post = draft.post ++ bytes) ∨
      (alloc draft.appends = false ∧ post.complete = false ∧ post.post = draft.post)) := by
  unfold Draft.append at h
  cases hok : alloc draft.appends with
  | true =>
    simp only [hok, if_true] at h
    obtain ⟨bytes, hread, h⟩ := bind_ok h
    obtain ⟨r, happend, h⟩ := bind_ok h
    rcases stringAppendView_ok happend with ⟨-, rfl, -⟩ | ⟨hfalse, -⟩
    · obtain rfl := pure_ok.mp h
      exact ⟨rfl, Or.inl ⟨rfl, by simp, bytes, hread, rfl⟩⟩
    · simp at hfalse
  | false =>
    simp only [hok, Bool.false_eq_true, if_false] at h
    obtain ⟨bytes, hbytes, h⟩ := bind_ok h
    obtain ⟨r, happend, h⟩ := bind_ok h
    rcases stringAppendView_ok happend with ⟨htrue, -⟩ | ⟨-, rfl⟩
    · simp at htrue
    · obtain rfl := pure_ok.mp h
      exact ⟨rfl, Or.inr ⟨rfl, by simp, rfl⟩⟩

/-- The appends of a list of views: either all of them succeeded, and the text is there, or
one of the answers they took was a no. -/
theorem Draft.foldlM_append_ok {alloc : Nat → Bool} {frame : Frame} {views : List View}
    {draft post : Draft} (h : views.foldlM (Draft.append alloc frame) draft = .ok post) :
    (post.complete = true ↔ draft.complete = true ∧
      ∀ i, draft.appends ≤ i → i < draft.appends + views.length → alloc i = true) ∧
    (post.complete = true → ∃ pieces, views.mapM (View.read frame) = .ok pieces ∧
      post.post = draft.post ++ pieces.flatten) := by
  induction views generalizing draft with
  | nil =>
    simp only [List.foldlM_nil, pure, Except.pure, Except.ok.injEq] at h
    subst h
    refine ⟨?_, fun _ => ⟨[], rfl, by simp⟩⟩
    simp only [List.length_nil, Nat.add_zero, iff_self_and]
    intro _ i hle hlt
    omega
  | cons view views ih =>
    rw [List.foldlM_cons] at h
    obtain ⟨next, hstep, h⟩ := bind_ok h
    obtain ⟨hcomplete, htext⟩ := ih h
    obtain ⟨hcount, ⟨hok, hkeep, bytes, hread, hpost⟩ | ⟨hno, hlost, -⟩⟩ := Draft.append_ok hstep
    · constructor
      · rw [hcomplete, hkeep, hcount]
        apply and_congr_right
        intro _
        constructor
        · intro hall i hle hlt
          by_cases hi : i = draft.appends
          · rw [hi, hok]
          · exact hall i (by omega) (by simp only [List.length_cons] at hlt; omega)
        · intro hall i hle hlt
          exact hall i (by omega) (by simp only [List.length_cons]; omega)
      · intro hdone
        obtain ⟨pieces, hpieces, hrest⟩ := htext hdone
        refine ⟨bytes :: pieces, by simp [hread, hpieces, bind, Except.bind, pure, Except.pure], ?_⟩
        rw [hrest, hpost, List.flatten_cons, List.append_assoc]
    · have hnot : post.complete ≠ true := by
        intro hdone
        simpa [hlost] using (hcomplete.mp hdone).1
      refine ⟨iff_of_false hnot ?_, fun hdone => absurd hdone hnot⟩
      rintro ⟨-, hall⟩
      have := hall draft.appends (Nat.le_refl _) (by simp)
      simp [hno] at this

/-- Lengths that can be appended one after another. -/
def Appendable : Nat → List Nat → Prop
  | _, [] => True
  | old, len :: lens => Storable (old + len) ∧ old < 2 ^ 31 ∧ Appendable (old + len) lens

theorem appendable_of_lt {old : Nat} {lens : List Nat} (h : old + lens.sum < 2 ^ 30) :
    Appendable old lens := by
  induction lens generalizing old with
  | nil => trivial
  | cons len lens ih =>
    rw [List.sum_cons] at h
    exact ⟨storable_of_lt (by omega), by omega, ih (by omega)⟩

/-- With all the memory it asks for, a list of views is appended exactly when each
can be read and the lengths can be stored. -/
theorem Draft.foldlM_append_iff {alloc : Nat → Bool} {frame : Frame} {views : List View}
    {draft : Draft} (halloc : ∀ i, draft.appends ≤ i → i < draft.appends + views.length → alloc i = true) :
    (∃ post, views.foldlM (Draft.append alloc frame) draft = .ok post) ↔
      (∀ view ∈ views, ∃ bytes, view.read frame = .ok bytes) ∧
        Appendable draft.post.length (views.map View.len) := by
  induction views generalizing draft with
  | nil => simp [Appendable, pure, Except.pure]
  | cons view views ih =>
    have hok : alloc draft.appends = true := halloc _ (Nat.le_refl _) (by simp)
    rw [List.foldlM_cons, List.forall_mem_cons, List.map_cons, Appendable]
    cases hread : view.read frame with
    | error e => simp [Draft.append, hok, hread, bind, Except.bind]
    | ok bytes =>
      rw [← View.length_of_read hread]
      by_cases hstore : Storable (draft.post.length + bytes.length) ∧ draft.post.length < 2 ^ 31
      · have happend := stringAppendView_true hstore.1 hstore.2
        have hstep : draft.append alloc frame view =
            .ok ⟨draft.post ++ bytes, draft.appends + 1, draft.complete⟩ := by
          simp [Draft.append, hok, hread, happend, bind, Except.bind, pure, Except.pure]
        have hrest := @ih ⟨draft.post ++ bytes, draft.appends + 1, draft.complete⟩ (by
          intro i hle hlt
          simp only at hle hlt
          exact halloc i (by omega) (by simp only [List.length_cons]; omega))
        rw [hstep]
        simp only [bind, Except.bind, hrest, List.length_append]
        exact ⟨fun ⟨hr, ha⟩ => ⟨⟨⟨bytes, rfl⟩, hr⟩, hstore.1, hstore.2, ha⟩,
          fun ⟨⟨_, hr⟩, _, _, ha⟩ => ⟨hr, ha⟩⟩
      · have hno : ∀ r, stringAppendView true draft.post bytes ≠ .ok r := by
          intro r hr
          exact hstore (stringAppendView_true_iff.mp ⟨r, hr⟩)
        cases happend : stringAppendView true draft.post bytes with
        | ok r => exact absurd happend (hno r)
        | error e =>
          simp only [Draft.append, hok, hread, happend, bind, Except.bind, if_true]
          apply iff_of_false (fun ⟨_, hr⟩ => by simp at hr)
          rintro ⟨-, hs, hold, -⟩
          exact hstore ⟨hs, hold⟩

theorem length_flatten_of_mapM {frame : Frame} {views : List View} {pieces : List Bytes}
    (h : views.mapM (View.read frame) = .ok pieces) :
    pieces.flatten.length = (views.map View.len).sum := by
  induction views generalizing pieces with
  | nil =>
    simp only [List.mapM_nil, pure, Except.pure, Except.ok.injEq] at h
    simp [← h]
  | cons view views ih =>
    rw [List.mapM_cons] at h
    obtain ⟨bytes, hread, h⟩ := bind_ok h
    obtain ⟨rest, hrest, h⟩ := bind_ok h
    obtain rfl := pure_ok.mp h
    rw [List.flatten_cons, List.length_append, View.length_of_read hread, ih hrest,
      List.map_cons, List.sum_cons]

end LiteHttp
