import LiteHttp.Resegment
import LiteHttp.Send

/-!
# Responses that the request parser reads back

A status line has the shape of a request line, and the header lines of a response
are read by the same rules as those of a request. So what
`http_response_to_string` writes can be fed to the parser, which finds the headers
and the body again. The CR LF that the serialiser writes behind the body is no
part of the message: a release build leaves it, a debug build stops at it.
-/

namespace LiteHttp

open Delim Run

set_option autoImplicit false

/-- A response whose text can be read back. -/
structure WireResponse where
  version : HttpVersion
  code : Int
  message : Bytes
  headers : List (HttpHeaderField × Bytes)
  body : Bytes
  version_known : version ≠ .unkown
  message_free : CrlfFree message
  named : ∀ h ∈ headers, httpGetHeaderFieldSv h.1 ≠ []
  values_free : ∀ h ∈ headers, CrlfFree h.2
  not_chunked : ∀ h ∈ headers, h.1 ≠ .transferEncoding
  length_value : ∀ h ∈ headers, h.1 = .contentLength → h.2 = decimal body.length
  length_given : body ≠ [] → ∃ h ∈ headers, h.1 = .contentLength

/-- A field that has a name is found under it. -/
theorem httpMatchHeaderField_fieldSv {field : HttpHeaderField}
    (hnamed : httpGetHeaderFieldSv field ≠ []) :
    httpMatchHeaderField (httpGetHeaderFieldSv field) = field := by
  cases field with
  | unkown => exact absurd rfl hnamed
  | max => exact absurd rfl hnamed
  | _ => decide +kernel

theorem fieldSv_free (field : HttpHeaderField) :
    CrlfFree (httpGetHeaderFieldSv field) ∧ colon ∉ httpGetHeaderFieldSv field := by
  cases field <;> decide +kernel

theorem versionSv_free (version : HttpVersion) :
    CrlfFree (httpGetVersionSv version) ∧ space ∉ httpGetVersionSv version := by
  cases version <;> decide +kernel

theorem free_of_not_mem {s : Bytes} (h : cr ∉ s) : CrlfFree s := by
  intro hin
  exact h (hin.subset List.mem_cons_self)

/-- The digits of a status code are no line end and no space. -/
theorem digit_ne {n : Nat} (hn : n < 10) :
    UInt8.ofNat (n + 48) ≠ cr ∧ UInt8.ofNat (n + 48) ≠ space := by
  have hall : ∀ d : Fin 10, UInt8.ofNat (d.val + 48) ≠ cr ∧ UInt8.ofNat (d.val + 48) ≠ space := by
    decide
  exact hall ⟨n, hn⟩

theorem statusSv_free (code : Int) :
    CrlfFree (httpGetStatusSv code) ∧ space ∉ httpGetStatusSv code := by
  unfold httpGetStatusSv
  split
  · decide
  · rename_i hrange
    obtain ⟨hcr₀, hspace₀⟩ := digit_ne (n := code.toNat / 100) (by omega)
    obtain ⟨hcr₁, hspace₁⟩ := digit_ne (n := code.toNat / 10 % 10) (by omega)
    obtain ⟨hcr₂, hspace₂⟩ := digit_ne (n := code.toNat % 10) (by omega)
    refine ⟨free_of_not_mem ?_, ?_⟩
    · simp only [List.mem_cons, List.not_mem_nil, or_false, not_or]
      exact ⟨hcr₀.symm, hcr₁.symm, hcr₂.symm⟩
    · simp only [List.mem_cons, List.not_mem_nil, or_false, not_or]
      exact ⟨hspace₀.symm, hspace₁.symm, hspace₂.symm⟩

namespace WireResponse

variable (rep : WireResponse)

def response : HttpResponse where
  method := .get
  version := rep.version
  status := ⟨rep.code, .live rep.message⟩
  headerList := rep.headers.map fun h => ⟨h.1, .live h.2⟩
  body := .live rep.body

/-- The request that the text of the response looks like. -/
def wire : WireRequest where
  method := httpGetVersionSv rep.version
  path := httpGetStatusSv rep.code
  version := rep.message
  headers := rep.headers.map fun h => (httpGetHeaderFieldSv h.1, h.2)
  body := rep.body
  method_free := (versionSv_free rep.version).1
  path_free := (statusSv_free rep.code).1
  version_free := rep.message_free
  method_token := (versionSv_free rep.version).2
  path_token := (statusSv_free rep.code).2
  headers_free := by
    intro h hh
    obtain ⟨h', hmem, rfl⟩ := List.mem_map.mp hh
    exact ⟨(fieldSv_free h'.1).1, rep.values_free h' hmem⟩
  names := by
    intro h hh
    obtain ⟨h', hmem, rfl⟩ := List.mem_map.mp hh
    exact (fieldSv_free h'.1).2
  not_chunked := by
    intro h hh heq
    obtain ⟨h', hmem, rfl⟩ := List.mem_map.mp hh
    apply rep.not_chunked h' hmem
    rw [← httpMatchHeaderField_fieldSv (rep.named h' hmem), show httpGetHeaderFieldSv h'.1 = _ from heq]
    decide +kernel
  length_value := by
    intro h hh heq
    obtain ⟨h', hmem, rfl⟩ := List.mem_map.mp hh
    apply rep.length_value h' hmem
    rw [← httpMatchHeaderField_fieldSv (rep.named h' hmem), show httpGetHeaderFieldSv h'.1 = _ from heq]
    decide +kernel
  length_given := by
    intro hne
    obtain ⟨h, hmem, hfield⟩ := rep.length_given hne
    refine ⟨_, List.mem_map.mpr ⟨h, hmem, rfl⟩, ?_⟩
    show httpGetHeaderFieldSv h.1 = contentLengthName
    rw [hfield]
    decide +kernel

/-- What the serialiser appends, in order. -/
def parts : List Bytes :=
  [httpGetVersionSv rep.version, [space], httpGetStatusSv rep.code, [space], rep.message, [cr, lf]] ++
    (rep.headers.flatMap (fun h => [httpGetHeaderFieldSv h.1, [colon, space], h.2, [cr, lf]]) ++
      [[cr, lf], rep.body, [cr, lf]])

theorem pieces_response : rep.response.pieces = rep.parts.map View.live := by
  simp only [HttpResponse.pieces, parts, response, List.map_append, List.map_cons, List.map_nil,
    List.map_flatMap, List.flatMap_map]
  rfl

theorem flatten_headers (hs : List (HttpHeaderField × Bytes)) :
    (hs.flatMap fun h => [httpGetHeaderFieldSv h.1, [colon, space], h.2, [cr, lf]]).flatten =
      unlines cr lf (hs.map fun h => headerLine (httpGetHeaderFieldSv h.1, h.2)) := by
  induction hs with
  | nil => rfl
  | cons h hs ih =>
    rw [List.flatMap_cons, List.flatten_append, ih, List.map_cons, unlines_cons]
    simp [headerLine]

theorem flatten_parts : rep.parts.flatten = rep.wire.bytes ++ [cr, lf] := by
  have hlines : rep.wire.lines =
      rep.headers.map fun h => headerLine (httpGetHeaderFieldSv h.1, h.2) := List.map_map
  simp only [parts, List.flatten_append, flatten_headers, WireRequest.bytes, WireRequest.head,
    unlines_cons, hlines]
  simp [WireRequest.requestLine, wire]

end WireResponse

theorem mapM_live (frame : Frame) (parts : List Bytes) :
    (parts.map View.live).mapM (View.read frame) = .ok parts := by
  induction parts with
  | nil => rfl
  | cons part parts ih =>
    rw [List.map_cons, List.mapM_cons, ih]
    rfl

theorem WireResponse.text_response (rep : WireResponse) (frame : Frame) :
    rep.response.text frame = .ok (rep.wire.bytes ++ [cr, lf]) := by
  rw [HttpResponse.text, rep.pieces_response, mapM_live, ← rep.flatten_parts]
  rfl

/-- With memory for it, the text of such a response is written. -/
theorem WireResponse.httpResponseToString_text (rep : WireResponse) (frame : Frame)
    (hsize : rep.wire.bytes.length + 2 < 2 ^ 30) :
    ∃ post, httpResponseToString (fun _ => true) frame rep.response = .ok (.success, post) ∧
      post.post = rep.wire.bytes ++ [cr, lf] := by
  have hlen : (rep.response.pieces.map View.len).sum = rep.wire.bytes.length + 2 := by
    have hread := mapM_live frame rep.parts
    rw [← rep.pieces_response] at hread
    rw [← length_flatten_of_mapM hread, rep.flatten_parts, List.length_append]
    rfl
  have happend : ∃ post, rep.response.pieces.foldlM (Draft.append (fun _ => true) frame) .empty =
      .ok post := by
    refine (Draft.foldlM_append_iff fun _ _ _ => rfl).mpr ⟨?_, appendable_of_lt ?_⟩
    · rw [rep.pieces_response]
      intro view hview
      obtain ⟨part, -, rfl⟩ := List.mem_map.mp hview
      exact ⟨part, rfl⟩
    · show 0 + (rep.response.pieces.map View.len).sum < 2 ^ 30
      omega
  obtain ⟨post, hpost⟩ := happend
  have hserialised : httpResponseToString (fun _ => true) frame rep.response = .ok (.success, post) := by
    rw [httpResponseToString_eq, if_neg (show rep.response.version ≠ .unkown from rep.version_known),
      hpost]
    rfl
  refine ⟨post, hserialised, ?_⟩
  have hwhole := (httpResponseToString_ok hserialised).2 rfl
  obtain ⟨htext, -⟩ := hwhole.2 (hwhole.1.mpr fun _ _ => rfl)
  rw [rep.text_response, Except.ok.injEq] at htext
  exact htext.symm

/-- The header lines of a stream that begins with a message. -/
theorem linesAhead_message (m : WireRequest) (rest : Bytes) :
    linesAhead (m.bytes ++ rest) = m.headers.length := by
  have hcut : cutLine (m.bytes ++ rest) =
      some (m.requestLine, unlines cr lf m.lines ++ cr :: lf :: (m.body ++ rest)) := by
    rw [WireRequest.bytes, WireRequest.head, unlines_cons]
    simp only [List.append_assoc, List.cons_append, List.nil_append]
    exact cut_record (by decide) m.requestLine_free _
  have hmany := length_le_length_unlines (a := cr) (b := lf) m.lines
  obtain ⟨n, hn⟩ : ∃ n, (unlines cr lf m.lines ++ cr :: lf :: (m.body ++ rest)).length + 1 =
      m.lines.length + (n + 1) := by
    refine ⟨(unlines cr lf m.lines).length + (cr :: lf :: (m.body ++ rest)).length - m.lines.length, ?_⟩
    rw [List.length_append]
    omega
  have hblank : cut cr lf (cr :: lf :: (m.body ++ rest)) = some ([], m.body ++ rest) := by simp [cut]
  rw [linesAhead, hcut]
  simp only
  rw [hn, collect_unlines (by decide) m.lines_free (Nat.le_add_right _ _), Nat.add_sub_cancel_left,
    collect_succ_blank hblank]
  simp [m.length_lines]

/-- A call with a whole message and bytes behind it. -/
theorem feedNode_message (b : Build) {m : WireRequest} {rest : Bytes} (hlines : m.headers.length ≤ 98)
    (hsize : (m.bytes ++ rest).length < 2 ^ 30) :
    (b = .debug ∧ rest ≠ [] ∧
      feedNode b allOk .new (m.bytes ++ rest) = .error (.assertFailed .endLength)) ∨
    ((b = .release ∨ rest = []) ∧ ∃ ctx,
      feedNode b allOk .new (m.bytes ++ rest) = .ok (.ret .success ctx) ∧
        WireRequest.Whole m (m.bytes ++ rest) ctx) := by
  have hp : m.bytes ++ rest = m.head ++ (m.body ++ rest) := by
    rw [WireRequest.bytes, List.append_assoc]
  have hcnt : ¬ 1 + m.headers.length = 100 := by omega
  rw [feedNode_new hsize, WireRequest.labelWaitReq_head b hp hsize (by omega)]
  simp only [behindLoop, hcnt, if_false]
  exact WireRequest.bodySwitch_whole b rfl hsize

/-- What is read back of a header. -/
def ReadHeader (h : HttpHeaderField × Bytes) (header : HttpHeader) : Prop :=
  header.value.valueSv = h.2 ∧
    (header.field = h.1 ∨ (header.field = .unkown ∧ header.name = httpGetHeaderFieldSv h.1))

theorem readHeader_of_for {h : HttpHeaderField × Bytes} {header : HttpHeader}
    (hfor : HeaderFor (httpGetHeaderFieldSv h.1, h.2) header)
    (hnamed : httpGetHeaderFieldSv h.1 ≠ []) : ReadHeader h header := by
  refine ⟨hfor.valueSv, ?_⟩
  by_cases hunkown : header.field = .unkown
  · exact Or.inr ⟨hunkown, hfor.unkown hunkown⟩
  · refine Or.inl ((hfor.known hunkown).trans ?_)
    exact httpMatchHeaderField_fieldSv hnamed

theorem WireResponse.headers_read (rep : WireResponse) :
    List.Forall₂ ReadHeader rep.headers rep.wire.request.headerList := by
  have hlist : rep.wire.request.headerList =
      rep.headers.map fun h => (newHeader (httpGetHeaderFieldSv h.1) h.2).2 := List.map_map
  rw [hlist, List.forall₂_map_right_iff]
  apply List.forall₂_same.mpr
  intro h hh
  have hfor := headerFor_newHeader (httpGetHeaderFieldSv h.1, h.2)
  dsimp only at hfor
  exact readHeader_of_for hfor (rep.named h hh)

/-- The text of a response, fed to the parser in any calls the last of which begins within the
message: the calls before it wait, and it finds the headers and the body in a release build
and stops a debug build. -/
theorem text_read_back (rep : WireResponse) (frame : Frame) (hlines : rep.headers.length ≤ 98)
    (hsize : rep.wire.bytes.length + 2 < 2 ^ 30) :
    ∃ post, httpResponseToString (fun _ => true) frame rep.response = .ok (.success, post) ∧
      ∀ (pre : List Bytes) (last : Bytes), pre.flatten ++ last = post.post → 2 < last.length →
        ∀ b, ∃ herrs c, exec (ClientConn.feedStep b) .new (feeds pre) = .ok (herrs, c) ∧
          (∀ herr ∈ herrs, WireRequest.Waits herr) ∧
          (b = .debug → c.feed b allOk last = .error (.assertFailed .endLength)) ∧
          (b = .release → ∃ c' request, c.feed b allOk last = .ok (.success, c') ∧
            c'.pop = .ok (some request, .severed) ∧ request.body = rep.body ∧
            List.Forall₂ ReadHeader rep.headers request.headerList) := by
  obtain ⟨post, hpost, htext⟩ := rep.httpResponseToString_text frame hsize
  refine ⟨post, hpost, fun pre last hcut hlast b => ?_⟩
  rw [htext] at hcut
  have hheaders : rep.wire.headers.length ≤ 98 := by
    rw [show rep.wire.headers.length = rep.headers.length from List.length_map _]
    exact hlines
  have hbytes : rep.wire.bytes.length < 2 ^ 30 := by omega
  have hall : (pre.flatten ++ last).length < 2 ^ 30 := by
    rw [hcut, List.length_append]
    exact hsize
  have hfew : linesAhead (pre.flatten ++ last) ≤ 98 := by
    rw [hcut, linesAhead_message]
    exact hheaders
  obtain ⟨s, hs, hlastEq⟩ | ⟨s, hs, hlastEq⟩ := List.append_eq_append_iff.mp hcut
  · have hrest : s ≠ [] := by
      rintro rfl
      rw [hlastEq] at hlast
      simp at hlast
    have hwhole : [] ++ pre.flatten ++ s = rep.wire.bytes := hs.symm
    obtain ⟨herrs, j, ctx, hx, hwaits, -⟩ := (WireRequest.Phase.new (m := rep.wire)).exec_waits b
      hbytes hwhole hrest (rep.wire.within_of_le hheaders 0 pre)
    obtain ⟨ctx', heq, hrests, hnode⟩ := feedNode_of_run b hx hwaits hall hfew
    obtain rfl := single_inj.mp heq
    rw [hcut] at hnode
    refine ⟨herrs, .single ctx, hx, hwaits, ?_, ?_⟩
    · rintro rfl
      rcases feedNode_message .debug hheaders (hcut ▸ hall) with ⟨-, -, hfault⟩ | ⟨hno, -⟩
      · exact feed_of_feedNode_error (hnode.trans hfault)
      · simp at hno
    · rintro rfl
      rcases feedNode_message .release hheaders (hcut ▸ hall) with ⟨hno, -⟩ | ⟨-, ctx', hfeed, hdone⟩
      · simp at hno
      · exact ⟨_, rep.wire.request, feed_of_feedNode (hnode.trans hfeed), hdone.pop, rfl,
          rep.headers_read⟩
  · have hlen := congrArg List.length hlastEq
    rw [List.length_append] at hlen
    simp at hlen
    omega

def hiPage : WireResponse where
  version := .ver11
  code := 200
  message := ascii "OK".toList
  headers := [(.contentType, ascii "text/html".toList), (.contentLength, ascii "2".toList)]
  body := ascii "hi".toList
  version_known := by decide
  message_free := by decide +kernel
  named := by decide
  values_free := by decide +kernel
  not_chunked := by decide
  length_value := by decide +kernel
  length_given := by decide

theorem hiPage_read_back :
    ∃ post, httpResponseToString (fun _ => true) none hiPage.response = .ok (.success, post) ∧
      ∀ (pre : List Bytes) (last : Bytes), pre.flatten ++ last = post.post → 2 < last.length →
        ∀ b, ∃ herrs c, exec (ClientConn.feedStep b) .new (feeds pre) = .ok (herrs, c) ∧
          (∀ herr ∈ herrs, WireRequest.Waits herr) ∧
          (b = .debug → c.feed b allOk last = .error (.assertFailed .endLength)) ∧
          (b = .release → ∃ c' request, c.feed b allOk last = .ok (.success, c') ∧
            c'.pop = .ok (some request, .severed) ∧ request.body = hiPage.body ∧
            List.Forall₂ ReadHeader hiPage.headers request.headerList) :=
  text_read_back hiPage none (by decide) (by decide +kernel)

end LiteHttp
