import LiteHttp.Dispatch
import LiteHttp.Send
import LiteHttp.Lib.Delim

/-!
# Where a response ends

What a peer makes of a stream of responses that says of each body how long it
is, and the text the GET handler and the serialiser write. The serialiser ends
every response with two bytes that no Content-Length counts, so no response ends
where its head says it does.
-/

namespace LiteHttp

set_option autoImplicit false

def fieldLine (line : Bytes) : Option (Bytes × Bytes) := Delim.cut colon space line

/-- The number a Content-Length spells. -/
def lengthValue (value : Bytes) : Option Nat :=
  if value ≠ [] ∧ value.all isDigit then some (decimalValue value) else none

/-- The length the header lines of a response give to its body. -/
def bodyLength (lines : List Bytes) : Option Nat := do
  let headers ← lines.mapM fieldLine
  let header ← headers.find? fun h => h.1 = contentLengthName
  lengthValue header.2

/-- A response at the start of a stream: its body, and the stream behind it. -/
def readResponse (stream : Bytes) : Option (Bytes × Bytes) :=
  let block := Delim.collect cr lf stream.length stream
  match block.stop, block.records with
  | .blank, _ :: lines => do
    let n ← bodyLength lines
    if n ≤ block.rest.length then some (block.rest.take n, block.rest.drop n) else none
  | _, _ => none

/-- The bodies of a stream of at most so many responses. -/
def splitResponses : Nat → Bytes → Option (List Bytes)
  | _, [] => some []
  | 0, _ :: _ => none
  | fuel + 1, c :: stream => do
    let (body, rest) ← readResponse (c :: stream)
    let bodies ← splitResponses fuel rest
    return body :: bodies

def bodiesOf (stream : Bytes) : Option (List Bytes) := splitResponses stream.length stream

/-- A response of the GET handler, all of its text written. -/
structure Served where
  build : Build
  env : GetEnv
  request : HttpRequest
  response : HttpResponse
  built : httpMethodGetHandler build env request = .ok (.success, some response)
  alloc : Nat → Bool
  frame : Frame
  post : Draft
  serialised : httpResponseToString alloc frame response = .ok (.success, post)
  complete : post.complete = true
  body : Bytes
  content : response.body.read frame = .ok body

/-- The text is one response, and nothing behind it. -/
def Served.Delimited (served : Served) : Prop :=
  readResponse served.post.post = some (served.body, [])

def stream (responses : List Served) : Bytes := responses.flatMap fun served => served.post.post

theorem decimalValue_lt {ds : Bytes} (h : ∀ c ∈ ds, isDigit c = true) :
    decimalValue ds < 10 ^ ds.length := by
  induction ds using List.reverseRecOn with
  | nil => simp [decimalValue]
  | append_singleton ds c ih =>
    rw [List.forall_mem_append, List.forall_mem_singleton] at h
    have hc : c.toNat ≤ 57 := by
      have hdigit := h.2
      simp only [isDigit, Bool.and_eq_true, decide_eq_true_eq, UInt8.le_iff_toNat_le] at hdigit
      exact hdigit.2
    have hds := ih h.1
    rw [decimalValue, List.foldl_append, List.foldl_cons, List.foldl_nil, ← decimalValue,
      List.length_append, List.length_singleton, Nat.pow_succ]
    omega

theorem lengthValue_lt {value : Bytes} {n : Nat} (h : lengthValue value = some n) :
    n < 10 ^ value.length := by
  unfold lengthValue at h
  split at h
  · rename_i hvalue
    simp only [Option.some.injEq] at h
    rw [← h]
    exact decimalValue_lt (List.all_eq_true.mp hvalue.2)
  · simp at h

/-- A number has at least as many digits as the buffer shows of it. -/
theorem le_of_numbuf {k n : Nat} (h : k + 2 ≤ (numbuf n).length) : 10 ^ (k + 1) ≤ n := by
  rw [numbuf, List.length_take, decimal, ascii, List.length_map] at h
  apply Nat.le_of_not_lt
  intro hlt
  have hle := (Nat.length_toDigits_le_iff (by decide) (Nat.succ_pos k)).mpr hlt
  omega

def statusLine : Bytes := ascii "HTTP/1.0 200 OK".toList

def contentTypeName : Bytes := ascii "Content-Type".toList

def typeLine : Bytes := contentTypeName ++ colon :: space :: htmlType

def lengthPrefix : Bytes := contentLengthName ++ [colon, space]

/-- The header lines of a response of the GET handler; `stale` is what the dead frame holds. -/
def headLines (pushLength : Bool) (stale : Bytes) : List Bytes :=
  if pushLength then [typeLine, lengthPrefix ++ stale] else [typeLine]

theorem text_servedResponse {frame : Frame} {pushLength : Bool} {res : ResView} {text body : Bytes}
    (htext : (servedResponse pushLength res).text frame = .ok text)
    (hbody : res.toView.read frame = .ok body) :
    ∃ stale, stale.length = (numbuf res.len).length ∧
      text = Delim.unlines cr lf (statusLine :: headLines pushLength stale) ++
        cr :: lf :: (body ++ [cr, lf]) := by
  obtain ⟨pieces, hpieces, htext⟩ := bind_ok htext
  simp only [pure, Except.pure, Except.ok.injEq] at htext
  subst htext
  simp only [HttpResponse.pieces, servedResponse, httpSetStatus_snd, ResponseHeader.pieces, crlf,
    List.cons_append, List.nil_append, List.flatMap_cons, List.mapM_cons, View.read_live, bind,
    Except.bind, pure, Except.pure] at hpieces
  cases pushLength with
  | false =>
    simp only [Bool.false_eq_true, if_false, List.flatMap_nil, List.nil_append, List.mapM_cons,
      List.mapM_nil, View.read_live, hbody, bind, Except.bind, pure, Except.pure,
      Except.ok.injEq] at hpieces
    refine ⟨numbuf res.len, rfl, ?_⟩
    rw [← hpieces]
    simp only [List.flatten_cons, List.flatten_nil, headLines, Delim.unlines_cons,
      Delim.unlines_nil, Bool.false_eq_true, if_false, List.append_nil, List.append_assoc]
    rfl
  | true =>
    simp only [if_true, List.flatMap_cons, List.flatMap_nil, List.nil_append, List.cons_append,
      ResponseHeader.pieces, crlf, List.mapM_cons, List.mapM_nil, View.read_live, hbody, bind,
      Except.bind, pure, Except.pure] at hpieces
    cases hstale : (View.deadFrame (numbuf res.len).length).read frame with
    | error e => simp [hstale] at hpieces
    | ok stale =>
      refine ⟨stale, View.length_of_read hstale, ?_⟩
      simp only [hstale, Except.ok.injEq] at hpieces
      rw [← hpieces]
      simp only [List.flatten_cons, List.flatten_nil, headLines, Delim.unlines_cons,
        Delim.unlines_nil, if_true, List.append_nil, List.append_assoc, List.cons_append,
        List.nil_append]
      rfl

theorem fieldLine_type : fieldLine typeLine = some (contentTypeName, htmlType) := by decide

theorem fieldLine_length (d : Bytes) : fieldLine (lengthPrefix ++ d) = some (contentLengthName, d) := by
  have hname : Delim.Free colon space contentLengthName := by decide
  have hline : lengthPrefix ++ d = contentLengthName ++ colon :: space :: d := by
    simp [lengthPrefix]
  rw [fieldLine, hline, Delim.cut_record (by decide) hname]

/-- The length line behind the type line is the one that counts. -/
theorem bodyLength_head (d : Bytes) (others : List Bytes) :
    bodyLength (typeLine :: (lengthPrefix ++ d) :: others) =
      (others.mapM fieldLine).bind fun _ => lengthValue d := by
  have hother : contentTypeName ≠ contentLengthName := by decide
  unfold bodyLength
  cases hrest : others.mapM fieldLine with
  | none => simp [fieldLine_type, fieldLine_length, hrest]
  | some headers => simp [fieldLine_type, fieldLine_length, hrest, hother]

theorem bodyLength_typeLine : bodyLength [typeLine] = none := by decide

/-- What `readResponse` makes of a head of non-empty lines. -/
theorem readResponse_head {status : Bytes} {lines : List Bytes} {rest : Bytes}
    (hlines : ∀ l ∈ status :: lines, l ≠ [] ∧ Delim.Free cr lf l) :
    readResponse (Delim.unlines cr lf (status :: lines) ++ cr :: lf :: rest) =
      (bodyLength lines).bind fun n =>
        if n ≤ rest.length then some (rest.take n, rest.drop n) else none := by
  have hlen : (status :: lines).length + 1 ≤
      (Delim.unlines cr lf (status :: lines) ++ cr :: lf :: rest).length := by
    have hle := Delim.length_le_length_unlines (a := cr) (b := lf) (status :: lines)
    simp only [List.length_append, List.length_cons] at hle ⊢
    omega
  have hblank : Delim.cut cr lf (cr :: lf :: rest) = some ([], rest) := by simp [Delim.cut]
  obtain ⟨k, hk⟩ := Nat.exists_eq_add_of_le hlen
  have hcount : (status :: lines).length + 1 + k - (status :: lines).length = k + 1 := by omega
  unfold readResponse
  rw [Delim.collect_unlines (by decide) hlines (by omega), hk, hcount, Delim.collect_succ_blank hblank]
  simp only [List.append_nil]
  rfl

example : readResponse (ascii "HTTP/1.0 200 OK\r\nContent-Length: 2\r\n\r\nhi".toList) =
    some (ascii "hi".toList, []) := by decide +kernel

/-- Whatever the length line is cut to, it is its number that the body has for its length. -/
theorem readResponse_cut {t d rest body r : Bytes} (hcut : Delim.cut cr lf t = some (d, rest))
    (h : readResponse (Delim.unlines cr lf [statusLine, typeLine] ++ (lengthPrefix ++ t)) =
      some (body, r)) : lengthValue d = some body.length := by
  have hprefix : cr ∉ lengthPrefix := by decide
  have hline : Delim.cut cr lf (lengthPrefix ++ t) = some (lengthPrefix ++ d, rest) := by
    rw [Delim.cut_append_of_not_mem hprefix, hcut, Option.map_some]
  have hlen : 2 + 1 ≤ (Delim.unlines cr lf [statusLine, typeLine] ++ (lengthPrefix ++ t)).length := by
    rw [List.length_append, List.length_append]
    have : 3 ≤ lengthPrefix.length := by decide
    omega
  obtain ⟨k, hk⟩ := Nat.exists_eq_add_of_le hlen
  have hcount : 2 + 1 + k - [statusLine, typeLine].length = k + 1 := by
    simp only [List.length_cons, List.length_nil]
    omega
  unfold readResponse at h
  rw [Delim.collect_unlines (by decide) (by decide) (by simp only [List.length_cons, List.length_nil]; omega),
    hk, hcount, Delim.collect_succ_record hline (by simp [lengthPrefix])] at h
  generalize Delim.collect cr lf k rest = block at h
  obtain ⟨records, stop, behind⟩ := block
  cases stop with
  | «open» => simp at h
  | full => simp at h
  | blank =>
    simp only [Delim.Block.push, List.cons_append, List.nil_append, bodyLength_head] at h
    cases hothers : records.mapM fieldLine with
    | none => simp [hothers] at h
    | some headers =>
      cases hvalue : lengthValue d with
      | none => simp [hothers, hvalue] at h
      | some n =>
        simp only [hothers, hvalue, Option.bind_eq_bind, Option.bind_some] at h
        by_cases hle : n ≤ behind.length
        · simp only [hle, if_true, Option.some.injEq, Prod.mk.injEq] at h
          rw [← h.1, List.length_take, Nat.min_eq_left hle]
        · simp [hle] at h

/-- A response read off the front of a stream leaves the two bytes its length does not count. -/
theorem readResponse_servedText {pushLength : Bool} {res : ResView} {stale body more r : Bytes}
    (hres : body.length = res.len) (hstale : stale.length = (numbuf res.len).length)
    (h : readResponse (Delim.unlines cr lf (statusLine :: headLines pushLength stale) ++
      cr :: lf :: (body ++ cr :: lf :: more)) = some (body, r)) : r = cr :: lf :: more := by
  cases pushLength with
  | false =>
    rw [headLines, if_neg (by decide), readResponse_head (by decide), bodyLength_typeLine] at h
    simp at h
  | true =>
    rw [headLines, if_pos rfl] at h
    cases hcut : Delim.cut cr lf stale with
    | none =>
      have hfree : Delim.Free cr lf (lengthPrefix ++ stale) := by
        rw [← Delim.cut_eq_none_iff, Delim.cut_append_of_not_mem (by decide), hcut, Option.map_none]
      have hlines : ∀ l ∈ [statusLine, typeLine, lengthPrefix ++ stale], l ≠ [] ∧ Delim.Free cr lf l := by
        have hfixed : ∀ l ∈ [statusLine, typeLine], l ≠ [] ∧ Delim.Free cr lf l := by decide
        have hne : lengthPrefix ++ stale ≠ [] := by simp [lengthPrefix]
        simp only [List.forall_mem_cons] at hfixed ⊢
        exact ⟨hfixed.1, hfixed.2.1, ⟨hne, hfree⟩, by simp⟩
      rw [readResponse_head hlines] at h
      obtain ⟨n, -, h⟩ := Option.bind_eq_some_iff.mp h
      split at h
      · rename_i hle
        simp only [Option.some.injEq, Prod.mk.injEq] at h
        have hn : n = body.length := by rw [← h.1, List.length_take, Nat.min_eq_left hle]
        rw [← h.2, hn, List.drop_left]
      · simp at h
    | some p =>
      -- a dead frame that holds the delimiter leaves too few digits for the length
      obtain ⟨d, behind⟩ := p
      have hlong := Delim.cut_length hcut
      have htext : Delim.unlines cr lf [statusLine, typeLine, lengthPrefix ++ stale] ++
          cr :: lf :: (body ++ cr :: lf :: more) =
          Delim.unlines cr lf [statusLine, typeLine] ++
            (lengthPrefix ++ (stale ++ cr :: lf :: cr :: lf :: (body ++ cr :: lf :: more))) := by
        simp [Delim.unlines_cons]
      rw [htext] at h
      have hvalue := readResponse_cut (Delim.cut_append hcut _) h
      have hsmall := lengthValue_lt hvalue
      have hlarge := le_of_numbuf (n := res.len) (k := d.length) (by omega)
      have hpow : 10 ^ d.length ≤ 10 ^ (d.length + 1) := Nat.pow_le_pow_right (by decide) (by omega)
      omega

theorem splitResponses_cons {fuel : Nat} {t body : Bytes} {bodies : List Bytes}
    (h : splitResponses fuel t = some (body :: bodies)) :
    ∃ k rest, readResponse t = some (body, rest) ∧ splitResponses k rest = some bodies := by
  cases t with
  | nil => cases fuel <;> simp [splitResponses] at h
  | cons c t =>
    cases fuel with
    | zero => simp [splitResponses] at h
    | succ fuel =>
      cases hread : readResponse (c :: t) with
      | none => simp [splitResponses, hread] at h
      | some p =>
        obtain ⟨first, rest⟩ := p
        cases hrest : splitResponses fuel rest with
        | none => simp [splitResponses, hread, hrest] at h
        | some others =>
          simp only [splitResponses, hread, hrest, Option.bind_eq_bind, Option.bind_some,
            Option.pure_def, Option.some.injEq, List.cons.injEq] at h
          obtain ⟨rfl, rfl⟩ := h
          exact ⟨fuel, rest, rfl, hrest⟩

/-- The bodies of a stream are found wherever each response says itself where it ends. -/
theorem splitResponses_of_delimited {responses : List (Bytes × Bytes)}
    (h : ∀ p ∈ responses, ∀ more, readResponse (p.1 ++ more) = some (p.2, more)) {fuel : Nat}
    (hfuel : responses.length ≤ fuel) :
    splitResponses fuel (responses.flatMap Prod.fst) = some (responses.map Prod.snd) := by
  induction responses generalizing fuel with
  | nil => cases fuel <;> rfl
  | cons p responses ih =>
    rw [List.forall_mem_cons] at h
    have hread := h.1 (responses.flatMap Prod.fst)
    cases fuel with
    | zero => simp at hfuel
    | succ fuel =>
      have hrest := ih h.2 (Nat.le_of_succ_le_succ hfuel)
      rw [List.flatMap_cons]
      cases hstream : p.1 ++ responses.flatMap Prod.fst with
      | nil =>
        rw [hstream] at hread
        simp [readResponse, Delim.collect] at hread
      | cons c stream =>
        rw [hstream] at hread
        simp [splitResponses, hread, hrest]

namespace Served

variable (served : Served)

theorem text_eq : ∃ pushLength res stale, served.body.length = ResView.len res ∧
    stale.length = (numbuf res.len).length ∧
    served.post.post = Delim.unlines cr lf (statusLine :: headLines pushLength stale) ++
      cr :: lf :: (served.body ++ [cr, lf]) := by
  obtain ⟨-, res, hlooks, -, -, hresponse⟩ := httpMethodGetHandler_ok served.built
  have hserialised := (httpResponseToString_ok served.serialised).2 rfl
  have htext := (hserialised.2 served.complete).1
  have hcontent := served.content
  rw [hresponse] at htext hcontent
  obtain ⟨stale, hstale, hpost⟩ := text_servedResponse htext hcontent
  exact ⟨_, res, stale, (View.length_of_read hcontent).trans hlooks.len, hstale, hpost⟩

/-- Behind a response read by its length stand two bytes more, whatever the dead frame holds. -/
theorem rest_of_read {more r : Bytes}
    (h : readResponse (served.post.post ++ more) = some (served.body, r)) : r = cr :: lf :: more := by
  obtain ⟨pushLength, res, stale, hres, hstale, hpost⟩ := served.text_eq
  apply readResponse_servedText hres hstale
  rw [hpost] at h
  simpa using h

end Served

theorem readResponse_blank (more : Bytes) : readResponse (cr :: lf :: more) = none := by
  have hblank : Delim.cut cr lf (cr :: lf :: more) = some ([], more) := by simp [Delim.cut]
  unfold readResponse
  rw [List.length_cons, Delim.collect_succ_blank hblank]

theorem splitResponses_blank (fuel : Nat) (more : Bytes) :
    splitResponses fuel (cr :: lf :: more) = none := by
  cases fuel with
  | zero => rfl
  | succ fuel => simp [splitResponses, readResponse_blank]

/-- Every content short enough to be stored is served by some response, even with the digits of
its length still in the dead frame. -/
theorem served_exists {content : Bytes} (hne : content ≠ []) (hlen : content.length < 2 ^ 29) :
    ∃ served : Served, served.body = content ∧
      served.frame = some fun i => (decimal content.length).getD i 0 := by
  let digits : Frame := some fun i => (decimal content.length).getD i 0
  let response := servedResponse true ⟨.mapped ⟨0, content⟩, content.length⟩
  have hbuilt : httpMethodGetHandler .debug (fileEnv content) fileRequest =
      .ok (.success, some response) :=
    httpMethodGetHandler_of_looks rfl (fileEnv_looks .debug hne) rfl rfl
  have hcontent : response.body.read digits = .ok content := by
    simp [response, servedResponse, ResView.toView]
  have hread : ∀ view ∈ response.pieces, ∃ bytes, view.read digits = .ok bytes :=
    read_servedResponse ⟨content, hcontent⟩
  have hstore : Appendable 0 (response.pieces.map View.len) := by
    have hle : response.textLength ≤ content.length + 128 := by
      have hview := textLength_servedResponse_le true ⟨.mapped ⟨0, content⟩, content.length⟩
      simpa only [ResView.toView, List.take_length, View.len] using hview
    have hlt : 0 + response.textLength < 2 ^ 30 := by
      generalize response.textLength = k at hle ⊢
      omega
    exact appendable_of_lt hlt
  have happend : ∃ post,
      response.pieces.foldlM (Draft.append (fun _ => true) digits) .empty = .ok post :=
    (Draft.foldlM_append_iff fun _ _ _ => rfl).mpr ⟨hread, hstore⟩
  obtain ⟨post, hpost⟩ := happend
  have hserialised : httpResponseToString (fun _ => true) digits response = .ok (.success, post) := by
    rw [httpResponseToString_eq, if_neg (by simp [response, servedResponse]), hpost]
    rfl
  have hcomplete : post.complete = true :=
    (Draft.foldlM_append_ok hpost).1.mpr ⟨rfl, fun _ _ _ => rfl⟩
  exact ⟨⟨_, _, _, response, hbuilt, _, digits, post, hserialised, hcomplete, content, hcontent⟩,
    rfl, rfl⟩

/-- No response of the GET handler ends where it says it does, and no stream of them splits
into their bodies. -/
theorem served_delimited_never (served : Served) (responses : List Served) :
    ¬ served.Delimited ∧
      (bodiesOf (stream responses) = some (responses.map Served.body) ↔ responses = []) := by
  constructor
  · intro hread
    have hread' : readResponse (served.post.post ++ []) = some (served.body, []) := by
      rwa [List.append_nil]
    have hrest := served.rest_of_read hread'
    simp at hrest
  · constructor
    · intro hbodies
      cases responses with
      | nil => rfl
      | cons served responses =>
        obtain ⟨k, rest, hread, hsplit⟩ := splitResponses_cons hbodies
        rw [served.rest_of_read hread, splitResponses_blank] at hsplit
        simp at hsplit
    · rintro rfl
      rfl

/-- A file of two bytes; the dead frame still holds their number. -/
def hiResponse : HttpResponse := servedResponse true ⟨.mapped ⟨0, ascii "hi".toList⟩, 2⟩

def hiFrame : Frame := some fun _ => 50

def hiPost : Draft where
  post := Delim.unlines cr lf [statusLine, typeLine, lengthPrefix ++ [50]] ++
    cr :: lf :: (ascii "hi".toList ++ [cr, lf])
  appends := 17
  complete := true

def hiServed : Served where
  build := .debug
  env := fileEnv (ascii "hi".toList)
  request := fileRequest
  response := hiResponse
  built := httpMethodGetHandler_of_looks rfl (fileEnv_looks .debug (by decide)) rfl rfl
  alloc := fun _ => true
  frame := hiFrame
  post := hiPost
  serialised := by decide +kernel
  complete := rfl
  body := ascii "hi".toList
  content := rfl

theorem hiServed_not_delimited :
    readResponse hiServed.post.post = some (hiServed.body, [cr, lf]) ∧
      bodiesOf (stream [hiServed, hiServed]) ≠ some [hiServed.body, hiServed.body] := by
  decide +kernel

end LiteHttp
