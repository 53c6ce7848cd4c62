import LiteHttp.Response

/-!
# What a successful send has sent

`http_send_response` of server.c. It looks neither at what
`http_response_to_string` returns nor at how much of the string the socket took,
so its success promises the whole response only where nothing went wrong that it
does not look at.
-/

namespace LiteHttp

set_option autoImplicit false

/-- What is behind the code a send returns: what the serialiser returned, the
string, and the bytes that left. -/
structure Sent where
  serialised : HttpErr
  post : Draft
  accepted : Bytes
  deriving DecidableEq, Repr

/-- `http_send_response`. The socket fails, or takes some number of the bytes it is offered. -/
def httpSendResponse (alloc : Nat → Bool) (frame : Frame) (write : Option Nat)
    (response : HttpResponse) : Except Fault (HttpErr × Sent) := do
  let (serialised, post) ← httpResponseToString alloc frame response
  match write with
  | none => return (.write, ⟨serialised, post, []⟩)
  | some writebytes => return (.success, ⟨serialised, post, post.post.take writebytes⟩)

/-- The serialiser wrote the whole response, and all of it left. -/
def Sent.Whole (frame : Frame) (response : HttpResponse) (sent : Sent) : Prop :=
  sent.serialised = .success ∧ sent.post.complete = true ∧
    response.text frame = .ok sent.accepted

theorem httpSendResponse_ok {alloc : Nat → Bool} {frame : Frame} {write : Option Nat}
    {response : HttpResponse} {herr : HttpErr} {sent : Sent}
    (h : httpSendResponse alloc frame write response = .ok (herr, sent)) :
    httpResponseToString alloc frame response = .ok (sent.serialised, sent.post) ∧
    ((write = none ∧ herr = .write ∧ sent.accepted = []) ∨
      ∃ n, write = some n ∧ herr = .success ∧ sent.accepted = sent.post.post.take n) := by
  unfold httpSendResponse at h
  obtain ⟨⟨serialised, post⟩, hpost, h⟩ := bind_ok h
  cases write with
  | none =>
    obtain ⟨rfl, rfl⟩ := Prod.mk.inj (pure_ok.mp h)
    exact ⟨hpost, Or.inl ⟨rfl, rfl, rfl⟩⟩
  | some n =>
    obtain ⟨rfl, rfl⟩ := Prod.mk.inj (pure_ok.mp h)
    exact ⟨hpost, Or.inr ⟨n, rfl, rfl, rfl⟩⟩

/-- A serialisation that returns is the whole text exactly when the version is
known and no append failed. -/
theorem httpResponseToString_ok {alloc : Nat → Bool} {frame : Frame} {response : HttpResponse}
    {serialised : HttpErr} {post : Draft}
    (h : httpResponseToString alloc frame response = .ok (serialised, post)) :
    (serialised = .success ↔ response.version ≠ .unkown) ∧
    (serialised = .success →
      (post.complete = true ↔ ∀ i, i < response.pieces.length → alloc i = true) ∧
      (post.complete = true → response.text frame = .ok post.post ∧
        post.post.length = response.textLength)) := by
  rw [httpResponseToString_eq] at h
  split at h
  · rename_i hversion
    simp only [Except.ok.injEq, Prod.mk.injEq] at h
    obtain ⟨rfl, rfl⟩ := h
    exact ⟨by simp [hversion], by simp⟩
  · rename_i hversion
    obtain ⟨last, hfold, h⟩ := bind_ok h
    obtain ⟨rfl, rfl⟩ := Prod.mk.inj (pure_ok.mp h)
    obtain ⟨hcomplete, htext⟩ := Draft.foldlM_append_ok hfold
    refine ⟨by simp [hversion], fun _ => ⟨?_, ?_⟩⟩
    · simpa [Draft.empty] using hcomplete
    · intro hdone
      obtain ⟨pieces, hpieces, hpost⟩ := htext hdone
      have hlen := length_flatten_of_mapM hpieces
      have hflat : last.post = pieces.flatten := by simpa [Draft.empty] using hpost
      refine ⟨?_, by rw [hflat, hlen, HttpResponse.textLength]⟩
      simp [HttpResponse.text, hpieces, hflat, bind, Except.bind, pure, Except.pure]

/-- Success means that the whole response left exactly when the socket refuses
the bytes, or the version is known, every append succeeds and the socket takes
as many bytes as the text has. -/
theorem httpSendResponse_success_iff {alloc : Nat → Bool} {frame : Frame} {write : Option Nat}
    {response : HttpResponse} {herr : HttpErr} {sent : Sent}
    (h : httpSendResponse alloc frame write response = .ok (herr, sent)) :
    (herr = .success → sent.Whole frame response) ↔
      ∀ n, write = some n → response.version ≠ .unkown ∧
        (∀ i, i < response.pieces.length → alloc i = true) ∧ response.textLength ≤ n := by
  obtain ⟨hpost, ⟨rfl, rfl, -⟩ | ⟨n, rfl, rfl, haccepted⟩⟩ := httpSendResponse_ok h
  · simp
  · obtain ⟨hversion, hserialised⟩ := httpResponseToString_ok hpost
    simp only [true_implies, Option.some.injEq, forall_eq', Sent.Whole]
    constructor
    · rintro ⟨hsuccess, hcomplete, htext⟩
      obtain ⟨hall, hwhole⟩ := hserialised hsuccess
      obtain ⟨hfull, hlen⟩ := hwhole hcomplete
      refine ⟨hversion.mp hsuccess, hall.mp hcomplete, ?_⟩
      rw [hfull, haccepted, Except.ok.injEq] at htext
      have hle := congrArg List.length htext
      rw [List.length_take, hlen] at hle
      omega
    · rintro ⟨hknown, hallocs, hle⟩
      have hsuccess := hversion.mpr hknown
      obtain ⟨hall, hwhole⟩ := hserialised hsuccess
      have hcomplete := hall.mpr hallocs
      obtain ⟨hfull, hlen⟩ := hwhole hcomplete
      refine ⟨hsuccess, hcomplete, ?_⟩
      rw [hfull, haccepted, List.take_of_length_le (by omega)]

/-- A response with a body of two bytes, as the fixtures send it. -/
def smallResponse : HttpResponse where
  method := .get
  version := .ver11
  status := (httpSetStatus 200).2
  headerList := [⟨.contentLength, .live (ascii "2".toList)⟩]
  body := .live (ascii "hi".toList)

theorem smallResponse_whole :
    ∃ sent, httpSendResponse (fun _ => true) none (some 100) smallResponse = .ok (.success, sent) ∧
      sent.Whole none smallResponse := by
  have hsend : ∃ sent,
      httpSendResponse (fun _ => true) none (some 100) smallResponse = .ok (.success, sent) :=
    ⟨_, rfl⟩
  obtain ⟨sent, h⟩ := hsend
  refine ⟨sent, h, (httpSendResponse_success_iff h).mpr ?_ rfl⟩
  rintro n hn
  simp only [Option.some.injEq] at hn
  subst hn
  exact ⟨by decide, fun _ _ => rfl, by decide⟩

/-- The socket takes ten bytes, and the call is a success. -/
theorem smallResponse_cut :
    ¬ ∀ herr sent, httpSendResponse (fun _ => true) none (some 10) smallResponse = .ok (herr, sent) →
      herr = .success → sent.Whole none smallResponse := by
  intro hall
  have hsend : ∃ sent,
      httpSendResponse (fun _ => true) none (some 10) smallResponse = .ok (.success, sent) ∧
        sent.accepted.length = 10 := ⟨_, rfl, by decide⟩
  obtain ⟨sent, h, hten⟩ := hsend
  obtain ⟨-, -, htext⟩ := hall _ _ h rfl
  have hfull : ∃ text, smallResponse.text none = .ok text ∧ text.length ≠ 10 := ⟨_, rfl, by decide⟩
  obtain ⟨text, hfull, hlen⟩ := hfull
  rw [hfull, Except.ok.injEq] at htext
  exact hlen (htext ▸ hten)

end LiteHttp
