import LiteHttp.Node

/-!
# When an assertion of the parser fails

The assertions of the header loop and of the request line never fail. The ones
behind the message do, in a debug build, exactly on a call that finds a message
which does not take up the buffer to its last byte: bytes behind it, a chunked
body, or a length that leads past the buffer.
-/

namespace LiteHttp

open Run

set_option autoImplicit false

/-- A message that the call completes ends where the buffer does. -/
def Fits (c : ClientConn) (i : Feed) : Prop := ∀ v ∈ c.verdict i, v.fits = true

instance (c : ClientConn) (i : Feed) : Decidable (Fits c i) := by unfold Fits; infer_instance

def glued : Feed := ⟨fun _ => true, ascii "GET / HTTP/1.1\r\n\r\nX".toList⟩

theorem feedStep_asserts {b : Build} {c : ClientConn} {i : Feed} {e : Fault} (hc : c.Live b)
    (hfits : Fits c i) (hstep : c.feedStep b i = .error e) : ¬ ∃ a, e = .assertFailed a := by
  obtain ⟨ctx, rfl, h⟩ := hc
  rw [ClientConn.feedStep] at hstep
  rcases feed_cases h i.alloc i.post with hr | ⟨a, -, hv, -⟩ | ⟨ctx', hr, -⟩
  · rw [hr, Except.error.injEq] at hstep
    subst hstep
    simp
  · have := hfits _ rfl
    simp [hv] at this
  · simp [hr] at hstep

theorem fits_of_feedStep {c c' : ClientConn} {i : Feed} {herr : HttpErr} (hc : c.Live .debug)
    (hstep : c.feedStep .debug i = .ok (herr, c')) : Fits c i := by
  obtain ⟨ctx, rfl, h⟩ := hc
  obtain ⟨ctx', -, -, -, -, -, hv⟩ := feedStep_single_ok h hstep
  rintro v hmem
  simp only [verdict_single, Option.mem_def, Option.some.injEq] at hmem
  exact hmem ▸ hv rfl

theorem meets_fits_of_exec {c c' : ClientConn} {is : List Feed} {herrs : List HttpErr}
    (hc : c.Live .debug) (hx : exec (ClientConn.feedStep .debug) c is = .ok (herrs, c')) :
    Meets (ClientConn.feedStep .debug) Fits c is := by
  induction is generalizing c herrs with
  | nil => trivial
  | cons i is ih =>
    obtain ⟨herr, t, herrs', hs, hr, rfl⟩ := exec_cons_ok hx
    rw [meets_cons_iff hs]
    exact ⟨fits_of_feedStep hc hs, ih (live_feedStep hc hs) hr⟩

/-- No run of calls that fit fails an assertion, and a debug build that gets
through a run made only such calls. -/
theorem run_asserts_hold (b : Build) (is : List Feed) :
    (Meets (ClientConn.feedStep b) Fits .new is →
      ∀ a, exec (ClientConn.feedStep b) .new is ≠ .error (.assertFailed a)) ∧
    (∀ herrs c, exec (ClientConn.feedStep .debug) .new is = .ok (herrs, c) →
      Meets (ClientConn.feedStep .debug) Fits .new is) := by
  constructor
  · intro hm a hx
    exact safe_of_meets (fun h _ hs => live_feedStep h hs) (fun h hf hs => feedStep_asserts h hf hs)
      (live_new b) hm hx ⟨a, rfl⟩
  · intro herrs c hx
    exact meets_fits_of_exec (live_new .debug) hx

def cutMessage : List Feed :=
  [⟨fun _ => true, ascii "PUT / HTTP/1.1\r\nContent-Length: 2\r\n\r".toList⟩,
   ⟨fun _ => true, ascii "\nh".toList⟩, ⟨fun _ => true, ascii "i".toList⟩]

theorem cutMessage_asserts_hold :
    ¬ ∃ a, exec (ClientConn.feedStep .debug) .new cutMessage = .error (.assertFailed a) := by
  rintro ⟨a, hx⟩
  exact (run_asserts_hold .debug cutMessage).1 (by decide +kernel) a hx

theorem glued_assert_fails :
    exec (ClientConn.feedStep .debug) .new [glued] = .error (.assertFailed .endLength) := by
  rfl

end LiteHttp
