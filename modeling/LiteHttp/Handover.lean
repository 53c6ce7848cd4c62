import LiteHttp.Serving
import LiteHttp.Starved

/-!
# The bytes of one event on their way to the parser

`read_client` collects what `read` returns and `handle_client_fd` hands it to
`http_parse_feed`. An end of file or an error closes the connection in front of that call,
and an append that got no memory leaves out its bytes without a word. What reaches the parser
is still lost where the parser finds no memory for it, and a request it finishes is lost where
it is not served.
-/

namespace LiteHttp

open Delim Run

set_option autoImplicit false

/-- The posts `handle_client_fd` calls `http_parse_feed` with. -/
def handedPosts (event : ReadEvent) : List Bytes :=
  match readClient event.last event.reads [] with
  | .ok (.success, receivePost) => [receivePost]
  | _ => []

/-- What lies behind the message of a finished tail. -/
def ClientConn.behind (c : ClientConn) : Bytes :=
  match c.node with
  | none => []
  | some ctx => if ctx.waitState = .parseEnd then ctx.post.drop ctx.nextLine else []

section Reads

variable {last : ReadEnd} {steps : List ReadStep} {recStr : Bytes}

end Reads

section Event

variable {event : ReadEvent}

/-- Without one the parser has no part in the event. -/
theorem arrive_of_none (h : handedPosts event = []) (b : Build) (c : ClientConn) :
    (∃ e, arrive b event c = .error e) ∨ ∃ herr c', arrive b event c = .ok (.ret herr c') ∧
      (c' = none ∨ c' = some c) := by
  unfold arrive
  cases hread : readClient event.last event.reads [] with
  | error e => exact Or.inl ⟨e, rfl⟩
  | ok p =>
    obtain ⟨herr, post⟩ := p
    right
    by_cases hclose : herr = .clientClose
    · refine ⟨if event.epollCtlOk then herr else .epollCtlDel, none, ?_, Or.inl rfl⟩
      simp [hclose, bind, Except.bind, pure, Except.pure]
    · by_cases hok : herr = .success
      · rw [handedPosts, hread, hok] at h
        cases h
      · refine ⟨herr, some c, ?_, Or.inr rfl⟩
        simp [hclose, hok, bind, Except.bind, pure, Except.pure]

end Event

section Parsed

variable {b : Build} {event : ReadEvent} {envs : Nat → AnswerEnv} {ctx ideal : HttpParseCtx}

section Arrived

variable {c : ClientConn} {code : HttpErr} {post : Bytes} (hposts : handedPosts event = [post])
  (hfeed : c.feed b event.alloc post = .ok (code, .single ideal)) (hfatal : code ≠ .requestFatal)
  (hlast : ideal.nextCtx = none)
include hposts hfeed hfatal

include hlast

end Arrived

end Parsed

section Reached

variable {b : Build}

end Reached

/-- The parser gets no memory for the bytes it is handed. -/
def refused : ReadEvent :=
  ⟨[.data (getLine ++ [cr, lf, cr, lf]) true], .again, fun site => site ≠ .append, true⟩

end LiteHttp
