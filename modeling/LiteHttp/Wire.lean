import LiteHttp.HeaderLoop

/-!
# The parser as a reader of one message

What a node is for, without its cursors: a reader that waits for a request line,
for header lines, for a body of known length, or has a whole message. `Wire.feed`
says where one more chunk leaves the reader, how the call ends, and whether the
message it found takes up the buffer exactly.
-/

namespace LiteHttp

open Delim

set_option autoImplicit false

/-- What a node waits for, with the bytes it has not read. -/
inductive Wire where
  | line (unread : Bytes)
  | headers (framing : Framing) (offset : Nat) (unread : Bytes)
  | body (offset length received : Nat)
  | ended
  deriving DecidableEq, Repr

inductive Fate where
  | dropped
  | waiting
  | lost
  | fatal
  | short
  | bodyLost
  | complete
  deriving DecidableEq, Repr

def Fate.code : Fate → HttpErr
  | .dropped => .malloc
  | .waiting => .parseCannotFindClrf
  | .lost => .malloc
  | .fatal => .requestFatal
  | .short => .requestTcpSegmentInBody
  | .bodyLost => .malloc
  | .complete => .success

/-- The end of one call. `fits` is what the assertions behind the message ask of
its place in the buffer. -/
structure Verdict where
  fate : Fate
  fits : Bool
  wire : Wire
  deriving DecidableEq, Repr

/-- A body of `length` bytes at `offset` in a buffer of `received`. -/
def bodyVerdict (alloc : Alloc) (offset length received : Nat) : Verdict :=
  if received < sizeAdd offset length then ⟨.short, true, .body offset length received⟩
  else if smallBufSize ≤ min length (received - offset) ∧ alloc .body = false then
    ⟨.bodyLost, offset + length ≤ received, .body offset length received⟩
  else ⟨.complete, offset + length = received, .ended⟩

/-- Behind the header loop, with `cur` and `next_line` where the loop left them. -/
def afterHeaders (alloc : Alloc) (f : Framing) (cur next received : Nat) : Verdict :=
  match f.bodyType with
  | .unset => ⟨.complete, next = received, .ended⟩
  | .fixed => bodyVerdict alloc cur f.bodyLength received
  -- no chunk is read: both labels of the chunked body fall through to `end`
  | .chunked => ⟨.complete, false, .ended⟩

/-- Header lines at `offset`, with `left` rounds to go; the line before them is at `cur`. -/
def readHeaders (alloc : Alloc) : Nat → Framing → Nat → Nat → Bytes → Verdict
  | 0, f, cur, offset, unread => afterHeaders alloc f cur offset (offset + unread.length)
  | left + 1, f, _, offset, unread =>
    match cutLine unread with
    | none => ⟨.waiting, true, .headers f offset unread⟩
    | some (l, r) =>
      if l = [] then
        if left = 0 then ⟨.fatal, true, .headers f (offset + 2) r⟩
        else afterHeaders alloc f (offset + 2) (offset + 2) (offset + 2 + r.length)
      else if alloc (.line (100 - left)) then
        let f := if alloc (.header (100 - left)) then frameLine l f else f
        readHeaders alloc left f offset (offset + l.length + 2) r
      else ⟨.lost, true, .headers f (offset + l.length + 2) r⟩

def Wire.feed (alloc : Alloc) (w : Wire) (chunk : Bytes) : Verdict :=
  if alloc .append then
    match w with
    | .line unread =>
      match cutLine (unread ++ chunk) with
      | none => ⟨.waiting, true, .line (unread ++ chunk)⟩
      | some (l, r) => readHeaders alloc 100 .none 0 (l.length + 2) r
    | .headers f offset unread => readHeaders alloc 100 f 0 offset (unread ++ chunk)
    | .body offset length received => bodyVerdict alloc offset length (received + chunk.length)
    | .ended => ⟨.complete, chunk = [], .ended⟩
  else ⟨.dropped, true, w⟩

/-- The reader a node stands for. -/
def HttpParseCtx.wire (ctx : HttpParseCtx) : Wire :=
  match ctx.waitState with
  | .start => .line ctx.unread
  | .waitReq => .line ctx.unread
  | .waitHdr => .headers ctx.framing ctx.nextLine ctx.unread
  | .waitFixBody => .body ctx.cur ctx.bodyLength ctx.post.length
  | .waitClen => .ended
  | .waitCval => .ended
  | .parseEnd => .ended

section ReadHeaders

variable {alloc : Alloc} {left : Nat} {f : Framing} {cur offset : Nat} {unread l r : Bytes}

theorem readHeaders_open (h : cutLine unread = none) :
    readHeaders alloc (left + 1) f cur offset unread =
      ⟨.waiting, true, .headers f offset unread⟩ := by simp [readHeaders, h]

theorem readHeaders_blank (h : cutLine unread = some ([], r)) :
    readHeaders alloc (left + 1) f cur offset unread =
      if left = 0 then ⟨.fatal, true, .headers f (offset + 2) r⟩
      else afterHeaders alloc f (offset + 2) (offset + 2) (offset + 2 + r.length) := by
  simp [readHeaders, h]

theorem readHeaders_lost (h : cutLine unread = some (l, r)) (hl : l ≠ [])
    (hpush : alloc (.line (100 - left)) = false) :
    readHeaders alloc (left + 1) f cur offset unread =
      ⟨.lost, true, .headers f (offset + l.length + 2) r⟩ := by
  simp [readHeaders, h, hl, hpush]

theorem readHeaders_line (h : cutLine unread = some (l, r)) (hl : l ≠ [])
    (hpush : alloc (.line (100 - left)) = true) :
    readHeaders alloc (left + 1) f cur offset unread =
      readHeaders alloc left (if alloc (.header (100 - left)) then frameLine l f else f) offset
        (offset + l.length + 2) r := by
  simp [readHeaders, h, hl, hpush]

end ReadHeaders

/-- A whole message is found exactly when the reader ends. -/
def Verdict.Ends (v : Verdict) : Prop := v.fate = .complete ↔ v.wire = .ended

theorem bodyVerdict_ends (alloc : Alloc) (offset length received : Nat) :
    (bodyVerdict alloc offset length received).Ends := by
  unfold bodyVerdict Verdict.Ends
  split
  · simp
  · split <;> simp

theorem afterHeaders_ends (alloc : Alloc) (f : Framing) (cur next received : Nat) :
    (afterHeaders alloc f cur next received).Ends := by
  unfold afterHeaders
  cases f.bodyType with
  | unset => simp [Verdict.Ends]
  | fixed => exact bodyVerdict_ends _ _ _ _
  | chunked => simp [Verdict.Ends]

theorem readHeaders_ends (alloc : Alloc) (left : Nat) (f : Framing) (cur offset : Nat)
    (unread : Bytes) : (readHeaders alloc left f cur offset unread).Ends := by
  induction left generalizing f cur offset unread with
  | zero => exact afterHeaders_ends _ _ _ _ _
  | succ left ih =>
    cases h : cutLine unread with
    | none => simp [readHeaders_open h, Verdict.Ends]
    | some p =>
      obtain ⟨l, r⟩ := p
      by_cases hl : l = []
      · subst hl
        rw [readHeaders_blank h]
        split
        · simp [Verdict.Ends]
        · exact afterHeaders_ends _ _ _ _ _
      · cases hpush : alloc (.line (100 - left)) with
        | false => simp [readHeaders_lost h hl hpush, Verdict.Ends]
        | true =>
          rw [readHeaders_line h hl hpush]
          exact ih _ _ _ _

theorem feed_ends {alloc : Alloc} {w : Wire} (hw : w ≠ .ended) (chunk : Bytes) :
    (w.feed alloc chunk).Ends := by
  unfold Wire.feed
  split
  · cases w with
    | line unread =>
      simp only
      split
      · simp [Verdict.Ends]
      · exact readHeaders_ends _ _ _ _ _ _
    | headers f offset unread => exact readHeaders_ends _ _ _ _ _ _
    | body offset length received => exact bodyVerdict_ends _ _ _ _
    | ended => exact absurd rfl hw
  · simpa [Verdict.Ends] using hw

theorem bodyVerdict_ne_line (alloc : Alloc) (offset length received : Nat) (u : Bytes) :
    (bodyVerdict alloc offset length received).wire ≠ .line u := by
  unfold bodyVerdict
  split
  · simp
  · split <;> simp

theorem afterHeaders_ne_line (alloc : Alloc) (f : Framing) (cur next received : Nat) (u : Bytes) :
    (afterHeaders alloc f cur next received).wire ≠ .line u := by
  unfold afterHeaders
  cases f.bodyType with
  | unset => simp
  | fixed => exact bodyVerdict_ne_line _ _ _ _ _
  | chunked => simp

theorem readHeaders_ne_line (alloc : Alloc) (left : Nat) (f : Framing) (cur offset : Nat)
    (unread u : Bytes) : (readHeaders alloc left f cur offset unread).wire ≠ .line u := by
  induction left generalizing f cur offset unread with
  | zero => exact afterHeaders_ne_line _ _ _ _ _ _
  | succ left ih =>
    cases h : cutLine unread with
    | none => simp [readHeaders_open h]
    | some p =>
      obtain ⟨l, r⟩ := p
      by_cases hl : l = []
      · subst hl
        rw [readHeaders_blank h]
        split
        · simp
        · exact afterHeaders_ne_line _ _ _ _ _ _
      · cases hpush : alloc (.line (100 - left)) with
        | false => simp [readHeaders_lost h hl hpush]
        | true =>
          rw [readHeaders_line h hl hpush]
          exact ih _ _ _ _

theorem feed_ne_line {w : Wire} (hw : ∀ u, w ≠ .line u) (alloc : Alloc) (chunk u : Bytes) :
    (w.feed alloc chunk).wire ≠ .line u := by
  unfold Wire.feed
  split
  · cases w with
    | line v => exact absurd rfl (hw v)
    | headers f offset unread => exact readHeaders_ne_line _ _ _ _ _ _ _
    | body offset length received => exact bodyVerdict_ne_line _ _ _ _ _
    | ended => simp
  · exact hw u

end LiteHttp
