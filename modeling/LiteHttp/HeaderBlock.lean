import LiteHttp.Refine

/-!
# The header loop when every allocation succeeds

The loop then takes the block of lines that `Delim.collect` cuts off the unread
bytes, and the node it leaves is the one that took these lines one by one.
-/

namespace LiteHttp

open Delim

set_option autoImplicit false

/-- Every allocation of the call succeeds. -/
def allOk : Alloc := fun _ => true

/-- The header `parse_header_line` records for a line, if the line has a colon. -/
def parsedHeader (l : Bytes) : Option HttpHeader := (headerOf l).map Prod.snd

/-- The node behind header lines that were all recorded. -/
def HttpParseCtx.takeLines (ctx : HttpParseCtx) (ls : List Bytes) : HttpParseCtx :=
  ls.foldl (fun ctx l => ctx.takeLine true l) ctx

theorem parsedHeader_isSome_iff (l : Bytes) : (parsedHeader l).isSome ↔ colon ∈ l := by
  have hnone : posNextToken l colon 0 = none ↔ colon ∉ l.drop 0 := posNextToken_eq_none_iff
  rw [List.drop_zero] at hnone
  rw [parsedHeader, headerOf, Option.isSome_map, Option.isSome_map, ← not_iff_not, ← hnone,
    Option.not_isSome_iff_eq_none]

section TakeLines

variable (ctx : HttpParseCtx) (l : Bytes) (ls : List Bytes)

theorem takeLines_cons : ctx.takeLines (l :: ls) = (ctx.takeLine true l).takeLines ls := rfl

theorem takeLine_true_httpRequest : (ctx.takeLine true l).httpRequest =
    { ctx.httpRequest with
      headerList := ctx.httpRequest.headerList ++ (parsedHeader l).toList } := by
  rw [takeLine_eq, parsedHeader]
  cases headerOf l with
  | none => simp [HttpParseCtx.toLine]
  | some p => rfl

@[simp] theorem takeLines_waitState : (ctx.takeLines ls).waitState = ctx.waitState := by
  induction ls generalizing ctx with
  | nil => rfl
  | cons l ls ih => rw [takeLines_cons, ih, takeLine_waitState]

@[simp] theorem takeLines_post : (ctx.takeLines ls).post = ctx.post := by
  induction ls generalizing ctx with
  | nil => rfl
  | cons l ls ih => rw [takeLines_cons, ih, takeLine_post]

@[simp] theorem takeLines_nextCtx : (ctx.takeLines ls).nextCtx = ctx.nextCtx := by
  induction ls generalizing ctx with
  | nil => rfl
  | cons l ls ih => rw [takeLines_cons, ih, takeLine_nextCtx]

@[simp] theorem takeLines_postFullLength :
    (ctx.takeLines ls).postFullLength = ctx.postFullLength := by
  induction ls generalizing ctx with
  | nil => rfl
  | cons l ls ih => rw [takeLines_cons, ih, takeLine_postFullLength]

@[simp] theorem takeLines_nextLine :
    (ctx.takeLines ls).nextLine = ctx.nextLine + (unlines cr lf ls).length := by
  induction ls generalizing ctx with
  | nil => rfl
  | cons l ls ih =>
    rw [takeLines_cons, ih, takeLine_nextLine, unlines_cons, List.length_append, List.length_cons,
      List.length_cons]
    omega

theorem takeLines_framing :
    (ctx.takeLines ls).framing = ls.foldl (fun f l => frameLine l f) ctx.framing := by
  induction ls generalizing ctx with
  | nil => rfl
  | cons l ls ih => rw [takeLines_cons, ih, takeLine_framing, if_pos rfl, List.foldl_cons]

theorem takeLines_httpRequest : (ctx.takeLines ls).httpRequest =
    { ctx.httpRequest with
      headerList := ctx.httpRequest.headerList ++ ls.filterMap parsedHeader } := by
  induction ls generalizing ctx with
  | nil => simp [HttpParseCtx.takeLines]
  | cons l ls ih =>
    rw [takeLines_cons, ih, takeLine_true_httpRequest]
    cases hl : parsedHeader l <;> simp [hl]

end TakeLines

/-- How the loop leaves a node in front of a block of lines. -/
def blockExit (left : Nat) (ctx : HttpParseCtx) (k : Block Byte) : LoopExit :=
  let ctx := ctx.takeLines k.records
  match k.stop with
  | .open => .ret .parseCannotFindClrf ctx
  | .blank =>
    .done (101 - left + k.records.length) { ctx.toLine [] with cur := ctx.nextLine + 2 }
  | .full => .done 101 ctx

theorem blockExit_push {left : Nat} (hleft : left ≤ 100) (ctx : HttpParseCtx) (l : Bytes)
    (k : Block Byte) :
    blockExit (left + 1) ctx (k.push l) = blockExit left (ctx.takeLine true l) k := by
  have hcnt : 101 - (left + 1) + (k.records.length + 1) = 101 - left + k.records.length := by omega
  unfold blockExit
  rw [Delim.Block.push_records, Delim.Block.push_stop, takeLines_cons, List.length_cons, hcnt]

theorem loopRun_collect {left : Nat} (hleft : left ≤ 100) {ctx : HttpParseCtx} {e : LoopExit}
    (hrun : LoopRun allOk left ctx e) : e = blockExit left ctx (collect cr lf left ctx.unread) := by
  induction hrun with
  | full ctx => rfl
  | «open» hc =>
    rw [collect_succ_none hc]
    rfl
  | @blank left ctx r hc =>
    have hcnt : 100 - left = 101 - (left + 1) + 0 := by omega
    rw [collect_succ_blank hc, hcnt]
    rfl
  | lost hc hl hpush => simp [allOk] at hpush
  | @line left ctx l r e hc hl hpush hrest ih =>
    rw [ih (by omega), collect_succ_record hc hl, blockExit_push (by omega),
      takeLine_unread ctx _ l hc]
    rfl

theorem headerLoop_collect (b : Build) {left : Nat} (hleft : left ≤ 100) {ctx : HttpParseCtx}
    (hs : ctx.Sized) :
    headerLoop b allOk left ctx = .ok (blockExit left ctx (collect cr lf left ctx.unread)) := by
  obtain ⟨e, he, hrun⟩ := headerLoop_run b allOk left hs
  rw [he, loopRun_collect hleft hrun]

theorem labelWaitHdr_collect (b : Build) {ctx : HttpParseCtx} (hs : ctx.Sized) :
    labelWaitHdr b allOk ctx = behindLoop b allOk
      (blockExit 100 { ctx with waitState := .waitHdr } (collect cr lf 100 ctx.unread)) := by
  have hs' : ({ ctx with waitState := .waitHdr } : HttpParseCtx).Sized :=
    ⟨hs.cur_le, hs.next_le, hs.post_lt⟩
  exact labelWaitHdr_eq (headerLoop_collect b (Nat.le_refl 100) hs')

end LiteHttp
