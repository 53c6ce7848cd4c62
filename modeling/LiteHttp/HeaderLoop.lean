import LiteHttp.ParseFeed
import LiteHttp.Lib.Delim

/-!
# What the cursors and the line parsers do

One lemma for each helper of http_parse_dfa.c, and `LoopRun`, which says what
one round of the header loop can do. The assertions inside the loop are
discharged here once: later modules reason about `LoopRun` and never unfold it.
-/

namespace LiteHttp

open Delim

set_option autoImplicit false

abbrev cutLine : Bytes → Option (Bytes × Bytes) := cut cr lf

abbrev CrlfFree (s : Bytes) : Prop := Free cr lf s

/-- The bytes behind `next_line`, which no label has looked at yet. -/
def HttpParseCtx.unread (ctx : HttpParseCtx) : Bytes := ctx.post.drop ctx.nextLine

/-- The cursors lie inside a buffer that fits the address space. -/
structure HttpParseCtx.Sized (ctx : HttpParseCtx) : Prop where
  cur_le : ctx.cur ≤ ctx.nextLine
  next_le : ctx.nextLine ≤ ctx.post.length
  post_lt : ctx.post.length < ptrdiffMax

/-- The node with its cursors around the line `l` that starts at `next_line`. -/
def HttpParseCtx.toLine (ctx : HttpParseCtx) (l : Bytes) : HttpParseCtx :=
  { ctx with cur := ctx.nextLine, nextLine := ctx.nextLine + l.length + 2 }

theorem findClrf_eq (s : Bytes) : findClrf s = (cutLine s).map fun p => p.1.length := by
  induction s with
  | nil => rfl
  | cons c t ih =>
    simp only [findClrf, cut]
    split
    · rfl
    · rw [ih, Option.map_map, Option.map_map]
      rfl

theorem updateCtxToNextClrf_open {ctx : HttpParseCtx} (h : cutLine ctx.unread = none) :
    updateCtxToNextClrf ctx = (.parseCannotFindClrf, ctx) := by
  have hf : findClrf (ctx.post.drop ctx.nextLine) = none := by
    rw [findClrf_eq]
    exact Option.map_eq_none_iff.mpr h
  simp [updateCtxToNextClrf, hf]

theorem updateCtxToNextClrf_line {ctx : HttpParseCtx} {l r : Bytes}
    (h : cutLine ctx.unread = some (l, r)) :
    updateCtxToNextClrf ctx = (.success, ctx.toLine l) := by
  have hf : findClrf (ctx.post.drop ctx.nextLine) = some l.length := by
    rw [findClrf_eq]
    exact Option.map_eq_some_iff.mpr ⟨(l, r), h, rfl⟩
  simp [updateCtxToNextClrf, hf, HttpParseCtx.toLine]

section Line

variable {ctx : HttpParseCtx} {l r : Bytes}

theorem line_end_le (hs : ctx.Sized) (h : cutLine ctx.unread = some (l, r)) :
    ctx.nextLine + l.length + 2 + r.length = ctx.post.length := by
  have hlen := cut_length h
  have hdrop : ctx.unread.length = ctx.post.length - ctx.nextLine := List.length_drop
  have := hs.next_le
  omega

theorem Sized.toLine (hs : ctx.Sized) (h : cutLine ctx.unread = some (l, r)) :
    (ctx.toLine l).Sized := by
  have hend := line_end_le hs h
  exact ⟨by simp only [HttpParseCtx.toLine]; omega, by simp only [HttpParseCtx.toLine]; omega,
    hs.post_lt⟩

theorem unread_toLine (h : cutLine ctx.unread = some (l, r)) : (ctx.toLine l).unread = r := by
  have hr : ctx.unread.drop (l.length + 2) = r := by
    rw [eq_of_cut h, ← List.drop_drop, List.drop_left]
    rfl
  rw [← hr, HttpParseCtx.unread, HttpParseCtx.unread, List.drop_drop]
  rfl

theorem line_size (hs : ctx.Sized) (h : cutLine ctx.unread = some (l, r)) :
    sizeSub (sizeSub (ctx.toLine l).nextLine (ctx.toLine l).cur) 2 = l.length := by
  have hend := line_end_le hs h
  have hlt := hs.post_lt
  have hinner : sizeSub (ctx.nextLine + l.length + 2) ctx.nextLine = l.length + 2 := by
    rw [sizeSub_eq (by omega) (by unfold sizeMod ptrdiffMax at *; omega)]
    omega
  simp only [HttpParseCtx.toLine, hinner]
  rw [sizeSub_eq (by omega) (by unfold sizeMod ptrdiffMax at *; omega)]
  omega

theorem getCtxLine_toLine (b : Build) (hs : ctx.Sized) (h : cutLine ctx.unread = some (l, r)) :
    getCtxLine b (ctx.toLine l) = .ok l.length := by
  have hcur : (ctx.toLine l).cur + 2 ≤ (ctx.toLine l).nextLine := by
    simp only [HttpParseCtx.toLine]
    omega
  rw [getCtxLine, assert_of hcur, line_size hs h]
  rfl

theorem getCtxFocusLine_toLine (b : Build) (hs : ctx.Sized)
    (h : cutLine ctx.unread = some (l, r)) : getCtxFocusLine b (ctx.toLine l) = .ok l := by
  have hcur : (ctx.toLine l).cur + 2 ≤ (ctx.toLine l).nextLine := by
    simp only [HttpParseCtx.toLine]
    omega
  have htake : ((ctx.toLine l).post.drop (ctx.toLine l).cur).take l.length = l := by
    have hpost : (ctx.toLine l).post.drop (ctx.toLine l).cur = ctx.unread := rfl
    rw [hpost, eq_of_cut h, List.take_left]
  rw [getCtxFocusLine, assert_of hcur, line_size hs h, htake]
  rfl

end Line

/-- What the header lines read so far say about the body. -/
structure Framing where
  bodyType : BodyType
  bodyLength : Nat
  deriving DecidableEq, Repr

def Framing.none : Framing := ⟨.unset, 0⟩

def HttpParseCtx.framing (ctx : HttpParseCtx) : Framing := ⟨ctx.bodyType, ctx.bodyLength⟩

/-- The effect of a parsed header on the framing. -/
def HttpHeader.frame (h : HttpHeader) (f : Framing) : Framing :=
  match h.field with
  | .contentLength =>
    if h.value.hasParsedType then
      ⟨.fixed, (h.value.parsed.contentLength % (sizeMod : Int)).toNat⟩
    else f
  | .transferEncoding =>
    if h.value.hasParsedType ∧ h.value.parsed.firstWord = TransferEncodingType.chunked.toNat then
      { f with bodyType := .chunked }
    else f
  | _ => f

theorem headerLineUpdateBodyType_snd (h : HttpHeader) (ctx : HttpParseCtx) :
    (headerLineUpdateBodyType h ctx).2 = { ctx with
      bodyType := (h.frame ctx.framing).bodyType
      bodyLength := (h.frame ctx.framing).bodyLength } := by
  unfold headerLineUpdateBodyType HttpHeader.frame HttpParseCtx.framing
  cases hf : h.field with
  | contentLength =>
    simp only
    split <;> rfl
  | transferEncoding =>
    simp only
    split <;> rfl
  | contentType =>
    simp only
    split
    · rfl
    · split
      · rfl
      · split <;> rfl
  | host => rfl
  | userAgent => rfl
  | accept => rfl
  | connection => rfl
  | max => rfl
  | unkown => rfl

/-- The code and the header `parse_header_line` gets out of a line; `none` when
the line has no colon. -/
def headerOf (l : Bytes) : Option (HttpErr × HttpHeader) :=
  (posNextToken l colon 0).map fun (tokenLen, nextToken) =>
    let curToken := if l[nextToken]? = some space then nextToken + 1 else nextToken
    newHeader (stringViewSubstr l 0 tokenLen) (stringViewSubstr l curToken npos)

/-- The framing behind a header line that was recorded. -/
def frameLine (l : Bytes) (f : Framing) : Framing :=
  match headerOf l with
  | none => f
  | some (_, h) => h.frame f

def HttpParseCtx.addHeader (ctx : HttpParseCtx) (h : HttpHeader) : HttpParseCtx :=
  { ctx with
    httpRequest := { ctx.httpRequest with headerList := ctx.httpRequest.headerList ++ [h] }
    bodyType := (h.frame ctx.framing).bodyType
    bodyLength := (h.frame ctx.framing).bodyLength }

theorem parseHeaderLine_snoc {ctx : HttpParseCtx} {hs : List Bytes} {l : Bytes}
    (h : ctx.headerList = hs ++ [l]) (pushOk : Bool) :
    parseHeaderLine pushOk ctx =
      match headerOf l with
      | none => (.parseCannotFindSpace, ctx)
      | some (herr, header) => if pushOk then (herr, ctx.addHeader header) else (.malloc, ctx) := by
  have hlast : ctx.headerList.getLast?.getD [] = l := by simp [h]
  unfold parseHeaderLine headerOf
  rw [hlast]
  cases hp : posNextToken l colon 0 with
  | none => simp only [hp, Option.map_none]
  | some p =>
    cases pushOk with
    | false => simp only [hp, ccPush, Bool.false_eq_true, if_false, Option.map_some]
    | true =>
      simp only [hp, ccPush, if_true, Option.map_some, headerLineUpdateBodyType_snd]
      rfl

theorem httpHdrParseValue_fst (h : HttpHeader) (v : Bytes) :
    (httpHdrParseValue h v).1 = .success ∨ (httpHdrParseValue h v).1 = .parseValue := by
  unfold httpHdrParseValue
  simp only
  split
  · exact Or.inr rfl
  · exact Or.inl rfl

theorem newHeader_fst (k v : Bytes) :
    (newHeader k v).1 = .success ∨ (newHeader k v).1 = .parseValue := by
  unfold newHeader
  simp only [apply_ite Prod.fst, ite_self]
  exact httpHdrParseValue_fst _ _

theorem parseHeaderLine_not_fatal {ctx : HttpParseCtx} {hs : List Bytes} {l : Bytes}
    (h : ctx.headerList = hs ++ [l]) (pushOk : Bool) :
    (parseHeaderLine pushOk ctx).1 ≠ .requestFatal := by
  rw [parseHeaderLine_snoc h]
  cases hl : headerOf l with
  | none => simp
  | some p =>
    obtain ⟨herr, header⟩ := p
    have hfst : herr = .success ∨ herr = .parseValue := by
      obtain ⟨t, -, ht⟩ := Option.map_eq_some_iff.mp hl
      have := newHeader_fst (stringViewSubstr l 0 t.1)
        (stringViewSubstr l (if l[t.2]? = some space then t.2 + 1 else t.2) npos)
      simp only at ht
      rwa [ht] at this
    cases pushOk with
    | false => simp
    | true => rcases hfst with rfl | rfl <;> simp

/-- The node behind one header line that was pushed on its line list. -/
def HttpParseCtx.takeLine (ctx : HttpParseCtx) (pushOk : Bool) (l : Bytes) : HttpParseCtx :=
  (parseHeaderLine pushOk { ctx.toLine l with headerList := ctx.headerList ++ [l] }).2

theorem takeLine_eq (ctx : HttpParseCtx) (pushOk : Bool) (l : Bytes) :
    ctx.takeLine pushOk l =
      let ctx' := { ctx.toLine l with headerList := ctx.headerList ++ [l] }
      match headerOf l with
      | none => ctx'
      | some (_, header) => if pushOk then ctx'.addHeader header else ctx' := by
  have hsnoc : ({ ctx.toLine l with headerList := ctx.headerList ++ [l] } :
      HttpParseCtx).headerList = ctx.headerList ++ [l] := rfl
  unfold HttpParseCtx.takeLine
  rw [parseHeaderLine_snoc hsnoc]
  cases headerOf l with
  | none => rfl
  | some p => cases pushOk <;> rfl

section TakeLine

variable (ctx : HttpParseCtx) (pushOk : Bool) (l : Bytes)

@[simp] theorem takeLine_waitState : (ctx.takeLine pushOk l).waitState = ctx.waitState := by
  rw [takeLine_eq]
  cases headerOf l with
  | none => rfl
  | some p => cases pushOk <;> rfl

@[simp] theorem takeLine_post : (ctx.takeLine pushOk l).post = ctx.post := by
  rw [takeLine_eq]
  cases headerOf l with
  | none => rfl
  | some p => cases pushOk <;> rfl

@[simp] theorem takeLine_postFullLength :
    (ctx.takeLine pushOk l).postFullLength = ctx.postFullLength := by
  rw [takeLine_eq]
  cases headerOf l with
  | none => rfl
  | some p => cases pushOk <;> rfl

@[simp] theorem takeLine_cur : (ctx.takeLine pushOk l).cur = ctx.nextLine := by
  rw [takeLine_eq]
  cases headerOf l with
  | none => rfl
  | some p => cases pushOk <;> rfl

@[simp] theorem takeLine_nextLine :
    (ctx.takeLine pushOk l).nextLine = ctx.nextLine + l.length + 2 := by
  rw [takeLine_eq]
  cases headerOf l with
  | none => rfl
  | some p => cases pushOk <;> rfl

@[simp] theorem takeLine_requestLine : (ctx.takeLine pushOk l).requestLine = ctx.requestLine := by
  rw [takeLine_eq]
  cases headerOf l with
  | none => rfl
  | some p => cases pushOk <;> rfl

@[simp] theorem takeLine_headerList :
    (ctx.takeLine pushOk l).headerList = ctx.headerList ++ [l] := by
  rw [takeLine_eq]
  cases headerOf l with
  | none => rfl
  | some p => cases pushOk <;> rfl

@[simp] theorem takeLine_nextCtx : (ctx.takeLine pushOk l).nextCtx = ctx.nextCtx := by
  rw [takeLine_eq]
  cases headerOf l with
  | none => rfl
  | some p => cases pushOk <;> rfl

theorem takeLine_framing : (ctx.takeLine pushOk l).framing =
    if pushOk then frameLine l ctx.framing else ctx.framing := by
  rw [takeLine_eq, frameLine]
  cases headerOf l with
  | none => simp; rfl
  | some p => cases pushOk <;> rfl

theorem takeLine_unread {r : Bytes} (h : cutLine ctx.unread = some (l, r)) :
    (ctx.takeLine pushOk l).unread = r := by
  rw [← unread_toLine h]
  simp [HttpParseCtx.unread, HttpParseCtx.toLine]

theorem takeLine_sized {r : Bytes} (hs : ctx.Sized) (h : cutLine ctx.unread = some (l, r)) :
    (ctx.takeLine pushOk l).Sized := by
  have hend := line_end_le hs h
  refine ⟨?_, ?_, ?_⟩
  · rw [takeLine_cur, takeLine_nextLine]
    omega
  · rw [takeLine_nextLine, takeLine_post]
    omega
  · rw [takeLine_post]
    exact hs.post_lt

end TakeLine

/-- The header loop from a node, with the rounds it has left, to where it leaves. -/
inductive LoopRun (alloc : Alloc) : Nat → HttpParseCtx → LoopExit → Prop where
  | full (ctx : HttpParseCtx) : LoopRun alloc 0 ctx (.done 101 ctx)
  | open {left : Nat} {ctx : HttpParseCtx} (h : cutLine ctx.unread = none) :
      LoopRun alloc (left + 1) ctx (.ret .parseCannotFindClrf ctx)
  | blank {left : Nat} {ctx : HttpParseCtx} {r : Bytes} (h : cutLine ctx.unread = some ([], r)) :
      LoopRun alloc (left + 1) ctx
        (.done (100 - left) { ctx.toLine [] with cur := ctx.nextLine + 2 })
  | lost {left : Nat} {ctx : HttpParseCtx} {l r : Bytes} (h : cutLine ctx.unread = some (l, r))
      (hl : l ≠ []) (hpush : alloc (.line (100 - left)) = false) :
      LoopRun alloc (left + 1) ctx (.ret .malloc (ctx.toLine l))
  | line {left : Nat} {ctx : HttpParseCtx} {l r : Bytes} {e : LoopExit}
      (h : cutLine ctx.unread = some (l, r)) (hl : l ≠ [])
      (hpush : alloc (.line (100 - left)) = true)
      (hrest : LoopRun alloc left (ctx.takeLine (alloc (.header (100 - left))) l) e) :
      LoopRun alloc (left + 1) ctx e

/-- No assertion fails inside the header loop, and it leaves as `LoopRun` says. -/
theorem headerLoop_run (b : Build) (alloc : Alloc) (left : Nat) {ctx : HttpParseCtx}
    (hs : ctx.Sized) : ∃ e, headerLoop b alloc left ctx = .ok e ∧ LoopRun alloc left ctx e := by
  induction left generalizing ctx with
  | zero => exact ⟨_, rfl, .full ctx⟩
  | succ left ih =>
    cases h : cutLine ctx.unread with
    | none =>
      refine ⟨_, ?_, .open h⟩
      simp only [headerLoop, updateCtxToNextClrf_open h, if_true]
      rfl
    | some p =>
      obtain ⟨l, r⟩ := p
      by_cases hl : l = []
      · subst hl
        refine ⟨_, ?_, .blank h⟩
        have hdrop : ctx.unread = cr :: lf :: r := eq_of_cut h
        have hcr : ctx.post[ctx.nextLine]? = some cr := by
          rw [← List.head?_drop, ← HttpParseCtx.unread, hdrop]
          rfl
        have hlf : ctx.post[ctx.nextLine + 1]? = some lf := by
          rw [← List.head?_drop, ← List.drop_drop, ← HttpParseCtx.unread, hdrop]
          rfl
        simp only [headerLoop, updateCtxToNextClrf_line h, getCtxLine_toLine b hs h,
          reduceCtorEq, if_false, bind, Except.bind, List.length_nil, if_true]
        rw [assert_of (show (ctx.toLine []).post[(ctx.toLine []).cur]? = some cr from hcr),
          assert_of (show (ctx.toLine []).post[(ctx.toLine []).cur + 1]? = some lf from hlf)]
        rfl
      · have hlen : l.length ≠ 0 := by simpa using hl
        by_cases hpush : alloc (.line (100 - left)) = true
        · obtain ⟨e, he, hrun⟩ := ih (takeLine_sized ctx (alloc (.header (100 - left))) l hs h)
          refine ⟨e, ?_, .line h hl hpush hrun⟩
          have hfatal : (parseHeaderLine (alloc (.header (100 - left)))
              { ctx.toLine l with headerList := ctx.headerList ++ [l] }).1 ≠ .requestFatal :=
            parseHeaderLine_not_fatal rfl _
          simp only [headerLoop, updateCtxToNextClrf_line h, getCtxLine_toLine b hs h,
            getCtxFocusLine_toLine b hs h, reduceCtorEq, if_false, bind, Except.bind, hlen,
            ccPush, hpush, if_true]
          have hlist : (ctx.toLine l).headerList = ctx.headerList := rfl
          simp only [hlist, hfatal, if_false]
          exact he
        · have hpush' : alloc (.line (100 - left)) = false := by simpa using hpush
          refine ⟨_, ?_, .lost h hl hpush'⟩
          simp only [headerLoop, updateCtxToNextClrf_line h, getCtxLine_toLine b hs h,
            getCtxFocusLine_toLine b hs h, reduceCtorEq, if_false, bind, Except.bind, hlen,
            ccPush, hpush', Bool.false_eq_true]
          rfl

end LiteHttp
