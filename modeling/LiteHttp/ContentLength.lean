import LiteHttp.Framing
import LiteHttp.Node

/-!
# The Content-Length value and the cursors it moves

`strtoll` takes a sign, other white space and trailing bytes, stops at a NUL and
saturates. The value is read as its digits say exactly when it is nothing but
digits within range, or holds no number at all; under the same condition on the
lines of a stream no cursor leaves the buffer.
-/

namespace LiteHttp

open Delim Run

set_option autoImplicit false

/-- A value behind its leading spaces and tabs. -/
def digitsOf (v : Bytes) : Bytes := v.dropWhile isBlank

/-- Nothing but digits of a number up to INT64_MAX, behind leading spaces and tabs. -/
def Canonical (v : Bytes) : Prop :=
  digitsOf v ≠ [] ∧ (∀ c ∈ digitsOf v, isDigit c = true) ∧
    (decimalValue (digitsOf v) : Int) ≤ int64Max

instance (v : Bytes) : Decidable (Canonical v) :=
  have : Decidable (∀ c ∈ digitsOf v, isDigit c = true) := List.decidableBAll _ _
  inferInstanceAs (Decidable (_ ∧ _ ∧ _))

/-- Where `strtoll` looks for digits: behind white space and one sign. -/
def unsigned (s : Bytes) : Bytes :=
  if s.head? = some 45 ∨ s.head? = some 43 then s.tail else s

/-- No digit stands where `strtoll` looks for one. -/
def NoNumber (v : Bytes) : Prop :=
  (unsigned ((toCstr v).dropWhile isSpace)).takeWhile isDigit = []

instance (v : Bytes) : Decidable (NoNumber v) := by unfold NoNumber; infer_instance

/-- The value parser accepts the canonical values only, and as their digits say. -/
def ParsesExactly (value : HttpHdrValue) : Prop :=
  ((httpHdrValueParseContentLength value).1 = .success ↔ Canonical value.valueSv) ∧
  ((httpHdrValueParseContentLength value).1 = .success →
    (httpHdrValueParseContentLength value).2.parsed =
      .content (decimalValue (digitsOf value.valueSv)))

theorem isSpace_of_isBlank {c : Byte} (h : isBlank c = true) : isSpace c = true := by
  unfold isBlank at h
  unfold isSpace
  rw [Bool.or_eq_true, decide_eq_true_eq, decide_eq_true_eq] at h
  rcases h with rfl | rfl
  · decide
  · decide

theorem not_isSpace_of_isDigit {c : Byte} (h : isDigit c = true) :
    isSpace c = false ∧ c ≠ 45 ∧ c ≠ 43 ∧ c ≠ 0 := by
  unfold isDigit at h
  unfold isSpace
  simp only [Bool.and_eq_true, decide_eq_true_eq, UInt8.le_iff_toNat_le] at h
  have hne (d : Byte) (hd : d.toNat < 48) : c ≠ d := by
    rintro rfl
    exact absurd h.1 (by simpa using hd)
  refine ⟨?_, hne 45 (by decide), hne 43 (by decide), hne 0 (by decide)⟩
  have h32 : c ≠ 32 := hne 32 (by decide)
  have h13 : ¬ c ≤ 13 := by
    rw [UInt8.le_iff_toNat_le]
    have h13 : (13 : Byte).toNat = 13 := rfl
    have h48 : (48 : Byte).toNat = 48 := rfl
    omega
  simp [h32, h13]

theorem dropWhile_isSpace_isBlank (s : Bytes) :
    (s.dropWhile isBlank).dropWhile isSpace = s.dropWhile isSpace := by
  induction s with
  | nil => rfl
  | cons c s ih =>
    by_cases hc : isBlank c = true
    · rw [List.dropWhile_cons_of_pos hc, ih, List.dropWhile_cons_of_pos (isSpace_of_isBlank hc)]
    · rw [List.dropWhile_cons_of_neg hc]

theorem strtoll_cases (p : Bytes) :
    ((unsigned (p.dropWhile isSpace)).takeWhile isDigit = [] ∧ strtoll p = (0, 0)) ∨
    ((unsigned (p.dropWhile isSpace)).takeWhile isDigit ≠ [] ∧ (strtoll p).2 ≠ 0 ∧
      (strtoll p).1 =
        let n : Int := decimalValue ((unsigned (p.dropWhile isSpace)).takeWhile isDigit)
        max int64Min (min int64Max (if (p.dropWhile isSpace).head? = some 45 then -n else n))) := by
  have hdef : strtoll p =
      let ds := (unsigned (p.dropWhile isSpace)).takeWhile isDigit
      if ds = [] then (0, 0)
      else
        let n : Int := decimalValue ds
        (max int64Min (min int64Max (if (p.dropWhile isSpace).head? = some 45 then -n else n)),
          p.length - (unsigned (p.dropWhile isSpace)).length + ds.length) := rfl
  by_cases hds : (unsigned (p.dropWhile isSpace)).takeWhile isDigit = []
  · exact Or.inl ⟨hds, by simp only [hdef, hds, if_true]⟩
  · have hpos := List.length_pos_iff.mpr hds
    refine Or.inr ⟨hds, ?_, by simp only [hdef, hds, if_false]⟩
    simp only [hdef, hds, if_false]
    omega

theorem strtoll_offset_iff (v : Bytes) :
    (strtoll ((toCstr v).dropWhile isBlank)).2 = 0 ↔ NoNumber v := by
  have hcases := strtoll_cases ((toCstr v).dropWhile isBlank)
  rw [dropWhile_isSpace_isBlank] at hcases
  rcases hcases with ⟨hno, h⟩ | ⟨hsome, h, -⟩
  · exact iff_of_true (by rw [h]) hno
  · exact iff_of_false h hsome

theorem parseContentLength_success_iff (value : HttpHdrValue) :
    (httpHdrValueParseContentLength value).1 = .success ↔ ¬ NoNumber value.valueSv := by
  rw [← strtoll_offset_iff]
  unfold httpHdrValueParseContentLength
  simp only
  split
  · rename_i h
    simp [h]
  · rename_i h
    simp [h]

theorem takeWhile_isDigit {ds : Bytes} (h : ∀ c ∈ ds, isDigit c = true) :
    ds.takeWhile isDigit = ds := by
  simpa using h

theorem strtoll_canonical {v : Bytes} (h : Canonical v) :
    ¬ NoNumber v ∧ (strtoll ((toCstr v).dropWhile isBlank)).1 = decimalValue (digitsOf v) := by
  obtain ⟨hne, hdigits, hmax⟩ := h
  have hcstr : toCstr v = v := by
    rw [toCstr, List.takeWhile_eq_self_iff]
    intro c hc
    rw [← List.takeWhile_append_dropWhile (p := isBlank) (l := v), List.mem_append] at hc
    rcases hc with hc | hc
    · have hblank := List.mem_takeWhile_imp hc
      rw [decide_eq_true_eq]
      rintro rfl
      simp [isBlank] at hblank
    · simpa using (not_isSpace_of_isDigit (hdigits c hc)).2.2.2
  obtain ⟨d, ds, hds⟩ := List.exists_cons_of_ne_nil hne
  have hd := not_isSpace_of_isDigit (hdigits d (hds ▸ List.mem_cons_self))
  have hspace : (digitsOf v).dropWhile isSpace = digitsOf v := by
    rw [hds, List.dropWhile_cons_of_neg (by simp [hd.1])]
  have hsign : ¬ ((digitsOf v).head? = some 45 ∨ (digitsOf v).head? = some 43) := by
    rw [hds]
    simp [hd.2.1, hd.2.2.1]
  have hminus : ¬ (digitsOf v).head? = some 45 := fun h => hsign (Or.inl h)
  have htake := takeWhile_isDigit hdigits
  have hspace' : v.dropWhile isSpace = digitsOf v := by
    rw [← dropWhile_isSpace_isBlank]
    exact hspace
  have hnumber : (unsigned (v.dropWhile isSpace)).takeWhile isDigit = digitsOf v := by
    rw [unsigned, hspace', if_neg hsign, htake]
  constructor
  · rw [NoNumber, hcstr, hnumber]
    exact hne
  · have hcases := strtoll_cases (v.dropWhile isBlank)
    rw [dropWhile_isSpace_isBlank, hnumber, hspace'] at hcases
    rcases hcases with ⟨hnil, -⟩ | ⟨-, -, hval⟩
    · exact absurd hnil hne
    · simp only [hminus, if_false] at hval
      have hmin : int64Min ≤ (decimalValue (digitsOf v) : Int) := by unfold int64Min; omega
      rw [hcstr, hval]
      omega

theorem parsesExactly_iff (value : HttpHdrValue) :
    ParsesExactly value ↔ Canonical value.valueSv ∨ NoNumber value.valueSv := by
  unfold ParsesExactly
  constructor
  · rintro ⟨hiff, -⟩
    by_cases hno : NoNumber value.valueSv
    · exact Or.inr hno
    · exact Or.inl (hiff.mp ((parseContentLength_success_iff value).mpr hno))
  · rintro (hcan | hno)
    · obtain ⟨hsome, hval⟩ := strtoll_canonical hcan
      have hoff : ¬ (strtoll ((toCstr value.valueSv).dropWhile isBlank)).2 = 0 := by
        intro h
        exact hsome ((strtoll_offset_iff value.valueSv).mp h)
      constructor
      · exact iff_of_true ((parseContentLength_success_iff value).mpr hsome) hcan
      · intro _
        simp only [httpHdrValueParseContentLength, hoff, if_false, hval]
    · have hfail : ¬ (httpHdrValueParseContentLength value).1 = .success := by
        intro h
        exact (parseContentLength_success_iff value).mp h hno
      constructor
      · apply iff_of_false hfail
        intro hcan
        exact (strtoll_canonical hcan).1 hno
      · intro h
        exact absurd h hfail

/-- The key and the value `parse_header_line` cuts out of a line. -/
def splitHeader (l : Bytes) : Option (Bytes × Bytes) :=
  (posNextToken l colon 0).map fun (tokenLen, nextToken) =>
    let curToken := if l[nextToken]? = some space then nextToken + 1 else nextToken
    (stringViewSubstr l 0 tokenLen, stringViewSubstr l curToken npos)

/-- A line is cut at its first colon, and behind one space if there is one. -/
theorem splitHeader_colon {name rest value : Bytes} (hname : colon ∉ name)
    (hvalue : value = if rest.head? = some space then rest.tail else rest)
    (hfits : value.length ≤ npos) : splitHeader (name ++ colon :: rest) = some (name, value) := by
  have hpos : posNextToken (name ++ colon :: rest) colon 0 =
      some (name.length, name.length + 1) := by
    simpa using posNextToken_token hname [] rest
  have hget : (name ++ colon :: rest)[name.length + 1]? = rest.head? := by
    rw [List.getElem?_append_right (by omega), Nat.add_sub_cancel_left, List.getElem?_cons_succ,
      List.head?_eq_getElem?]
  have hkey : stringViewSubstr (name ++ colon :: rest) 0 name.length = name := by
    rw [stringViewSubstr_eq, List.drop_zero, List.take_left]
  have hdrop : (name ++ colon :: rest).drop (name.length + 1) = rest := by
    rw [← List.drop_drop, List.drop_left]
    rfl
  unfold splitHeader
  simp only [hpos, Option.map_some, hget, hkey, Option.some.injEq, Prod.mk.injEq, true_and]
  by_cases hspace : rest.head? = some space
  · rw [if_pos hspace] at hvalue ⊢
    rw [stringViewSubstr_eq, ← List.drop_drop, hdrop, List.drop_one, ← hvalue]
    exact List.take_of_length_le hfits
  · rw [if_neg hspace] at hvalue ⊢
    rw [stringViewSubstr_eq, hdrop, ← hvalue]
    exact List.take_of_length_le hfits

theorem headerOf_eq (l : Bytes) :
    headerOf l = (splitHeader l).map fun p => newHeader p.1 p.2 := by
  unfold headerOf splitHeader
  cases posNextToken l colon 0 with
  | none => rfl
  | some token => rfl

/-- The value of a Content-Length line. -/
def lengthValueOf (l : Bytes) : Option Bytes :=
  (splitHeader l).bind fun p =>
    if httpMatchHeaderField p.1 = .contentLength then some p.2 else none

/-- A line that is no Content-Length line, or one whose number is not negative. -/
def NotNegative (l : Bytes) : Prop :=
  ∀ v ∈ lengthValueOf l, 0 ≤ (strtoll ((toCstr v).dropWhile isBlank)).1

instance (l : Bytes) : Decidable (NotNegative l) := by unfold NotNegative; infer_instance

theorem strtoll_le (p : Bytes) : (strtoll p).1 ≤ int64Max := by
  rcases strtoll_cases p with ⟨-, h⟩ | ⟨-, -, h⟩
  · rw [h]
    decide
  · have hmin : int64Min ≤ int64Max := by decide
    rw [h]
    exact Int.max_le.mpr ⟨hmin, Int.min_le_left _ _⟩

theorem newHeader_contentLength {k : Bytes} (hk : httpMatchHeaderField k = .contentLength)
    (v : Bytes) : (newHeader k v).2.framing =
      if NoNumber v then none
      else some (.fixed, ((strtoll ((toCstr v).dropWhile isBlank)).1 % (sizeMod : Int)).toNat) := by
  by_cases hno : NoNumber v
  · have hoff := (strtoll_offset_iff v).mpr hno
    simp [newHeader, hk, httpHdrParseValue, parseTypedValue, httpHdrValueParseContentLength,
      HttpHeader.zero, hoff, HttpHeader.framing, hno]
  · have hoff : ¬ (strtoll ((toCstr v).dropWhile isBlank)).2 = 0 := fun h =>
      hno ((strtoll_offset_iff v).mp h)
    simp [newHeader, hk, httpHdrParseValue, parseTypedValue, httpHdrValueParseContentLength,
      HttpHeader.zero, hoff, HttpHeader.framing, hno, HdrUnion.contentLength]

theorem parseTypedValue_valueSv (field : HttpHeaderField) (value : HttpHdrValue) :
    (parseTypedValue field value).2.valueSv = value.valueSv := by
  unfold parseTypedValue
  split
  · unfold httpHdrValueParseContentType
    dsimp only
    split
    · rfl
    · rw [apply_ite Prod.snd, apply_ite HttpHdrValue.valueSv]
      exact ite_self _
  · unfold httpHdrValueParseContentLength
    dsimp only
    split <;> rfl
  · unfold httpHdrValueParseConnection
    dsimp only
    split <;> rfl
  · unfold httpHdrValueParseTransferEncoding
    dsimp only
    split <;> rfl
  · rfl

theorem httpHdrParseValue_valueSv (header : HttpHeader) (v : Bytes) :
    (httpHdrParseValue header v).2.value.valueSv = v := by
  unfold httpHdrParseValue
  dsimp only
  split
  · exact parseTypedValue_valueSv _ _
  · exact parseTypedValue_valueSv _ _

theorem httpHdrParseValue_field (h : HttpHeader) (v : Bytes) :
    (httpHdrParseValue h v).2.field = h.field := by
  unfold httpHdrParseValue
  simp only
  split <;> rfl

theorem newHeader_field (k v : Bytes) : (newHeader k v).2.field = .unkown ∨
    (newHeader k v).2.field = httpMatchHeaderField k := by
  unfold newHeader
  simp only [apply_ite Prod.snd, apply_ite HttpHeader.field, httpHdrParseValue_field, ite_self]
  split
  · split
    · exact Or.inl rfl
    · exact Or.inr rfl
  · split
    · exact Or.inl rfl
    · exact Or.inr rfl

theorem frame_bodyLength_cases (h : HttpHeader) (f : Framing) :
    (h.frame f).bodyLength = f.bodyLength ∨
    (h.field = .contentLength ∧ h.framing = some (.fixed, (h.frame f).bodyLength)) := by
  unfold HttpHeader.frame HttpHeader.framing
  cases h.field with
  | contentLength =>
    simp only
    split
    · exact Or.inr ⟨trivial, rfl⟩
    · exact Or.inl rfl
  | transferEncoding =>
    simp only
    split <;> exact Or.inl rfl
  | _ => exact Or.inl rfl

theorem frameLine_length_le {l : Bytes} (hl : NotNegative l) {f : Framing}
    (hf : (f.bodyLength : Int) ≤ int64Max) : ((frameLine l f).bodyLength : Int) ≤ int64Max := by
  unfold frameLine
  rw [headerOf_eq]
  cases hsplit : splitHeader l with
  | none => exact hf
  | some p =>
    obtain ⟨k, v⟩ := p
    simp only [Option.map_some]
    rcases frame_bodyLength_cases (newHeader k v).2 f with h | ⟨hfield, h⟩
    · rw [h]
      exact hf
    · have hk : httpMatchHeaderField k = .contentLength := by
        rcases newHeader_field k v with hn | hn
        · simp [hn] at hfield
        · rw [← hn, hfield]
      have hv : v ∈ lengthValueOf l := by simp [lengthValueOf, hsplit, hk]
      rw [newHeader_contentLength hk] at h
      have hpos := hl v hv
      have hmax := strtoll_le ((toCstr v).dropWhile isBlank)
      by_cases hno : NoNumber v
      · simp [hno] at h
      · rw [if_neg hno, Option.some.injEq, Prod.mk.injEq] at h
        rw [← h.2]
        unfold int64Max sizeMod at *
        omega

/-- The cursors lie in order inside the buffer, and the length of the body is in range. -/
structure HttpParseCtx.Bounded (ctx : HttpParseCtx) : Prop extends ctx.Sized where
  length_le : (ctx.bodyLength : Int) ≤ int64Max

theorem HttpParseCtx.Bounded.no_wrap {ctx : HttpParseCtx} (h : ctx.Bounded) :
    ctx.cur + ctx.bodyLength < sizeMod := by
  have hcur := h.cur_le
  have hnext := h.next_le
  have hpost := h.post_lt
  have hlen := h.length_le
  unfold sizeMod ptrdiffMax int64Max at *
  omega

def LeavesBounded (r : Except Fault Exit) : Prop :=
  ∀ herr ctx, r = .ok (.ret herr ctx) → ctx.Bounded

section Labels

variable {b : Build} {alloc : Alloc} {ctx : HttpParseCtx}

theorem labelEnd_bounded (h : ctx.Bounded) : LeavesBounded (labelEnd b ctx) := by
  intro herr ctx' hr
  rw [(labelEnd_ret hr).2]
  exact ⟨⟨h.cur_le, h.next_le, h.post_lt⟩, h.length_le⟩

theorem labelWaitFixBody_bounded (h : ctx.Bounded) :
    LeavesBounded (labelWaitFixBody b alloc ctx) := by
  intro herr ctx' hr
  have hstop := sizeAdd_eq h.no_wrap
  rcases labelWaitFixBody_ret hr with ⟨-, -, rfl⟩ | ⟨hlong, state, view, body, -, rfl⟩
  · exact ⟨⟨h.cur_le, h.next_le, h.post_lt⟩, h.length_le⟩
  · rw [hstop] at hlong ⊢
    exact ⟨⟨Nat.le_add_right _ _, hlong, h.post_lt⟩, h.length_le⟩

theorem bodySwitch_bounded (h : ctx.Bounded) : LeavesBounded (bodySwitch b alloc ctx) := by
  unfold bodySwitch
  split
  · exact labelEnd_bounded ⟨⟨h.cur_le, h.next_le, h.post_lt⟩, h.length_le⟩
  · exact labelWaitFixBody_bounded h
  · exact labelEnd_bounded ⟨⟨h.cur_le, h.next_le, h.post_lt⟩, h.length_le⟩

theorem loopRun_bounded {left : Nat} {e : LoopExit} (h : ctx.Bounded)
    (hlines : ∀ l ∈ (collect cr lf left ctx.unread).records, NotNegative l)
    (hrun : LoopRun alloc left ctx e) : LeavesBounded (behindLoop b alloc e) := by
  induction hrun with
  | full ctx => exact bodySwitch_bounded h
  | «open» hc =>
    intro herr ctx' hr
    simp only [behindLoop, Except.ok.injEq, Exit.ret.injEq] at hr
    exact hr.2 ▸ h
  | @blank left ctx r hc =>
    have hline := Sized.toLine h.toSized hc
    have hbounded : ({ ctx.toLine [] with cur := ctx.nextLine + 2 } : HttpParseCtx).Bounded :=
      ⟨⟨Nat.le_refl _, hline.next_le, h.post_lt⟩, h.length_le⟩
    simp only [behindLoop]
    split
    · intro herr ctx' hr
      simp only [Except.ok.injEq, Exit.ret.injEq] at hr
      exact hr.2 ▸ hbounded
    · exact bodySwitch_bounded hbounded
  | @lost left ctx l r hc hl hpush =>
    intro herr ctx' hr
    simp only [behindLoop, Except.ok.injEq, Exit.ret.injEq] at hr
    exact hr.2 ▸ ⟨Sized.toLine h.toSized hc, h.length_le⟩
  | @line left ctx l r e hc hl hpush hrest ih =>
    rw [collect_succ_record hc hl, Delim.Block.push_records, List.forall_mem_cons] at hlines
    refine ih ⟨takeLine_sized ctx _ l h.toSized hc, ?_⟩ ?_
    · have hframing := takeLine_framing ctx (alloc (.header (100 - left))) l
      have hbody : (ctx.takeLine (alloc (.header (100 - left))) l).bodyLength =
          (ctx.takeLine (alloc (.header (100 - left))) l).framing.bodyLength := rfl
      rw [hbody, hframing]
      split
      · exact frameLine_length_le hlines.1 h.length_le
      · exact h.length_le
    · rw [takeLine_unread ctx _ l hc]
      exact hlines.2

theorem labelWaitHdr_bounded (h : ctx.Bounded)
    (hlines : ∀ l ∈ (collect cr lf 100 ctx.unread).records, NotNegative l) :
    LeavesBounded (labelWaitHdr b alloc ctx) := by
  have hbounded : ({ ctx with waitState := .waitHdr } : HttpParseCtx).Bounded :=
    ⟨⟨h.cur_le, h.next_le, h.post_lt⟩, h.length_le⟩
  obtain ⟨e, he, hrun⟩ := headerLoop_run b alloc 100 hbounded.toSized
  rw [labelWaitHdr_eq he]
  exact loopRun_bounded hbounded hlines hrun

/-- The header lines a call can read: those of the bytes not read yet, up to the
bound of the header loop. -/
def Wire.headerLines (w : Wire) (chunk : Bytes) : List Bytes :=
  match w with
  | .line unread =>
    match cutLine (unread ++ chunk) with
    | none => []
    | some (_, r) => (collect cr lf 100 r).records
  | .headers _ _ unread => (collect cr lf 100 (unread ++ chunk)).records
  | .body _ _ _ => []
  | .ended => []

theorem labelWaitReq_bounded (h : ctx.Bounded) (hnext : ctx.nextLine = 0)
    (hlines : ∀ l r, cutLine ctx.unread = some (l, r) →
      ∀ h ∈ (collect cr lf 100 r).records, NotNegative h) :
    LeavesBounded (labelWaitReq b alloc ctx) := by
  rcases labelWaitReq_cases b alloc h.toSized hnext with ⟨-, hl⟩ | ⟨l, r, hc, hl | ⟨request, hl, -⟩⟩
  · intro herr ctx' hr
    simp only [hl, Except.ok.injEq, Exit.ret.injEq] at hr
    rw [← hr.2]
    exact ⟨⟨h.cur_le, h.next_le, h.post_lt⟩, h.length_le⟩
  · intro herr ctx' hr
    simp [hl] at hr
  · rw [hl]
    apply labelWaitHdr_bounded ⟨behindLine_sized ctx l request h.toSized hc, h.length_le⟩
    rw [behindLine_unread ctx l request hc]
    exact hlines l r hc

theorem resume_bounded (h : ctx.Bounded)
    (hnext : ctx.waitState = .start ∨ ctx.waitState = .waitReq → ctx.nextLine = 0)
    (hlines : ∀ l ∈ ctx.wire.headerLines [], NotNegative l) :
    LeavesBounded (resume b alloc ctx) := by
  have hline (hw : ctx.wire = .line ctx.unread) (l r : Bytes)
      (hc : cutLine ctx.unread = some (l, r)) :
      ∀ h ∈ (collect cr lf 100 r).records, NotNegative h := by
    simpa only [hw, Wire.headerLines, List.append_nil, hc] using hlines
  unfold resume
  split
  · rename_i hstate
    exact labelWaitReq_bounded h (hnext (Or.inl hstate)) (hline (by simp [HttpParseCtx.wire, hstate]))
  · rename_i hstate
    exact labelWaitReq_bounded h (hnext (Or.inr hstate)) (hline (by simp [HttpParseCtx.wire, hstate]))
  · rename_i hstate
    apply labelWaitHdr_bounded h
    simpa only [HttpParseCtx.wire, hstate, Wire.headerLines, List.append_nil] using hlines
  · exact labelWaitFixBody_bounded h
  · exact labelEnd_bounded ⟨⟨h.cur_le, h.next_le, h.post_lt⟩, h.length_le⟩
  · exact labelEnd_bounded ⟨⟨h.cur_le, h.next_le, h.post_lt⟩, h.length_le⟩
  · exact labelEnd_bounded h

theorem headerLines_append (hle : ctx.nextLine ≤ ctx.post.length) (chunk : Bytes) :
    ({ ctx with post := ctx.post ++ chunk } : HttpParseCtx).wire.headerLines [] =
      ctx.wire.headerLines chunk := by
  unfold HttpParseCtx.wire
  cases hstate : ctx.waitState <;>
    simp only [Wire.headerLines, List.append_nil, HttpParseCtx.unread,
      List.drop_append_of_le_length hle]

theorem feedNode_bounded (hrests : ctx.Rests b) (h : ctx.Bounded) {chunk : Bytes}
    (hlines : ∀ l ∈ ctx.wire.headerLines chunk, NotNegative l) :
    LeavesBounded (feedNode b alloc ctx chunk) := by
  intro herr ctx' hr
  rcases feedNode_ok hr with ⟨-, hlt, hr⟩ | ⟨-, hr⟩
  · rw [← headerLines_append h.next_le] at hlines
    have hbounded : ({ ctx with post := ctx.post ++ chunk } : HttpParseCtx).Bounded :=
      ⟨⟨h.cur_le, h.next_le.trans (by simp), hlt⟩, h.length_le⟩
    exact resume_bounded hbounded (fun hstate => (hrests.start_cursors hstate).2.1) hlines herr ctx'
      hr
  · rw [Exit.ret.injEq] at hr
    exact hr.2 ▸ h

end Labels

/-- The Content-Length lines a call can read are not negative. -/
def LengthsNotNegative (c : ClientConn) (i : Feed) : Prop :=
  ∀ ctx ∈ c.node, ∀ l ∈ ctx.wire.headerLines i.post, NotNegative l

instance (c : ClientConn) (i : Feed) : Decidable (LengthsNotNegative c i) := by
  unfold LengthsNotNegative; infer_instance

/-- The cursors of the tail are in order, its length in range and their sum does not wrap. -/
def CursorsInRange (c : ClientConn) : Prop :=
  ∀ ctx ∈ c.node, ctx.cur ≤ ctx.nextLine ∧ ctx.nextLine ≤ ctx.post.length ∧
    (ctx.bodyLength : Int) ≤ int64Max ∧ ctx.cur + ctx.bodyLength < sizeMod

theorem cursorsInRange_of_bounded {ctx : HttpParseCtx} (h : ctx.Bounded) :
    CursorsInRange (.single ctx) := by
  intro ctx' hmem
  simp only [node_single, Option.mem_def, Option.some.injEq] at hmem
  subst hmem
  exact ⟨h.cur_le, h.next_le, h.length_le, h.no_wrap⟩

theorem run_cursorsInRange {b : Build} {is : List Feed} {herrs : List HttpErr} {c : ClientConn}
    (hm : Meets (ClientConn.feedStep b) LengthsNotNegative .new is)
    (hx : exec (ClientConn.feedStep b) .new is = .ok (herrs, c)) : CursorsInRange c := by
  have keep {s : ClientConn} {i : Feed} {o : HttpErr} {s' : ClientConn}
      (hs : ∃ ctx, s = .single ctx ∧ ctx.Rests b ∧ ctx.Bounded) (hlines : LengthsNotNegative s i)
      (hstep : s.feedStep b i = .ok (o, s')) : ∃ ctx, s' = .single ctx ∧ ctx.Rests b ∧ ctx.Bounded := by
    obtain ⟨ctx, rfl, hrests, hbounded⟩ := hs
    obtain ⟨ctx₁, rfl, hnode, hrests', -⟩ := feedNode_of_feedStep hrests hstep
    exact ⟨ctx₁, rfl, hrests', feedNode_bounded hrests hbounded (hlines ctx rfl) _ _ hnode⟩
  have hnew : HttpParseCtx.new.Bounded :=
    ⟨⟨Nat.le_refl _, Nat.le_refl _, by decide⟩, by decide⟩
  obtain ⟨ctx, rfl, -, hbounded⟩ := inv_of_meets keep ⟨_, rfl, rests_new b, hnew⟩ hm hx
  exact cursorsInRange_of_bounded hbounded

/-- The value parser is exact on a value precisely when the value is canonical or
holds no number; and in a run without a negative length no cursor leaves the buffer. -/
theorem contentLength_exact_iff (b : Build) :
    (∀ value : HttpHdrValue,
      ParsesExactly value ↔ Canonical value.valueSv ∨ NoNumber value.valueSv) ∧
    ∀ (is : List Feed) (herrs : List HttpErr) (c : ClientConn),
      Meets (ClientConn.feedStep b) LengthsNotNegative .new is →
      exec (ClientConn.feedStep b) .new is = .ok (herrs, c) → CursorsInRange c :=
  ⟨parsesExactly_iff, fun _ _ _ hm hx => run_cursorsInRange hm hx⟩

def cutBody : List Feed :=
  [⟨fun _ => true, ascii "PUT / HTTP/1.1\r\nContent-Length: \t12\r\n\r\nhello".toList⟩,
   ⟨fun _ => true, ascii ", world".toList⟩]

theorem cutBody_exact :
    ParsesExactly ⟨ascii "\t12".toList, true, .content 0⟩ ∧
    ∃ c, exec (ClientConn.feedStep .release) .new cutBody =
      .ok ([.requestTcpSegmentInBody, .success], c) ∧ CursorsInRange c := by
  obtain ⟨hvalues, hruns⟩ := contentLength_exact_iff .release
  obtain ⟨c, hx⟩ : ∃ c, exec (ClientConn.feedStep .release) .new cutBody =
      .ok ([.requestTcpSegmentInBody, .success], c) := ⟨_, rfl⟩
  exact ⟨(hvalues _).mpr (Or.inl (by decide +kernel)),
    c, hx, hruns cutBody _ c (by decide +kernel) hx⟩

def negativeLength : List Feed :=
  [⟨fun _ => true, ascii "GET / HTTP/1.1\r\nContent-Length: -1\r\n\r\n".toList⟩]

theorem negativeLength_accepted :
    ¬ ParsesExactly ⟨ascii "-1".toList, true, .content 0⟩ ∧
    ∃ c, exec (ClientConn.feedStep .release) .new negativeLength = .ok ([.success], c) ∧
      ¬ CursorsInRange c := by
  constructor
  · intro h
    exact absurd (h.1.mp rfl) (by decide +kernel)
  · refine ⟨_, rfl, ?_⟩
    intro h
    obtain ⟨hcur, -⟩ := h _ rfl
    revert hcur
    decide +kernel

end LiteHttp
