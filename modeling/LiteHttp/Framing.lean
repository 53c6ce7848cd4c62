import LiteHttp.HeaderLoop

/-!
# Which header line frames the body

`header_line_update_body_type` has no notion of a conflict: every line that says
how long the body is replaces what the lines before it said. The framing of a
header section is that of its last such line, so it is independent of the order
exactly when all of them agree.
-/

namespace LiteHttp

set_option autoImplicit false

/-- The body type and the length a body of that type is read with. -/
def Framing.effective (f : Framing) : BodyType × Nat :=
  (f.bodyType, if f.bodyType = .fixed then f.bodyLength else 0)

/-- What a parsed header says about the body, if anything. -/
def HttpHeader.framing (h : HttpHeader) : Option (BodyType × Nat) :=
  match h.field with
  | .contentLength =>
    if h.value.hasParsedType then
      some (.fixed, (h.value.parsed.contentLength % (sizeMod : Int)).toNat)
    else none
  | .transferEncoding =>
    if h.value.hasParsedType ∧ h.value.parsed.firstWord = TransferEncodingType.chunked.toNat then
      some (.chunked, 0)
    else none
  | _ => none

/-- What a header line says about the body, if anything. -/
def framingOf (l : Bytes) : Option (BodyType × Nat) := (headerOf l).bind fun p => p.2.framing

/-- The header lines of a section, each pushed and parsed as the header loop does. -/
def parseHeaderLines (ctx : HttpParseCtx) (lines : List Bytes) : HttpParseCtx :=
  lines.foldl
    (fun ctx l => (parseHeaderLine true { ctx with headerList := ctx.headerList ++ [l] }).2) ctx

theorem effective_frame (h : HttpHeader) (f : Framing) :
    (h.frame f).effective = h.framing.getD f.effective := by
  unfold HttpHeader.frame HttpHeader.framing
  cases h.field with
  | contentLength =>
    simp only
    split <;> rfl
  | transferEncoding =>
    simp only
    split <;> rfl
  | _ => rfl

theorem effective_frameLine (l : Bytes) (f : Framing) :
    (frameLine l f).effective = (framingOf l).getD f.effective := by
  unfold frameLine framingOf
  cases headerOf l with
  | none => rfl
  | some p => exact effective_frame p.2 f

theorem parseHeaderLine_framing (ctx : HttpParseCtx) (l : Bytes) :
    (parseHeaderLine true { ctx with headerList := ctx.headerList ++ [l] }).2.framing =
      frameLine l ctx.framing := by
  have hsnoc : ({ ctx with headerList := ctx.headerList ++ [l] } : HttpParseCtx).headerList =
    ctx.headerList ++ [l] := rfl
  rw [parseHeaderLine_snoc hsnoc, frameLine]
  cases headerOf l with
  | none => rfl
  | some p => rfl

theorem parseHeaderLines_snoc (ctx : HttpParseCtx) (lines : List Bytes) (l : Bytes) :
    (parseHeaderLines ctx (lines ++ [l])).framing =
      frameLine l (parseHeaderLines ctx lines).framing := by
  rw [parseHeaderLines, List.foldl_append, List.foldl_cons, List.foldl_nil,
    parseHeaderLine_framing]
  rfl

theorem parseHeaderLines_effective (ctx : HttpParseCtx) (lines : List Bytes) :
    (parseHeaderLines ctx lines).framing.effective =
      (lines.filterMap framingOf).getLast?.getD ctx.framing.effective := by
  induction lines using List.reverseRecOn with
  | nil => rfl
  | append_singleton lines l ih =>
    rw [parseHeaderLines_snoc, effective_frameLine, ih, List.filterMap_append]
    cases hl : framingOf l with
    | none => simp [hl]
    | some p => simp [hl]

/-- The effective framing a header section gives a fresh node. -/
def sectionFraming (lines : List Bytes) : BodyType × Nat :=
  (parseHeaderLines .new lines).framing.effective

theorem sectionFraming_eq (lines : List Bytes) :
    sectionFraming lines = (lines.filterMap framingOf).getLast?.getD (.unset, 0) :=
  parseHeaderLines_effective .new lines

theorem sectionFraming_moved_last {lines : List Bytes} {p : BodyType × Nat}
    (hp : p ∈ lines.filterMap framingOf) : ∃ lines', lines'.Perm lines ∧ sectionFraming lines' = p := by
  obtain ⟨l, hl, hf⟩ := List.mem_filterMap.mp hp
  obtain ⟨pre, suf, rfl⟩ := List.append_of_mem hl
  refine ⟨pre ++ suf ++ [l], ?_, ?_⟩
  · rw [List.append_assoc]
    exact (List.perm_append_singleton l suf).append_left pre
  · rw [sectionFraming_eq, List.filterMap_append]
    simp [hf]

theorem sectionFraming_perm {lines lines' : List Bytes} (hperm : lines'.Perm lines)
    (hagree : ∀ p ∈ lines.filterMap framingOf, ∀ q ∈ lines.filterMap framingOf, p = q) :
    sectionFraming lines' = sectionFraming lines := by
  have hperm' := hperm.filterMap framingOf
  rw [sectionFraming_eq, sectionFraming_eq]
  cases hlast : (lines.filterMap framingOf).getLast? with
  | none =>
    have hnil : lines.filterMap framingOf = [] := List.getLast?_eq_none_iff.mp hlast
    rw [hnil] at hperm'
    rw [hperm'.eq_nil]
    rfl
  | some p =>
    cases hlast' : (lines'.filterMap framingOf).getLast? with
    | none =>
      have hnil : lines'.filterMap framingOf = [] := List.getLast?_eq_none_iff.mp hlast'
      rw [hnil] at hperm'
      rw [hperm'.symm.eq_nil] at hlast
      simp at hlast
    | some q =>
      have hq := hperm'.mem_iff.mp (List.mem_of_getLast? hlast')
      exact hagree q hq p (List.mem_of_getLast? hlast)

/-- The last framing line of a section decides, and the order of the lines does
not matter exactly when all framing lines agree. -/
theorem parseHeaderLines_last_frames (lines : List Bytes) :
    sectionFraming lines = (lines.filterMap framingOf).getLast?.getD (.unset, 0) ∧
    ((∀ lines' : List Bytes, lines'.Perm lines → sectionFraming lines' = sectionFraming lines) ↔
      ∀ p ∈ lines.filterMap framingOf, ∀ q ∈ lines.filterMap framingOf, p = q) := by
  refine ⟨sectionFraming_eq lines, ?_, ?_⟩
  · intro h p hp q hq
    obtain ⟨lines₁, hperm₁, rfl⟩ := sectionFraming_moved_last hp
    obtain ⟨lines₂, hperm₂, rfl⟩ := sectionFraming_moved_last hq
    rw [h lines₁ hperm₁, h lines₂ hperm₂]
  · intro h lines' hperm
    exact sectionFraming_perm hperm h

theorem conflicting_lines_order :
    let length := ascii "Content-Length: 5".toList
    let chunked := ascii "Transfer-Encoding: chunked".toList
    [chunked, length].Perm [length, chunked] ∧
      sectionFraming [length, chunked] = (.chunked, 0) ∧
      sectionFraming [chunked, length] = (.fixed, 5) := by
  decide +kernel

end LiteHttp
