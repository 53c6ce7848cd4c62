import LiteHttp.ContentType
import LiteHttp.HeaderBlock
import LiteHttp.Node
import Mathlib.Data.List.Forall2

/-!
# Two spellings of a header section

A rewriting of a section that changes the letters of a name or the blanks around
a value, and what `http_parse_feed` makes of the two. A name is one of
http_hdr.def by being spelled as it is there, so the letters matter by design.
-/

namespace LiteHttp

open Delim

set_option autoImplicit false

/-- A letter of ASCII in lower case. -/
def lower (c : Byte) : Byte := if 65 ≤ c ∧ c ≤ 90 then c + 32 else c

/-- The lines differ in the letters of the name and in the blanks around the value. -/
structure HeaderLine.Respells (k k' : HeaderLine) : Prop where
  name : k.name.map lower = k'.name.map lower
  value : k.value = k'.value

/-- The value the line stores compares equal to one that the parser of its field knows. -/
def HeaderLine.Compares (k : HeaderLine) : Prop :=
  ∃ e ∈ knownValues (httpMatchHeaderField k.name), LooksLike k.valueSv e

/-- The name is still the same one of http_hdr.def or none, and where blanks change what the
parser of the field answers they are the same. -/
structure HeaderLine.Keeps (k k' : HeaderLine) : Prop extends k.Respells k' where
  field : httpMatchHeaderField k.name = httpMatchHeaderField k'.name
  compared : k.Compares ∨ k'.Compares → k.valueSv = k'.valueSv
  contentType : httpMatchHeaderField k.name = .contentType → SubDecides k.value → k.after = k'.after

/-- A line and what a rewriting makes of it. One without a colon stays as it is. -/
inductive Rewritten (R : HeaderLine → HeaderLine → Prop) : Bytes → Bytes → Prop where
  | same (l : Bytes) : Rewritten R l l
  | line {k k' : HeaderLine} (h : R k k') : Rewritten R k.text k'.text

theorem HeaderLine.Keeps.readsAlike {k k' : HeaderLine} (h : k.Keeps k') :
    ReadsAlike (httpMatchHeaderField k.name) k.valueSv k'.valueSv := by
  obtain ⟨s, t, hs, ht, hsv, htail⟩ := valueSv_blanks k
  obtain ⟨s', t', hs', ht', hsv', htail'⟩ := valueSv_blanks k'
  rw [← h.value] at hsv' htail'
  have hcompared (field : HttpHeaderField) (hf : httpMatchHeaderField k.name = field)
      (hrefused : ∀ u, (∀ e ∈ knownValues field, ¬ LooksLike u e) →
        (typedValue field u).1 ≠ .success ∧
          (typedValue field u).2.parsed = (typedValue field []).2.parsed) :
      ReadsAlike field k.valueSv k'.valueSv := by
    have hf' : httpMatchHeaderField k'.name = field := h.field ▸ hf
    by_cases hlike : k.Compares ∨ k'.Compares
    · rw [h.compared hlike]
      exact readsAlike_refl field k'.valueSv
    · obtain ⟨hno, hno'⟩ := not_or.mp hlike
      obtain ⟨hfst, hsnd⟩ := hrefused k.valueSv fun e he heq => hno ⟨e, hf ▸ he, heq⟩
      obtain ⟨hfst', hsnd'⟩ := hrefused k'.valueSv fun e he heq => hno' ⟨e, hf' ▸ he, heq⟩
      exact ⟨iff_of_false hfst hfst', fun _ => hsnd.trans hsnd'.symm⟩
  cases hf : httpMatchHeaderField k.name with
  | contentLength =>
    rw [hsv, hsv']
    exact contentLength_alike hs hs' ht ht'
  | contentType =>
    rw [hsv, hsv']
    apply contentType_alike hs hs' ht ht'
    intro hsub
    have hne : k.value ≠ [] := by
      obtain ⟨-, a, b, hv, -⟩ := hsub
      rw [hv]
      simp
    rw [htail hne, htail' hne, h.contentType hf hsub]
  | connection =>
    apply hcompared .connection hf
    intro u hu
    rw [connection_refused hu]
    exact ⟨by simp, rfl⟩
  | transferEncoding =>
    apply hcompared .transferEncoding hf
    intro u hu
    rw [transferEncoding_refused hu]
    exact ⟨by simp, rfl⟩
  | _ => exact ⟨iff_of_true rfl rfl, fun _ => rfl⟩

/-- The fields a node has recognised and what they say about the body. -/
def HttpParseCtx.message (ctx : HttpParseCtx) : List HttpHeaderField × Framing :=
  (ctx.httpRequest.headerList.map fun h => h.field, ctx.framing)

/-- What one more header line makes of it. -/
def readLine (m : List HttpHeaderField × Framing) (l : Bytes) : List HttpHeaderField × Framing :=
  match headerOf l with
  | none => m
  | some (_, h) => (m.1 ++ [h.field], h.frame m.2)

theorem readLine_text (m : List HttpHeaderField × Framing) (k : HeaderLine) :
    readLine m k.text = (m.1 ++ [(newHeader k.name k.valueSv).2.field],
      (newHeader k.name k.valueSv).2.frame m.2) := by
  rw [readLine, headerOf_eq, splitHeader_text, Option.map_some]

theorem readLine_rewritten {l l' : Bytes} (h : Rewritten HeaderLine.Keeps l l')
    (m : List HttpHeaderField × Framing) : readLine m l = readLine m l' := by
  cases h with
  | same => rfl
  | @line k k' hkeeps =>
    have halike := newHeader_alike hkeeps.field hkeeps.readsAlike
    rw [readLine_text, readLine_text, halike.field, halike.frame]

theorem foldl_readLine {ls ls' : List Bytes} (h : List.Forall₂ (Rewritten HeaderLine.Keeps) ls ls')
    (m : List HttpHeaderField × Framing) : ls.foldl readLine m = ls'.foldl readLine m := by
  induction h generalizing m with
  | nil => rfl
  | cons hl _ ih => rw [List.foldl_cons, List.foldl_cons, readLine_rewritten hl, ih]

/-- A name that is none of the table is recorded as unknown, whatever the letters it shares. -/
theorem readLine_unkown {k : HeaderLine} (hk : ∀ e ∈ httpHdrDef, ¬ LooksLike k.name e.2)
    (m : List HttpHeaderField × Framing) : readLine m k.text = (m.1 ++ [.unkown], m.2) := by
  have hplain : ∀ e ∈ httpHdrDef, 0 ∉ e.2 ∧ e.2.length < 2 ^ 32 := by decide
  have hname : httpMatchHeaderField k.name = .unkown := by
    rcases find?_looksLike hplain k.name with ⟨e, he, hlike, -⟩ | ⟨-, hf⟩
    · exact absurd hlike (hk e he)
    · rw [httpMatchHeaderField, hf]
  have hfield : (newHeader k.name k.valueSv).2.field = .unkown := by
    rcases newHeader_field k.name k.valueSv with h | h
    · exact h
    · rw [h, hname]
  rw [readLine_text, hfield, frame_of_unkown hfield]

theorem addHeader_message (ctx : HttpParseCtx) (h : HttpHeader) :
    (ctx.addHeader h).message = (ctx.message.1 ++ [h.field], h.frame ctx.message.2) := by
  simp only [HttpParseCtx.message, HttpParseCtx.addHeader, List.map_append]
  rfl

/-- `parse_header_line` on a node whose last line it is. -/
theorem parseHeaderLine_message {ctx : HttpParseCtx} {hs : List Bytes} {l : Bytes}
    (h : ctx.headerList = hs ++ [l]) :
    (parseHeaderLine true ctx).2.message = readLine ctx.message l := by
  rw [parseHeaderLine_snoc h, readLine]
  cases headerOf l with
  | none => rfl
  | some p => exact addHeader_message ctx p.2

theorem takeLines_message (ctx : HttpParseCtx) (ls : List Bytes) :
    (ctx.takeLines ls).message = ls.foldl readLine ctx.message := by
  induction ls generalizing ctx with
  | nil => rfl
  | cons l ls ih =>
    have hstep : (ctx.takeLine true l).message = readLine ctx.message l := parseHeaderLine_message rfl
    rw [takeLines_cons, ih, hstep, List.foldl_cons]

theorem parseHeaderLines_message (ctx : HttpParseCtx) (ls : List Bytes) :
    (parseHeaderLines ctx ls).message = ls.foldl readLine ctx.message := by
  induction ls generalizing ctx with
  | nil => rfl
  | cons l ls ih =>
    have hstep : (parseHeaderLine true { ctx with headerList := ctx.headerList ++ [l] }).2.message =
        readLine ctx.message l := parseHeaderLine_message rfl
    rw [parseHeaderLines, List.foldl_cons, ← parseHeaderLines, ih, hstep, List.foldl_cons]

section Feed

variable {b : Build} {alloc : Alloc} {ctx ctx' : HttpParseCtx} {herr : HttpErr}

theorem bodySwitch_message (h : bodySwitch b alloc ctx = .ok (.ret herr ctx')) :
    ctx'.message = ctx.message := by
  unfold bodySwitch at h
  split at h
  · rw [(labelEnd_ret h).2]
    rfl
  · rcases labelWaitFixBody_ret h with ⟨-, -, rfl⟩ | ⟨-, state, view, body, -, rfl⟩
    · rfl
    · rfl
  · rw [(labelEnd_ret h).2]
    rfl

/-- Whatever stops the loop, the node has read the lines it collected. -/
theorem behindLoop_message {left : Nat} {k : Block Byte}
    (h : behindLoop b alloc (blockExit left ctx k) = .ok (.ret herr ctx')) :
    ctx'.message = k.records.foldl readLine ctx.message := by
  rw [← takeLines_message]
  unfold blockExit at h
  cases hstop : k.stop with
  | «open» =>
    simp only [hstop, behindLoop, Except.ok.injEq, Exit.ret.injEq] at h
    rw [h.2]
  | blank =>
    simp only [hstop, behindLoop] at h
    split at h
    · rw [Except.ok.injEq, Exit.ret.injEq] at h
      rw [← h.2]
      rfl
    · rw [bodySwitch_message h]
      rfl
  | full =>
    simp only [hstop, behindLoop] at h
    exact bodySwitch_message h

end Feed

/-- The lines of a header section as `http_parse_feed` finds them. -/
def IsSection (ls : List Bytes) : Prop := ∀ l ∈ ls, l ≠ [] ∧ CrlfFree l

theorem Blanks.free_append {s t : Bytes} (hs : Blanks s) (ht : CrlfFree t) : CrlfFree (s ++ t) := by
  induction s with
  | nil => exact ht
  | cons c s ih =>
    have hc : c ≠ cr := by
      rintro rfl
      exact absurd (hs cr List.mem_cons_self) (by decide)
    exact Free.cons_of_ne hc (ih hs.of_cons)

theorem text_free_iff (k : HeaderLine) : CrlfFree k.text ↔ CrlfFree k.name ∧ CrlfFree k.value := by
  constructor
  · intro h
    have hname : k.name <:+: k.text := (List.prefix_append k.name (colon :: k.rest)).isInfix
    have hvalue : k.value <:+: k.text :=
      ⟨k.name ++ colon :: k.before, k.after, by simp [HeaderLine.text, HeaderLine.rest]⟩
    exact ⟨fun hin => h (hin.trans hname), fun hin => h (hin.trans hvalue)⟩
  · intro h
    have hafter : CrlfFree k.after := by
      have hfree := k.after_blank.free_append (show CrlfFree [] from fun h => by simp at h)
      rwa [List.append_nil] at hfree
    have hjoin : k.after.head? ≠ some lf := by
      intro hhead
      exact absurd (k.after_blank lf (List.mem_of_head? hhead)) (by decide)
    have hrest : CrlfFree k.rest := k.before_blank.free_append (h.2.append_of_ne hafter hjoin)
    exact h.1.append_of_ne (Free.cons_of_ne (by decide) hrest) (by simp [colon, lf])

theorem lower_eq_iff {c d : Byte} (hd : d.toNat < 65) : lower c = d ↔ c = d := by
  unfold lower
  split
  · rename_i hupper
    rw [UInt8.le_iff_toNat_le, UInt8.le_iff_toNat_le] at hupper
    have h65 : (65 : Byte).toNat = 65 := rfl
    have h90 : (90 : Byte).toNat = 90 := rfl
    have hsum : (c + 32).toNat = c.toNat + 32 := by
      have h32 : (32 : Byte).toNat = 32 := rfl
      rw [UInt8.toNat_add, h32]
      omega
    rw [← UInt8.toNat_inj, ← UInt8.toNat_inj, hsum]
    omega
  · exact Iff.rfl

theorem free_lower_iff (s : Bytes) : CrlfFree (s.map lower) ↔ CrlfFree s := by
  apply not_congr
  rw [List.infix_map_iff]
  constructor
  · rintro ⟨p, hp, heq⟩
    have hcr (c : Byte) : cr = lower c ↔ c = cr := eq_comm.trans (lower_eq_iff (by decide))
    have hlf (c : Byte) : lf = lower c ↔ c = lf := eq_comm.trans (lower_eq_iff (by decide))
    cases p with
    | nil => simp at heq
    | cons x p =>
      cases p with
      | nil => simp at heq
      | cons y p =>
        simp only [List.map_cons, List.cons.injEq, hcr, hlf, List.nil_eq, List.map_eq_nil_iff] at heq
        obtain ⟨rfl, rfl, rfl⟩ := heq
        exact hp
  · intro h
    exact ⟨[cr, lf], h, by decide⟩

theorem isSection_rewritten {R : HeaderLine → HeaderLine → Prop} (hR : ∀ k k', R k k' → k.Respells k')
    {ls ls' : List Bytes} (h : List.Forall₂ (Rewritten R) ls ls') (hls : IsSection ls) :
    IsSection ls' := by
  induction h with
  | nil => exact hls
  | cons hl _ ih =>
    unfold IsSection at hls ih ⊢
    rw [List.forall_mem_cons] at hls ⊢
    refine ⟨?_, ih hls.2⟩
    cases hl with
    | same => exact hls.1
    | @line k k' hk =>
      obtain ⟨hname, hvalue⟩ := hR k k' hk
      refine ⟨by simp [HeaderLine.text], ?_⟩
      have hfree := (text_free_iff k).mp hls.1.2
      rw [text_free_iff, ← hvalue, ← free_lower_iff, ← hname, free_lower_iff]
      exact hfree

/-- A request line, a header section and the blank line. -/
def sectionBytes (line : Bytes) (ls : List Bytes) : Bytes := unlines cr lf (line :: ls) ++ [cr, lf]

theorem collect_section {ls : List Bytes} (hls : IsSection ls) :
    (collect cr lf 100 (unlines cr lf ls ++ [cr, lf])).records = ls.take 100 := by
  have htake : IsSection (ls.take 100) := fun l hl => hls l (List.mem_of_mem_take hl)
  have hcut : unlines cr lf ls ++ [cr, lf] =
      unlines cr lf (ls.take 100) ++ (unlines cr lf (ls.drop 100) ++ [cr, lf]) := by
    rw [← List.append_assoc, ← unlines_append, List.take_append_drop]
  rw [hcut, collect_unlines (by decide) htake (by simp)]
  simp only [List.append_right_eq_self]
  by_cases hlong : 100 ≤ ls.length
  · have hzero : 100 - (ls.take 100).length = 0 := by
      rw [List.length_take]
      omega
    rw [hzero]
    rfl
  · have hnil : ls.drop 100 = [] := List.drop_eq_nil_of_le (by omega)
    have hsucc : ∃ n, 100 - (ls.take 100).length = n + 1 := by
      rw [List.length_take]
      exact ⟨99 - ls.length, by omega⟩
    obtain ⟨n, hn⟩ := hsucc
    rw [hnil, hn]
    rfl

/-- A fresh connection fed with a head has read the lines of its section, up to the bound of
the loop. -/
theorem feed_message {b : Build} {line : Bytes} {ls : List Bytes} (hline : CrlfFree line)
    (hls : IsSection ls) {herr : HttpErr} {c : ClientConn}
    (h : ClientConn.new.feed b allOk (sectionBytes line ls) = .ok (herr, c)) :
    c.node.map HttpParseCtx.message = some ((ls.take 100).foldl readLine ([], .none)) := by
  obtain ⟨ctx, rfl, hnode, -⟩ := feedNode_of_feedStep (i := ⟨allOk, sectionBytes line ls⟩)
    (rests_new b) h
  rw [node_single, Option.map_some, Option.some.injEq]
  let node : HttpParseCtx := { HttpParseCtx.new with post := sectionBytes line ls }
  rcases feedNode_ok hnode with ⟨-, hlt, hresume⟩ | ⟨hfail, -⟩
  · have hreq : labelWaitReq b allOk node = .ok (.ret herr ctx) := hresume
    have hsized : node.Sized := ⟨Nat.le_refl _, Nat.zero_le _, hlt⟩
    have hcut : cutLine node.unread = some (line, unlines cr lf ls ++ [cr, lf]) := by
      have hunread : node.unread = line ++ cr :: lf :: (unlines cr lf ls ++ [cr, lf]) := by
        have hpost : node.unread = sectionBytes line ls := rfl
        rw [hpost, sectionBytes, unlines_cons, List.append_assoc, List.cons_append, List.cons_append]
      rw [hunread]
      exact cut_record (by decide) hline _
    rcases labelWaitReq_cases b allOk hsized rfl with ⟨hnone, -⟩ | ⟨l, r, hsome, hr | hr⟩
    · simp [hcut] at hnone
    · simp [hreq] at hr
    · obtain ⟨request, hr, hlist⟩ := hr
      have hrest : r = unlines cr lf ls ++ [cr, lf] := by
        rw [hcut, Option.some.injEq, Prod.mk.injEq] at hsome
        exact hsome.2.symm
      have hstart : ({ node.behindLine l request with waitState := .waitHdr } :
          HttpParseCtx).message = ([], .none) := by
        simp only [HttpParseCtx.message, HttpParseCtx.behindLine, hlist]
        rfl
      rw [hr, labelWaitHdr_collect b (behindLine_sized _ l request hsized hsome)] at hreq
      rw [behindLoop_message hreq, behindLine_unread _ l request hsome, hrest, collect_section hls,
        hstart]
  · exact absurd hfail (by simp [allOk])

/-- Sections that differ in the blanks the parsers skip and in the letters of other names are
read alike, line by line and by a feed; a name that is none of http_hdr.def as it is spelled there
is an unknown field that frames nothing. -/
theorem respelled_message (b : Build) :
    (∀ ls ls' : List Bytes, List.Forall₂ (Rewritten HeaderLine.Keeps) ls ls' →
      (∀ ctx : HttpParseCtx, (parseHeaderLines ctx ls).message = (parseHeaderLines ctx ls').message) ∧
      ∀ (line : Bytes) (herr herr' : HttpErr) (c c' : ClientConn), CrlfFree line → IsSection ls →
        ClientConn.new.feed b allOk (sectionBytes line ls) = .ok (herr, c) →
        ClientConn.new.feed b allOk (sectionBytes line ls') = .ok (herr', c') →
        c.node.map HttpParseCtx.message = c'.node.map HttpParseCtx.message) ∧
    ∀ (ctx : HttpParseCtx) (k : HeaderLine), (∀ e ∈ httpHdrDef, ¬ LooksLike k.name e.2) →
      (parseHeaderLines ctx [k.text]).message = (ctx.message.1 ++ [.unkown], ctx.message.2) := by
  constructor
  · intro ls ls' h
    constructor
    · intro ctx
      rw [parseHeaderLines_message, parseHeaderLines_message, foldl_readLine h]
    · intro line herr herr' c c' hline hls hc hc'
      have hls' := isSection_rewritten (fun k k' hk => hk.toRespells) h hls
      have htake : List.Forall₂ (Rewritten HeaderLine.Keeps) (ls.take 100) (ls'.take 100) :=
        List.forall₂_take 100 h
      rw [feed_message hline hls hc, feed_message hline hls' hc', foldl_readLine htake]
  · intro ctx k hk
    rw [parseHeaderLines_message]
    exact readLine_unkown hk ctx.message

def lengthLine : HeaderLine where
  name := ascii "Content-Length".toList
  before := [space]
  value := ascii "5".toList
  after := []
  name_token := by decide
  before_blank := by decide
  after_blank := by decide
  value_head := by decide +kernel
  value_last := by decide +kernel
  fits := by decide

/-- The same field with other blanks around its value. -/
def spacedLine : HeaderLine := { lengthLine with
  before := [9, space, space]
  after := [space]
  before_blank := by decide
  after_blank := by decide
  fits := by decide }

/-- The same field in small letters. -/
def loweredLine : HeaderLine := { lengthLine with
  name := ascii "content-length".toList
  name_token := by decide }

theorem spacedLine_keeps : lengthLine.Keeps spacedLine where
  name := rfl
  value := rfl
  field := rfl
  compared := by
    have hnone : knownValues (httpMatchHeaderField lengthLine.name) = [] := by decide +kernel
    have hnot (k : HeaderLine) (hk : k.name = lengthLine.name) : ¬ k.Compares := by
      intro h
      obtain ⟨e, he, -⟩ := h
      rw [hk, hnone] at he
      simp at he
    intro h
    exact (h.elim (hnot lengthLine rfl) (hnot spacedLine rfl)).elim
  contentType := by
    intro h
    exact absurd h (by decide +kernel)

def putLine : Bytes := ascii "PUT / HTTP/1.1".toList

theorem spacedLine_message :
    (parseHeaderLines .new [lengthLine.text]).message =
      (parseHeaderLines .new [spacedLine.text]).message ∧
    (∃ c c', ClientConn.new.feed .debug allOk (sectionBytes putLine [lengthLine.text]) =
        .ok (.requestTcpSegmentInBody, c) ∧
      ClientConn.new.feed .debug allOk (sectionBytes putLine [spacedLine.text]) =
        .ok (.requestTcpSegmentInBody, c') ∧
      c.node.map HttpParseCtx.message = c'.node.map HttpParseCtx.message) ∧
    (parseHeaderLines .new [loweredLine.text]).message = ([.unkown], .none) := by
  obtain ⟨halike, hunkown⟩ := respelled_message .debug
  have hlines : List.Forall₂ (Rewritten HeaderLine.Keeps) [lengthLine.text] [spacedLine.text] :=
    .cons (.line spacedLine_keeps) .nil
  obtain ⟨hparse, hfeed⟩ := halike _ _ hlines
  refine ⟨hparse .new, ⟨_, _, rfl, rfl, ?_⟩, ?_⟩
  · have hsection : IsSection [lengthLine.text] := by
      intro l hl
      rw [List.mem_singleton.mp hl]
      exact ⟨by decide, by decide +kernel⟩
    exact hfeed putLine _ _ _ _ (by decide +kernel) hsection rfl rfl
  · apply hunkown .new loweredLine
    intro e he hlike
    have hall : ∀ e ∈ httpHdrDef, ¬ e.2 <+: loweredLine.name := by decide +kernel
    exact hall e he hlike.1

/-- A length in small letters frames nothing. -/
theorem loweredLine_unframed :
    ¬ ∀ ls ls' : List Bytes, List.Forall₂ (Rewritten HeaderLine.Respells) ls ls' →
      (parseHeaderLines .new ls).message = (parseHeaderLines .new ls').message := by
  intro h
  have hlines : List.Forall₂ (Rewritten HeaderLine.Respells) [lengthLine.text] [loweredLine.text] :=
    .cons (.line ⟨by decide +kernel, rfl⟩) .nil
  have heq := h _ _ hlines
  revert heq
  decide +kernel

end LiteHttp
