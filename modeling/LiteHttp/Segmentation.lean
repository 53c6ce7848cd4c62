import Mathlib.Data.List.Forall2
import Mathlib.Data.Nat.Find
import LiteHttp.Reading
import LiteHttp.Tiling

/-!
# A message that arrives in chunks

Between two calls the node of a message is at one of its phases, and what it is
there depends on the bytes received only, not on the calls that brought them. A
call goes on to the next phase unless it runs into the bound of the header loop:
99 lines with the blank line behind them, or 100 lines.
-/

namespace LiteHttp

open Delim Run

set_option autoImplicit false

namespace WireRequest

variable (m : WireRequest)

/-- The request line and the first `j` header lines, as they are sent. -/
def lead (j : Nat) : Bytes := unlines cr lf (m.requestLine :: m.lines.take j)

/-- The header lines that end within the first `k` bytes of the message. -/
def linesIn (k : Nat) : Nat :=
  Nat.findGreatest (fun j => (m.lead j).length ≤ k) m.lines.length

/-- The node that has received `p` of the message and taken `j` header lines. -/
inductive Phase (p : Bytes) : Nat → HttpParseCtx → Prop where
  | line {state : WaitState} (hstate : state = .start ∨ state = .waitReq)
      (hcut : cutLine p = none) : Phase p 0 { fresh p with waitState := state }
  | head {j : Nat} {u : Bytes} (hj : j ≤ m.lines.length) (hp : p = m.lead j ++ u)
      (hfree : CrlfFree u) : Phase p j (m.headNode p (m.lines.take j))
  | body (hp : m.head <+: p) (hf : m.framing = ⟨.fixed, m.body.length⟩) :
      Phase p m.lines.length (m.waitNode p)

/-- Where a call leaves a node, once it has received `p` of the message and had
taken `j` header lines before. -/
inductive Leaves (b : Build) (p : Bytes) (j : Nat) : Except Fault Exit → Prop where
  | waits {i : Nat} {ctx : HttpParseCtx} (hphase : m.Phase p i ctx)
      (hopen : p.length < m.head.length) (hi : i < j + 100) :
      Leaves b p j (.ok (.ret .parseCannotFindClrf ctx))
  | behind (hhead : m.head <+: p) (hlines : m.lines.length < j + 99) :
      Leaves b p j (bodySwitch b allOk (m.bodyNode p))
  | fatal (hhead : m.head <+: p) (hlines : m.lines.length = j + 99) :
      Leaves b p j (.ok (.ret .requestFatal (m.bodyNode p)))
  | full (hlines : j + 100 ≤ m.lines.length) (hread : (m.lead (j + 100)).length ≤ p.length) :
      Leaves b p j (bodySwitch b allOk (m.headNode p (m.lines.take (j + 100))))

/-- A call from `k` received bytes to `k'` runs into the bound of the header loop. -/
def Overruns (k k' : Nat) : Prop :=
  m.linesIn k + 100 ≤ m.linesIn k' ∨
    (m.linesIn k + 99 = m.headers.length ∧ m.head.length ≤ k')

/-- From `k` received bytes on, no call runs into the bound of the header loop. -/
def Within : Nat → List Bytes → Prop
  | _, [] => True
  | k, c :: cs => ¬ m.Overruns k (k + c.length) ∧ Within (k + c.length) cs

theorem within_append (k : Nat) (cs ds : List Bytes) :
    m.Within k (cs ++ ds) ↔ m.Within k cs ∧ m.Within (k + cs.flatten.length) ds := by
  induction cs generalizing k with
  | nil => simp [Within]
  | cons c cs ih =>
    simp only [List.cons_append, Within, ih, List.flatten_cons, List.length_append, and_assoc,
      Nat.add_assoc]

theorem lead_append (j i : Nat) :
    m.lead (j + i) = m.lead j ++ unlines cr lf ((m.lines.drop j).take i) := by
  rw [lead, lead, List.take_add, ← List.cons_append, unlines_append]

theorem head_eq_lead (j : Nat) :
    m.head = m.lead j ++ (unlines cr lf (m.lines.drop j) ++ [cr, lf]) := by
  rw [head, lead, ← List.append_assoc, ← unlines_append, List.cons_append, List.take_append_drop]

theorem lead_lt_head (j : Nat) : (m.lead j).length < m.head.length := by
  rw [m.head_eq_lead j, List.length_append, List.length_append]
  exact Nat.lt_add_of_pos_right (Nat.add_pos_right _ (Nat.succ_pos 1))

theorem linesIn_le (k : Nat) : m.linesIn k ≤ m.lines.length := Nat.findGreatest_le _

theorem le_linesIn {j k : Nat} (hj : j ≤ m.lines.length) (h : (m.lead j).length ≤ k) :
    j ≤ m.linesIn k := Nat.le_findGreatest hj h

theorem within_of_le (hlines : m.headers.length ≤ 98) (k : Nat) (cs : List Bytes) :
    m.Within k cs := by
  induction cs generalizing k with
  | nil => trivial
  | cons c cs ih =>
    refine ⟨?_, ih _⟩
    have hle := m.linesIn_le (k + c.length)
    rw [m.length_lines] at hle
    rintro (hfull | ⟨hlast, -⟩)
    · omega
    · omega

theorem linesIn_whole {k : Nat} (h : m.head.length ≤ k) : m.linesIn k = m.lines.length :=
  Nat.le_antisymm (m.linesIn_le k)
    (m.le_linesIn (Nat.le_refl _) ((m.lead_lt_head _).le.trans h))

variable {m}

/-- Bytes without a line end do not reach past the next one of the message. -/
theorem length_lt_of_free {p q u s t l : Bytes} (hp : p = q ++ u) (hfree : CrlfFree u)
    (hs : p ++ s = q ++ (l ++ cr :: lf :: t)) : p.length < q.length + l.length + 2 := by
  by_contra hle
  rw [hp, List.append_assoc, List.append_cancel_left_eq] at hs
  have hpre : l ++ [cr, lf] <+: l ++ cr :: lf :: t := ⟨t, by simp⟩
  have hu : u <+: l ++ cr :: lf :: t := ⟨s, hs⟩
  have hlen : (l ++ [cr, lf]).length ≤ u.length := by
    rw [hp, List.length_append] at hle
    simp only [List.length_append, List.length_cons, List.length_nil]
    omega
  obtain ⟨v, hv⟩ := List.prefix_of_prefix_length_le hpre hu hlen
  exact hfree ⟨l, v, by rw [← hv]⟩

theorem linesIn_head {p u s : Bytes} {j : Nat} (hj : j ≤ m.lines.length) (hp : p = m.lead j ++ u)
    (hfree : CrlfFree u) (hs : p ++ s = m.bytes) : m.linesIn p.length = j := by
  apply Nat.le_antisymm
  · by_contra hlt
    have hread : (m.lead (m.linesIn p.length)).length ≤ p.length := by
      have hle : (m.lead j).length ≤ p.length := by
        rw [hp, List.length_append]
        omega
      exact Nat.findGreatest_spec (P := fun j => (m.lead j).length ≤ p.length) hj hle
    obtain ⟨i, hi⟩ : ∃ i, m.linesIn p.length = j + (i + 1) :=
      ⟨m.linesIn p.length - j - 1, by omega⟩
    have hle := m.linesIn_le p.length
    have hne : j < m.lines.length := by omega
    have hdrop : m.lines.drop j = m.lines[j] :: m.lines.drop (j + 1) := List.drop_eq_getElem_cons hne
    have hbytes : p ++ s = m.lead j ++
        (m.lines[j] ++ cr :: lf :: (unlines cr lf (m.lines.drop (j + 1)) ++ cr :: lf :: m.body)) := by
      rw [hs, bytes, m.head_eq_lead j, hdrop, unlines_cons]
      simp
    have hlt := length_lt_of_free hp hfree hbytes
    rw [hi, m.lead_append j (i + 1), hdrop, List.take_succ_cons, unlines_cons] at hread
    simp only [List.length_append, List.length_cons] at hread
    omega
  · exact m.le_linesIn hj (by rw [hp, List.length_append]; omega)

theorem linesIn_line {p s : Bytes} (hcut : cutLine p = none) (hs : p ++ s = m.bytes) :
    m.linesIn p.length = 0 ∧ p.length < m.head.length := by
  have hbytes : p ++ s = [] ++ (m.requestLine ++ cr :: lf :: (unlines cr lf m.lines ++
      cr :: lf :: m.body)) := by
    rw [hs, bytes, head, unlines_cons]
    simp
  have hself : p = [] ++ p := rfl
  have hlt := length_lt_of_free hself (cut_eq_none_iff.mp hcut) hbytes
  have hlead (j : Nat) : m.requestLine.length + 2 ≤ (m.lead j).length := by
    rw [lead, unlines_cons]
    simp only [List.length_append, List.length_cons]
    omega
  rw [List.length_nil, Nat.zero_add] at hlt
  constructor
  · apply Nat.findGreatest_eq_zero_iff.mpr
    intro j _ _ hle
    have := hlead j
    omega
  · exact hlt.trans_le ((hlead 0).trans (m.lead_lt_head 0).le)

theorem length_lt_head {p u s : Bytes} {j : Nat} (hp : p = m.lead j ++ u) (hfree : CrlfFree u)
    (hs : p ++ s = m.bytes) : p.length < m.head.length := by
  cases hdrop : m.lines.drop j with
  | nil =>
    have hbytes : p ++ s = m.lead j ++ ([] ++ cr :: lf :: m.body) := by
      rw [hs, bytes, m.head_eq_lead j, hdrop]
      simp
    have hlt := length_lt_of_free hp hfree hbytes
    rw [m.head_eq_lead j, hdrop]
    simpa using hlt
  | cons l ls =>
    have hbytes : p ++ s = m.lead j ++ (l ++ cr :: lf :: (unlines cr lf ls ++ cr :: lf :: m.body)) := by
      rw [hs, bytes, m.head_eq_lead j, hdrop, unlines_cons]
      simp
    have hlt := length_lt_of_free hp hfree hbytes
    rw [m.head_eq_lead j, hdrop, unlines_cons]
    simp only [List.length_append, List.length_cons]
    omega

theorem Phase.post {p : Bytes} {j : Nat} {ctx : HttpParseCtx} (h : m.Phase p j ctx) :
    ctx.post = p := by
  cases h with
  | line => rfl
  | head => exact m.headNode_post _ _
  | body => exact m.bodyNode_post _

theorem Phase.linesIn_eq {p s : Bytes} {j : Nat} {ctx : HttpParseCtx} (h : m.Phase p j ctx)
    (hs : p ++ s = m.bytes) : m.linesIn p.length = j := by
  cases h with
  | line hstate hcut => exact (linesIn_line hcut hs).1
  | head hj hp hfree => exact linesIn_head hj hp hfree hs
  | body hp hf => exact m.linesIn_whole hp.length_le

section Calls

variable (b : Build) {p s : Bytes} {j : Nat} {ctx : HttpParseCtx} (hsize : m.bytes.length < 2 ^ 30)
include hsize

theorem labelWaitHdr_leaves {u : Bytes} (hj : j ≤ m.lines.length) (hp : p = m.lead j ++ u)
    (hs : p ++ s = m.bytes)
    (hctx : ({ ctx with waitState := .waitHdr } : HttpParseCtx) = m.headNode p (m.lines.take j)) :
    m.Leaves b p j (labelWaitHdr b allOk ctx) := by
  have hlt : p.length < ptrdiffMax := by
    rw [← hs, List.length_append] at hsize
    unfold ptrdiffMax
    omega
  have hsized : ctx.Sized := by
    have h := m.headNode_sized hp hlt
    rw [← hctx] at h
    exact ⟨h.cur_le, h.next_le, h.post_lt⟩
  have hunread : ctx.unread = u := by
    have h := m.headNode_unread hp
    rw [← hctx] at h
    exact h
  have hblock : u ++ s = unlines cr lf (m.lines.drop j) ++ cr :: lf :: m.body := by
    rw [hp, bytes, m.head_eq_lead j, List.append_assoc, List.append_assoc,
      List.append_cancel_left_eq] at hs
    simpa using hs
  have hfree : ∀ l ∈ m.lines.drop j, l ≠ [] ∧ CrlfFree l :=
    fun l hl => m.lines_free l (List.mem_of_mem_drop hl)
  have hlen : (m.lines.drop j).length = m.lines.length - j := List.length_drop
  have htiles := collect_tiles (a := cr) (b := lf) 100 u
  rw [labelWaitHdr_block b _ hsized hctx, hunread]
  rcases collect_prefix (by decide) hfree 100 hblock with ⟨hstop, i, hi, hrec⟩ |
      ⟨hstop, hrec, hlines, -⟩ | ⟨hstop, hrec, hlines⟩
  · rw [blockExit_open hstop, hrec, ← List.take_add]
    have hcnt : i < 100 := by
      have hle := collect_length_le (a := cr) (b := lf) 100 u
      have hne : (collect cr lf 100 u).records.length ≠ 100 := by
        rw [ne_eq, ← collect_full_iff, hstop]
        decide
      rw [hrec, List.length_take, Nat.min_eq_left hi] at hle hne
      omega
    have hread : p = m.lead (j + i) ++ (collect cr lf 100 u).rest := by
      rw [hstop, hrec] at htiles
      rw [hp, m.lead_append j i, List.append_assoc]
      exact congrArg _ htiles
    have hopen := collect_open_free hstop
    exact .waits (.head (by omega) hread hopen) (length_lt_head hread hopen hs) (by omega)
  · rw [blockExit_blank hstop (by rw [hrec, List.take_append_drop]), hrec, hlen]
    have hhead : m.head <+: p := by
      rw [hstop, hrec] at htiles
      refine ⟨(collect cr lf 100 u).rest, ?_⟩
      rw [hp, m.head_eq_lead j, List.append_assoc, List.append_assoc]
      exact congrArg _ htiles.symm
    rw [hlen] at hlines
    by_cases hlast : m.lines.length = j + 99
    · have hcnt : 1 + (m.lines.length - j) = 100 := by omega
      simp only [behindLoop, hcnt, if_true]
      exact .fatal hhead hlast
    · have hcnt : ¬ 1 + (m.lines.length - j) = 100 := by omega
      simp only [behindLoop, hcnt, if_false]
      exact .behind hhead (by omega)
  · rw [blockExit_full hstop, hrec, ← List.take_add]
    have hread : (m.lead (j + 100)).length ≤ p.length := by
      rw [hstop, hrec] at htiles
      rw [hp, m.lead_append j 100, htiles, List.length_append, List.length_append,
        List.length_append]
      omega
    rw [hlen] at hlines
    exact .full (by omega) hread

theorem Phase.feedNode_leaves (h : m.Phase p j ctx) (c : Bytes) (hs : p ++ c ++ s = m.bytes) :
    m.Leaves b (p ++ c) j (feedNode b allOk ctx c) := by
  have hlt : (p ++ c).length < 2 ^ 30 := by
    rw [← hs, List.length_append] at hsize
    omega
  rw [feedNode_append (by rwa [h.post]), h.post]
  cases h with
  | @line state hstate hcut =>
    have hresume : resume b allOk { fresh (p ++ c) with waitState := state } =
        labelWaitReq b allOk (fresh (p ++ c)) := by rcases hstate with rfl | rfl <;> rfl
    have hsized : (fresh (p ++ c)).Sized :=
      ⟨Nat.le_refl _, Nat.zero_le _, show (p ++ c).length < ptrdiffMax by unfold ptrdiffMax; omega⟩
    refine hresume ▸ ?_
    rcases labelWaitReq_cases b allOk hsized rfl with ⟨hc, hl⟩ | ⟨l, r, hc, -⟩
    · rw [hl]
      have hc : cutLine (p ++ c) = none := hc
      exact .waits (.line (Or.inr rfl) hc) (linesIn_line hc hs).2 (by omega)
    · have hc : cutLine (p ++ c) = some (l, r) := hc
      have hbytes : m.bytes = m.requestLine ++ cr :: lf :: (unlines cr lf m.lines ++
          cr :: lf :: m.body) := by
        rw [bytes, WireRequest.head, unlines_cons]
        simp
      have hcut := cut_append hc s
      rw [hs, hbytes, cut_record (by decide) m.requestLine_free, Option.some.injEq,
        Prod.mk.injEq] at hcut
      obtain ⟨rfl, -⟩ := hcut
      have hline := eq_of_cut hc
      have hlead : p ++ c = m.lead 0 ++ r := by
        rw [hline, lead, List.take_zero, unlines_cons]
        simp
      rw [labelWaitReq_line b hline hlt]
      exact labelWaitHdr_leaves b hsize (Nat.zero_le _) hlead hs rfl
  | @head _ u hj hp hfree =>
    have hgrown : p ++ c = m.lead j ++ (u ++ c) := by rw [hp, List.append_assoc]
    rw [headNode_with_post]
    simp only [resume, headNode_waitState]
    exact labelWaitHdr_leaves b hsize hj hgrown hs (with_waitState (headNode_waitState _ _ _))
  | body hp hf =>
    have hhead : m.head <+: p ++ c := hp.trans (List.prefix_append _ _)
    have hframing := (bodyNode_framing hsize (p ++ c)).trans hf
    -- the body label sets again what the earlier call set
    have hresume : resume b allOk { m.waitNode p with post := p ++ c } =
        bodySwitch b allOk (m.bodyNode (p ++ c)) := by
      rw [bodySwitch_fixed b allOk (congrArg Framing.bodyType hframing),
        ← m.bodyNode_with_post p]
      rfl
    rw [hresume]
    exact .behind hhead (by omega)

/-- The code of a call that waits for more of the message. -/
def Waits (herr : HttpErr) : Prop :=
  herr = .parseCannotFindClrf ∨ herr = .requestTcpSegmentInBody

/-- A call that does not run into the bound goes on to the next phase, or has the message. -/
theorem Phase.feedNode_within (h : m.Phase p j ctx) (c : Bytes) (hs : p ++ c ++ s = m.bytes)
    (hwithin : ¬ m.Overruns p.length (p ++ c).length) :
    (s ≠ [] ∧ ∃ herr i ctx', feedNode b allOk ctx c = .ok (.ret herr ctx') ∧ Waits herr ∧
      m.Phase (p ++ c) i ctx') ∨
    (s = [] ∧ ∃ ctx', feedNode b allOk ctx c = .ok (.ret .success ctx') ∧
      Whole m m.bytes ctx') := by
  have hlines := h.linesIn_eq (by rwa [← List.append_assoc])
  have hleaves := h.feedNode_leaves b hsize c hs
  generalize feedNode b allOk ctx c = r at hleaves
  cases hleaves with
  | @waits i ctx' hphase hopen _ =>
    refine Or.inl ⟨?_, _, i, ctx', rfl, Or.inl rfl, hphase⟩
    rintro rfl
    rw [List.append_nil] at hs
    rw [hs, bytes, List.length_append] at hopen
    omega
  | behind hhead _ =>
    by_cases hrest : s = []
    · subst hrest
      rw [List.append_nil] at hs
      have hself : m.bytes = m.bytes ++ [] := (List.append_nil _).symm
      rw [hs]
      rcases bodySwitch_whole b hself hsize with ⟨-, hne, -⟩ | ⟨-, ctx', hswitch, hwhole⟩
      · exact absurd rfl hne
      · exact Or.inr ⟨rfl, ctx', hswitch, hwhole⟩
    · obtain ⟨hf, hswitch⟩ := bodySwitch_short b hrest hs hsize hhead.length_le
      exact Or.inl ⟨hrest, _, _, _, hswitch, Or.inr rfl, .body hhead hf⟩
  | fatal hhead hfull =>
    exact absurd (Or.inr ⟨by rw [hlines, ← hfull, m.length_lines], hhead.length_le⟩) hwithin
  | full hle hread =>
    exact absurd (Or.inl (by rw [hlines]; exact m.le_linesIn hle hread)) hwithin

end Calls

theorem Phase.waitState_ne {p : Bytes} {j : Nat} {ctx : HttpParseCtx} (h : m.Phase p j ctx) :
    ctx.waitState ≠ .parseEnd := by
  cases h with
  | line hstate => rcases hstate with rfl | rfl <;> simp
  | head => simp
  | body => simp [waitNode]

theorem Phase.new : m.Phase [] 0 .new := .line (Or.inl rfl) rfl

section Runs

variable (b : Build) {p s : Bytes} {j : Nat} {ctx : HttpParseCtx} (hsize : m.bytes.length < 2 ^ 30)
include hsize

theorem Phase.exec_waits {chunks : List Bytes} (h : m.Phase p j ctx)
    (hs : p ++ chunks.flatten ++ s = m.bytes) (hrest : s ≠ [])
    (hwithin : m.Within p.length chunks) :
    ∃ herrs i ctx', exec (ClientConn.feedStep b) (.single ctx) (feeds chunks) =
        .ok (herrs, .single ctx') ∧ (∀ herr ∈ herrs, Waits herr) ∧
      m.Phase (p ++ chunks.flatten) i ctx' := by
  induction chunks generalizing p j ctx with
  | nil =>
    refine ⟨[], j, ctx, rfl, by simp, ?_⟩
    rwa [List.flatten_nil, List.append_nil]
  | cons c cs ih =>
    obtain ⟨hfirst, hlater⟩ := hwithin
    rw [← List.length_append] at hfirst hlater
    rw [List.flatten_cons, ← List.append_assoc] at hs ⊢
    have hcall : p ++ c ++ (cs.flatten ++ s) = m.bytes := by rw [← hs, List.append_assoc (p ++ c)]
    rcases h.feedNode_within b hsize c hcall hfirst with ⟨-, herr, i, ctx', hfeed, hwaits, hphase⟩ |
        ⟨hnil, -⟩
    · obtain ⟨herrs, i', ctx'', hx, hall, hphase'⟩ := ih hphase hs hlater
      refine ⟨herr :: herrs, i', ctx'', exec_cons (feed_of_feedNode hfeed) hx, ?_, hphase'⟩
      exact List.forall_mem_cons.mpr ⟨hwaits, hall⟩
    · exact absurd (List.append_eq_nil_iff.mp hnil).2 hrest

theorem exec_whole {pre : List Bytes} {last : Bytes} (hlast : last ≠ [])
    (hs : pre.flatten ++ last = m.bytes) (hwithin : m.Within 0 (pre ++ [last])) :
    ∃ herrs ctx, exec (ClientConn.feedStep b) .new (feeds (pre ++ [last])) =
        .ok (herrs ++ [.success], .single ctx) ∧ (∀ herr ∈ herrs, Waits herr) ∧
      Whole m m.bytes ctx := by
  obtain ⟨hfirst, hcall, -⟩ := (m.within_append 0 pre [last]).mp hwithin
  obtain ⟨herrs, j, ctx, hx, hwaits, hphase⟩ :=
    (Phase.new (m := m)).exec_waits b hsize (by rwa [List.nil_append]) hlast hfirst
  rw [List.nil_append] at hphase
  rw [Nat.zero_add, ← List.length_append] at hcall
  have hbytes : pre.flatten ++ last ++ [] = m.bytes := by rwa [List.append_nil]
  rcases hphase.feedNode_within b hsize last hbytes hcall with ⟨hne, -⟩ | ⟨-, ctx', hfeed, hwhole⟩
  · exact absurd rfl hne
  · refine ⟨herrs, ctx', ?_, hwaits, hwhole⟩
    have hstep : exec (ClientConn.feedStep b) (.single ctx) (feeds [last]) =
        .ok ([.success], .single ctx') := exec_cons (feed_of_feedNode hfeed) rfl
    rw [feeds, List.map_append]
    exact exec_append hx hstep

end Runs

end WireRequest

open WireRequest

/-- What a client is to get for a header line `name: value`. -/
structure HeaderFor (h : Bytes × Bytes) (header : HttpHeader) : Prop where
  valueSv : header.value.valueSv = h.2
  known : header.field ≠ .unkown → header.field = httpMatchHeaderField h.1
  unkown : header.field = .unkown → header.name = h.1

/-- What a client is to get for the message. -/
structure RequestFor (m : WireRequest) (request : HttpRequest) : Prop where
  method : request.method = httpMatchMethod m.method
  path : request.path = m.path
  version : request.version = httpMatchVersion m.version
  headers : List.Forall₂ HeaderFor m.headers request.headerList
  body : request.body = m.body

theorem httpHdrParseValue_name (header : HttpHeader) (v : Bytes) :
    (httpHdrParseValue header v).2.name = header.name := by
  unfold httpHdrParseValue
  dsimp only
  split <;> rfl

theorem headerFor_newHeader (h : Bytes × Bytes) : HeaderFor h (newHeader h.1 h.2).2 := by
  generalize hstart : (if httpMatchHeaderField h.1 = .unkown then
    { HttpHeader.zero with field := httpMatchHeaderField h.1, name := h.1 } else
    { HttpHeader.zero with field := httpMatchHeaderField h.1 } : HttpHeader) = header
  have hfield : header.field = httpMatchHeaderField h.1 := by
    rw [← hstart]
    split <;> rfl
  have hname (hk : header.field = .unkown) : header.name = h.1 := by
    rw [← hstart, if_pos (hfield ▸ hk)]
  have hvalue := httpHdrParseValue_valueSv header h.2
  have heq : (newHeader h.1 h.2).2 = if (httpHdrParseValue header h.2).1 ≠ .success then
      { (httpHdrParseValue header h.2).2 with field := .unkown, name := h.1 }
      else (httpHdrParseValue header h.2).2 := by
    rw [← hstart]
    exact apply_ite Prod.snd _ _ _
  rw [heq]
  split
  · exact ⟨hvalue, fun hk => absurd rfl hk, fun _ => rfl⟩
  · constructor
    · exact hvalue
    · intro _
      rw [httpHdrParseValue_field, hfield]
    · intro hk
      rw [httpHdrParseValue_field] at hk
      rw [httpHdrParseValue_name, hname hk]

theorem WireRequest.requestFor (m : WireRequest) : RequestFor m m.request where
  method := rfl
  path := rfl
  version := rfl
  headers := List.forall₂_map_right_iff.mpr <|
    List.forall₂_same.mpr fun h _ => headerFor_newHeader h
  body := rfl

/-- However a message of at most 98 header lines is cut, the calls before the last
wait and give nothing to pop, and the last succeeds and gives the request. -/
theorem segmentation_transparent (b : Build) (m : WireRequest) (hlines : m.headers.length ≤ 98)
    (hsize : m.bytes.length < 2 ^ 30) {pre : List Bytes} {last : Bytes} (hlast : last ≠ [])
    (hcut : (pre ++ [last]).flatten = m.bytes) :
    (∀ cs, cs <+: pre → ∃ herrs c, exec (ClientConn.feedStep b) .new (feeds cs) = .ok (herrs, c) ∧
      (∀ herr ∈ herrs, herr ≠ .success ∧ herr ≠ .requestFatal) ∧ c.pop = .ok (none, c)) ∧
    ∃ herrs c c', exec (ClientConn.feedStep b) .new (feeds (pre ++ [last])) =
        .ok (herrs ++ [.success], c) ∧
      c.pop = .ok (some m.request, c') ∧ RequestFor m m.request := by
  constructor
  · rintro cs ⟨ds, rfl⟩
    have hs : [] ++ cs.flatten ++ (ds.flatten ++ last) = m.bytes := by
      rw [← hcut]
      simp
    have hrest : ds.flatten ++ last ≠ [] := by simp [hlast]
    obtain ⟨herrs, j, ctx, hx, hwaits, hphase⟩ :=
      (Phase.new (m := m)).exec_waits b hsize hs hrest (m.within_of_le hlines 0 cs)
    refine ⟨herrs, .single ctx, hx, ?_, pop_waiting hphase.waitState_ne⟩
    intro herr hmem
    rcases hwaits herr hmem with rfl | rfl <;> simp
  · have hs : pre.flatten ++ last = m.bytes := by
      rw [← hcut]
      simp
    obtain ⟨herrs, ctx, hx, -, hwhole⟩ :=
      exec_whole b hsize hlast hs (m.within_of_le hlines 0 (pre ++ [last]))
    exact ⟨herrs, .single ctx, .severed, hx, hwhole.pop, m.requestFor⟩

def smallPost : WireRequest := { bareGet with
  method := ascii "POST".toList
  path := ascii "/a".toList
  headers := [(ascii "Host".toList, ascii "b".toList), (contentLengthName, ascii "2".toList)]
  body := ascii "hi".toList
  method_free := by decide +kernel
  path_free := by decide +kernel
  method_token := by decide +kernel
  path_token := by decide +kernel
  headers_free := by decide +kernel
  names := by decide +kernel
  not_chunked := by decide +kernel
  length_value := by decide +kernel
  length_given := fun _ => ⟨(contentLengthName, ascii "2".toList), by decide +kernel⟩ }

/-- Cut inside the request line, between CR and LF, inside a name and inside the body. -/
theorem smallPost_segmented : ∃ herrs c c',
    exec (ClientConn.feedStep .debug) .new (feeds ([ascii "POST /".toList,
      ascii "a HTTP/1.1\r".toList, ascii "\nHost: b\r\nContent-Le".toList,
      ascii "ngth: 2\r\n\r\nh".toList] ++ [ascii "i".toList])) =
        .ok (herrs ++ [.success], c) ∧
      c.pop = .ok (some smallPost.request, c') ∧ RequestFor smallPost smallPost.request :=
  (segmentation_transparent .debug smallPost (by decide +kernel) (by decide +kernel)
    (by decide +kernel) (by decide +kernel)).2

end LiteHttp
