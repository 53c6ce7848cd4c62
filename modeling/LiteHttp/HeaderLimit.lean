import LiteHttp.Segmentation

/-!
# The bound of the header loop

The loop gives up with 99 header lines and the blank line in one call, and leaves
for the body behind the hundredth line of one call. Both count the lines of the
call, so they limit nothing: the lines of a message are rejected only when one
call takes the last 99 of them together with the blank line.
-/

namespace LiteHttp

open Delim Run WireRequest

set_option autoImplicit false

/-- The most header lines that complete under every segmentation. -/
def headerLimit : Nat := 98

def Reached (b : Build) (chunks : List Bytes) (herrs : List HttpErr) (c : ClientConn) : Prop :=
  Reaches (ClientConn.feedStep b) .new (feeds chunks) herrs c

/-- Some call succeeds, and the pop behind it returns the request. -/
def Completes (b : Build) (m : WireRequest) (chunks : List Bytes) : Prop :=
  ∃ herrs c c', Reached b chunks herrs c ∧ .success ∈ herrs ∧ c.pop = .ok (some m.request, c')

/-- Some call returns the fatal code, and no call succeeds. -/
def Rejects (b : Build) (chunks : List Bytes) : Prop :=
  (∃ herrs c, Reached b chunks herrs c ∧ .requestFatal ∈ herrs) ∧
    ∀ herrs c, Reached b chunks herrs c → .success ∉ herrs

/-- A node that waits for a body or has the message is behind the blank line. -/
def EndsHead (m : WireRequest) (c : ClientConn) : Prop :=
  ∀ ctx ∈ c.node, ctx.waitState = .waitFixBody ∨ ctx.waitState = .parseEnd →
    m.head.length ≤ ctx.cur

/-- The limit `n` on one message in one segmentation. -/
structure LimitHolds (n : Nat) (b : Build) (m : WireRequest) (chunks : List Bytes) : Prop where
  completes : m.headers.length ≤ n → Completes b m chunks
  rejects : n < m.headers.length → Rejects b chunks
  endsHead : ∀ herrs c, Reached b chunks herrs c → EndsHead m c

/-- The call does not complete a message, or stops at an assertion behind it. -/
def Unfinished (b : Build) (c : ClientConn) (i : Feed) : Prop :=
  ∀ v ∈ c.verdict i, v.fate = .complete → b = .debug ∧ v.fits = false

/-- One call takes the last 99 header lines and the blank line, the calls before
it take fewer than 100 each, and what is read of the body as header lines from
then on does not complete a message. -/
def Caught (b : Build) (m : WireRequest) (chunks : List Bytes) : Prop :=
  ∃ pre c suf, chunks = pre ++ c :: suf ∧ m.Within 0 pre ∧
    m.linesIn pre.flatten.length + 99 = m.headers.length ∧
    m.head.length ≤ (pre.flatten ++ c).length ∧
    Meets (ClientConn.feedStep b) (Unfinished b) (.single (m.bodyNode (pre.flatten ++ c)))
      (feeds suf)

section Cur

variable {b : Build} {ctx ctx' : HttpParseCtx} {herr : HttpErr}

theorem bodySwitch_ret {alloc : Alloc} (h : bodySwitch b alloc ctx = .ok (.ret herr ctx')) :
    ctx'.cur = ctx.cur ∧ (ctx'.waitState = .waitFixBody ∨ ctx'.waitState = .parseEnd) := by
  unfold bodySwitch at h
  split at h
  · rw [(labelEnd_ret h).2]
    exact ⟨rfl, Or.inr rfl⟩
  · rcases labelWaitFixBody_ret h with ⟨-, -, rfl⟩ | ⟨-, state, view, body, hstate, rfl⟩
    · exact ⟨rfl, Or.inl rfl⟩
    · exact ⟨rfl, hstate.imp And.right And.right⟩
  · rw [(labelEnd_ret h).2]
    exact ⟨rfl, Or.inr rfl⟩

theorem takeLines_cur_ge (h : ctx.cur ≤ ctx.nextLine) (ls : List Bytes) :
    ctx.cur ≤ (ctx.takeLines ls).cur := by
  induction ls generalizing ctx with
  | nil => exact Nat.le_refl _
  | cons l ls ih =>
    have hnext : (ctx.takeLine true l).cur ≤ (ctx.takeLine true l).nextLine := by
      rw [takeLine_cur, takeLine_nextLine]
      omega
    have hrest := ih hnext
    rw [takeLine_cur] at hrest
    exact h.trans hrest

theorem labelWaitHdr_cur_le (hs : ctx.Sized)
    (h : labelWaitHdr b allOk ctx = .ok (.ret herr ctx')) : ctx.cur ≤ ctx'.cur := by
  rw [labelWaitHdr_collect b hs] at h
  have hcur : ({ ctx with waitState := .waitHdr } : HttpParseCtx).cur ≤
      ({ ctx with waitState := .waitHdr } : HttpParseCtx).nextLine := hs.cur_le
  have hle (ls : List Bytes) := takeLines_cur_ge hcur ls
  have hblank (ls : List Bytes) := ((hle ls).trans (takeLines_cur_le hcur ls)).trans
    (Nat.le_add_right _ 2)
  unfold blockExit at h
  cases hstop : (collect cr lf 100 ctx.unread).stop with
  | «open» =>
    simp only [hstop, behindLoop, Except.ok.injEq, Exit.ret.injEq] at h
    rw [← h.2]
    exact hle _
  | blank =>
    simp only [hstop, behindLoop] at h
    split at h
    · simp only [Except.ok.injEq, Exit.ret.injEq] at h
      rw [← h.2]
      exact hblank _
    · rw [(bodySwitch_ret h).1]
      exact hblank _
  | full =>
    simp only [hstop, behindLoop] at h
    rw [(bodySwitch_ret h).1]
    exact hle _

theorem resume_cur_le (hat : ctx.AtLine)
    (hcur : ctx.waitState = .start ∨ ctx.waitState = .waitReq → ctx.cur = 0)
    (h : resume b allOk ctx = .ok (.ret herr ctx')) : ctx.cur ≤ ctx'.cur := by
  unfold resume at h
  split at h
  · rename_i hstate
    rw [hcur (Or.inl hstate)]
    exact Nat.zero_le _
  · rename_i hstate
    rw [hcur (Or.inr hstate)]
    exact Nat.zero_le _
  · rename_i hstate
    exact labelWaitHdr_cur_le (hat.2 hstate) h
  · rcases labelWaitFixBody_ret h with ⟨-, -, rfl⟩ | ⟨-, state, view, body, -, rfl⟩
    · exact Nat.le_refl _
    · exact Nat.le_refl _
  all_goals
    rw [(labelEnd_ret h).2]

theorem feedStep_cur_le (hrests : ctx.Rests b) {chunk : Bytes} {c : ClientConn}
    (hs : (ClientConn.single ctx).feedStep b ⟨allOk, chunk⟩ = .ok (herr, c)) :
    ∃ ctx', c = .single ctx' ∧ ctx'.Rests b ∧ ctx.cur ≤ ctx'.cur := by
  obtain ⟨ctx₁, rfl, hnode, hrests', -⟩ := feedNode_of_feedStep hrests hs
  refine ⟨ctx₁, rfl, hrests', ?_⟩
  rcases feedNode_ok hnode with ⟨-, hlt, hresume⟩ | ⟨hno, -⟩
  · have hle := resume_cur_le (hrests.atLine.append hlt)
      (fun hstate => (hrests.start_cursors hstate).1) hresume
    exact hle
  · simp [allOk] at hno

end Cur

section Defined

universe u v

/-- The code has a meaning: it gives a value, or stops at an assertion. -/
def Defined {α : Type u} (r : Except Fault α) : Prop := r ≠ .error .undefined

theorem Defined.bind {α : Type} {β : Type} {x : Except Fault α} {f : α → Except Fault β}
    (hx : Defined x) (hf : ∀ a, x = .ok a → Defined (f a)) : Defined (x >>= f) := by
  cases x with
  | error e => exact fun h => hx (congrArg Except.error (Except.error.inj h))
  | ok a => exact hf a rfl

theorem assert_defined (b : Build) (a : Assertion) (p : Prop) [Decidable p] :
    Defined (assert b a p) := by
  unfold Defined assert
  split <;> simp

variable {b : Build} {ctx : HttpParseCtx}

theorem labelEnd_defined : Defined (labelEnd b ctx) := by
  apply (assert_defined _ _ _).bind
  intro _ _
  split
  · exact (assert_defined _ _ _).bind fun _ _ => by simp [Defined, pure, Except.pure]
  · exact (assert_defined _ _ _).bind fun _ _ => by simp [Defined, pure, Except.pure]

theorem labelWaitFixBody_defined (hsize : ctx.post.length < 2 ^ 30) :
    Defined (labelWaitFixBody b allOk ctx) := by
  unfold labelWaitFixBody
  dsimp only
  split
  · simp [Defined, pure, Except.pure]
  · apply (assert_defined _ _ _).bind
    intro _ _
    have hlen (pos len : Nat) : (stringViewSubstr ctx.post pos len).length < 2 ^ 30 := by
      rw [stringViewSubstr_eq, List.length_take, List.length_drop]
      omega
    rw [allOk, stringInitFromStringView_true (storable_of_lt (hlen _ _))]
    exact labelEnd_defined

theorem bodySwitch_defined (hsize : ctx.post.length < 2 ^ 30) :
    Defined (bodySwitch b allOk ctx) := by
  unfold bodySwitch
  split
  · exact labelEnd_defined
  · exact labelWaitFixBody_defined hsize
  · exact labelEnd_defined

theorem labelWaitHdr_defined (hs : ctx.Sized) (hsize : ctx.post.length < 2 ^ 30) :
    Defined (labelWaitHdr b allOk ctx) := by
  rw [labelWaitHdr_collect b hs]
  unfold blockExit
  cases (collect cr lf 100 ctx.unread).stop with
  | «open» => simp [behindLoop, Defined]
  | blank =>
    simp only [behindLoop]
    split
    · simp [Defined]
    · exact bodySwitch_defined (by simpa [HttpParseCtx.toLine] using hsize)
  | full =>
    simp only [behindLoop]
    split
    · simp [Defined]
    · exact bodySwitch_defined (by simpa using hsize)

theorem feedNode_defined (hrests : ctx.Rests b) (hline : ∀ u, ctx.wire ≠ .line u) {chunk : Bytes}
    (hsize : (ctx.post ++ chunk).length < 2 ^ 30) : Defined (feedNode b allOk ctx chunk) := by
  have hlt : (ctx.post ++ chunk).length < ptrdiffMax := by unfold ptrdiffMax; omega
  have hgrown := hrests.atLine.append hlt
  rw [feedNode_append hsize]
  have hwait : ¬ (ctx.waitState = .start ∨ ctx.waitState = .waitReq) := by
    rintro (hstate | hstate)
    · exact hline ctx.unread (by simp only [HttpParseCtx.wire, hstate])
    · exact hline ctx.unread (by simp only [HttpParseCtx.wire, hstate])
  unfold resume
  split
  · rename_i hstate
    exact absurd (Or.inl hstate) hwait
  · rename_i hstate
    exact absurd (Or.inr hstate) hwait
  · rename_i hstate
    exact labelWaitHdr_defined (hgrown.2 hstate) hsize
  · exact labelWaitFixBody_defined hsize
  · exact labelEnd_defined
  · exact labelEnd_defined
  · exact labelEnd_defined

end Defined

section Unfinished

variable {b : Build}

theorem no_success_of_unfinished {is : List Feed} {ctx : HttpParseCtx} {herrs : List HttpErr}
    {c : ClientConn} (h : ctx.Rests b)
    (hm : Meets (ClientConn.feedStep b) (Unfinished b) (.single ctx) is)
    (hr : Reaches (ClientConn.feedStep b) (.single ctx) is herrs c) : .success ∉ herrs := by
  induction is generalizing ctx herrs with
  | nil => simp [hr.nil_inv.1]
  | cons i is ih =>
    rcases hr.cons_inv with ⟨rfl, -⟩ | ⟨herr, t, herrs', hs, hr', rfl⟩
    · simp
    · obtain ⟨ctx', rfl, h', hherr, -, -, hfits⟩ := feedStep_single_ok h hs
      rw [List.mem_cons, not_or]
      refine ⟨fun hsuccess => ?_, ih h' (hm.2 _ _ hs) hr'⟩
      have hcomplete : (ctx.wire.feed i.alloc i.post).fate = .complete := by
        rw [hherr] at hsuccess
        revert hsuccess
        cases (ctx.wire.feed i.alloc i.post).fate <;> simp [Fate.code]
      obtain ⟨hb, hno⟩ := hm.1 _ rfl hcomplete
      simp [hfits hb] at hno

theorem unfinished_of_no_success {chunks : List Bytes} {ctx : HttpParseCtx} (h : ctx.Rests b)
    (hline : ∀ u, ctx.wire ≠ .line u) (hsize : (ctx.post ++ chunks.flatten).length < 2 ^ 30)
    (hno : ∀ herrs c, Reaches (ClientConn.feedStep b) (.single ctx) (feeds chunks) herrs c →
      .success ∉ herrs) :
    Meets (ClientConn.feedStep b) (Unfinished b) (.single ctx) (feeds chunks) := by
  induction chunks generalizing ctx with
  | nil => trivial
  | cons chunk chunks ih =>
    rw [List.flatten_cons, ← List.append_assoc] at hsize
    have hcall : (ctx.post ++ chunk).length < 2 ^ 30 := by
      rw [List.length_append] at hsize
      omega
    constructor
    · rintro v ⟨⟩ hcomplete
      have hdefined := feedNode_defined h hline hcall
      have hfollows := feedNode_follows allOk chunk h
      generalize hr : feedNode b allOk ctx chunk = r at hdefined hfollows
      cases hfollows with
      | undefined => exact absurd rfl hdefined
      | aborts hb hv => exact ⟨hb, hv⟩
      | returns hrests hwire hpost hv =>
        have hstep := feed_of_feedNode hr
        rw [hcomplete] at hstep
        exact absurd List.mem_cons_self (hno _ _ ((reaches_start _ (feeds chunks)).cons hstep))
    · intro herr t hs
      obtain ⟨ctx', rfl, h', -, hwire, hpost, -⟩ := feedStep_single_ok h hs
      have hpost : ctx'.post = ctx.post ++ chunk := hpost
      refine ih h' ?_ (by rwa [hpost]) fun herrs c hr hmem =>
        hno _ _ (hr.cons hs) (List.mem_cons_of_mem _ hmem)
      rw [hwire]
      exact fun u => feed_ne_line hline _ _ u

end Unfinished

theorem feeds_split (pre suf : List Bytes) (c : Bytes) :
    feeds (pre ++ c :: suf) = feeds pre ++ ⟨allOk, c⟩ :: feeds suf := by simp [feeds]

theorem exists_last {chunks : List Bytes} (h : chunks.flatten ≠ []) :
    ∃ pre last suf, chunks = pre ++ last :: suf ∧ last ≠ [] ∧ suf.flatten = [] := by
  induction chunks with
  | nil => exact absurd rfl h
  | cons c cs ih =>
    by_cases hrest : cs.flatten = []
    · refine ⟨[], c, cs, rfl, ?_, hrest⟩
      rintro rfl
      exact h (by rw [List.flatten_cons, hrest, List.append_nil])
    · obtain ⟨pre, last, suf, rfl, hlast, hsuf⟩ := ih hrest
      exact ⟨c :: pre, last, suf, rfl, hlast, hsuf⟩

section Limit

variable {b : Build} {m : WireRequest}

theorem endsHead_of_reaches {chunks : List Bytes} {ctx : HttpParseCtx} {herrs : List HttpErr}
    {c : ClientConn} (h : ctx.Rests b) (hcur : m.head.length ≤ ctx.cur)
    (hr : Reaches (ClientConn.feedStep b) (.single ctx) (feeds chunks) herrs c) : EndsHead m c := by
  have hhere : EndsHead m (.single ctx) := by
    rintro ctx' ⟨⟩ -
    exact hcur
  induction chunks generalizing ctx herrs with
  | nil =>
    obtain ⟨-, rfl⟩ := hr.nil_inv
    exact hhere
  | cons chunk chunks ih =>
    rcases hr.cons_inv with ⟨-, rfl⟩ | ⟨herr, t, herrs', hs, hr', -⟩
    · exact hhere
    · obtain ⟨ctx', rfl, h', hle⟩ := feedStep_cur_le h hs
      apply ih h' (hcur.trans hle) hr'
      rintro ctx'' ⟨⟩ -
      exact hcur.trans hle

theorem WireRequest.Phase.endsHead {p : Bytes} {j : Nat} {ctx : HttpParseCtx}
    (h : m.Phase p j ctx) : EndsHead m (.single ctx) := by
  rintro ctx' ⟨⟩ hstate
  cases h with
  | line hline => rcases hline with rfl | rfl <;> simp at hstate
  | head => simp at hstate
  | body => exact (m.bodyNode_cur p).ge

theorem not_success_of_waits {herrs : List HttpErr} (h : ∀ herr ∈ herrs, Waits herr) :
    .success ∉ herrs := by
  intro hmem
  rcases h _ hmem with h | h <;> simp at h

/-- The run up to the call of `c`: the node is in a phase, and what is reached is
reached before this call or through it. -/
structure SplitAt (b : Build) (m : WireRequest) (pre : List Bytes) (c : Bytes) (suf : List Bytes)
    (herrs : List HttpErr) (j : Nat) (ctx : HttpParseCtx) : Prop where
  run : exec (ClientConn.feedStep b) .new (feeds pre) = .ok (herrs, .single ctx)
  waits : ∀ herr ∈ herrs, Waits herr
  phase : m.Phase pre.flatten j ctx
  cases : ∀ herrs' t, Reached b (pre ++ c :: suf) herrs' t →
    ((∀ herr ∈ herrs', Waits herr) ∧ EndsHead m t) ∨
    ∃ herr v herrs₂, (ClientConn.single ctx).feedStep b ⟨allOk, c⟩ = .ok (herr, v) ∧
      Reaches (ClientConn.feedStep b) v (feeds suf) herrs₂ t ∧ herrs' = herrs ++ herr :: herrs₂

theorem exists_splitAt (b : Build) {pre : List Bytes} {s : Bytes} (c : Bytes) (suf : List Bytes)
    (hsize : m.bytes.length < 2 ^ 30) (hs : pre.flatten ++ s = m.bytes) (hrest : s ≠ [])
    (hwithin : m.Within 0 pre) : ∃ herrs j ctx, SplitAt b m pre c suf herrs j ctx := by
  obtain ⟨herrs, j, ctx, hx, hwaits, hphase⟩ :=
    (Phase.new (m := m)).exec_waits b hsize hs hrest hwithin
  rw [← new_eq_single] at hx
  refine ⟨herrs, j, ctx, hx, hwaits, hphase, ?_⟩
  intro herrs' t hr
  rw [Reached, feeds_split] at hr
  rcases hr.split with ⟨js, hjs, hpart⟩ | ⟨os₁, u, herr, v, herrs₂, hfirst, hstep, hlater, rfl⟩
  · left
    obtain ⟨cs, ⟨ds, rfl⟩, rfl⟩ : ∃ cs, cs <+: pre ∧ js = feeds cs := by
      refine ⟨pre.take js.length, List.take_prefix _ _, ?_⟩
      rw [feeds, List.map_take]
      exact List.prefix_iff_eq_take.mp hjs
    rw [List.flatten_append, List.append_assoc] at hs
    obtain ⟨herrs₁, i, ctx', hx', hwaits', hphase'⟩ :=
      (Phase.new (m := m)).exec_waits b hsize hs (by simp [hrest])
        ((m.within_append 0 cs ds).mp hwithin).1
    rw [← new_eq_single, hpart, Except.ok.injEq, Prod.mk.injEq] at hx'
    obtain ⟨rfl, rfl⟩ := hx'
    exact ⟨hwaits', hphase'.endsHead⟩
  · right
    rw [hx, Except.ok.injEq, Prod.mk.injEq] at hfirst
    obtain ⟨rfl, rfl⟩ := hfirst
    exact ⟨herr, v, herrs₂, hstep, hlater, rfl⟩

section SplitAt

variable {pre suf : List Bytes} {c : Bytes} {herrs herrs' : List HttpErr} {j : Nat}
  {ctx ctx' : HttpParseCtx} {herr : HttpErr} {t v : ClientConn}
variable (h : SplitAt b m pre c suf herrs j ctx)
include h

theorem SplitAt.through (hs : (ClientConn.single ctx).feedStep b ⟨allOk, c⟩ = .ok (herr, v))
    (hr : Reaches (ClientConn.feedStep b) v (feeds suf) herrs' t) :
    Reached b (pre ++ c :: suf) (herrs ++ herr :: herrs') t := by
  rw [Reached, feeds_split]
  exact (hr.cons hs).behind h.run

theorem SplitAt.rests (hs : (ClientConn.single ctx).feedStep b ⟨allOk, c⟩ = .ok (herr, .single ctx')) :
    ctx'.Rests b := rests_of_exec (exec_append h.run (exec_cons hs (exec_nil _)))

/-- A call that goes behind the blank line keeps the whole run in order. -/
theorem SplitAt.endsHead
    (hs : (ClientConn.single ctx).feedStep b ⟨allOk, c⟩ = .ok (herr, .single ctx'))
    (hcur : m.head.length ≤ ctx'.cur) (hr : Reached b (pre ++ c :: suf) herrs' t) :
    EndsHead m t := by
  rcases h.cases herrs' t hr with ⟨-, hend⟩ | ⟨herr', v, herrs₂, hs', hlater, -⟩
  · exact hend
  · rw [hs, Except.ok.injEq, Prod.mk.injEq] at hs'
    obtain ⟨-, rfl⟩ := hs'
    exact endsHead_of_reaches (h.rests hs) hcur hlater

end SplitAt

/-- A message that is never cut at the bound is had by the call of its last byte. -/
theorem exists_splitAt_whole (b : Build) {chunks : List Bytes} (hsize : m.bytes.length < 2 ^ 30)
    (hcut : chunks.flatten = m.bytes) (hwithin : m.Within 0 chunks) :
    ∃ pre last suf herrs j ctx ctx', chunks = pre ++ last :: suf ∧
      SplitAt b m pre last suf herrs j ctx ∧
      (ClientConn.single ctx).feedStep b ⟨allOk, last⟩ = .ok (.success, .single ctx') ∧
      Whole m m.bytes ctx' := by
  obtain ⟨pre, last, suf, rfl, hlast, hsuf⟩ := exists_last (hcut ▸ m.bytes_ne_nil)
  have hs : pre.flatten ++ last = m.bytes := by
    rw [← hcut, List.flatten_append, List.flatten_cons, hsuf, List.append_nil]
  obtain ⟨hpre, hcall, -⟩ := (m.within_append 0 pre (last :: suf)).mp hwithin
  obtain ⟨herrs, j, ctx, hsplit⟩ := exists_splitAt b last suf hsize hs hlast hpre
  rw [Nat.zero_add, ← List.length_append] at hcall
  have hbytes : pre.flatten ++ last ++ [] = m.bytes := by rwa [List.append_nil]
  rcases hsplit.phase.feedNode_within b hsize last hbytes hcall with
    ⟨hne, -⟩ | ⟨-, ctx', hfeed, hwhole⟩
  · exact absurd rfl hne
  · exact ⟨pre, last, suf, herrs, j, ctx, ctx', rfl, hsplit, feed_of_feedNode hfeed, hwhole⟩

theorem completes_of_within (b : Build) {chunks : List Bytes} (hsize : m.bytes.length < 2 ^ 30)
    (hcut : chunks.flatten = m.bytes) (hwithin : m.Within 0 chunks) : Completes b m chunks := by
  obtain ⟨pre, last, suf, herrs, j, ctx, ctx', rfl, hsplit, hstep, hwhole⟩ :=
    exists_splitAt_whole b hsize hcut hwithin
  exact ⟨_, _, _, hsplit.through hstep (reaches_start _ _), by simp, hwhole.pop⟩

theorem endsHead_of_within {chunks : List Bytes} (hsize : m.bytes.length < 2 ^ 30)
    (hcut : chunks.flatten = m.bytes) (hwithin : m.Within 0 chunks) {herrs : List HttpErr}
    {t : ClientConn} (hr : Reached b chunks herrs t) : EndsHead m t := by
  obtain ⟨pre, last, suf, herrs, j, ctx, ctx', rfl, hsplit, hstep, hwhole⟩ :=
    exists_splitAt_whole b hsize hcut hwithin
  exact hsplit.endsHead hstep hwhole.cur.ge hr

theorem feedNode_overruns {p c s : Bytes} {j : Nat} {ctx : HttpParseCtx}
    (hsize : m.bytes.length < 2 ^ 30) (h : m.Phase p j ctx) (hs : p ++ c ++ s = m.bytes)
    (hover : m.Overruns p.length (p ++ c).length) :
    (j + 99 = m.headers.length ∧ m.head.length ≤ (p ++ c).length ∧
      feedNode b allOk ctx c = .ok (.ret .requestFatal (m.bodyNode (p ++ c)))) ∨
    (j + 100 ≤ m.headers.length ∧ feedNode b allOk ctx c =
      bodySwitch b allOk (m.headNode (p ++ c) (m.lines.take (j + 100)))) := by
  have hleaves := h.feedNode_leaves b hsize c hs
  have hle := m.linesIn_le (p ++ c).length
  have hover' : j + 100 ≤ m.linesIn (p ++ c).length ∨
      (j + 99 = m.headers.length ∧ m.head.length ≤ (p ++ c).length) := by
    rw [← h.linesIn_eq (by rwa [← List.append_assoc])]
    exact hover
  rw [m.length_lines] at hle
  generalize feedNode b allOk ctx c = r at hleaves ⊢
  cases hleaves with
  | waits hphase hopen hi =>
    rw [hphase.linesIn_eq hs] at hover'
    omega
  | behind hhead hlines =>
    rw [m.length_lines] at hlines
    omega
  | fatal hhead hlines =>
    rw [m.length_lines] at hlines
    exact Or.inl ⟨hlines.symm, hhead.length_le, rfl⟩
  | full hlines hread =>
    rw [m.length_lines] at hlines
    exact Or.inr ⟨hlines, rfl⟩

theorem within_or_overruns (k : Nat) (chunks : List Bytes) : m.Within k chunks ∨
    ∃ pre c suf, chunks = pre ++ c :: suf ∧ m.Within k pre ∧
      m.Overruns (k + pre.flatten.length) (k + pre.flatten.length + c.length) := by
  induction chunks generalizing k with
  | nil => exact Or.inl trivial
  | cons c cs ih =>
    by_cases hover : m.Overruns k (k + c.length)
    · exact Or.inr ⟨[], c, cs, rfl, trivial, hover⟩
    · rcases ih (k + c.length) with hrest | ⟨pre, d, suf, rfl, hpre, hlater⟩
      · exact Or.inl ⟨hover, hrest⟩
      · refine Or.inr ⟨c :: pre, d, suf, rfl, ⟨hover, hpre⟩, ?_⟩
        rwa [List.flatten_cons, List.length_append, ← Nat.add_assoc]

theorem limitHolds_of_le (b : Build) {chunks : List Bytes} (hsize : m.bytes.length < 2 ^ 30)
    (hcut : chunks.flatten = m.bytes) (hlines : m.headers.length ≤ headerLimit) :
    LimitHolds headerLimit b m chunks := by
  have hwithin := m.within_of_le hlines 0 chunks
  constructor
  · intro _
    exact completes_of_within b hsize hcut hwithin
  · intro hlt
    exact absurd hlines (Nat.not_le.mpr hlt)
  · intro herrs t hr
    exact endsHead_of_within hsize hcut hwithin hr

/-- Before a call that runs into the bound the message is not there yet. -/
theorem rest_of_overruns {p c s : Bytes} (hs : p ++ (c ++ s) = m.bytes)
    (hover : m.Overruns p.length (p ++ c).length) : c ++ s ≠ [] := by
  intro hnil
  have hhead : m.head.length ≤ p.length := by
    rw [hnil, List.append_nil] at hs
    rw [hs, bytes, List.length_append]
    omega
  have hwhole := m.linesIn_whole hhead
  have hbound := m.linesIn_le (p ++ c).length
  rw [Overruns, hwhole, m.length_lines] at hover
  rw [m.length_lines] at hbound
  omega

theorem limitHolds_of_caught {chunks : List Bytes} (hsize : m.bytes.length < 2 ^ 30)
    (hcut : chunks.flatten = m.bytes) (h : Caught b m chunks) :
    LimitHolds headerLimit b m chunks := by
  obtain ⟨pre, c, suf, rfl, hwithin, hlines, hhead, hlater⟩ := h
  have hover : m.Overruns pre.flatten.length (pre.flatten ++ c).length := Or.inr ⟨hlines, hhead⟩
  have hs : pre.flatten ++ (c ++ suf.flatten) = m.bytes := by
    rw [← hcut, List.flatten_append, List.flatten_cons]
  obtain ⟨herrs, j, ctx, hsplit⟩ :=
    exists_splitAt b c suf hsize hs (rest_of_overruns hs hover) hwithin
  have hj := hsplit.phase.linesIn_eq hs
  rw [← List.append_assoc] at hs
  have hcall : feedNode b allOk ctx c = .ok (.ret .requestFatal (m.bodyNode (pre.flatten ++ c))) := by
    rcases feedNode_overruns hsize hsplit.phase hs hover with ⟨-, -, hcall⟩ | ⟨hle, -⟩
    · exact hcall
    · omega
  have hstep : (ClientConn.single ctx).feedStep b ⟨allOk, c⟩ =
      .ok (.requestFatal, .single (m.bodyNode (pre.flatten ++ c))) := feed_of_feedNode hcall
  constructor
  · intro hle
    unfold headerLimit at hle
    omega
  · intro _
    refine ⟨⟨_, _, hsplit.through hstep (reaches_start _ _), by simp⟩, ?_⟩
    intro herrs' t hr
    rcases hsplit.cases herrs' t hr with ⟨hall, -⟩ | ⟨herr, v, herrs₂, hs', hr', rfl⟩
    · exact not_success_of_waits hall
    · rw [hstep, Except.ok.injEq, Prod.mk.injEq] at hs'
      obtain ⟨rfl, rfl⟩ := hs'
      rw [List.mem_append, List.mem_cons, not_or, not_or]
      exact ⟨not_success_of_waits hsplit.waits, by simp,
        no_success_of_unfinished (hsplit.rests hstep) hlater hr'⟩
  · intro herrs' t hr
    exact hsplit.endsHead hstep (m.bodyNode_cur _).ge hr

/-- Where the first call that runs into the bound takes 100 lines, the limit does not hold:
the code behind the loop is entered in front of the blank line. -/
theorem not_limitHolds_of_full {pre suf : List Bytes} {c : Bytes} {herrs : List HttpErr} {j : Nat}
    {ctx : HttpParseCtx} (hsplit : SplitAt b m pre c suf herrs j ctx)
    (hlines : headerLimit < m.headers.length)
    (hcall : feedNode b allOk ctx c =
      bodySwitch b allOk (m.headNode (pre.flatten ++ c) (m.lines.take (j + 100)))) :
    ¬ LimitHolds headerLimit b m (pre ++ c :: suf) := by
  intro h
  obtain ⟨⟨herrs', t, hfatal, hmem⟩, -⟩ := h.rejects hlines
  rcases hsplit.cases herrs' t hfatal with ⟨hall, -⟩ | ⟨herr, v, herrs₂, hstep, -, -⟩
  · rcases hall _ hmem with h | h <;> simp at h
  · obtain ⟨ctx', rfl, hnode, -⟩ := feedNode_of_feedStep (rests_of_exec hsplit.run) hstep
    rw [hcall] at hnode
    obtain ⟨hcur, hstate⟩ := bodySwitch_ret hnode
    have hend := h.endsHead _ _ (hsplit.through hstep (reaches_start _ _)) ctx' rfl hstate
    have hnext := m.headNode_cur_le (pre.flatten ++ c) (m.lines.take (j + 100))
    have hlt := m.lead_lt_head (j + 100)
    rw [headNode_nextLine] at hnext
    rw [hcur] at hend
    exact absurd (hend.trans hnext) (Nat.not_le.mpr hlt)

theorem caught_of_limitHolds {chunks : List Bytes} (hsize : m.bytes.length < 2 ^ 30)
    (hcut : chunks.flatten = m.bytes) (hlines : headerLimit < m.headers.length)
    (h : LimitHolds headerLimit b m chunks) : Caught b m chunks := by
  have hno := (h.rejects hlines).2
  rcases within_or_overruns (m := m) 0 chunks with hall | ⟨pre, c, suf, rfl, hwithin, hover⟩
  · obtain ⟨herrs, t, -, hreach, hsuccess, -⟩ := completes_of_within b hsize hcut hall
    exact absurd hsuccess (hno _ _ hreach)
  · rw [Nat.zero_add, ← List.length_append] at hover
    have hs : pre.flatten ++ (c ++ suf.flatten) = m.bytes := by
      rw [← hcut, List.flatten_append, List.flatten_cons]
    obtain ⟨herrs, j, ctx, hsplit⟩ :=
      exists_splitAt b c suf hsize hs (rest_of_overruns hs hover) hwithin
    have hj := hsplit.phase.linesIn_eq hs
    rw [← List.append_assoc] at hs
    rcases feedNode_overruns hsize hsplit.phase hs hover with ⟨hlast, hhead, hcall⟩ | ⟨-, hcall⟩
    · have hstep : (ClientConn.single ctx).feedStep b ⟨allOk, c⟩ =
          .ok (.requestFatal, .single (m.bodyNode (pre.flatten ++ c))) := feed_of_feedNode hcall
      refine ⟨pre, c, suf, rfl, hwithin, by rw [hj, hlast], hhead, ?_⟩
      apply unfinished_of_no_success (hsplit.rests hstep)
      · intro u
        simp [HttpParseCtx.wire]
      · rwa [bodyNode_post, hs]
      · intro herrs' t hr hsuccess
        exact hno _ _ (hsplit.through hstep hr) (by simp [hsuccess])
    · exact absurd h (not_limitHolds_of_full hsplit hlines hcall)

end Limit

/-- The limit holds of a message in a segmentation exactly when the message is
within it, or one call catches the last 99 lines with the blank line. -/
theorem limitHolds_iff (b : Build) (m : WireRequest) {chunks : List Bytes}
    (hsize : m.bytes.length < 2 ^ 30) (hcut : chunks.flatten = m.bytes) :
    LimitHolds headerLimit b m chunks ↔ m.headers.length ≤ headerLimit ∨ Caught b m chunks := by
  constructor
  · intro h
    rcases Nat.lt_or_ge headerLimit m.headers.length with hlt | hle
    · exact Or.inr (caught_of_limitHolds hsize hcut hlt h)
    · exact Or.inl hle
  · rintro (hle | hcaught)
    · exact limitHolds_of_le b hsize hcut hle
    · exact limitHolds_of_caught hsize hcut hcaught

def manyLines (n : Nat) : WireRequest := { bareGet with
  headers := List.replicate n (ascii ['a'], ascii ['b'])
  headers_free := fun _ hh => List.eq_of_mem_replicate hh ▸ by decide
  names := fun _ hh => List.eq_of_mem_replicate hh ▸ by decide
  not_chunked := fun _ hh => List.eq_of_mem_replicate hh ▸ by decide
  length_value := fun _ hh => List.eq_of_mem_replicate hh ▸ by decide
  length_given := fun h => absurd rfl h }

theorem manyLines_size : (manyLines 99).bytes.length < 2 ^ 30 := by decide +kernel

theorem manyLines_lines : (manyLines 99).headers.length = 99 := List.length_replicate ..

theorem caught_whole (b : Build) {m : WireRequest} (hlines : m.headers.length = 99) :
    Caught b m [m.bytes] := by
  have hnone : m.linesIn 0 = 0 := (Phase.new (m := m)).linesIn_eq (List.nil_append m.bytes)
  refine ⟨[], m.bytes, [], rfl, trivial, ?_, ?_, trivial⟩
  · rw [hlines]
    exact congrArg (· + 99) hnone
  · exact (List.prefix_append m.head m.body).length_le

theorem manyLines_limitHolds : LimitHolds headerLimit .debug (manyLines 99) [(manyLines 99).bytes] :=
  (limitHolds_iff .debug (manyLines 99) manyLines_size (List.append_nil _)).mpr
    (Or.inr (caught_whole .debug manyLines_lines))

/-- Of 99 lines, a call that takes the first 50 lets the next call complete. -/
theorem completes_two_calls (b : Build) {m : WireRequest} (hsize : m.bytes.length < 2 ^ 30)
    (hlines : m.headers.length = 99) :
    ∃ rest, [m.lead 50, rest].flatten = m.bytes ∧ Completes b m [m.lead 50, rest] := by
  have hcut : m.lead 50 ++ (unlines cr lf (m.lines.drop 50) ++ [cr, lf] ++ m.body) = m.bytes := by
    rw [bytes, m.head_eq_lead 50]
    simp
  generalize unlines cr lf (m.lines.drop 50) ++ [cr, lf] ++ m.body = rest at hcut
  have hlt := m.lead_lt_head 50
  have hnone : m.linesIn 0 = 0 := (Phase.new (m := m)).linesIn_eq (List.nil_append m.bytes)
  have hfifty : m.linesIn (m.lead 50).length = 50 :=
    linesIn_head (by rw [m.length_lines, hlines]; decide) (List.append_nil _).symm (by decide) hcut
  have hbound := m.linesIn_le (m.lead 50 ++ rest).length
  rw [m.length_lines, hlines] at hbound
  have hflat : [m.lead 50, rest].flatten = m.bytes := by simpa using hcut
  refine ⟨rest, hflat, completes_of_within b hsize hflat ⟨?_, ?_, trivial⟩⟩
  · rw [Nat.zero_add, Overruns, hnone, hfifty, hlines]
    omega
  · rw [Nat.zero_add, ← List.length_append, Overruns, hfifty, hlines]
    omega

def UniformLimit (b : Build) : Prop :=
  ∃ n, ∀ m chunks, m.bytes.length < 2 ^ 30 → chunks.flatten = m.bytes → LimitHolds n b m chunks

/-- No number will do: 99 lines are rejected in one call and completed in two. -/
theorem not_uniformLimit (b : Build) : ¬ UniformLimit b := by
  rintro ⟨n, hn⟩
  rcases Nat.lt_or_ge n 99 with hlt | hge
  · obtain ⟨rest, hcut, herrs, c, c', hreach, hsuccess, -⟩ :=
      completes_two_calls b manyLines_size manyLines_lines
    have hlimit := hn _ _ manyLines_size hcut
    exact (hlimit.rejects (manyLines_lines ▸ hlt)).2 _ _ hreach hsuccess
  · have hcut : [(manyLines 99).bytes].flatten = (manyLines 99).bytes := List.append_nil _
    obtain ⟨herrs, c, c', hreach, hsuccess, -⟩ :=
      (hn _ _ manyLines_size hcut).completes (manyLines_lines ▸ hge)
    have hlimit := limitHolds_of_caught manyLines_size hcut (caught_whole b manyLines_lines)
    exact (hlimit.rejects (by rw [manyLines_lines]; decide)).2 _ _ hreach hsuccess

theorem manyLines_two_calls :
    (∃ rest, [(manyLines 99).lead 50, rest].flatten = (manyLines 99).bytes ∧
      ¬ LimitHolds headerLimit .release (manyLines 99) [(manyLines 99).lead 50, rest]) ∧
    ¬ UniformLimit .release ∧ ¬ UniformLimit .debug := by
  obtain ⟨rest, hcut, herrs, c, c', hreach, hsuccess, -⟩ :=
    completes_two_calls .release manyLines_size manyLines_lines
  refine ⟨⟨rest, hcut, fun h => ?_⟩, not_uniformLimit .release, not_uniformLimit .debug⟩
  exact (h.rejects (by rw [manyLines_lines]; decide)).2 _ _ hreach hsuccess

end LiteHttp
