import LiteHttp.KeepAlive

/-!
# What a failed call leaves behind

A failed call is not remembered: the node keeps its label and its cursors, and
the next call goes on from them. A failure is absorbed exactly in the runs where
the bytes received from then on never complete the message.
-/

namespace LiteHttp

open Delim Run

set_option autoImplicit false

/-- The path of a request line is too long for the small buffer and finds no memory. -/
def losesPath (alloc : Alloc) (l : Bytes) : Bool :=
  match posNextToken l space 0 with
  | none => false
  | some (_, pathAt) =>
    match posNextToken l space pathAt with
    | none => false
    | some (pathLen, _) => smallBufSize ≤ pathLen && !alloc .path

/-- A header line is not pushed, or the header it gives is not. -/
def losesHeader (alloc : Alloc) : Nat → Bytes → Bool
  | 0, _ => false
  | left + 1, unread =>
    match cutLine unread with
    | none => false
    | some (l, r) =>
      if l = [] then false
      else !alloc (.line (100 - left)) || ((headerOf l).isSome && !alloc (.header (100 - left))) ||
        losesHeader alloc left r

/-- A call in which the path, a header or the body could not be recorded. -/
def Wire.loses (alloc : Alloc) (w : Wire) (chunk : Bytes) : Bool :=
  alloc .append &&
    match w with
    | .line unread =>
      match cutLine (unread ++ chunk) with
      | none => false
      | some (l, r) => losesPath alloc l || losesHeader alloc 100 r
    | .headers _ _ unread => losesHeader alloc 100 (unread ++ chunk)
    | .body _ _ _ => (w.feed alloc chunk).fate = .bodyLost
    | .ended => false

def Loses (c : ClientConn) (i : Feed) : Prop := ∃ ctx ∈ c.node, ctx.wire.loses i.alloc i.post = true

/-- The calls the property speaks of, told from the code they return. -/
def Failed (c : ClientConn) (i : Feed) (herr : HttpErr) : Prop :=
  herr = .requestFatal ∨ herr = .malloc ∨ Loses c i

/-- Behind every failed call of the run no call succeeds and the request is not popped. -/
def Absorbs (b : Build) (c : ClientConn) (is : List Feed) : Prop :=
  ∀ pre i suf, is = pre ++ i :: suf → ∀ herrs t herr t' herrs' t'',
    exec (ClientConn.feedStep b) c pre = .ok (herrs, t) →
    t.feedStep b i = .ok (herr, t') → Failed t i herr →
    exec (ClientConn.feedStep b) t' suf = .ok (herrs', t'') →
    .success ∉ herrs' ∧ t''.pop = .ok (none, t'')

/-- The calls that fail, told from the state before them. -/
def Fails (c : ClientConn) (i : Feed) : Prop :=
  (∃ v ∈ c.verdict i, v.fate = .dropped ∨ v.fate = .lost ∨ v.fate = .fatal ∨ v.fate = .bodyLost) ∨
    Loses c i

instance (c : ClientConn) (i : Feed) : Decidable (Loses c i) := by unfold Loses; infer_instance

instance (c : ClientConn) (i : Feed) : Decidable (Fails c i) := by unfold Fails; infer_instance

/-- A call together with the mark that a call has failed. -/
def watch (b : Build) (s : ClientConn × Bool) (i : Feed) :
    Except Fault (HttpErr × (ClientConn × Bool)) :=
  match s.1.feedStep b i with
  | .error e => .error e
  | .ok (herr, c) => .ok (herr, (c, s.2 || Fails s.1 i))

/-- Once a call has failed, this one included, the bytes received do not complete
the message of the node, and it was not complete before. -/
def StaysOpen (s : ClientConn × Bool) (i : Feed) : Prop :=
  s.2 = true ∨ Fails s.1 i → ∀ v ∈ s.1.verdict i, v.wire ≠ .ended

instance (s : ClientConn × Bool) (i : Feed) : Decidable (StaysOpen s i) := by
  unfold StaysOpen; infer_instance

section Watch

variable {b : Build}

theorem failed_iff {ctx : HttpParseCtx} (i : Feed) :
    Failed (.single ctx) i (ctx.wire.feed i.alloc i.post).fate.code ↔ Fails (.single ctx) i := by
  unfold Failed Fails
  rw [← or_assoc]
  apply or_congr_left
  simp only [verdict_single, Option.mem_def, Option.some.injEq, exists_eq_left']
  cases (ctx.wire.feed i.alloc i.post).fate <;> simp [Fate.code]

theorem feed_ended (alloc : Alloc) (chunk : Bytes) : (Wire.ended.feed alloc chunk).wire = .ended := by
  unfold Wire.feed
  split <;> rfl

theorem ended_exec {is : List Feed} {herrs : List HttpErr} {ctx ctx' : HttpParseCtx}
    (h : ctx.Rests b) (hend : ctx.wire = .ended)
    (hx : exec (ClientConn.feedStep b) (.single ctx) is = .ok (herrs, .single ctx')) :
    ctx'.wire = .ended := by
  induction is generalizing ctx herrs with
  | nil =>
    rw [exec_nil, Except.ok.injEq, Prod.mk.injEq, single_inj] at hx
    rw [← hx.2, hend]
  | cons i is ih =>
    obtain ⟨herr, t, herrs', hs, hr, -⟩ := exec_cons_ok hx
    obtain ⟨ctx₁, rfl, h₁, -, hw, -⟩ := feedStep_single_ok h hs
    exact ih h₁ (by rw [hw, hend, feed_ended]) hr

theorem watch_ok {c : ClientConn} {f : Bool} {i : Feed} {herr : HttpErr} {t : ClientConn}
    (hs : c.feedStep b i = .ok (herr, t)) :
    watch b (c, f) i = .ok (herr, (t, f || Fails c i)) := by simp [watch, hs]

theorem meets_failed_iff {is : List Feed} {herrs : List HttpErr} {ctx ctx' : HttpParseCtx}
    (h : ctx.Rests b) (hopen : ctx.wire ≠ .ended)
    (hx : exec (ClientConn.feedStep b) (.single ctx) is = .ok (herrs, .single ctx')) :
    (ctx'.wire ≠ .ended ↔ Meets (watch b) StaysOpen (.single ctx, true) is) ∧
    (ctx'.wire ≠ .ended → .success ∉ herrs) := by
  induction is generalizing ctx herrs with
  | nil =>
    rw [exec_nil, Except.ok.injEq, Prod.mk.injEq, single_inj] at hx
    obtain ⟨rfl, rfl⟩ := hx
    exact ⟨iff_of_true hopen trivial, by simp⟩
  | cons i is ih =>
    obtain ⟨herr, t, herrs', hs, hr, rfl⟩ := exec_cons_ok hx
    obtain ⟨ctx₁, rfl, h₁, hherr, hw, -⟩ := feedStep_single_ok h hs
    have hstays : StaysOpen (.single ctx, true) i ↔ ctx₁.wire ≠ .ended := by
      simp [StaysOpen, hw]
    rw [meets_cons_iff (watch_ok hs), hstays, Bool.true_or]
    by_cases hend : ctx₁.wire = .ended
    · have := ended_exec h₁ hend hr
      simp [this, hend]
    · obtain ⟨hiff, hsucc⟩ := ih h₁ hend hr
      have hfate : (ctx.wire.feed i.alloc i.post).fate ≠ .complete := by
        intro hc
        apply hend
        rw [hw]
        exact (feed_ends hopen i.post).mp hc
      refine ⟨by rw [hiff]; simp [hend], ?_⟩
      intro hopen'
      rw [List.mem_cons, not_or]
      refine ⟨?_, hsucc hopen'⟩
      rw [hherr]
      revert hfate
      cases (ctx.wire.feed i.alloc i.post).fate <;> simp [Fate.code]

theorem pop_none_iff {ctx : HttpParseCtx} (h : ctx.Rests b) :
    (ClientConn.single ctx).pop = .ok (none, .single ctx) ↔ ctx.wire ≠ .ended := by
  rw [ne_eq, ← waitState_eq_parseEnd_iff h]
  constructor
  · intro hpop hend
    simp [pop_ended h.last hend] at hpop
  · exact pop_waiting

theorem live_exec_single {is : List Feed} {herrs : List HttpErr} {ctx : HttpParseCtx}
    {c : ClientConn} (h : ctx.Rests b)
    (hx : exec (ClientConn.feedStep b) (.single ctx) is = .ok (herrs, c)) :
    ∃ ctx', c = .single ctx' ∧ ctx'.Rests b := by
  have hlive : c.Live b :=
    inv_of_meets (fun hc _ hs => live_feedStep hc hs) ⟨ctx, rfl, h⟩
      (meets_of_forall (fun _ _ => True.intro) _ _) hx
  exact hlive

theorem absorbs_of_open {is : List Feed} {herrs : List HttpErr} {c : ClientConn}
    {ctx' : HttpParseCtx} (hx : exec (ClientConn.feedStep b) c is = .ok (herrs, .single ctx'))
    (hsucc : .success ∉ herrs) (hpop : (ClientConn.single ctx').pop = .ok (none, .single ctx')) :
    Absorbs b c is := by
  rintro pre i suf rfl herrs₁ t herr t' herrs₂ t'' hpre hstep - hsuf
  have hall := exec_append hpre (exec_cons hstep hsuf)
  rw [hx, Except.ok.injEq, Prod.mk.injEq] at hall
  obtain ⟨rfl, rfl⟩ := hall
  refine ⟨fun hmem => hsucc ?_, hpop⟩
  exact List.mem_append_right _ (List.mem_cons_of_mem _ hmem)

theorem absorbs_cons_iff {c t t' : ClientConn} {i : Feed} {is : List Feed} {herr : HttpErr}
    {herrs : List HttpErr} (hs : c.feedStep b i = .ok (herr, t))
    (hr : exec (ClientConn.feedStep b) t is = .ok (herrs, t')) :
    Absorbs b c (i :: is) ↔
      (Failed c i herr → .success ∉ herrs ∧ t'.pop = .ok (none, t')) ∧ Absorbs b t is := by
  constructor
  · intro habs
    constructor
    · intro hfail
      exact habs [] i is rfl _ _ _ _ _ _ rfl hs hfail hr
    · rintro pre j suf rfl herrs₁ u herr' u' herrs₂ u'' hpre hstep hfail hsuf
      exact habs (i :: pre) j suf rfl _ _ _ _ _ _ (exec_cons hs hpre) hstep hfail hsuf
  · rintro ⟨hhere, hrest⟩ pre j suf heq herrs₁ u herr' u' herrs₂ u'' hpre hstep hfail hsuf
    cases pre with
    | nil =>
      obtain ⟨rfl, rfl⟩ := List.cons.inj heq
      rw [exec_nil, Except.ok.injEq, Prod.mk.injEq] at hpre
      obtain ⟨-, rfl⟩ := hpre
      rw [hs, Except.ok.injEq, Prod.mk.injEq] at hstep
      obtain ⟨rfl, rfl⟩ := hstep
      rw [hr, Except.ok.injEq, Prod.mk.injEq] at hsuf
      obtain ⟨rfl, rfl⟩ := hsuf
      exact hhere hfail
    | cons k pre =>
      obtain ⟨rfl, rfl⟩ := List.cons.inj heq
      obtain ⟨herr₁, t₁, herrs₃, hs₁, hpre₁, -⟩ := exec_cons_ok hpre
      rw [hs, Except.ok.injEq, Prod.mk.injEq] at hs₁
      obtain ⟨-, rfl⟩ := hs₁
      exact hrest pre j suf rfl _ _ _ _ _ _ hpre₁ hstep hfail hsuf

theorem absorbs_iff_single {is : List Feed} {herrs : List HttpErr} {ctx ctx' : HttpParseCtx}
    (h : ctx.Rests b)
    (hx : exec (ClientConn.feedStep b) (.single ctx) is = .ok (herrs, .single ctx')) :
    Absorbs b (.single ctx) is ↔ Meets (watch b) StaysOpen (.single ctx, false) is := by
  induction is generalizing ctx herrs with
  | nil => exact iff_of_true (fun pre i suf heq => by simp at heq) trivial
  | cons i is ih =>
    obtain ⟨herr, t, herrs', hs, hr, rfl⟩ := exec_cons_ok hx
    obtain ⟨ctx₁, rfl, h₁, hherr, hw, -⟩ := feedStep_single_ok h hs
    have hfail : Failed (.single ctx) i herr ↔ Fails (.single ctx) i := hherr ▸ failed_iff i
    rw [meets_cons_iff (watch_ok hs), absorbs_cons_iff hs hr, hfail]
    by_cases hf : Fails (.single ctx) i
    · have hstays : StaysOpen (.single ctx, false) i ↔ ctx₁.wire ≠ .ended := by
        simp [StaysOpen, hw, hf]
      rw [hstays, Bool.false_or, decide_eq_true hf]
      obtain ⟨ctx₂, hc₂, h₂⟩ := live_exec_single h₁ hr
      obtain rfl : ctx' = ctx₂ := single_inj.mp hc₂
      constructor
      · rintro ⟨hhere, -⟩
        have hend := (hhere hf).2
        rw [pop_none_iff h₂] at hend
        have hopen : ctx₁.wire ≠ .ended := fun he => hend (ended_exec h₁ he hr)
        exact ⟨hopen, (meets_failed_iff h₁ hopen hr).1.mp hend⟩
      · rintro ⟨hopen, hm⟩
        obtain ⟨hiff, hsucc⟩ := meets_failed_iff h₁ hopen hr
        have hend := hiff.mpr hm
        have hpop := (pop_none_iff h₂).mpr hend
        exact ⟨fun _ => ⟨hsucc hend, hpop⟩, absorbs_of_open hr (hsucc hend) hpop⟩
    · have hstays : StaysOpen (.single ctx, false) i := by
        intro h
        simp [hf] at h
      rw [Bool.false_or, decide_eq_false hf, ← ih h₁ hr]
      exact and_congr_left fun _ => iff_of_true (fun hfails => absurd hfails hf) hstays

end Watch

/-- Over every run of calls on a fresh node, the failures are absorbed exactly
when from the first of them on no call finds the rest of the message. -/
theorem run_absorbs_iff (b : Build) (is : List Feed) {herrs : List HttpErr} {c : ClientConn}
    (hx : exec (ClientConn.feedStep b) .new is = .ok (herrs, c)) :
    Absorbs b .new is ↔ Meets (watch b) StaysOpen (.new, false) is := by
  obtain ⟨ctx', rfl, -⟩ := live_exec hx
  exact absorbs_iff_single (rests_new b) hx

def droppedThenOpen : List Feed :=
  [⟨fun _ => false, ascii "GET / HTTP".toList⟩, ⟨fun _ => true, ascii "/1.1\r\nHost: a\r\n".toList⟩]

theorem droppedThenOpen_absorbs : Absorbs .debug .new droppedThenOpen := by
  obtain ⟨c, hx⟩ : ∃ c, exec (ClientConn.feedStep .debug) .new droppedThenOpen =
      .ok ([.malloc, .parseCannotFindClrf], c) := ⟨_, rfl⟩
  exact (run_absorbs_iff .debug droppedThenOpen hx).mpr (by decide +kernel)

def droppedThenWhole : List Feed :=
  [⟨fun _ => false, ascii "GET / HTTP/1.1\r\nHost: a\r\n".toList⟩,
   ⟨fun _ => true, ascii "X-Rest: b\r\n\r\n".toList⟩]

theorem droppedThenWhole_not_absorbs : ¬ Absorbs .debug .new droppedThenWhole := by
  intro h
  obtain ⟨c, hx⟩ : ∃ c, exec (ClientConn.feedStep .debug) .new droppedThenWhole.tail =
      .ok ([.success], c) := ⟨_, rfl⟩
  have hstep : ClientConn.new.feedStep .debug ⟨fun _ => false,
      ascii "GET / HTTP/1.1\r\nHost: a\r\n".toList⟩ = .ok (.malloc, .new) := rfl
  have := (h [] _ _ rfl _ _ _ _ _ _ rfl hstep (Or.inr (Or.inl rfl)) hx).1
  simp at this

end LiteHttp
