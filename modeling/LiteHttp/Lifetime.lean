import LiteHttp.StoredConn
import LiteHttp.StoredViews
import Mathlib.Data.List.ReduceOption

/-!
# Views and the life of what they point into

A view of a post is good until the post moves or its node is freed, and a view of
the local array of the GET handler never is. These are all the ways a connection
leaves a view behind: a run keeps every view it can reach live as long as its
steps stay clear of them, and no longer.
-/

namespace LiteHttp

open Buffers Buffers.Memory Run

set_option autoImplicit false

section Memory

variable {m : Memory} {blk x : Id} {post : PostData} {moves : Bool}

/-- A post that has grown is in a live block. -/
theorem grow_block (moves : Bool) (hlive : ∀ blk, post = .block blk → m.Live blk) :
    ∃ blk, (post.grow moves m).1 = .block blk ∧ (post.grow moves m).2.Live blk := by
  cases post with
  | null => exact ⟨m.fresh, rfl, live_make_fresh m⟩
  | small => exact ⟨m.fresh, rfl, live_make_fresh m⟩
  | block blk => exact ⟨_, rfl, (live_realloc_iff moves (hlive blk rfl)).mpr (Or.inr rfl)⟩

/-- The other buffers stay, and the post does not get one of theirs. -/
theorem grow_kept (hlive : ∀ blk, post = .block blk → m.Live blk) (hx : m.Live x)
    (hne : post ≠ .block x) :
    (post.grow moves m).2.Live x ∧ (post.grow moves m).1 ≠ .block x := by
  cases post with
  | null => exact ⟨hx.make, fun h => hx.ne_fresh (PostData.block.inj h).symm⟩
  | small => exact ⟨hx.make, fun h => hx.ne_fresh (PostData.block.inj h).symm⟩
  | block blk =>
    have hxb : x ≠ blk := fun h => hne (congrArg PostData.block h.symm)
    refine ⟨(live_realloc_iff moves (hlive blk rfl)).mpr (Or.inl ⟨hx, hxb⟩), ?_⟩
    exact fun h => realloc_ne moves hx hxb (PostData.block.inj h).symm

theorem grow_moved (hlive : m.Live blk) : ¬ ((PostData.block blk).grow true m).2.Live blk := by
  intro h
  rcases (live_realloc_iff true hlive).mp h with ⟨-, hne⟩ | heq
  · exact hne rfl
  · exact hlive.ne_fresh heq

theorem live_free_iff {n : StoredCtx} :
    (n.free m).Live x ↔ m.Live x ∧ x ≠ n.self ∧ n.post ≠ .block x := by
  unfold StoredCtx.free
  cases hpost : n.post with
  | null => simp [live_release_iff]
  | small => simp [live_release_iff]
  | block blk =>
    simp only [live_release_iff, ne_eq, PostData.block.injEq, eq_comm (a := blk), and_assoc]
    exact and_congr_right fun _ => and_comm

end Memory

namespace Pointee

/-- A view that needs no buffer at all. -/
def Static : Pointee → Prop
  | .null => True
  | .literal _ => True
  | _ => False

/-- A view of nothing that belongs to the node. -/
def Apart (n : StoredCtx) (p : Pointee) : Prop :=
  ∀ span, p = .into span → span.buffer ≠ n.self ∧ n.post ≠ .block span.buffer

variable {m : Memory} {blk : Id} {p : Pointee}

theorem Static.live (h : p.Static) (m : Memory) : p.Live m := by
  cases p with
  | null => trivial
  | literal len => trivial
  | into span => exact absurd h id
  | mapFailed len => exact absurd h id

theorem In.live (h : p.In blk) (hlive : m.Live blk) : p.Live m := by
  cases p with
  | null => trivial
  | literal len => trivial
  | into span =>
    have hspan : span.buffer = blk := h
    rwa [Pointee.Live, hspan]
  | mapFailed len => exact absurd h id

/-- A view of a block that is gone is dead. -/
theorem In.static (h : p.In blk) (hdead : ¬ m.Live blk) (hlive : p.Live m) : p.Static := by
  cases p with
  | null => trivial
  | literal len => trivial
  | into span =>
    have hspan : span.buffer = blk := h
    rw [Pointee.Live, hspan] at hlive
    exact absurd hlive hdead
  | mapFailed len => exact absurd h id

theorem Into.not_static (h : p.Into blk) : ¬ p.Static := by
  obtain ⟨span, rfl, -⟩ := h
  exact id

end Pointee

section Headers

variable {blk : Id} {headers : List HttpHeader} {views : List HeaderViews}

theorem HeaderViews.Of.in_ {header : HttpHeader} {v : HeaderViews} (h : v.Of blk header) :
    v.name.In blk ∧ v.value.In blk := by
  constructor
  · by_cases hfield : header.field = .unkown
    · exact (h.named hfield).toIn
    · rw [h.nameless hfield]
      trivial
  · by_cases hvalue : header.value.valueSv = []
    · rw [h.empty hvalue]
      trivial
    · exact (h.valued hvalue).toIn

theorem HeaderViews.Of.static_iff {header : HttpHeader} {v : HeaderViews} (h : v.Of blk header) :
    v.name.Static ∧ v.value.Static ↔ header.field ≠ .unkown ∧ header.value.valueSv = [] := by
  constructor
  · rintro ⟨hname, hvalue⟩
    refine ⟨fun hfield => (h.named hfield).not_static hname, ?_⟩
    by_contra hne
    exact (h.valued hne).not_static hvalue
  · rintro ⟨hfield, hvalue⟩
    rw [h.nameless hfield, h.empty hvalue]
    exact ⟨trivial, trivial⟩

theorem headers_in (h : List.Forall₂ (HeaderViews.Of blk) headers views) :
    ∀ p ∈ views.flatMap (fun v => [v.name, v.value]), p.In blk := by
  induction h with
  | nil => simp
  | cons hof _ ih =>
    intro p hp
    rw [List.flatMap_cons, List.mem_append] at hp
    rcases hp with hp | hp
    · rw [List.mem_pair] at hp
      rcases hp with rfl | rfl
      · exact hof.in_.1
      · exact hof.in_.2
    · exact ih p hp

/-- Headers need no buffer exactly when all of them are of known fields with empty values. -/
theorem headers_static_iff (h : List.Forall₂ (HeaderViews.Of blk) headers views) :
    (∀ p ∈ views.flatMap (fun v => [v.name, v.value]), p.Static) ↔
      ∀ header ∈ headers, header.field ≠ .unkown ∧ header.value.valueSv = [] := by
  induction h with
  | nil => simp
  | cons hof _ ih =>
    rw [List.forall_mem_cons, ← ih, ← hof.static_iff, List.flatMap_cons, List.forall_mem_append]
    apply and_congr_left
    intro _
    simp

end Headers

/-- The node and its post are in live memory, apart from each other, and every view of the node is
one of the post. -/
structure StoredCtx.Placed (b : Build) (m : Memory) (n : StoredCtx) : Prop where
  rests : n.ctx.Rests b
  self : m.Live n.self
  apart : n.post ≠ .block n.self
  post : ∀ blk, n.post = .block blk → m.Live blk
  views : n.Blank ∨ n.ctx.waitState.PastLine ∧ ∃ blk, n.post = .block blk ∧ n.Within blk

namespace StoredCtx.Placed

variable {b : Build} {m m' : Memory} {n : StoredCtx}

theorem views_live (h : n.Placed b m) : ∀ p ∈ n.views, p.Live m := by
  intro p hp
  rw [StoredCtx.views, List.mem_cons, List.mem_cons] at hp
  rcases h.views with hblank | ⟨-, blk, hpost, hwithin⟩
  · rw [hblank.requestLine, hblank.bodyView, hblank.headerList] at hp
    rcases hp with rfl | rfl | hp
    · trivial
    · trivial
    · simp at hp
  · have hlive := h.post blk hpost
    rcases hp with rfl | rfl | hp
    · exact hwithin.requestLine.toIn.live hlive
    · exact hwithin.bodyView.live hlive
    · exact (hwithin.headerList p hp).live hlive

end StoredCtx.Placed

section Feed

variable {b : Build} {alloc : Alloc} {moves : Bool} {m m' : Memory} {n : StoredCtx} {post : Bytes}
variable {herr : HttpErr} {heap : StoredHeap} {tail : NodeId}

/-- The node a feed resumes once its bytes are there. -/
def StoredCtx.grown (moves : Bool) (m : Memory) (n : StoredCtx) (post : Bytes) : StoredCtx :=
  { n with
    ctx := { n.ctx with post := n.ctx.post ++ post }
    post := (n.post.grow moves m).1 }

/-- A feed of a resting node that returns has found no memory, or has resumed the node where its
post is now. -/
theorem storedFeed_single (hrests : n.ctx.Rests b)
    (h : storedFeed b alloc moves m [some n] 0 post = .ok (herr, m', heap, tail)) :
    (alloc .append = false ∧ m' = m ∧ heap = [some n] ∧ tail = 0) ∨
    (alloc .append = true ∧ ∃ n', (n.grown moves m post).resume b alloc = .ok (.ret herr n') ∧
      n'.ctx.Rests b ∧ m' = (n.post.grow moves m).2 ∧ heap = [some n'] ∧ tail = 0) := by
  unfold storedFeed at h
  obtain ⟨node, hderef, h⟩ := bind_ok h
  obtain rfl : n = node := Except.ok.inj hderef
  obtain ⟨r, happend, h⟩ := bind_ok h
  rcases stringAppendView_ok happend with ⟨halloc, rfl, hlt⟩ | ⟨halloc, rfl⟩
  · obtain ⟨exit, hexit, h⟩ := bind_ok h
    refine Or.inr ⟨halloc, ?_⟩
    have hgrown : (n.grown moves m post).resume b alloc = .ok exit := hexit
    have herased := resume_erase b alloc (n.grown moves m post)
    rw [hgrown] at herased
    have hfollows := resume_follows hrests halloc hlt
    have hctx : (n.grown moves m post).ctx = { n.ctx with post := n.ctx.post ++ post } := rfl
    rw [← hctx, ← herased] at hfollows
    cases exit with
    | glued node => cases hfollows
    | ret code n' =>
      cases hfollows with
      | returns hrests' =>
        simp only [storedSettle, ite_self, Except.ok.injEq, Prod.mk.injEq] at h
        obtain ⟨rfl, rfl, rfl, rfl⟩ := h
        exact ⟨n', hgrown, hrests', rfl, rfl, rfl⟩
  · simp only [Bool.not_false, if_true, pure_ok, Prod.mk.injEq] at h
    obtain ⟨-, rfl, rfl, rfl⟩ := h
    exact Or.inl ⟨halloc, rfl, rfl, rfl⟩

/-- Where the post stays or no view of it is stored, a feed leaves the node placed, and what was
live apart from the node still is. -/
theorem StoredCtx.Placed.feed (hn : n.Placed b m)
    (hsafe : alloc .append = true → moves = true → ¬ n.ctx.waitState.PastLine)
    (h : storedFeed b alloc moves m [some n] 0 post = .ok (herr, m', heap, tail)) :
    tail = 0 ∧ ∃ n', heap = [some n'] ∧ n'.Placed b m' ∧
      ∀ p : Pointee, p.Live m → p.Apart n → p.Live m' ∧ p.Apart n' := by
  rcases storedFeed_single hn.rests h with
    ⟨-, rfl, rfl, rfl⟩ | ⟨halloc, n', hrun, hrests, rfl, rfl, rfl⟩
  · exact ⟨rfl, n, rfl, hn, fun p hlive hapart => ⟨hlive, hapart⟩⟩
  · refine ⟨rfl, n', rfl, ?_⟩
    obtain ⟨blk, hblk, hlive⟩ := grow_block moves hn.post
    have hgrown : (n.grown moves m post).Blank ∨ (n.grown moves m post).ctx.waitState.PastLine ∧
        (n.grown moves m post).Within blk := by
      rcases hn.views with hblank | ⟨hpast, old, hold, hwithin⟩
      · exact Or.inl ⟨hblank.waits, hblank.requestLine, hblank.headerList, hblank.bodyView,
          hblank.headers, hblank.none⟩
      · have hstays : moves = false := by
          by_contra hmoves
          exact hsafe halloc (Bool.not_eq_false _ ▸ hmoves) hpast
        rw [hold, hstays] at hblk
        obtain rfl : old = blk := PostData.block.inj hblk
        exact Or.inr ⟨hpast, hwithin.requestLine, hwithin.headerList, hwithin.bodyView,
          hwithin.headers⟩
    obtain ⟨hself, hpost, hviews⟩ := resume_views hblk hgrown hrun
    have hput : n'.post = .block blk := hpost.trans hblk
    have hkept {x : Id} (hx : m.Live x) (hne : n.post ≠ .block x) :
        (n.post.grow moves m).2.Live x ∧ n'.post ≠ .block x := by
      rw [hpost]
      exact grow_kept hn.post hx hne
    constructor
    · constructor
      · exact hrests
      · rw [hself]
        exact (hkept hn.self hn.apart).1
      · rw [hself]
        exact (hkept hn.self hn.apart).2
      · intro x hx
        rw [hput] at hx
        rwa [← PostData.block.inj hx]
      · exact hviews.imp_right fun ⟨hpast, hwithin⟩ => ⟨hpast, blk, hput, hwithin⟩
    · intro p hp hapart
      cases p with
      | null => exact ⟨trivial, nofun⟩
      | literal len => exact ⟨trivial, nofun⟩
      | mapFailed len => exact absurd hp id
      | into span =>
        obtain ⟨hnself, hnpost⟩ := hapart span rfl
        obtain ⟨hlive', hne'⟩ := hkept hp hnpost
        refine ⟨hlive', ?_⟩
        intro s hs
        obtain rfl := Pointee.into.inj hs
        exact ⟨by rwa [hself], hne'⟩

/-- A post that moves under a stored request line leaves that view behind. -/
theorem StoredCtx.Placed.feed_moved (hn : n.Placed b m) (halloc : alloc .append = true)
    (hpast : n.ctx.waitState.PastLine)
    (h : storedFeed b alloc true m [some n] 0 post = .ok (herr, m', heap, tail)) :
    ∃ n', heap = [some n'] ∧ ¬ n'.requestLine.Live m' := by
  rcases storedFeed_single hn.rests h with ⟨hno, -⟩ | ⟨-, n', hrun, -, rfl, rfl, -⟩
  · rw [halloc] at hno
    exact absurd hno Bool.noConfusion
  · refine ⟨n', rfl, ?_⟩
    rcases hn.views with hblank | ⟨-, blk, hblk, hwithin⟩
    · exact absurd hpast hblank.waits
    · obtain ⟨new, hnew, -⟩ := grow_block true hn.post
      have hadds := resume_adds (n := n.grown true m post) hnew hpast hrun
      have hline : n'.requestLine = n.requestLine := hadds.requestLine
      obtain ⟨span, hspan, hbuffer⟩ := hwithin.requestLine
      rw [hline, hspan, hblk, Pointee.Live, hbuffer]
      exact grow_moved (hn.post blk hblk)

end Feed

section Pop

variable {b : Build} {m m' : Memory} {n : StoredCtx} {popped : Option StoredRequest}
variable {heap : StoredHeap} {head : Option NodeId}

theorem storedPop_single (hrests : n.ctx.Rests b)
    (h : storedPop m [some n] (some 0) = .ok (popped, m', heap, head)) :
    (n.ctx.waitState ≠ .parseEnd ∧ popped = none ∧ m' = m ∧ heap = [some n] ∧ head = some 0) ∨
    (n.ctx.waitState = .parseEnd ∧ popped = some ⟨n.ctx.httpRequest, n.headers⟩ ∧
      m' = n.free m ∧ heap = [none] ∧ head = none) := by
  obtain ⟨node, hderef, h⟩ := bind_ok h
  obtain rfl : n = node := Except.ok.inj hderef
  split at h
  · rename_i hopen
    simp only [pure_ok, Prod.mk.injEq] at h
    obtain ⟨rfl, rfl, rfl, rfl⟩ := h
    exact Or.inl ⟨hopen, rfl, rfl, rfl, rfl⟩
  · rename_i hend
    simp only [pure_ok, Prod.mk.injEq] at h
    obtain ⟨rfl, rfl, rfl, rfl⟩ := h
    exact Or.inr ⟨not_not.mp hend, rfl, rfl, rfl, hrests.last⟩

/-- The views of the request of a finished node need no buffer exactly when its headers are all of
known fields with empty values; any other view of it goes with the post. -/
theorem StoredCtx.Placed.pop (hn : n.Placed b m) (hend : n.ctx.waitState = .parseEnd) :
    ((∀ p ∈ StoredRequest.views ⟨n.ctx.httpRequest, n.headers⟩, p.Static) ↔
      ∀ header ∈ n.ctx.httpRequest.headerList,
        header.field ≠ .unkown ∧ header.value.valueSv = []) ∧
    ∀ p ∈ StoredRequest.views ⟨n.ctx.httpRequest, n.headers⟩, p.Live (n.free m) → p.Static := by
  rcases hn.views with hblank | ⟨-, blk, hpost, hwithin⟩
  · refine absurd ?_ hblank.waits
    rw [hend]
    exact ⟨nofun, nofun⟩
  · refine ⟨headers_static_iff hwithin.headers, ?_⟩
    intro p hp hlive
    refine (headers_in hwithin.headers p hp).static ?_ hlive
    exact fun hblk => (live_free_iff.mp hblk).2.2 hpost

end Pop

section Handle

variable {b : Build} {m m' : Memory} {env : GetEnv} {request : HttpRequest} {herr : HttpErr}

/-- The response of a GET that went well, with where its views point. -/
def servedStored (m : Memory) (pushLength : Bool) (res : ResView) : StoredResponse :=
  ⟨servedResponse pushLength res,
    (servedResponse pushLength res).headerList.map fun header => header.valueSv.pointee m.fresh,
    (res.place m.make).1⟩

/-- The memory the GET handler leaves, once it has looked the resource up. -/
def servedMemory (m : Memory) (res : ResView) : Memory := (res.place m.make).2.release m.fresh

theorem place_live (res : ResView) {x : Id} (h : m.Live x) : (res.place m).2.Live x := by
  unfold ResView.place
  split
  · exact h
  · exact h
  · exact h.make

theorem servedMemory_live (res : ResView) {x : Id} (h : m.Live x) : (servedMemory m res).Live x :=
  live_release_iff.mpr ⟨place_live res h.make, h.ne_fresh⟩

theorem numbuf_released {x : Id} (h : m.Live x) : (m.make.release m.fresh).Live x :=
  live_release_iff.mpr ⟨h.make, h.ne_fresh⟩

/-- What the handler hands out is live exactly when it has no Content-Length and its body is no
failed mapping. -/
theorem servedStored_live_iff (pushLength : Bool) (res : ResView) :
    (∀ p ∈ (servedStored m pushLength res).views, p.Live (servedMemory m res)) ↔
      pushLength = false ∧ res.data ≠ .failed := by
  have hnumbuf : ¬ (servedMemory m res).Live m.fresh := fun h => (live_release_iff.mp h).2 rfl
  have hbody : (res.place m.make).1.Live (servedMemory m res) ↔ res.data ≠ .failed := by
    unfold servedMemory ResView.place
    cases res.data with
    | null => simp [Pointee.Live]
    | failed => simp [Pointee.Live]
    | mapped mapping =>
      refine iff_of_true ?_ nofun
      refine live_release_iff.mpr ⟨live_make_fresh m.make, ?_⟩
      exact (live_make_fresh m).ne_fresh.symm
  have hvalues : (∀ p ∈ (servedStored m pushLength res).values, p.Live (servedMemory m res)) ↔
      pushLength = false := by
    cases pushLength with
    | false => simp [servedStored, servedResponse, View.pointee, Pointee.Live]
    | true => simpa [servedStored, servedResponse, View.pointee, Pointee.Live] using hnumbuf
  rw [StoredResponse.views, List.forall_mem_cons, hvalues, servedStored, hbody]
  exact and_comm

/-- None of it is anything that was live before. -/
theorem servedStored_new (pushLength : Bool) (res : ResView) {p : Pointee}
    (hp : p ∈ (servedStored m pushLength res).views) {span : Span} (hspan : p = .into span) :
    ¬ m.Live span.buffer := by
  intro hlive
  rw [StoredResponse.views, List.mem_cons] at hp
  rcases hp with hbody | hvalue
  · rw [hspan, servedStored, ResView.place] at hbody
    cases hdata : res.data with
    | null => simp [hdata] at hbody
    | failed => simp [hdata] at hbody
    | mapped mapping =>
      simp only [hdata, Pointee.into.injEq] at hbody
      rw [hbody] at hlive
      exact hlive.make.ne_fresh rfl
  · obtain ⟨header, -, hto⟩ := List.mem_map.mp hvalue
    rw [hspan] at hto
    cases hview : header.valueSv with
    | live bytes => simp [hview, View.pointee] at hto
    | mapFailed len => simp [hview, View.pointee] at hto
    | deadFrame len =>
      simp only [hview, View.pointee, Pointee.into.injEq] at hto
      rw [← hto] at hlive
      exact hlive.ne_fresh rfl

theorem storedGetHandler_ok {res : Option StoredResponse}
    (h : storedGetHandler b m env request = .ok (herr, m', res)) :
    (∀ x, m.Live x → m'.Live x) ∧ ∀ response, res = some response →
      ∃ view, Looks b env request view ∧ env.callocOk = true ∧ env.pushType = true ∧
        response = servedStored m env.pushLength view ∧ m' = servedMemory m view := by
  obtain ⟨-, -, h⟩ := bind_ok h
  obtain ⟨⟨code, path⟩, hpath, h⟩ := bind_ok h
  by_cases hbuilt : code = .success
  · subst hbuilt
    simp only [ne_eq, not_true_eq_false, if_false] at h
    obtain ⟨⟨result, getter⟩, hlook, h⟩ := bind_ok h
    by_cases hfound : result.herr = .success
    · simp only [hfound, not_true_eq_false, if_false] at h
      split at h
      · simp only [pure_ok, Prod.mk.injEq] at h
        obtain ⟨-, rfl, rfl⟩ := h
        exact ⟨fun x hx => servedMemory_live result.res hx, fun _ hnone => by simp at hnone⟩
      · obtain ⟨⟨last, made⟩, hok, h⟩ := bind_ok h
        simp only [pure_ok, Prod.mk.injEq] at h
        obtain ⟨-, rfl, rfl⟩ := h
        refine ⟨fun x hx => servedMemory_live result.res hx, ?_⟩
        intro response hresponse
        obtain ⟨served, rfl, rfl⟩ := Option.map_eq_some_iff.mp hresponse
        obtain ⟨-, hcalloc, htype, rfl⟩ := okResponse_some_iff.mp hok
        exact ⟨result.res, ⟨path, result, getter, hpath, hlook, hfound, rfl⟩, hcalloc, htype, rfl,
          rfl⟩
    · simp only [hfound, not_false_eq_true, if_true, pure_ok, Prod.mk.injEq] at h
      obtain ⟨-, rfl, rfl⟩ := h
      exact ⟨fun x hx => servedMemory_live result.res hx, fun _ hnone => by simp at hnone⟩
  · simp only [ne_eq, hbuilt, not_false_eq_true, if_true, pure_ok, Prod.mk.injEq] at h
    obtain ⟨-, rfl, rfl⟩ := h
    exact ⟨fun x hx => numbuf_released hx, fun _ hnone => by simp at hnone⟩

theorem storedGetHandler_of_looks {view : ResView} (hmethod : request.method = .get)
    (hlooks : Looks b env request view) (hcalloc : env.callocOk = true)
    (htype : env.pushType = true) : storedGetHandler b m env request =
      .ok (.success, servedMemory m view, some (servedStored m env.pushLength view)) := by
  obtain ⟨path, result, getter, hpath, hlook, hfound, rfl⟩ := hlooks
  have hok : okResponse env (httpSetStatus 200).2 result.res =
      .ok (.success, some (servedResponse env.pushLength result.res)) :=
    okResponse_some_iff.mpr ⟨rfl, hcalloc, htype, rfl⟩
  have hstatus : (httpSetStatus 200).1 = .success := rfl
  unfold storedGetHandler
  simp only [assert_of hmethod, hpath, hlook, hfound, bind, Except.bind, ne_eq, not_true_eq_false,
    if_false, hstatus, hok]
  rfl

/-- What was live stays live; a response comes from a GET whose lookup went well, with memory for
the response and its first header. -/
theorem storedHandle_ok {res : Option StoredResponse}
    (h : storedHandle b m env request = .ok (herr, m', res)) :
    (∀ x, m.Live x → m'.Live x) ∧ ∀ response, res = some response →
      request.method = .get ∧ ∃ view, Looks b env request view ∧ env.callocOk = true ∧
        env.pushType = true ∧ response = servedStored m env.pushLength view ∧
          m' = servedMemory m view := by
  unfold storedHandle at h
  split at h
  · rename_i hmethod
    obtain ⟨⟨code, memory, made⟩, hhandler, h⟩ := bind_ok h
    simp only [pure_ok, Prod.mk.injEq] at h
    obtain ⟨-, rfl, rfl⟩ := h
    obtain ⟨hlive, hmade⟩ := storedGetHandler_ok hhandler
    exact ⟨hlive, fun response hresponse => ⟨hmethod, hmade response hresponse⟩⟩
  · simp only [Except.ok.injEq, Prod.mk.injEq] at h
    obtain ⟨-, rfl, rfl⟩ := h
    exact ⟨fun x hx => hx, fun _ hnone => by simp at hnone⟩

theorem storedHandle_of_looks {view : ResView} (hmethod : request.method = .get)
    (hlooks : Looks b env request view) (hcalloc : env.callocOk = true)
    (htype : env.pushType = true) : storedHandle b m env request =
      .ok (.success, servedMemory m view, some (servedStored m env.pushLength view)) := by
  unfold storedHandle
  simp only [hmethod, storedGetHandler_of_looks hmethod hlooks hcalloc htype, bind, Except.bind,
    pure, Except.pure]

end Handle

theorem WaitState.not_pastLine_iff {state : WaitState} :
    ¬ state.PastLine ↔ state = .start ∨ state = .waitReq := by
  cases state <;> simp [WaitState.PastLine]

theorem StoredCtx.Placed.mono {b : Build} {m m' : Memory} {n : StoredCtx} (hn : n.Placed b m)
    (h : ∀ x, m.Live x → m'.Live x) : n.Placed b m' :=
  ⟨hn.rests, h _ hn.self, hn.apart, fun blk hblk => h blk (hn.post blk hblk), hn.views⟩

theorem Pointee.Live.mono {m m' : Memory} {p : Pointee} (hp : p.Live m)
    (h : ∀ x, m.Live x → m'.Live x) : p.Live m' := by
  cases p with
  | null => trivial
  | literal len => trivial
  | into span => exact h _ hp
  | mapFailed len => exact absurd hp id

/-- The connection has its one node still or has it no more, what was popped needs no buffer, and
what was answered is live and nothing of the node. -/
structure StoredConn.Good (b : Build) (c : StoredConn) : Prop where
  tail : c.ctxTail = 0
  chain : (c.heap = [none] ∧ c.ctxBeg = none) ∨
    ∃ n, c.heap = [some n] ∧ c.ctxBeg = some 0 ∧ n.Placed b c.memory
  requests : ∀ request ∈ c.requests, ∀ p ∈ request.views, p.Static
  responses : ∀ response ∈ c.responses, ∀ p ∈ response.views,
    p.Live c.memory ∧ ∀ n, some n ∈ c.heap → p.Apart n

namespace StoredConn

variable {b : Build} {c c' : StoredConn} {e : ConnEvent} {o : ConnAnswer}

theorem good_new (b : Build) : StoredConn.new.Good b where
  tail := rfl
  chain := Or.inr ⟨.new 0, rfl, rfl, rests_new b, by decide, nofun, nofun,
    Or.inl (StoredCtx.blank_new 0)⟩
  requests := by simp [StoredConn.new]
  responses := by simp [StoredConn.new]

theorem Good.viewsLive (hc : c.Good b) : c.ViewsLive where
  nodes := by
    intro n hn
    rcases hc.chain with ⟨hheap, -⟩ | ⟨n', hheap, -, hplaced⟩
    · simp [hheap] at hn
    · obtain rfl : n = n' := by simpa [hheap] using hn
      exact hplaced.views_live
  requests := fun request hrequest p hp => (hc.requests request hrequest p hp).live c.memory
  responses := fun response hresponse p hp => (hc.responses response hresponse p hp).1

theorem Good.feed {alloc : Alloc} {moves : Bool} {post : Bytes} (hc : c.Good b)
    (hsafe : c.Safe b (.feed alloc moves post))
    (h : c.step b (.feed alloc moves post) = .ok (o, c')) : c'.Good b := by
  obtain ⟨⟨herr, memory, heap, tail⟩, hfeed, h⟩ := bind_ok h
  obtain ⟨-, rfl⟩ := Prod.mk.inj (pure_ok.mp h)
  rw [hc.tail] at hfeed
  rcases hc.chain with ⟨hheap, -⟩ | ⟨n, hheap, hbeg, hplaced⟩
  · rw [hheap] at hfeed
    obtain ⟨node, hderef, -⟩ := bind_ok hfeed
    cases hderef
  · rw [hheap] at hfeed
    have hwaits (halloc : alloc .append = true) (hmoves : moves = true) :
        ¬ n.ctx.waitState.PastLine := by
      refine WaitState.not_pastLine_iff.mpr (hsafe halloc hmoves n ?_)
      rw [hc.tail, hheap]
      rfl
    obtain ⟨rfl, n', rfl, hplaced', hkept⟩ := hplaced.feed hwaits hfeed
    constructor
    · rfl
    · exact Or.inr ⟨n', rfl, hbeg, hplaced'⟩
    · exact hc.requests
    · intro response hresponse p hp
      obtain ⟨hlive, hapart⟩ := hc.responses response hresponse p hp
      obtain ⟨hlive', hapart'⟩ := hkept p hlive (hapart n (by simp [hheap]))
      refine ⟨hlive', ?_⟩
      intro node hnode
      rwa [Option.some.inj (List.mem_singleton.mp hnode)]

theorem Good.pop (hc : c.Good b) (hsafe : c.Safe b .pop) (h : c.step b .pop = .ok (o, c')) :
    c'.Good b := by
  obtain ⟨⟨request, memory, heap, beg⟩, hpop, h⟩ := bind_ok h
  obtain ⟨-, rfl⟩ := Prod.mk.inj (pure_ok.mp h)
  rcases hc.chain with ⟨hheap, hbeg⟩ | ⟨n, hheap, hbeg, hplaced⟩
  · rw [hbeg] at hpop
    simp only [storedPop, Except.ok.injEq, Prod.mk.injEq] at hpop
    obtain ⟨rfl, rfl, rfl, rfl⟩ := hpop
    exact ⟨hc.tail, Or.inl ⟨hheap, rfl⟩, by simpa using hc.requests, hc.responses⟩
  · rw [hheap, hbeg] at hpop
    rcases storedPop_single hplaced.rests hpop with
      ⟨-, rfl, rfl, rfl, rfl⟩ | ⟨hend, rfl, rfl, rfl, rfl⟩
    · refine ⟨hc.tail, Or.inr ⟨n, rfl, rfl, hplaced⟩, by simpa using hc.requests, ?_⟩
      rw [← hheap]
      exact hc.responses
    · constructor
      · exact hc.tail
      · exact Or.inl ⟨rfl, rfl⟩
      · intro request hrequest
        rcases List.mem_append.mp hrequest with hold | hnew
        · exact hc.requests request hold
        · obtain rfl : request = ⟨n.ctx.httpRequest, n.headers⟩ := by simpa using hnew
          exact (hplaced.pop hend).1.mpr (hsafe 0 n hbeg (by rw [hheap]; rfl) hend)
      · intro response hresponse p hp
        obtain ⟨hlive, hapart⟩ := hc.responses response hresponse p hp
        refine ⟨?_, by simp⟩
        have hfrom := hapart n (by simp [hheap])
        cases p with
        | null => trivial
        | literal len => trivial
        | into span => exact live_free_iff.mpr ⟨hlive, hfrom span rfl⟩
        | mapFailed len => exact absurd hlive id

theorem Good.handle {k : Nat} {env : GetEnv} (hc : c.Good b) (hsafe : c.Safe b (.handle k env))
    (h : c.step b (.handle k env) = .ok (o, c')) : c'.Good b := by
  unfold StoredConn.step at h
  cases hrequest : c.requests[k]? with
  | none => simp [hrequest] at h
  | some request =>
    simp only [hrequest] at h
    obtain ⟨⟨herr, memory, made⟩, hhandle, h⟩ := bind_ok h
    obtain ⟨-, rfl⟩ := Prod.mk.inj (pure_ok.mp h)
    obtain ⟨hmono, hmade⟩ := storedHandle_ok hhandle
    constructor
    · exact hc.tail
    · rcases hc.chain with hnone | ⟨n, hheap, hbeg, hplaced⟩
      · exact Or.inl hnone
      · exact Or.inr ⟨n, hheap, hbeg, hplaced.mono hmono⟩
    · exact hc.requests
    · intro response hresponse p hp
      rcases List.mem_append.mp hresponse with hold | hnew
      · obtain ⟨hlive, hapart⟩ := hc.responses response hold p hp
        exact ⟨hlive.mono hmono, hapart⟩
      · obtain ⟨hmethod, view, hlooks, hcalloc, htype, rfl, rfl⟩ :=
          hmade response (Option.mem_toList.mp hnew)
        have hgood := hsafe request view hrequest hmethod hcalloc htype hlooks
        refine ⟨(servedStored_live_iff env.pushLength view).mpr hgood p hp, ?_⟩
        intro n hn span hspan
        have hdead := servedStored_new env.pushLength view hp hspan
        rcases hc.chain with ⟨hheap, -⟩ | ⟨n', hheap, -, hplaced⟩
        · simp [hheap] at hn
        · obtain rfl : n = n' := by simpa [hheap] using hn
          refine ⟨?_, fun hpost => hdead (hplaced.post _ hpost)⟩
          exact fun hself => hdead (hself ▸ hplaced.self)

theorem Good.step (hc : c.Good b) (hsafe : c.Safe b e) (h : c.step b e = .ok (o, c')) :
    c'.Good b := by
  cases e with
  | feed alloc moves post => exact hc.feed hsafe h
  | pop => exact hc.pop hsafe h
  | handle k env => exact hc.handle hsafe h
  | send k alloc frame write =>
    unfold StoredConn.step at h
    cases hresponse : c.responses[k]? with
    | none => simp [hresponse] at h
    | some response =>
      simp only [hresponse] at h
      obtain ⟨sent, -, h⟩ := bind_ok h
      obtain ⟨-, rfl⟩ := Prod.mk.inj (pure_ok.mp h)
      exact hc

theorem Good.feed_safe {alloc : Alloc} {moves : Bool} {post : Bytes} (hc : c.Good b)
    (h : c.step b (.feed alloc moves post) = .ok (o, c')) (hlive : c'.ViewsLive) :
    c.Safe b (.feed alloc moves post) := by
  intro halloc hmoves n hn
  obtain ⟨⟨herr, memory, heap, tail⟩, hfeed, h⟩ := bind_ok h
  obtain ⟨-, rfl⟩ := Prod.mk.inj (pure_ok.mp h)
  rw [hc.tail] at hfeed hn
  rcases hc.chain with ⟨hheap, -⟩ | ⟨n', hheap, -, hplaced⟩
  · simp [hheap] at hn
  · obtain rfl : n' = n := by simpa [hheap] using hn
    apply WaitState.not_pastLine_iff.mp
    intro hpast
    rw [hheap, hmoves] at hfeed
    obtain ⟨node, rfl, hdead⟩ := hplaced.feed_moved halloc hpast hfeed
    exact hdead (hlive.nodes node List.mem_cons_self _ List.mem_cons_self)

theorem Good.pop_safe (hc : c.Good b) (h : c.step b .pop = .ok (o, c')) (hlive : c'.ViewsLive) :
    c.Safe b .pop := by
  intro k n hbeg hn hend
  obtain ⟨⟨request, memory, heap, beg⟩, hpop, h⟩ := bind_ok h
  obtain ⟨-, rfl⟩ := Prod.mk.inj (pure_ok.mp h)
  rcases hc.chain with ⟨-, hnone⟩ | ⟨n', hheap, hzero, hplaced⟩
  · rw [hnone] at hbeg
    cases hbeg
  · obtain rfl : 0 = k := Option.some.inj (hzero.symm.trans hbeg)
    obtain rfl : n' = n := by simpa [hheap] using hn
    rw [hheap, hzero] at hpop
    rcases storedPop_single hplaced.rests hpop with ⟨hopen, -⟩ | ⟨-, rfl, rfl, rfl, rfl⟩
    · exact absurd hend hopen
    · refine (hplaced.pop hend).1.mp fun p hp => (hplaced.pop hend).2 p hp ?_
      exact hlive.requests _ (List.mem_append_right _ List.mem_cons_self) p hp

theorem Good.handle_safe {k : Nat} {env : GetEnv} (h : c.step b (.handle k env) = .ok (o, c'))
    (hlive : c'.ViewsLive) : c.Safe b (.handle k env) := by
  intro request view hrequest hmethod hcalloc htype hlooks
  unfold StoredConn.step at h
  simp only [hrequest, storedHandle_of_looks hmethod hlooks hcalloc htype] at h
  obtain ⟨-, rfl⟩ := Prod.mk.inj (pure_ok.mp h)
  exact (servedStored_live_iff env.pushLength view).mp
    (hlive.responses _ (List.mem_append_right _ List.mem_cons_self))

/-- A step that leaves every view live is one of the safe ones. -/
theorem Good.safe (hc : c.Good b) (h : c.step b e = .ok (o, c')) (hlive : c'.ViewsLive) :
    c.Safe b e := by
  cases e with
  | feed alloc moves post => exact hc.feed_safe h hlive
  | pop => exact hc.pop_safe h hlive
  | handle k env => exact handle_safe h hlive
  | send k alloc frame write => trivial

end StoredConn

/-- Every view that can be reached refers to a live buffer in every state of a run whose steps are
safe, and in no other run that returns. -/
theorem run_viewsLive (b : Build) (events : List ConnEvent) :
    (Meets (StoredConn.step b) (StoredConn.Safe b) .new events →
      ∀ answers c, Reaches (StoredConn.step b) .new events answers c → c.ViewsLive) ∧
    ((∃ answers c, exec (StoredConn.step b) .new events = .ok (answers, c)) →
      ((∀ answers c, Reaches (StoredConn.step b) .new events answers c → c.ViewsLive) ↔
        Meets (StoredConn.step b) (StoredConn.Safe b) .new events)) := by
  have hkeeps : Meets (StoredConn.step b) (StoredConn.Safe b) .new events →
      ∀ answers c, Reaches (StoredConn.step b) .new events answers c → c.ViewsLive := by
    intro hm answers c hreach
    have hgood : c.Good b := inv_of_reaches
      (fun hc hsafe h => StoredConn.Good.step hc hsafe h) (StoredConn.good_new b) hm hreach
    exact hgood.viewsLive
  refine ⟨hkeeps, fun hx => ⟨?_, hkeeps⟩⟩
  exact meets_of_reaches (fun hc hsafe h => StoredConn.Good.step hc hsafe h)
    (fun hc h hlive => StoredConn.Good.safe hc h hlive) (StoredConn.good_new b) hx

def hostFeed (moves : Bool) (post : String) : ConnEvent :=
  .feed (fun _ => true) moves (ascii post.toList)

/-- A request with a header that has no value, in two packets that the post takes where it is,
answered by a handler that finds no memory for its Content-Length. -/
def hostRun : List ConnEvent :=
  [hostFeed true "GET / HTTP/1.1\r\nHo", hostFeed false "st:\r\n\r\n", .pop,
    .handle 0 { fileEnv (ascii "hi".toList) with pushLength := false },
    .send 0 (fun _ => true) none (some 100)]

theorem hostRun_viewsLive :
    ∀ answers c, Reaches (StoredConn.step .debug) .new hostRun answers c → c.ViewsLive := by
  apply (run_viewsLive .debug hostRun).1
  have hrun : ∃ o₁ c₁ o₂ c₂ o₃ c₃ o₄ c₄ o₅ c₅,
      StoredConn.step .debug .new (hostFeed true "GET / HTTP/1.1\r\nHo") = .ok (o₁, c₁) ∧
      StoredConn.step .debug c₁ (hostFeed false "st:\r\n\r\n") = .ok (o₂, c₂) ∧
      StoredConn.step .debug c₂ .pop = .ok (o₃, c₃) ∧
      StoredConn.step .debug c₃
        (.handle 0 { fileEnv (ascii "hi".toList) with pushLength := false }) = .ok (o₄, c₄) ∧
      StoredConn.step .debug c₄ (.send 0 (fun _ => true) none (some 100)) = .ok (o₅, c₅) ∧
      ∀ n ∈ c₂.heap.reduceOption, ∀ header ∈ n.ctx.httpRequest.headerList,
        header.field ≠ .unkown ∧ header.value.valueSv = [] :=
    ⟨_, _, _, _, _, _, _, _, _, _, rfl, rfl, rfl, rfl, rfl, by decide⟩
  obtain ⟨o₁, c₁, o₂, c₂, o₃, c₃, o₄, c₄, o₅, c₅, h₁, h₂, h₃, h₄, h₅, hheaders⟩ := hrun
  rw [hostRun, meets_cons_iff h₁, meets_cons_iff h₂, meets_cons_iff h₃, meets_cons_iff h₄,
    meets_cons_iff h₅]
  refine ⟨?_, ?_, ?_, ?_, trivial, trivial⟩
  · intro _ _ n hn
    obtain rfl : StoredCtx.new 0 = n := Option.some.inj (Option.some.inj hn)
    exact Or.inl rfl
  · intro _ hmoves
    cases hmoves
  · intro k n _ hn _
    exact hheaders n (List.reduceOption_mem_iff.mpr (List.mem_of_getElem? hn))
  · intro request res _ _ _ _ hlooks
    exact ⟨rfl, hlooks.not_failed ⟨by decide, rfl⟩⟩

/-- One packet with a whole request, and its pop. -/
def poppedRun : List ConnEvent :=
  [hostFeed false "GET / HTTP/1.1\r\nHost: a\r\n\r\n", .pop]

theorem poppedRun_dangles :
    ¬ ∀ answers c, Reaches (StoredConn.step .debug) .new poppedRun answers c → c.ViewsLive := by
  intro h
  have hrun : ∃ answers c, exec (StoredConn.step .debug) .new poppedRun = .ok (answers, c) ∧
      ¬ ∀ request ∈ c.requests, ∀ p ∈ request.views, p.Live c.memory := ⟨_, _, rfl, by decide⟩
  obtain ⟨answers, c, hx, hdead⟩ := hrun
  exact hdead (h answers c ⟨_, List.prefix_rfl, hx⟩).requests

end LiteHttp
