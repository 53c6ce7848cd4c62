import LiteHttp.Resource
import LiteHttp.Lib.Run

/-!
# When a cached lookup agrees with the open behind it

A hit leaves `*res` as the caller had it. So a lookup delivers the mapping of the
latest open of its path when it opens the file itself, and otherwise only where
the caller already held that view.
-/

namespace LiteHttp

open Run

set_option autoImplicit false

variable {κ : Type} [DecidableEq κ]

/-- The memory of a call that opened its file. -/
def LazyResult.made (r : LazyResult) : Option MappedMemory :=
  match r.opened with
  | some (.success, mem) => some mem
  | _ => none

/-- The memory of the latest successful `open_resource` for a path. -/
def latestOpened (path : κ) (calls : List (LazyCall κ)) (results : List LazyResult) :
    Option MappedMemory :=
  ((calls.zip results).filterMap fun p => if p.1.path = path then p.2.made else none).getLast?

theorem latestOpened_concat {path : κ} {calls : List (LazyCall κ)} {results : List LazyResult}
    (hlen : calls.length = results.length) (call : LazyCall κ) (r : LazyResult)
    (hpath : call.path = path) :
    latestOpened path (calls ++ [call]) (results ++ [r]) =
      r.made.or (latestOpened path calls results) := by
  unfold latestOpened
  rw [List.zip_append hlen, List.filterMap_append, List.getLast?_append]
  cases hmade : r.made with
  | none => simp [hpath, hmade]
  | some mem => simp [hpath, hmade]

theorem latestOpened_none {path : κ} {calls : List (LazyCall κ)}
    (h : ∀ c ∈ calls, c.path ≠ path) (results : List LazyResult) :
    latestOpened path calls results = none := by
  unfold latestOpened
  rw [List.filterMap_eq_nil_iff.mpr, List.getLast?_nil]
  intro p hp
  rw [if_neg (h _ (List.of_mem_zip hp).1)]

/-- A successful call puts its path into the table and takes none out. -/
theorem getResourceLazy_mem {b : Build} {getter getter' : ResourceGetter κ} {t : Table κ}
    {call : LazyCall κ} {r : LazyResult} (htable : getter.table = some t)
    (h : getResourceLazy b getter call = .ok (r, getter')) (hr : r.herr = .success) :
    ∃ t', getter'.table = some t' ∧ ∀ k, k ∈ t' ↔ k ∈ t ∨ call.path = k := by
  rcases getResourceLazy_ok h with ⟨-, -, rfl, hhit, -⟩ | ⟨u, t', _, _, hu, -, -, hinsert, -, -, rfl⟩
  · obtain ⟨u, hu, hmem, -⟩ := hhit hr
    rw [htable, Option.some.injEq] at hu
    refine ⟨t, htable, fun k => ⟨Or.inl, ?_⟩⟩
    rintro (hk | rfl)
    · exact hk
    · exact hu ▸ hmem
  · rw [htable, Option.some.injEq] at hu
    subst hu
    rcases lazyInsert_ok hinsert with ⟨-, hlock, -⟩ | ⟨-, -, -, -, rfl⟩
    · simp [hr] at hlock
    · refine ⟨_, rfl, fun k => ?_⟩
      rw [AList.mem_insert, or_comm, eq_comm]

/-- After a history of successful calls the table holds the paths that were looked up. -/
theorem mem_of_history {b : Build} {getter getter' : ResourceGetter κ} {t : Table κ}
    {calls : List (LazyCall κ)} {results : List LazyResult} (htable : getter.table = some t)
    (hx : exec (getResourceLazy b) getter calls = .ok (results, getter'))
    (hall : ∀ r ∈ results, r.herr = .success) :
    ∃ t', getter'.table = some t' ∧ ∀ k, k ∈ t' ↔ k ∈ t ∨ ∃ c ∈ calls, c.path = k := by
  induction calls generalizing getter t results with
  | nil =>
    simp only [exec_nil, Except.ok.injEq, Prod.mk.injEq] at hx
    exact ⟨t, hx.2 ▸ htable, by simp⟩
  | cons call calls ih =>
    obtain ⟨r, u, rs, hs, hr, rfl⟩ := exec_cons_ok hx
    rw [List.forall_mem_cons] at hall
    obtain ⟨t₁, ht₁, hmem₁⟩ := getResourceLazy_mem htable hs hall.1
    obtain ⟨t₂, ht₂, hmem₂⟩ := ih ht₁ hr hall.2
    refine ⟨t₂, ht₂, fun k => ?_⟩
    rw [hmem₂, hmem₁, or_assoc, List.exists_mem_cons_iff]

/-- `*res` is the view of the latest mapping the path has. -/
def Delivers (calls : List (LazyCall κ)) (results : List LazyResult) (call : LazyCall κ)
    (r : LazyResult) : Prop :=
  ∃ mem, latestOpened call.path (calls ++ [call]) (results ++ [r]) = some mem ∧ r.res = mem.view

/-- A successful cached lookup delivers the latest mapping exactly when the path is
looked up for the first time and its file opens, or when the caller's `*res`
holds that mapping already. -/
theorem cached_delivers_iff {b : Build} {calls : List (LazyCall κ)} {results : List LazyResult}
    {getter getter' : ResourceGetter κ} {call : LazyCall κ} {r : LazyResult}
    (hx : exec (getResourceLazy b) .initial calls = .ok (results, getter))
    (hall : ∀ r ∈ results, r.herr = .success) (hcached : call.flush = false)
    (hs : getResourceLazy b getter call = .ok (r, getter')) (hr : r.herr = .success) :
    Delivers calls results call r ↔
      if ∃ c ∈ calls, c.path = call.path then
        ∃ mem, latestOpened call.path calls results = some mem ∧ call.res = mem.view
      else call.env.opened.Opens := by
  obtain ⟨t, htable, hknown⟩ := mem_of_history rfl hx hall
  have hmem : call.path ∈ t ↔ ∃ c ∈ calls, c.path = call.path := by
    rw [hknown]
    exact or_iff_right (AList.notMem_empty _)
  unfold Delivers
  rw [latestOpened_concat (exec_length hx) call r rfl]
  rcases getResourceLazy_ok hs with ⟨hres, hopened, -, hhit, -⟩ |
    ⟨u, t', opened, resmem, hu, hmiss, hopen, -, hres, hopened, -⟩
  · obtain ⟨u, hu, hin, -⟩ := hhit hr
    rw [htable, Option.some.injEq] at hu
    subst hu
    rw [if_pos (hmem.mp hin), hres]
    simp [LazyResult.made, hopened]
  · rw [htable, Option.some.injEq] at hu
    subst hu
    have hout : call.path ∉ t := by
      intro hin
      simpa [hcached] using (lazyLookup_miss_iff.mp hmiss).2.2 hin
    have hfirst : ¬ ∃ c ∈ calls, c.path = call.path := fun hc => hout (hmem.mpr hc)
    have hnone : latestOpened call.path calls results = none :=
      latestOpened_none (fun c hc heq => hfirst ⟨c, hc, heq⟩) results
    have hopens : opened = .success ↔ call.env.opened.Opens := by
      have hiff := @openResource_opens call.env.opened getter.mapped .zero
      rwa [hopen] at hiff
    rw [if_neg hfirst, hnone, Option.or_none, ← hopens, hres]
    unfold LazyResult.made
    rw [hopened]
    cases opened with
    | success => simp
    | _ => simp

/-- A first call as the request handler makes it: every answer is a yes, `*res` is zero. -/
def firstLookup : LazyCall (Bytes × Nat) where
  path := resourceKey (ascii "/srv/res/index.html".toList)
  flush := false
  res := ⟨.null, 0⟩
  env := ⟨true, true, .file (ascii "hi".toList) true, true, true, true⟩

theorem firstLookup_delivers :
    ∃ r getter', getResourceLazy .debug .initial firstLookup = .ok (r, getter') ∧
      Delivers [] [] firstLookup r := by
  have hs : ∃ r getter', getResourceLazy .debug .initial firstLookup = .ok (r, getter') ∧
      r.herr = .success := ⟨_, _, rfl, rfl⟩
  obtain ⟨r, getter', hs, hr⟩ := hs
  refine ⟨r, getter', hs, (cached_delivers_iff rfl (by simp) rfl hs hr).mpr ?_⟩
  simp only [List.not_mem_nil, false_and, exists_false, if_false]
  decide

/-- The same call again is a success, and leaves `*res` zero. -/
theorem secondLookup_not_delivers :
    ∃ results getter r getter',
      exec (getResourceLazy .debug) .initial [firstLookup] = .ok (results, getter) ∧
      (∀ r ∈ results, r.herr = .success) ∧
      getResourceLazy .debug getter firstLookup = .ok (r, getter') ∧ r.herr = .success ∧
      ¬ Delivers [firstLookup] results firstLookup r := by
  refine ⟨_, _, _, _, rfl, by decide, rfl, rfl, ?_⟩
  rintro ⟨mem, hmem, hres⟩
  have hlatest : mem = ⟨2, .mapped ⟨0, ascii "hi".toList⟩⟩ := by
    have : some (⟨2, .mapped ⟨0, ascii "hi".toList⟩⟩ : MappedMemory) = some mem := hmem
    simpa using this.symm
  subst hlatest
  simp [firstLookup, MappedMemory.view, stringViewFromParts] at hres

end LiteHttp
