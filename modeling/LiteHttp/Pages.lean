import LiteHttp.CacheAgree
import LiteHttp.Dispatch

/-!
# The pages a run of requests is given

`handle_http_request` on one request after another, with the resource table that
each leaves to the next. A hit reads the entry and does nothing with it, so the page
of a path shows its file to the request that puts the path into the table, and
nothing to those behind it.
-/

namespace LiteHttp

open Run

set_option autoImplicit false

/-- One request, and what its handler finds and is answered besides the table. -/
structure PageCall where
  path : PathEnv
  lookup : LazyEnv
  callocOk : Bool
  pushType : Bool
  pushLength : Bool
  request : HttpRequest

def PageCall.env (call : PageCall) (getter : ResourceGetter (Bytes × Nat)) : GetEnv where
  path := call.path
  getter := getter
  lookup := call.lookup
  callocOk := call.callocOk
  pushType := call.pushType
  pushLength := call.pushLength

/-- `handle_http_request` with the table it leaves. -/
def handlePage (b : Build) (getter : ResourceGetter (Bytes × Nat)) (call : PageCall) :
    Except Fault ((HttpErr × Option HttpResponse) × ResourceGetter (Bytes × Nat)) :=
  match call.request.method with
  | .get => do
    let (herr, path) ← getAbsoluePath call.path call.request.path
    if herr ≠ .success then return ((.success, none), getter)
    else
      let (result, getter') ← getResourceCached b getter (resourceKey path) ⟨.null, 0⟩ call.lookup
      if result.herr ≠ .success then return ((.success, none), getter')
      else
        let (herr, status) := httpSetStatus 200
        if herr ≠ .success then return ((.success, none), getter')
        else
          let (_, res) ← okResponse (call.env getter) status result.res
          return ((.success, res), getter')
  | _ => .ok ((.requestUnkownMethod, none), getter)

theorem handlePage_fst (b : Build) (getter : ResourceGetter (Bytes × Nat)) (call : PageCall) :
    (handlePage b getter call).map Prod.fst = handleHttpRequest b (call.env getter) call.request := by
  unfold handlePage handleHttpRequest
  cases hmethod : call.request.method with
  | get =>
    have hstatus : (httpSetStatus 200).1 = .success := by decide
    simp only [httpMethodGetHandler, assert_of hmethod, bind, Except.bind, PageCall.env]
    cases getAbsoluePath call.path call.request.path with
    | error e => rfl
    | ok p =>
      obtain ⟨code, path⟩ := p
      by_cases hcode : code = .success
      · simp only [hcode, ne_eq, not_true_eq_false, if_false]
        cases getResourceCached b getter (resourceKey path) ⟨.null, 0⟩ call.lookup with
        | error e => rfl
        | ok q =>
          obtain ⟨result, getter'⟩ := q
          by_cases hfound : result.herr = .success
          · simp only [hfound, hstatus, not_true_eq_false, if_false]
            cases okResponse _ (httpSetStatus 200).2 result.res with
            | error e => rfl
            | ok r => rfl
          · simp [hfound, pure, Except.pure, Except.map]
      · simp [hcode, pure, Except.pure, Except.map]
  | _ => rfl

/-- The path a call looks up, if it is built. -/
def PageCall.path? (call : PageCall) : Option Bytes :=
  match getAbsoluePath call.path call.request.path with
  | .ok (.success, path) => some path
  | _ => none

/-- The call comes to the second locked section with this path, if the table does not have it. -/
def PageCall.Stores (call : PageCall) (path : Bytes) : Prop :=
  call.request.method = .get ∧ call.path? = some path ∧ call.lookup.lookupLock = true ∧
    call.lookup.missUnlock = true ∧ call.lookup.insertLock = true

/-- `string_view_hash` and `string_view_equal` tell the path from every other: behind a NUL they
part, and from 2^31 bytes on the lengths they compare wrap. -/
def PageCall.Plain (call : PageCall) : Prop :=
  ∀ path, call.path? = some path → 0 ∉ path ∧ path.length < 2 ^ 31

instance (call : PageCall) (path : Bytes) : Decidable (call.Stores path) := by
  unfold PageCall.Stores
  infer_instance

/-- The call stores the entry of this key. -/
def PageCall.StoresKey (call : PageCall) (key : Bytes × Nat) : Prop :=
  ∃ path, call.Stores path ∧ resourceKey path = key

theorem resourceKey_inj {p q : Bytes} (hp : 0 ∉ p) (hq : 0 ∉ q) (h : resourceKey p = resourceKey q) :
    p = q := by
  have hcut := congrArg Prod.fst h
  simp only [resourceKey, toCstr_of_free hp, toCstr_of_free hq] at hcut
  exact hcut

theorem PageCall.Plain.storesKey_iff {call : PageCall} (h : call.Plain) {path : Bytes} (hpath : 0 ∉ path) :
    call.StoresKey (resourceKey path) ↔ call.Stores path := by
  constructor
  · intro hkey
    obtain ⟨q, hq, heq⟩ := hkey
    obtain rfl := resourceKey_inj (h q hq.2.1).1 hpath heq
    exact hq
  · intro hstores
    exact ⟨path, hstores, rfl⟩

/-- What a page shows of what `open_resource` was answered. -/
def OpenAnswer.shown : OpenAnswer → View
  | .openFails => .live []
  | .fstatFails => .live []
  | .file content mmapOk => if content = [] ∨ mmapOk = false then .mapFailed content.length else .live content

theorem openResource_shown (answer : OpenAnswer) (addr : Nat) :
    (openResource answer addr .zero).2.view.toView = answer.shown := by
  cases answer with
  | openFails => rfl
  | fstatFails => rfl
  | file content mmapOk =>
    simp only [openResource, OpenAnswer.shown]
    split
    · rfl
    · simp [MappedMemory.view, stringViewFromParts, ResView.toView]

/-- What a call makes of the table. -/
theorem lookup_table {b : Build} {getter getter' : ResourceGetter (Bytes × Nat)} {t : Table (Bytes × Nat)}
    {call : LazyCall (Bytes × Nat)} {r : LazyResult} (htable : getter.table = some t)
    (hcached : call.flush = false) (h : getResourceLazy b getter call = .ok (r, getter')) :
    ∃ t', getter'.table = some t' ∧
      (∀ k, k ∈ t' ↔ k ∈ t ∨ (call.path = k ∧ call.env.lookupLock = true ∧
        call.env.missUnlock = true ∧ call.env.insertLock = true)) ∧
      (r.herr = .success → call.path ∈ t' ∧ r.res = if call.path ∈ t then call.res
        else (openResource call.env.opened getter.mapped .zero).2.view) := by
  rcases getResourceLazy_ok h with ⟨hres, -, rfl, hhit, hlook⟩ |
    ⟨u, t', opened, resmem, hu, hmiss, hopen, hinsert, hres, -, rfl⟩
  · refine ⟨t, htable, fun k => ⟨Or.inl, ?_⟩, fun hherr => ?_⟩
    · rintro (hk | ⟨rfl, hlock, hunlock, -⟩)
      · exact hk
      · by_contra hno
        exact hlook t htable (lazyLookup_miss_iff.mpr ⟨hlock, hunlock, fun hin => absurd hin hno⟩)
    · obtain ⟨u, hu, hin, -⟩ := hhit hherr
      obtain rfl : t = u := Option.some.inj (htable.symm.trans hu)
      exact ⟨hin, by rw [if_pos hin, hres]⟩
  · obtain rfl : t = u := Option.some.inj (htable.symm.trans hu)
    obtain ⟨hlock, hunlock, hflush⟩ := lazyLookup_miss_iff.mp hmiss
    have hout : call.path ∉ t := by
      intro hin
      simp [hcached] at hflush
      exact hflush hin
    rw [if_neg hout, hres, hopen]
    rcases lazyInsert_ok hinsert with ⟨hno, hherr, rfl⟩ | ⟨hyes, -, -, -, rfl⟩
    · refine ⟨t', rfl, fun k => by simp [hno], fun hsuccess => ?_⟩
      rw [hherr] at hsuccess
      simp at hsuccess
    · refine ⟨_, rfl, fun k => ?_, fun _ => ⟨by simp, rfl⟩⟩
      rw [AList.mem_insert, or_comm]
      simp [hlock, hunlock, hyes, eq_comm]

/-- What one request makes of the table, and the page it is given. -/
theorem handlePage_ok {b : Build} {getter getter' : ResourceGetter (Bytes × Nat)}
    {t : Table (Bytes × Nat)} {call : PageCall} {out : HttpErr × Option HttpResponse}
    (htable : getter.table = some t) (h : handlePage b getter call = .ok (out, getter')) :
    ∃ t', getter'.table = some t' ∧ (∀ k, k ∈ t' ↔ k ∈ t ∨ call.StoresKey k) ∧
      ∀ response, out.2 = some response → ∃ path, call.path? = some path ∧ resourceKey path ∈ t' ∧
        response.body = if resourceKey path ∈ t then .live [] else call.lookup.opened.shown := by
  have hlost (hno : ∀ k, ¬ call.StoresKey k) (k : Bytes × Nat) : k ∈ t ↔ k ∈ t ∨ call.StoresKey k :=
    (or_iff_left (hno k)).symm
  unfold handlePage at h
  split at h
  · rename_i hmethod
    obtain ⟨⟨code, path⟩, hpath, h⟩ := bind_ok h
    by_cases hcode : code = .success
    · subst hcode
      have hbuilt : call.path? = some path := by simp only [PageCall.path?, hpath]
      simp only [ne_eq, not_true_eq_false, if_false] at h
      obtain ⟨⟨result, left⟩, hlook, h⟩ := bind_ok h
      obtain ⟨t', ht', hmem, hres⟩ := lookup_table htable rfl hlook
      have hstores (k : Bytes × Nat) : k ∈ t' ↔ k ∈ t ∨ call.StoresKey k := by
        rw [hmem]
        simp [PageCall.StoresKey, PageCall.Stores, hmethod, hbuilt, and_comm]
      by_cases hfound : result.herr = .success
      · have hstatus : (httpSetStatus 200).1 = .success := by decide
        simp only [hfound, hstatus, not_true_eq_false, if_false] at h
        obtain ⟨⟨herr, made⟩, hok, h⟩ := bind_ok h
        obtain ⟨rfl, rfl⟩ := Prod.mk.inj (pure_ok.mp h)
        refine ⟨t', ht', hstores, fun response hresponse => ⟨path, hbuilt, ?_⟩⟩
        obtain rfl : made = some response := hresponse
        obtain ⟨-, -, -, rfl⟩ := okResponse_some_iff.mp hok
        obtain ⟨hin, hview⟩ := hres hfound
        refine ⟨hin, ?_⟩
        show result.res.toView = _
        rw [hview]
        split
        · rfl
        · exact openResource_shown _ _
      · simp only [hfound, not_false_eq_true, if_true] at h
        obtain ⟨rfl, rfl⟩ := Prod.mk.inj (pure_ok.mp h)
        exact ⟨t', ht', hstores, fun response hresponse => by simp at hresponse⟩
    · simp only [hcode, ne_eq, not_false_eq_true, if_true] at h
      obtain ⟨rfl, rfl⟩ := Prod.mk.inj (pure_ok.mp h)
      refine ⟨t, htable, hlost ?_, fun response hresponse => by simp at hresponse⟩
      rintro k ⟨q, ⟨-, hk, -⟩, -⟩
      unfold PageCall.path? at hk
      split at hk
      · rename_i hother
        rw [hpath, Except.ok.injEq, Prod.mk.injEq] at hother
        exact hcode hother.1
      · simp at hk
  · rename_i hmethod
    obtain ⟨rfl, rfl⟩ := Prod.mk.inj (Except.ok.inj h)
    exact ⟨t, htable, hlost fun k hk => hmethod hk.choose_spec.1.1, fun response hresponse => by simp at hresponse⟩

theorem pages_from {b : Build} {getter getter' : ResourceGetter (Bytes × Nat)}
    {t : Table (Bytes × Nat)} {calls : List PageCall} {outs : List (HttpErr × Option HttpResponse)}
    (htable : getter.table = some t) (hx : exec (handlePage b) getter calls = .ok (outs, getter'))
    {j : Nat} {call : PageCall} {herr : HttpErr} {response : HttpResponse}
    (hcall : calls[j]? = some call) (hout : outs[j]? = some (herr, some response)) :
    ∃ path, call.path? = some path ∧
      (resourceKey path ∈ t ∨ ∃ c ∈ calls.take (j + 1), c.StoresKey (resourceKey path)) ∧
      ((resourceKey path ∈ t ∨ ∃ c ∈ calls.take j, c.StoresKey (resourceKey path)) →
        response.body = .live []) ∧
      ((resourceKey path ∉ t ∧ ∀ c ∈ calls.take j, ¬ c.StoresKey (resourceKey path)) →
        response.body = call.lookup.opened.shown) := by
  induction calls generalizing getter t outs j with
  | nil => simp at hcall
  | cons first calls ih =>
    obtain ⟨out, u, rest, hs, hr, rfl⟩ := exec_cons_ok hx
    obtain ⟨t₁, ht₁, hmem₁, hpage⟩ := handlePage_ok htable hs
    cases j with
    | zero =>
      obtain rfl : first = call := by simpa using hcall
      obtain rfl : out = (herr, some response) := by simpa using hout
      obtain ⟨path, hpath, hin, hbody⟩ := hpage response rfl
      refine ⟨path, hpath, by simpa using (hmem₁ _).mp hin, ?_, ?_⟩
      · intro hold
        rw [hbody, if_pos (by simpa using hold)]
      · intro hnew
        rw [hbody, if_neg hnew.1]
    | succ j =>
      obtain ⟨path, hpath, hin, hempty, hshown⟩ := ih ht₁ hr (by simpa using hcall) (by simpa using hout)
      rw [hmem₁, or_assoc] at hin hempty
      rw [hmem₁, not_or, and_assoc] at hshown
      refine ⟨path, hpath, ?_, ?_, ?_⟩
      · rw [List.take_succ_cons, List.exists_mem_cons_iff]
        exact hin
      · rw [List.take_succ_cons, List.exists_mem_cons_iff]
        exact hempty
      · rw [List.take_succ_cons, List.forall_mem_cons]
        exact hshown

/-- A page that is given to a request of a run shows what the open of its file was answered
exactly when no request before it came with its path to the second locked section; any page
behind that one is empty. -/
theorem run_pages (b : Build) {calls : List PageCall} {outs : List (HttpErr × Option HttpResponse)}
    {getter : ResourceGetter (Bytes × Nat)} (hplain : ∀ call ∈ calls, call.Plain)
    (hx : exec (handlePage b) .initial calls = .ok (outs, getter))
    {j : Nat} {call : PageCall} {herr : HttpErr} {response : HttpResponse}
    (hcall : calls[j]? = some call) (hout : outs[j]? = some (herr, some response)) :
    ∃ path, call.path? = some path ∧ (∃ c ∈ calls.take (j + 1), c.Stores path) ∧
      response.body = if ∃ c ∈ calls.take j, c.Stores path then .live []
        else call.lookup.opened.shown := by
  obtain ⟨path, hpath, hin, hempty, hshown⟩ := pages_from rfl hx hcall hout
  have hno : resourceKey path ∉ (∅ : Table (Bytes × Nat)) := AList.notMem_empty _
  have hfree : 0 ∉ path := (hplain call (List.mem_of_getElem? hcall) path hpath).1
  have hkeys (n : Nat) : (∃ c ∈ calls.take n, c.StoresKey (resourceKey path)) ↔
      ∃ c ∈ calls.take n, c.Stores path := by
    apply exists_congr
    intro c
    apply and_congr_right
    intro hc
    exact (hplain c (List.mem_of_mem_take hc)).storesKey_iff hfree
  refine ⟨path, hpath, (hkeys (j + 1)).mp (hin.resolve_left hno), ?_⟩
  split
  · rename_i hstored
    exact hempty (Or.inr ((hkeys j).mpr hstored))
  · rename_i hfirst
    rw [← hkeys j] at hfirst
    exact hshown ⟨hno, fun c hc hkey => hfirst ⟨c, hc, hkey⟩⟩

def pageCall (content : Bytes) : PageCall where
  path := htmlRoot
  lookup := ⟨true, true, .file content true, true, true, true⟩
  callocOk := true
  pushType := true
  pushLength := true
  request := fileRequest

/-- The second request for a file is given an empty page. -/
theorem twoPages_second : ∃ outs getter response,
    exec (handlePage .debug) .initial [pageCall (ascii "hi".toList), pageCall (ascii "hi".toList)] =
      .ok (outs, getter) ∧
    outs[1]? = some (.success, some response) ∧ response.body = .live [] := by
  obtain ⟨outs, getter, response, hx, hout⟩ : ∃ outs getter response,
      exec (handlePage .debug) .initial [pageCall (ascii "hi".toList), pageCall (ascii "hi".toList)] =
        .ok (outs, getter) ∧ outs[1]? = some (.success, some response) := ⟨_, _, _, rfl, rfl⟩
  have hcall : [pageCall (ascii "hi".toList), pageCall (ascii "hi".toList)][1]? =
      some (pageCall (ascii "hi".toList)) := rfl
  have hplain : ∀ call ∈ [pageCall (ascii "hi".toList), pageCall (ascii "hi".toList)], call.Plain := by
    intro call hin path hpath
    have hfixed : call = pageCall (ascii "hi".toList) := by simpa using hin
    have hbuilt : (pageCall (ascii "hi".toList)).path? =
        some (ascii "/srv/./res//index.html".toList) := by decide +kernel
    rw [hfixed, hbuilt, Option.some.injEq] at hpath
    rw [← hpath]
    decide +kernel
  obtain ⟨path, hpath, -, hbody⟩ := run_pages .debug hplain hx hcall hout
  have hstored : ∃ c ∈ [pageCall (ascii "hi".toList)], c.Stores path :=
    ⟨_, List.mem_cons_self, rfl, hpath, rfl, rfl, rfl⟩
  exact ⟨outs, getter, response, hx, hout, hbody.trans (if_pos hstored)⟩

end LiteHttp
