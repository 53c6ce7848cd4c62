import LiteHttp.Resource
import LiteHttp.Lib.Owner
import LiteHttp.Lib.Run

/-!
# The resource table between threads

A lookup is three steps: the first locked section, `open_resource` with no lock
held, and the second locked section. Between them other threads take theirs, in
any order. What a thread opened is its own until it is in the table; that works
out exactly as long as no thread finds its path in the table when it inserts.
-/

namespace LiteHttp

open Run Owner

set_option autoImplicit false

/-- Where a thread is in `get_resource_lazy`. -/
inductive ThreadState (κ : Type) where
  | idle
  | missed (path : κ)
  | opened (path : κ) (resmem : MappedMemory)

structure SharedCache (ι κ : Type) where
  table : Table κ
  threads : ι → ThreadState κ
  /-- Every mapping that was made, with the thread that made it. -/
  made : List (Mapping × ι)

inductive ThreadAction (κ : Type) where
  | lookup (path : κ) (flush : Bool) (env : LazyEnv)
  | openFile (answer : OpenAnswer)
  | insert (env : LazyEnv)

def MappedMemory.mapping (mem : MappedMemory) : Option Mapping :=
  match mem.data with
  | .mapped mapping => some mapping
  | _ => none

variable {ι κ : Type} [DecidableEq ι] [DecidableEq κ]

namespace SharedCache

def initial : SharedCache ι κ := ⟨∅, fun _ => .idle, []⟩

def put (s : SharedCache ι κ) (i : ι) (state : ThreadState κ) : SharedCache ι κ :=
  { s with threads := Function.update s.threads i state }

/-- The next step of a thread; an action that is not the thread's next one does nothing. -/
def step (b : Build) (s : SharedCache ι κ) (act : ι × ThreadAction κ) :
    Except Fault (Unit × SharedCache ι κ) :=
  match act.2, s.threads act.1 with
  | .lookup path flush env, .idle =>
    match lazyLookup env s.table path flush with
    | .ret _ => .ok ((), s)
    | .miss => .ok ((), s.put act.1 (.missed path))
  | .openFile answer, .missed path =>
    let resmem := (openResource answer s.made.length .zero).2
    let made := s.made ++ resmem.mapping.toList.map fun mapping => (mapping, act.1)
    .ok ((), { s.put act.1 (.opened path resmem) with made := made })
  | .insert env, .opened path resmem => do
    let (_, table) ← lazyInsert b env s.table path resmem
    return ((), { s.put act.1 .idle with table := table })
  | _, _ => .ok ((), s)

end SharedCache

/-- Who may hold a mapping. -/
inductive Holder (ι κ : Type) where
  | thread (i : ι)
  | entry (path : κ)

def SharedCache.Holds (s : SharedCache ι κ) : Holder ι κ → Mapping → Prop
  | .thread i, m => ∃ path resmem, s.threads i = .opened path resmem ∧ resmem.mapping = some m
  | .entry path, m => ∃ resmem, s.table.lookup path = some resmem ∧ resmem.mapping = some m

/-- Every mapping is in flight in the thread that made it, or in one entry. -/
structure SharedCache.Owned (s : SharedCache ι κ) : Prop where
  unique : Unique s.Holds fun m => ∃ i, (m, i) ∈ s.made
  maker : ∀ i m, s.Holds (.thread i) m → (m, i) ∈ s.made

/-- The invariant: the mappings are owned, and each is recorded at its address. -/
structure SharedCache.Inv (s : SharedCache ι κ) : Prop extends s.Owned where
  addr : ∀ (n : Nat) (m : Mapping) (i : ι), s.made[n]? = some (m, i) → m.addr = n

/-- The second locked section finds no entry for its path; when it cannot be
entered there is no mapping to lose. -/
def SharedCache.Fresh (s : SharedCache ι κ) (act : ι × ThreadAction κ) : Prop :=
  match act.2, s.threads act.1 with
  | .insert env, .opened path resmem =>
    if env.insertLock then env.putOk = true → path ∉ s.table else resmem.mapping = none
  | _, _ => True

instance (s : SharedCache ι κ) (act : ι × ThreadAction κ) : Decidable (s.Fresh act) := by
  unfold SharedCache.Fresh
  split
  · split <;> infer_instance
  · infer_instance

theorem mapping_openResource (answer : OpenAnswer) (addr : Nat) :
    (openResource answer addr .zero).2.mapping = none ∨
      ∃ content, (openResource answer addr .zero).2.mapping = some ⟨addr, content⟩ := by
  rcases openResource_data answer addr with ⟨-, content, hmem⟩ | ⟨-, hdata⟩
  · exact Or.inr ⟨content, by rw [hmem, MappedMemory.mapping]⟩
  · apply Or.inl
    unfold MappedMemory.mapping
    split
    · rename_i mapping hmapped
      exact absurd hmapped (hdata mapping)
    · rfl

namespace SharedCache

theorem step_insert_ok {b : Build} {s s' : SharedCache ι κ} {i : ι} {env : LazyEnv} {path : κ}
    {resmem : MappedMemory} {o : Unit} (hopened : s.threads i = .opened path resmem)
    (h : s.step b (i, .insert env) = .ok (o, s')) :
    ∃ herr table, lazyInsert b env s.table path resmem = .ok (herr, table) ∧
      s' = { s.put i .idle with table := table } := by
  simp only [step, hopened] at h
  obtain ⟨⟨herr, table⟩, hinsert, h⟩ := bind_ok h
  exact ⟨herr, table, hinsert, (Prod.mk.inj (pure_ok.mp h)).2.symm⟩

/-- What a step that returns has done. -/
theorem step_cases {b : Build} {s s' : SharedCache ι κ} {i : ι} {act : ThreadAction κ}
    (h : s.step b (i, act) = .ok ((), s')) :
    s' = s ∨
    (∃ path, s.threads i = .idle ∧ s' = s.put i (.missed path)) ∨
    (∃ answer path, s.threads i = .missed path ∧
      s' = { s.put i (.opened path (openResource answer s.made.length .zero).2) with
        made := s.made ++ (openResource answer s.made.length .zero).2.mapping.toList.map fun m => (m, i) }) ∨
    ∃ env path resmem herr table, act = .insert env ∧ s.threads i = .opened path resmem ∧
      lazyInsert b env s.table path resmem = .ok (herr, table) ∧
      s' = { s.put i .idle with table := table } := by
  unfold step at h
  split at h
  · rename_i path flush env _ hidle
    split at h
    · simp only [Except.ok.injEq, Prod.mk.injEq, true_and] at h
      exact Or.inl h.symm
    · simp only [Except.ok.injEq, Prod.mk.injEq, true_and] at h
      exact Or.inr (Or.inl ⟨path, hidle, h.symm⟩)
  · rename_i answer path _ hmissed
    simp only [Except.ok.injEq, Prod.mk.injEq, true_and] at h
    exact Or.inr (Or.inr (Or.inl ⟨answer, path, hmissed, h.symm⟩))
  · rename_i env path resmem hact hopened
    simp only at hact hopened
    have hstep : s.step b (i, .insert env) = .ok ((), s') := by simpa only [step, hopened]
    obtain ⟨herr, table, hinsert, hs'⟩ := step_insert_ok hopened hstep
    exact Or.inr (Or.inr (Or.inr ⟨env, path, resmem, herr, table, hact, hopened, hinsert, hs'⟩))
  · simp only [Except.ok.injEq, Prod.mk.injEq, true_and] at h
    exact Or.inl h.symm

/-- A thread whose state changes without a mapping coming or going. -/
theorem holds_put {s : SharedCache ι κ} {i : ι} (state : ThreadState κ)
    (hold : ∀ m, ¬ s.Holds (.thread i) m)
    (hnew : ∀ path resmem, state = .opened path resmem → resmem.mapping = none)
    (x : Holder ι κ) (m : Mapping) : (s.put i state).Holds x m ↔ s.Holds x m := by
  cases x with
  | entry path => exact Iff.rfl
  | thread j =>
    by_cases hj : j = i
    · subst hj
      refine iff_of_false ?_ (hold m)
      rintro ⟨path, resmem, hstate, hmap⟩
      simp only [put, Function.update_self] at hstate
      simp [hnew path resmem hstate] at hmap
    · simp [Holds, put, Function.update_of_ne hj]

omit [DecidableEq ι] in
theorem inv_initial : (initial : SharedCache ι κ).Inv where
  unique := ⟨by rintro (i | path) m <;> simp [Holds, initial], by simp [initial]⟩
  maker := by simp [Holds, initial]
  addr := by simp [initial]

theorem inv_lookup {s : SharedCache ι κ} {i : ι} {path : κ} (h : s.Inv) (hidle : s.threads i = .idle) :
    (s.put i (.missed path)).Inv := by
  have hholds := holds_put (s := s) (i := i) (.missed path) (by simp [Holds, hidle]) (by simp)
  constructor
  · constructor
    · exact h.unique.congr hholds fun _ => Iff.rfl
    · intro j m hj
      exact h.maker j m ((hholds _ m).mp hj)
  · exact h.addr

theorem inv_openFile {s : SharedCache ι κ} {i : ι} {path : κ} (answer : OpenAnswer) (h : s.Inv)
    (hmissed : s.threads i = .missed path) :
    SharedCache.Inv { s.put i (.opened path (openResource answer s.made.length .zero).2) with
      made := s.made ++
        (openResource answer s.made.length .zero).2.mapping.toList.map fun m => (m, i) } := by
  generalize hmem : (openResource answer s.made.length .zero).2 = resmem
  rcases hmem ▸ mapping_openResource answer s.made.length with hnone | ⟨content, hsome⟩
  · -- nothing was mapped
    have hholds := holds_put (s := s) (i := i) (.opened path resmem) (by simp [Holds, hmissed])
      (by rintro _ _ ⟨⟩; exact hnone)
    simp only [hnone, Option.toList_none, List.map_nil, List.append_nil]
    constructor
    · constructor
      · exact h.unique.congr hholds fun _ => Iff.rfl
      · intro j m hj
        exact h.maker j m ((hholds _ m).mp hj)
    · exact h.addr
  · -- the thread has a new mapping in its hands
    simp only [hsome, Option.toList_some, List.map_cons, List.map_nil]
    generalize hm₀ : (⟨s.made.length, content⟩ : Mapping) = m₀ at hsome ⊢
    have hnew : ¬ ∃ j, (m₀, j) ∈ s.made := by
      rintro ⟨j, hj⟩
      obtain ⟨n, hn⟩ := List.mem_iff_getElem?.mp hj
      have haddr := h.addr n m₀ j hn
      have hlt := (List.getElem?_eq_some_iff.mp hn).1
      rw [← hm₀] at haddr
      simp only at haddr
      omega
    have hholds (x : Holder ι κ) (m : Mapping) :
        SharedCache.Holds { s.put i (.opened path resmem) with made := s.made ++ [(m₀, i)] } x m ↔
          s.Holds x m ∨ (x = .thread i ∧ m = m₀) := by
      cases x with
      | entry k => simp [Holds, put]
      | thread j =>
        by_cases hj : j = i
        · subst hj
          simp [Holds, put, hmissed, hsome, eq_comm]
        · simp [Holds, put, hj]
    constructor
    · constructor
      · apply h.unique.make hnew hholds
        intro m
        simp only [List.mem_append, List.mem_singleton, Prod.mk.injEq, exists_or, exists_and_left,
          exists_eq, and_true]
      · intro j m hj
        rcases (hholds _ m).mp hj with hold | ⟨hji, rfl⟩
        · exact List.mem_append_left _ (h.maker j m hold)
        · cases hji
          simp
    · intro n m j hn
      rw [List.getElem?_append] at hn
      split at hn
      · exact h.addr n m j hn
      · rename_i hge
        rw [List.getElem?_singleton] at hn
        split at hn
        · simp only [Option.some.injEq, Prod.mk.injEq] at hn
          rw [← hn.1, ← hm₀]
          simp only
          omega
        · simp at hn

theorem inv_insert {b : Build} {s : SharedCache ι κ} {i : ι} {env : LazyEnv} {path : κ}
    {resmem : MappedMemory} {herr : HttpErr} {table : Table κ} (h : s.Inv)
    (hfresh : s.Fresh (i, .insert env)) (hopened : s.threads i = .opened path resmem)
    (hinsert : lazyInsert b env s.table path resmem = .ok (herr, table)) :
    SharedCache.Inv { s.put i .idle with table := table } := by
  simp only [Fresh, hopened] at hfresh
  rcases lazyInsert_ok hinsert with ⟨hlock, -, rfl⟩ | ⟨hlock, hput, -, -, rfl⟩
  · -- the lock fails, and there was no mapping to lose
    simp only [hlock, Bool.false_eq_true, if_false] at hfresh
    have hholds := holds_put (s := s) (i := i) .idle (by simp [Holds, hopened, hfresh]) (by simp)
    constructor
    · constructor
      · exact h.unique.congr hholds fun _ => Iff.rfl
      · intro j m hj
        exact h.maker j m ((hholds _ m).mp hj)
    · exact h.addr
  · -- what the thread held is in the entry from here on
    simp only [hlock, if_true] at hfresh
    have hout := hfresh hput
    have hempty (m : Mapping) : ¬ s.Holds (.entry path) m := by
      simp [Holds, AList.lookup_eq_none.mpr hout]
    have hholds (x : Holder ι κ) (m : Mapping) :
        SharedCache.Holds { s.put i .idle with table := s.table.insert path resmem } x m ↔
          (x = .entry path ∧ s.Holds (.thread i) m) ∨
            (x ≠ .thread i ∧ x ≠ .entry path ∧ s.Holds x m) := by
      cases x with
      | entry k =>
        by_cases hk : k = path
        · subst hk
          simp [Holds, AList.lookup_insert, hopened]
        · simp [Holds, AList.lookup_insert_ne hk, hk]
      | thread j =>
        by_cases hj : j = i
        · subst hj
          simp [Holds, put]
        · simp [Holds, put, hj]
    constructor
    · constructor
      · exact h.unique.pass (by simp) hempty hholds fun _ => Iff.rfl
      · intro j m hj
        rcases (hholds _ m).mp hj with ⟨hfalse, -⟩ | ⟨-, -, hold⟩
        · simp at hfalse
        · exact h.maker j m hold
    · exact h.addr

theorem inv_step {b : Build} {s s' : SharedCache ι κ} {act : ι × ThreadAction κ} {o : Unit}
    (h : s.Inv) (hfresh : s.Fresh act) (hs : s.step b act = .ok (o, s')) : s'.Inv := by
  obtain ⟨i, act⟩ := act
  rcases step_cases hs with rfl | ⟨path, hidle, rfl⟩ | ⟨answer, path, hmissed, rfl⟩ |
    ⟨env, path, resmem, herr, table, rfl, hopened, hinsert, rfl⟩
  · exact h
  · exact inv_lookup h hidle
  · exact inv_openFile answer h hmissed
  · exact inv_insert h hfresh hopened hinsert

/-- A call of `get_resource_lazy` is its three steps, taken by one thread in a row. -/
theorem exec_call {b : Build} {s : SharedCache ι κ} {i : ι} {call : LazyCall κ} {r : LazyResult}
    {getter : ResourceGetter κ} (hidle : s.threads i = .idle)
    (h : getResourceLazy b ⟨some s.table, s.made.length⟩ call = .ok (r, getter)) :
    ∃ s', exec (step b) s [(i, .lookup call.path call.flush call.env),
        (i, .openFile call.env.opened), (i, .insert call.env)] = .ok ([(), (), ()], s') ∧
      getter = ⟨some s'.table, s'.made.length⟩ ∧ s'.threads = s.threads := by
  rcases getResourceLazy_ok h with ⟨-, -, rfl, -, hno⟩ |
    ⟨t, t', opened, resmem, ht, hmiss, hopen, hinsert, -, -, rfl⟩
  · refine ⟨s, ?_, rfl, rfl⟩
    cases hlook : lazyLookup call.env s.table call.path call.flush with
    | miss => exact absurd hlook (hno _ rfl)
    | ret herr => simp [exec, step, hidle, hlook]
  · simp only [Option.some.injEq] at ht
    subst ht
    let made := s.made ++ resmem.mapping.toList.map fun m => (m, i)
    let s₁ := s.put i (.missed call.path)
    let s₂ : SharedCache ι κ := { s₁.put i (.opened call.path resmem) with made := made }
    let s₃ : SharedCache ι κ := { s₂.put i .idle with table := t' }
    have hlook : s.step b (i, .lookup call.path call.flush call.env) = .ok ((), s₁) := by
      simp only [step, hidle, hmiss, s₁]
    have hfile : s₁.step b (i, .openFile call.env.opened) = .ok ((), s₂) := by
      simp only at hopen
      simp only [step, s₁, s₂, made, put, Function.update_self, hopen]
    have hlast : s₂.step b (i, .insert call.env) = .ok ((), s₃) := by
      simp only [step, s₁, s₂, s₃, put, Function.update_self, hinsert, bind, Except.bind, pure,
        Except.pure]
    have hthreads : s₃.threads = s.threads := by
      simp only [s₁, s₂, s₃, put, Function.update_idem]
      rw [← hidle, Function.update_eq_self]
    have hcount : countMapping s.made.length resmem = s₃.made.length := by
      simp only [countMapping, s₂, s₃, made, put, MappedMemory.mapping]
      cases resmem.data <;> simp
    exact ⟨s₃, exec_cons hlook (exec_cons hfile (exec_cons hlast rfl)), by rw [hcount], hthreads⟩

theorem step_error {b : Build} {s : SharedCache ι κ} {act : ι × ThreadAction κ} {e : Fault}
    (h : s.step b act = .error e) :
    ∃ env path resmem, act.2 = .insert env ∧ s.threads act.1 = .opened path resmem ∧
      lazyInsert b env s.table path resmem = .error e := by
  unfold step at h
  split at h
  · split at h <;> simp at h
  · simp at h
  · rename_i env path resmem hact hopened
    cases hinsert : lazyInsert b env s.table path resmem with
    | error f =>
      simp only [hinsert, bind, Except.bind, Except.error.injEq] at h
      exact ⟨env, path, resmem, hact, hopened, h ▸ hinsert⟩
    | ok q => simp [hinsert, bind, Except.bind, pure, Except.pure] at h
  · simp at h

/-- No thread that inserts a fresh path fails the assertion behind kh_put. -/
theorem step_asserts {b : Build} {s : SharedCache ι κ} {act : ι × ThreadAction κ} {e : Fault}
    (hfresh : s.Fresh act) (h : s.step b act = .error e) : ¬ ∃ a, e = .assertFailed a := by
  obtain ⟨env, path, resmem, hact, hopened, hinsert⟩ := step_error h
  simp only [Fresh, hact, hopened] at hfresh
  obtain ⟨hlock, ⟨-, rfl⟩ | ⟨hput, hmem, -, -⟩⟩ := lazyInsert_error hinsert
  · simp
  · simp only [hlock, if_true] at hfresh
    exact absurd hmem (hfresh hput)

/-- A thread that drops a mapping leaves it without a holder. -/
theorem mapping_none_of_owned {s : SharedCache ι κ} {i : ι} {path : κ} {resmem : MappedMemory}
    (h : s.Owned) (hopened : s.threads i = .opened path resmem) (hnext : (s.put i .idle).Owned) :
    resmem.mapping = none := by
  cases hmap : resmem.mapping with
  | none => rfl
  | some m =>
    have hold : s.Holds (.thread i) m := ⟨path, resmem, hopened, hmap⟩
    obtain ⟨x, hx, -⟩ := hnext.unique.one ⟨i, h.maker i m hold⟩
    have hxi : x ≠ .thread i := by
      rintro rfl
      simp [Holds, put] at hx
    have hback : s.Holds x m := by
      cases x with
      | entry k => exact hx
      | thread j =>
        have hj : j ≠ i := fun hj => hxi (by rw [hj])
        simpa [Holds, put, hj] using hx
    exact absurd ((h.unique.one ⟨i, h.maker i m hold⟩).unique hback hold) hxi

theorem fresh_of_owned {s s' : SharedCache ι κ} {act : ι × ThreadAction κ} {o : Unit} (h : s.Owned)
    (hs : s.step .debug act = .ok (o, s')) (hnext : s'.Owned) : s.Fresh act := by
  obtain ⟨i, act⟩ := act
  unfold Fresh
  split
  · rename_i env path resmem hact hopened
    simp only at hact hopened
    subst hact
    obtain ⟨herr, table, hinsert, rfl⟩ := step_insert_ok hopened hs
    rcases lazyInsert_ok hinsert with ⟨hlock, -, rfl⟩ | ⟨hlock, -, hmem, -, -⟩
    · rw [hlock, if_neg (by simp)]
      exact mapping_none_of_owned h hopened hnext
    · rw [if_pos hlock]
      intro _ hin
      simpa using hmem hin
  · trivial

omit [DecidableEq ι] in
/-- With no thread under way, what owns a mapping is one entry, and the release
unmaps it once. -/
theorem release_count {s : SharedCache ι κ} (h : s.Owned) (hidle : ∀ i, s.threads i = .idle)
    {m : Mapping} {i : ι} (hm : (m, i) ∈ s.made) :
    (resourceGetterRelease s.table).countP (fun mem => mem.mapping = some m) = 1 := by
  obtain ⟨x, hx, honly⟩ := h.unique.one ⟨i, hm⟩
  cases x with
  | thread j => simp [Holds, hidle] at hx
  | entry path =>
    obtain ⟨resmem, hlook, hmap⟩ := hx
    unfold resourceGetterRelease
    rw [List.countP_map]
    refine countP_eq_one s.table.nodupKeys.nodup ⟨⟨path, resmem⟩, ?_, ?_⟩
    · exact ⟨AList.mem_lookup_iff.mp hlook, by simp [hmap]⟩
    · rintro ⟨k, mem⟩ ⟨hin, hk⟩
      have hlook' : s.table.lookup k = some mem := AList.mem_lookup_iff.mpr hin
      have hpath := honly (.entry k) ⟨mem, hlook', by simpa using hk⟩
      simp only [Holder.entry.injEq] at hpath
      subst hpath
      rw [hlook, Option.some.injEq] at hlook'
      rw [hlook']

end SharedCache

/-- The run fails no assertion, every mapping has its one owner throughout, and a
release between two lookups unmaps each mapping once. -/
def CacheSafe (b : Build) (s : SharedCache ι κ) (acts : List (ι × ThreadAction κ)) : Prop :=
  (∀ a, exec (SharedCache.step b) s acts ≠ .error (.assertFailed a)) ∧
  ∀ os t, Reaches (SharedCache.step b) s acts os t → t.Owned ∧
    ((∀ i, t.threads i = .idle) → ∀ m i, (m, i) ∈ t.made →
      (resourceGetterRelease t.table).countP (fun mem => mem.mapping = some m) = 1)

theorem cacheSafe_of_meets {b : Build} {s : SharedCache ι κ} {acts : List (ι × ThreadAction κ)}
    (h : s.Inv) (hm : Meets (SharedCache.step b) SharedCache.Fresh s acts) : CacheSafe b s acts := by
  constructor
  · intro a hx
    exact safe_of_meets (fun hs hf hstep => SharedCache.inv_step hs hf hstep)
      (fun _ hf hstep => SharedCache.step_asserts hf hstep) h hm hx ⟨a, rfl⟩
  · intro os t hreach
    have hinv := inv_of_reaches (fun hs hf hstep => SharedCache.inv_step hs hf hstep) h hm hreach
    exact ⟨hinv.toOwned, fun hidle m i hmade => SharedCache.release_count hinv.toOwned hidle hmade⟩

theorem meets_of_cacheSafe {s : SharedCache ι κ} {acts : List (ι × ThreadAction κ)} (h : s.Inv)
    (hsafe : CacheSafe .debug s acts) :
    Meets (SharedCache.step .debug) SharedCache.Fresh s acts := by
  induction acts generalizing s with
  | nil => trivial
  | cons act acts ih =>
    cases hs : s.step .debug act with
    | error e =>
      refine ⟨?_, by simp [hs]⟩
      obtain ⟨env, path, resmem, hact, hopened, hinsert⟩ := SharedCache.step_error hs
      obtain ⟨hlock, ⟨hput, -⟩ | ⟨-, -, -, rfl⟩⟩ := lazyInsert_error hinsert
      · simp [SharedCache.Fresh, hact, hopened, hlock, hput]
      · exact absurd (by simp [exec, hs]) (hsafe.1 .putNew)
    | ok q =>
      obtain ⟨o, t⟩ := q
      have howned := (hsafe.2 [o] t ((reaches_start t acts).cons hs)).1
      have hfresh := SharedCache.fresh_of_owned h.toOwned hs howned
      rw [meets_cons_iff hs]
      refine ⟨hfresh, ih (SharedCache.inv_step h hfresh hs) ⟨?_, ?_⟩⟩
      · intro a hx
        exact hsafe.1 a (by simp [exec, hs, hx])
      · intro os u hreach
        exact hsafe.2 (o :: os) u (hreach.cons hs)

/-- No two threads lose a mapping between them, and no insertion fails the
assertion, in a run whose insertions all find their path absent; and a debug
build has no other safe runs. -/
theorem run_cacheSafe (b : Build) (acts : List (ι × ThreadAction κ)) :
    (Meets (SharedCache.step b) SharedCache.Fresh .initial acts → CacheSafe b .initial acts) ∧
    (CacheSafe .debug .initial acts →
      Meets (SharedCache.step .debug) SharedCache.Fresh .initial acts) := by
  constructor
  · exact cacheSafe_of_meets SharedCache.inv_initial
  · exact meets_of_cacheSafe SharedCache.inv_initial

def smoothEnv : LazyEnv := ⟨true, true, .openFails, true, true, true⟩

def twoLookups (first second : Bytes) : List (Bool × ThreadAction (Bytes × Nat)) :=
  let file := .file (ascii "hi".toList) true
  [(false, .lookup (resourceKey first) false smoothEnv),
   (true, .lookup (resourceKey second) false smoothEnv),
   (false, .openFile file), (true, .openFile file),
   (false, .insert smoothEnv), (true, .insert smoothEnv)]

theorem twoPaths_safe :
    CacheSafe .debug .initial (twoLookups (ascii "/srv/a".toList) (ascii "/srv/b".toList)) :=
  (run_cacheSafe .debug _).1 (by decide +kernel)

/-- Two threads miss the same path before either inserts it. -/
theorem onePath_not_safe :
    ¬ CacheSafe .debug .initial (twoLookups (ascii "/srv/a".toList) (ascii "/srv/a".toList)) := by
  intro h
  exact h.1 .putNew rfl

end LiteHttp
