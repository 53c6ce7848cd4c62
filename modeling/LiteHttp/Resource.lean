import LiteHttp.Response
import Mathlib.Data.List.AList

/-!
# The resource table

resource_getter.c: `open_resource`, the two locked sections of
`get_resource_lazy` with the unlocked one between them, and the release. khash is
taken as the map its hash and its equality describe, so a key stands for all the
paths they take for one.
-/

namespace LiteHttp

set_option autoImplicit false

/-- One successful mmap: its address, which no other mapping has, and the file it shows. -/
structure Mapping where
  addr : Nat
  content : Bytes
  deriving DecidableEq, Repr

/-- The pointer of a `mapped_memory_t`. -/
inductive MapData where
  | null
  | failed
  | mapped (mapping : Mapping)
  deriving DecidableEq, Repr

structure MappedMemory where
  len : Nat
  data : MapData
  deriving DecidableEq, Repr

def MappedMemory.zero : MappedMemory := ⟨0, .null⟩

/-- The memory of a mapping that `open_resource` reported as successful. -/
def MappedMemory.Real (mem : MappedMemory) : Prop :=
  ∃ mapping, mem = ⟨mapping.content.length, .mapped mapping⟩

/-- The `string_view_t` a lookup hands out. -/
structure ResView where
  data : MapData
  len : Nat
  deriving DecidableEq, Repr

/-- `string_view_from_parts`. -/
def stringViewFromParts (data : MapData) (len : Nat) : ResView :=
  if data = .null then ⟨data, 0⟩ else ⟨data, len⟩

def MappedMemory.view (mem : MappedMemory) : ResView := stringViewFromParts mem.data mem.len

def ResView.toView (res : ResView) : View :=
  match res.data with
  | .null => .live []
  | .failed => .mapFailed res.len
  | .mapped mapping => .live (mapping.content.take res.len)

/-- What the system answers to `open_resource`. -/
inductive OpenAnswer where
  | openFails
  | fstatFails
  | file (content : Bytes) (mmapOk : Bool)
  deriving DecidableEq, Repr

/-- The answers under which `open_resource` succeeds; mmap refuses to map no bytes. -/
def OpenAnswer.Opens : OpenAnswer → Prop
  | .openFails => False
  | .fstatFails => False
  | .file content mmapOk => content ≠ [] ∧ mmapOk = true

instance (answer : OpenAnswer) : Decidable answer.Opens := by
  cases answer <;> unfold OpenAnswer.Opens <;> infer_instance

/-- `open_resource`, with the address the next mapping gets. -/
def openResource (answer : OpenAnswer) (addr : Nat) (mem : MappedMemory) : HttpErr × MappedMemory :=
  match answer with
  | .openFails => (.open, mem)
  | .fstatFails => (.fstat, mem)
  | .file content mmapOk =>
    if content = [] ∨ mmapOk = false then (.mmap, ⟨content.length, .failed⟩)
    else (.success, ⟨content.length, .mapped ⟨addr, content⟩⟩)

abbrev Table (κ : Type) := AList fun _ : κ => MappedMemory

/-- What the pthread calls of one `get_resource_lazy`, the system and kh_put answer. -/
structure LazyEnv where
  lookupLock : Bool
  missUnlock : Bool
  opened : OpenAnswer
  insertLock : Bool
  putOk : Bool
  lastUnlock : Bool
  deriving DecidableEq, Repr

/-- How the first locked section is left. -/
inductive Looked where
  | ret (herr : HttpErr)
  | miss
  deriving DecidableEq, Repr

variable {κ : Type} [DecidableEq κ]

/-- The unlock behind both branches. -/
def lastUnlock (env : LazyEnv) : HttpErr :=
  if env.lastUnlock then .success else .pthreadMutexUnlock

/-- The first locked section of `get_resource_lazy`. A hit reads the entry and does
nothing with it. -/
def lazyLookup (env : LazyEnv) (table : Table κ) (path : κ) (flush : Bool) : Looked :=
  if !env.lookupLock then .ret .pthreadMutexLock
  else if path ∈ table ∧ flush = false then .ret (lastUnlock env)
  else if !env.missUnlock then .ret .pthreadMutexUnlock
  else .miss

/-- `*ret` of kh_put: no memory, present, or new. -/
def khPut (putOk : Bool) (table : Table κ) (path : κ) : Int :=
  if !putOk then -1 else if path ∈ table then 0 else 1

/-- `get_resource_lazy` from its second lock on. -/
def lazyInsert (b : Build) (env : LazyEnv) (table : Table κ) (path : κ) (resmem : MappedMemory) :
    Except Fault (HttpErr × Table κ) :=
  if !env.insertLock then .ok (.pthreadMutexLock, table)
  else do
    let ret := khPut env.putOk table path
    assert b .putNew (ret ≠ 0)
    -- without memory kh_put gives kh_end, and its value is written behind the array
    if ret = -1 then .error .undefined
    else return (lastUnlock env, table.insert path resmem)

/-- The table with the number of mappings made so far. -/
structure ResourceGetter (κ : Type) where
  table : Option (Table κ)
  mapped : Nat

/-- `resource_getter_initial`, when its calls succeed. -/
def ResourceGetter.initial : ResourceGetter κ := ⟨some ∅, 0⟩

/-- The mappings made once `open_resource` has left this memory. -/
def countMapping (mapped : Nat) (mem : MappedMemory) : Nat :=
  match mem.data with
  | .mapped _ => mapped + 1
  | _ => mapped

structure LazyCall (κ : Type) where
  path : κ
  flush : Bool
  /-- What the caller's `*res` holds. -/
  res : ResView
  env : LazyEnv
  deriving DecidableEq, Repr

/-- A call that returned: its code, `*res`, and what `open_resource` did if it ran. -/
structure LazyResult where
  herr : HttpErr
  res : ResView
  opened : Option (HttpErr × MappedMemory)
  deriving DecidableEq, Repr

/-- `get_resource_lazy` from one thread. -/
def getResourceLazy (b : Build) (getter : ResourceGetter κ) (call : LazyCall κ) :
    Except Fault (LazyResult × ResourceGetter κ) :=
  match getter.table with
  | none => .ok (⟨.hashUninitialized, call.res, none⟩, getter)
  | some table =>
    match lazyLookup call.env table call.path call.flush with
    | .ret herr => .ok (⟨herr, call.res, none⟩, getter)
    | .miss => do
      let (opened, resmem) := openResource call.env.opened getter.mapped .zero
      let (herr, table) ← lazyInsert b call.env table call.path resmem
      return (⟨herr, resmem.view, some (opened, resmem)⟩,
        ⟨some table, countMapping getter.mapped resmem⟩)

def getResourceCached (b : Build) (getter : ResourceGetter κ) (path : κ) (res : ResView)
    (env : LazyEnv) : Except Fault (LazyResult × ResourceGetter κ) :=
  getResourceLazy b getter ⟨path, false, res, env⟩

def getResourceRefreshed (b : Build) (getter : ResourceGetter κ) (path : κ) (res : ResView)
    (env : LazyEnv) : Except Fault (LazyResult × ResourceGetter κ) :=
  getResourceLazy b getter ⟨path, true, res, env⟩

/-- What `resource_getter_release` hands to munmap, entry after entry. -/
def resourceGetterRelease (table : Table κ) : List MappedMemory := table.entries.map Sigma.snd

/-- What `string_view_equal` compares of two paths of ordinary length. -/
def resourceKey (path : Bytes) : Bytes × Nat := (toCstr path, path.length)

theorem openResource_opens {answer : OpenAnswer} {addr : Nat} {mem : MappedMemory} :
    (openResource answer addr mem).1 = .success ↔ answer.Opens := by
  cases answer with
  | openFails => simp [openResource, OpenAnswer.Opens]
  | fstatFails => simp [openResource, OpenAnswer.Opens]
  | file content mmapOk =>
    simp only [openResource, OpenAnswer.Opens]
    split
    · rename_i hno
      rcases hno with rfl | rfl <;> simp
    · rename_i hyes
      simp only [not_or, Bool.not_eq_false] at hyes
      simp [hyes]

/-- A successful open has made a mapping, at the next address; any other has made none. -/
theorem openResource_data (answer : OpenAnswer) (addr : Nat) :
    (answer.Opens ∧ ∃ content, (openResource answer addr .zero).2 =
        ⟨content.length, .mapped ⟨addr, content⟩⟩) ∨
      (¬ answer.Opens ∧ ∀ mapping, (openResource answer addr .zero).2.data ≠ .mapped mapping) := by
  cases answer with
  | openFails => exact Or.inr (by simp [OpenAnswer.Opens, openResource, MappedMemory.zero])
  | fstatFails => exact Or.inr (by simp [OpenAnswer.Opens, openResource, MappedMemory.zero])
  | file content mmapOk =>
    simp only [openResource, OpenAnswer.Opens]
    split
    · rename_i hno
      refine Or.inr ⟨?_, by simp⟩
      rintro ⟨hne, hok⟩
      rcases hno with hnil | hfalse
      · exact hne hnil
      · simp [hok] at hfalse
    · rename_i hyes
      simp only [not_or, Bool.not_eq_false] at hyes
      exact Or.inl ⟨hyes, content, rfl⟩

theorem lazyLookup_miss_iff {env : LazyEnv} {table : Table κ} {path : κ} {flush : Bool} :
    lazyLookup env table path flush = .miss ↔
      env.lookupLock = true ∧ env.missUnlock = true ∧ (path ∈ table → flush = true) := by
  unfold lazyLookup
  cases env.lookupLock with
  | false => simp
  | true =>
    by_cases hit : path ∈ table ∧ flush = false
    · simp [hit]
    · have hmiss : path ∈ table → flush = true := by simpa using hit
      cases env.missUnlock with
      | false => simp [hit]
      | true => simpa [hit] using hmiss

/-- What the second locked section does when it returns. -/
theorem lazyInsert_ok {b : Build} {env : LazyEnv} {table t : Table κ} {path : κ}
    {resmem : MappedMemory} {herr : HttpErr}
    (h : lazyInsert b env table path resmem = .ok (herr, t)) :
    (env.insertLock = false ∧ herr = .pthreadMutexLock ∧ t = table) ∨
    (env.insertLock = true ∧ env.putOk = true ∧ (path ∈ table → b = .release) ∧
      herr = lastUnlock env ∧ t = table.insert path resmem) := by
  unfold lazyInsert at h
  cases hlock : env.insertLock with
  | false =>
    simp only [hlock, Bool.not_false, if_true, Except.ok.injEq, Prod.mk.injEq] at h
    exact Or.inl ⟨rfl, h.1.symm, h.2.symm⟩
  | true =>
    simp only [hlock, Bool.not_true, Bool.false_eq_true, if_false] at h
    cases hput : env.putOk with
    | false => simp [hput, khPut, assert, bind, Except.bind] at h
    | true =>
      by_cases hmem : path ∈ table
      · cases b with
        | debug => simp [hput, khPut, hmem, assert, bind, Except.bind] at h
        | release =>
          simp only [hput, khPut, hmem, assert_release, bind, Except.bind, Bool.not_true,
            Bool.false_eq_true, if_false, if_true, pure, Except.pure] at h
          simp only [show (0 : Int) ≠ -1 by decide, if_false, Except.ok.injEq, Prod.mk.injEq] at h
          exact Or.inr ⟨rfl, rfl, fun _ => rfl, h.1.symm, h.2.symm⟩
      · simp only [hput, khPut, hmem, bind, Except.bind, Bool.not_true, Bool.false_eq_true,
          if_false, pure, Except.pure, assert_of (show (1 : Int) ≠ 0 by decide)] at h
        simp only [show (1 : Int) ≠ -1 by decide, if_false, Except.ok.injEq, Prod.mk.injEq] at h
        exact Or.inr ⟨rfl, rfl, fun hin => absurd hin hmem, h.1.symm, h.2.symm⟩

/-- The second locked section returns unless it finds the path and asserts, or has no memory. -/
theorem lazyInsert_error {b : Build} {env : LazyEnv} {table : Table κ} {path : κ}
    {resmem : MappedMemory} {e : Fault} (h : lazyInsert b env table path resmem = .error e) :
    env.insertLock = true ∧
      ((env.putOk = false ∧ e = .undefined) ∨
        (env.putOk = true ∧ path ∈ table ∧ b = .debug ∧ e = .assertFailed .putNew)) := by
  unfold lazyInsert at h
  cases hlock : env.insertLock with
  | false => simp [hlock] at h
  | true =>
    refine ⟨rfl, ?_⟩
    simp only [hlock, Bool.not_true, Bool.false_eq_true, if_false] at h
    cases hput : env.putOk with
    | false =>
      simp only [hput, khPut, bind, Except.bind, Bool.not_false, if_true,
        assert_of (show (-1 : Int) ≠ 0 by decide), Except.error.injEq] at h
      exact Or.inl ⟨rfl, h.symm⟩
    | true =>
      by_cases hmem : path ∈ table
      · cases b with
        | debug =>
          simp only [hput, khPut, hmem, bind, Except.bind, Bool.not_true, Bool.false_eq_true,
            if_false, if_true, assert_debug_not (show ¬ (0 : Int) ≠ 0 by decide),
            Except.error.injEq] at h
          exact Or.inr ⟨rfl, hmem, rfl, h.symm⟩
        | release => simp [hput, khPut, hmem, bind, Except.bind, pure, Except.pure] at h
      · simp [hput, khPut, hmem, assert, bind, Except.bind, pure, Except.pure] at h

theorem lazyLookup_success {env : LazyEnv} {table : Table κ} {path : κ} {flush : Bool}
    (h : lazyLookup env table path flush = .ret .success) : path ∈ table ∧ flush = false := by
  unfold lazyLookup at h
  split at h
  · simp at h
  · split at h
    · assumption
    · split at h <;> simp at h

/-- A lookup of a path the table does not have, with every call going well. -/
theorem getResourceLazy_file (b : Build) (getter : ResourceGetter κ) (call : LazyCall κ)
    {t : Table κ} {content : Bytes} (htable : getter.table = some t) (hmiss : call.path ∉ t)
    (henv : call.env = ⟨true, true, .file content true, true, true, true⟩) (hne : content ≠ []) :
    ∃ r getter', getResourceLazy b getter call = .ok (r, getter') ∧ r.herr = .success ∧
      r.res = ⟨.mapped ⟨getter.mapped, content⟩, content.length⟩ := by
  have hopen : openResource (.file content true) getter.mapped .zero =
      (.success, ⟨content.length, .mapped ⟨getter.mapped, content⟩⟩) := by simp [openResource, hne]
  have hput : khPut true t call.path = 1 := by simp [khPut, hmiss]
  have hnew : assert b .putNew ((1 : Int) ≠ 0) = .ok () := assert_of (by decide)
  let mem : MappedMemory := ⟨content.length, .mapped ⟨getter.mapped, content⟩⟩
  refine ⟨⟨.success, mem.view, some (.success, mem)⟩,
    ⟨some (t.insert call.path mem), getter.mapped + 1⟩, ?_, rfl, rfl⟩
  simp only [getResourceLazy, htable, lazyLookup, henv, hmiss, false_and, if_false, hopen,
    lazyInsert, hput, hnew, lastUnlock, bind, Except.bind, pure, Except.pure, Bool.not_true,
    Bool.false_eq_true, if_true, show (1 : Int) ≠ -1 by decide]
  rfl

/-- A call that returns has opened nothing and left the table alone, or has opened
the file and left the second locked section. -/
theorem getResourceLazy_ok {b : Build} {getter getter' : ResourceGetter κ} {call : LazyCall κ}
    {r : LazyResult} (h : getResourceLazy b getter call = .ok (r, getter')) :
    (r.res = call.res ∧ r.opened = none ∧ getter' = getter ∧
      (r.herr = .success → ∃ t, getter.table = some t ∧ call.path ∈ t ∧ call.flush = false) ∧
      ∀ t, getter.table = some t → lazyLookup call.env t call.path call.flush ≠ .miss) ∨
    ∃ t t' opened resmem, getter.table = some t ∧
      lazyLookup call.env t call.path call.flush = .miss ∧
      openResource call.env.opened getter.mapped .zero = (opened, resmem) ∧
      lazyInsert b call.env t call.path resmem = .ok (r.herr, t') ∧
      r.res = resmem.view ∧ r.opened = some (opened, resmem) ∧
      getter' = ⟨some t', countMapping getter.mapped resmem⟩ := by
  unfold getResourceLazy at h
  cases htable : getter.table with
  | none =>
    simp only [htable, Except.ok.injEq, Prod.mk.injEq] at h
    obtain ⟨rfl, rfl⟩ := h
    exact Or.inl ⟨rfl, rfl, rfl, by simp, by simp⟩
  | some t =>
    simp only [htable] at h
    cases hlook : lazyLookup call.env t call.path call.flush with
    | ret herr =>
      simp only [hlook, Except.ok.injEq, Prod.mk.injEq] at h
      obtain ⟨rfl, rfl⟩ := h
      refine Or.inl ⟨rfl, rfl, rfl, ?_, ?_⟩
      · rintro rfl
        exact ⟨t, rfl, lazyLookup_success hlook⟩
      · rintro t' ht'
        simp only [Option.some.injEq] at ht'
        rw [← ht', hlook]
        simp
    | miss =>
      simp only [hlook] at h
      obtain ⟨⟨herr, t'⟩, hinsert, h⟩ := bind_ok h
      obtain ⟨rfl, rfl⟩ := Prod.mk.inj (pure_ok.mp h)
      exact Or.inr ⟨t, t', _, _, rfl, hlook, rfl, hinsert, rfl, rfl, rfl⟩

end LiteHttp
