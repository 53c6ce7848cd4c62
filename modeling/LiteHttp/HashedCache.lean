import LiteHttp.KhashMap
import LiteHttp.Resource
import LiteHttp.ViewOrder

/-!
# The resource table is a hash table

resource_getter.c over khash.h, with `string_view_hash` and `string_view_equal` on
paths without a NUL. It does what it does over a map of paths: the same codes, the same
views, the same faults, and the same mappings to unmap at the end.
-/

namespace LiteHttp

open Run

set_option autoImplicit false

/-- A path as a key: no NUL hides a byte of it from `strncmp`, and its length is an `int`. -/
structure PathKey where
  bytes : Bytes
  nulFree : 0 ∉ bytes
  short : bytes.length < 2 ^ 31
  deriving DecidableEq

/-- The key functions of `KHASH_INIT(path2resmem, ...)`. -/
def path2resmem : KeyFns PathKey where
  hashFunc path := stringViewHash path.bytes
  hashEqual lhs rhs := stringViewEqual lhs.bytes rhs.bytes

theorem eq_of_not_differs {a b : Bytes} (ha : 0 ∉ a) (h : ¬ DiffersBeforeNul a b)
    (hlen : a.length = b.length) : a = b := by
  induction a generalizing b with
  | nil => exact (List.length_eq_zero_iff.mp hlen.symm).symm
  | cons x a ih =>
    cases b with
    | nil => simp at hlen
    | cons y b =>
      rw [List.mem_cons, not_or] at ha
      rw [DiffersBeforeNul, not_or, not_not] at h
      obtain ⟨rfl, hrest⟩ := h
      rw [ih ha.2 (fun hd => hrest ⟨Ne.symm ha.1, hd⟩) (by simpa using hlen)]

theorem not_differs_self (a : Bytes) : ¬ DiffersBeforeNul a a := by
  induction a with
  | nil => exact id
  | cons x a ih =>
    rintro (h | ⟨-, h⟩)
    · exact h rfl
    · exact ih h

/-- Such paths are equal to `string_view_equal` exactly when they are equal. -/
theorem path2resmem_equal (a b : PathKey) : path2resmem.hashEqual a b = true ↔ a = b := by
  have ha := a.short
  have hb := b.short
  have hcompare : stringViewCompare a.bytes b.bytes = 0 ↔ a.bytes = b.bytes := by
    by_cases hd : DiffersBeforeNul a.bytes b.bytes
    · refine iff_of_false ?_ fun heq => not_differs_self a.bytes (by rwa [← heq] at hd)
      rw [stringViewCompare_of_differs hd]
      exact (strncmp_of_differs hd).2.2
    · obtain ⟨hneg, hpos⟩ := stringViewCompare_of_not_differs hd
      unfold LooksShorter at hneg
      unfold LooksLonger at hpos
      constructor
      · intro hzero
        exact eq_of_not_differs a.nulFree hd (by omega)
      · intro heq
        rw [heq] at hneg hpos ⊢
        omega
  show decide (stringViewCompare a.bytes b.bytes = 0) = true ↔ a = b
  rw [decide_eq_true_eq, hcompare]
  constructor
  · intro h
    cases a
    cases b
    simpa using h
  · rintro rfl
    rfl

theorem path2resmem_lawful : path2resmem.Lawful where
  refl a := (path2resmem_equal a a).mpr rfl
  symm h := (path2resmem_equal _ _).mpr ((path2resmem_equal _ _).mp h).symm
  trans h h' := (path2resmem_equal _ _).mpr
    (((path2resmem_equal _ _).mp h).trans ((path2resmem_equal _ _).mp h'))
  hash h := by rw [(path2resmem_equal _ _).mp h]

/-! ## The source over the hash table -/

/-- A call with what the allocator answers to a resize of the table. -/
structure HashedCall where
  path : PathKey
  flush : Bool
  res : ResView
  env : LazyEnv
  alloc : ResizeAlloc
  deriving DecidableEq

structure HashedGetter where
  table : Option (Khash PathKey MappedMemory)
  mapped : Nat
  deriving DecidableEq

namespace HashedGetter

def initial : HashedGetter := ⟨some .init, 0⟩

/-- The first locked section of `get_resource_lazy`. -/
def lookup (env : LazyEnv) (table : Khash PathKey MappedMemory) (path : PathKey) (flush : Bool) :
    Except Fault Looked :=
  if !env.lookupLock then .ok (.ret .pthreadMutexLock)
  else do
    let kitr ← table.get path2resmem path
    if kitr ≠ table.nBuckets ∧ flush = false then
      let _ ← table.value kitr
      return .ret (lastUnlock env)
    else if !env.missUnlock then return .ret .pthreadMutexUnlock
    else return .miss

/-- `get_resource_lazy` from its second lock on. The value is written whatever `kh_put`
says. -/
def insert (b : Build) (env : LazyEnv) (alloc : ResizeAlloc) (table : Khash PathKey MappedMemory)
    (path : PathKey) (resmem : MappedMemory) :
    Except Fault (HttpErr × Khash PathKey MappedMemory) :=
  if !env.insertLock then .ok (.pthreadMutexLock, table)
  else do
    let (kitr, ret, table) ← table.put path2resmem alloc path
    assert b .putNew (ret ≠ 0)
    let table ← table.setValue kitr resmem
    return (lastUnlock env, table)

/-- `get_resource_lazy`. -/
def getResource (b : Build) (getter : HashedGetter) (call : HashedCall) :
    Except Fault (LazyResult × HashedGetter) :=
  match getter.table with
  | none => .ok (⟨.hashUninitialized, call.res, none⟩, getter)
  | some table => do
    match ← lookup call.env table call.path call.flush with
    | .ret herr => return (⟨herr, call.res, none⟩, getter)
    | .miss =>
      let (opened, resmem) := openResource call.env.opened getter.mapped .zero
      let (herr, table) ← insert b call.env call.alloc table call.path resmem
      return (⟨herr, resmem.view, some (opened, resmem)⟩,
        ⟨some table, countMapping getter.mapped resmem⟩)

/-- The loop of `resource_getter_release` over the buckets, with what it hands to munmap. -/
def releaseFrom (table : Khash PathKey MappedMemory) : List Nat → Except Fault (List MappedMemory)
  | [] => .ok []
  | kitr :: rest => do
    let flag ← flagAt table.flags kitr
    if flag.isEither then releaseFrom table rest
    else
      let resmem ← table.value kitr
      let resmems ← releaseFrom table rest
      return resmem :: resmems

def release (table : Khash PathKey MappedMemory) : Except Fault (List MappedMemory) :=
  releaseFrom table (List.range table.nBuckets)

end HashedGetter

/-! ## The same over a map -/

/-- The table holds what the map of paths does. -/
structure Hashes (table : Khash PathKey MappedMemory) (t : Table PathKey) : Prop where
  wf : table.Wf path2resmem
  maps : table.Maps path2resmem fun path => t.lookup path

section Step

variable {table : Khash PathKey MappedMemory} {t : Table PathKey}

theorem Hashes.absent_iff (h : Hashes table t) (path : PathKey) :
    table.Absent path2resmem path ↔ path ∉ t := by
  rw [h.maps.absent_iff h.wf, AList.lookup_eq_none]

theorem Hashes.lookup (h : Hashes table t) (env : LazyEnv) (path : PathKey) (flush : Bool) :
    HashedGetter.lookup env table path flush = .ok (lazyLookup env t path flush) := by
  unfold HashedGetter.lookup lazyLookup
  cases hlock : env.lookupLock with
  | false => rfl
  | true =>
    rcases h.wf.get_cases path2resmem_lawful path with ⟨x, k, hget, hx, hu, heq⟩ | ⟨hget, habsent⟩
    · have hmem : path ∈ t := by
        by_contra hno
        have := (h.absent_iff path).mpr hno x k hu
        simp [heq] at this
      obtain ⟨-, val, -, hval⟩ := h.wf.stored x hu.1
      cases flush with
      | false =>
        simp [hget, Nat.ne_of_lt hx, hmem, Khash.value, peek, hval, bind, Except.bind, pure, Except.pure]
      | true =>
        cases env.missUnlock <;> simp [hget, hmem, bind, Except.bind, pure, Except.pure]
    · have hmem : path ∉ t := (h.absent_iff path).mp habsent
      cases env.missUnlock <;> simp [hget, hmem, bind, Except.bind, pure, Except.pure]

/-- A put at the end of the table is a put the allocator refused, and has no cell to write to. -/
theorem put_refused {h h' : Khash PathKey MappedMemory} (hw : h'.Wf path2resmem)
    {alloc : ResizeAlloc} {path : PathKey} {x : Nat}
    (hput : h.put path2resmem alloc path = .ok (x, -1, h')) (val : MappedMemory) :
    h'.setValue x val = .error .undefined := by
  obtain ⟨⟨ret, r⟩, -, hrest⟩ := bind_ok hput
  simp only at hrest
  split at hrest
  · simp only [pure, Except.pure, Except.ok.injEq, Prod.mk.injEq, true_and] at hrest
    obtain ⟨rfl, rfl⟩ := hrest
    simp [Khash.setValue, poke, hw.vals_length, bind, Except.bind]
  · obtain ⟨y, -, hat⟩ := bind_ok hrest
    obtain ⟨flag, -, hat⟩ := bind_ok hat
    split at hat
    · obtain ⟨keys, -, hat⟩ := bind_ok hat
      simp [pure, Except.pure] at hat
    · split at hat
      · obtain ⟨keys, -, hat⟩ := bind_ok hat
        simp [pure, Except.pure] at hat
      · simp [pure, Except.pure] at hat

/-- The second locked section does over the hash table what it does over the map, where kh_put
fails as the allocator makes it. -/
theorem Hashes.insert (h : Hashes table t) (hsize : table.size < 2 ^ 30) (b : Build) (env : LazyEnv)
    (alloc : ResizeAlloc) (path : PathKey) (resmem : MappedMemory) :
    ∃ putOk, (alloc = ⟨true, true, true⟩ → putOk = true) ∧
      ((∃ e, HashedGetter.insert b env alloc table path resmem = .error e ∧
          lazyInsert b { env with putOk := putOk } t path resmem = .error e) ∨
        ∃ herr table' t', HashedGetter.insert b env alloc table path resmem = .ok (herr, table') ∧
          lazyInsert b { env with putOk := putOk } t path resmem = .ok (herr, t') ∧
          Hashes table' t' ∧ table'.size ≤ table.size + 1) := by
  obtain ⟨ret, h', hassign, hdone⟩ :=
    h.wf.assign_ok path2resmem_lawful hsize alloc path resmem
  obtain ⟨⟨x, ret', r⟩, hput, hrest⟩ := bind_ok hassign
  simp only at hrest
  cases hlock : env.insertLock with
  | false =>
    refine ⟨true, fun _ => rfl, Or.inr ⟨.pthreadMutexLock, table, t, ?_, ?_, h, Nat.le_succ _⟩⟩
    · simp [HashedGetter.insert, hlock]
    · simp [lazyInsert]
  | true =>
    by_cases hno : ret' = -1
    · -- the bucket is the end of the table
      subst hno
      simp only [if_true] at hrest
      obtain ⟨rfl, rfl⟩ := Prod.mk.inj (pure_ok.mp hrest)
      refine ⟨false, fun hok => absurd hok (hdone.refused rfl).1, Or.inl ⟨.undefined, ?_, ?_⟩⟩
      · simp only [HashedGetter.insert, hlock, hput, bind, Except.bind, Bool.not_true,
          Bool.false_eq_true, if_false, assert_of (show (-1 : Int) ≠ 0 by decide),
          put_refused hdone.wf hput]
      · simp only [lazyInsert, khPut, bind, Except.bind, Bool.not_true, Bool.not_false,
          Bool.false_eq_true, if_false, if_true, assert_of (show (-1 : Int) ≠ 0 by decide)]
    · rw [if_neg hno] at hrest
      obtain ⟨r', hset, hrest⟩ := bind_ok hrest
      obtain ⟨rfl, rfl⟩ := Prod.mk.inj (pure_ok.mp hrest)
      have hknown : ret' = 0 ↔ path ∈ t := by
        rw [hdone.known hno, h.absent_iff, not_not]
      have hmaps : Hashes r' (t.insert path resmem) := by
        refine ⟨hdone.wf, ?_⟩
        intro key val
        rw [hdone.stored hno]
        by_cases hsame : path = key
        · subst hsame
          simp [(path2resmem_equal path path).mpr rfl, eq_comm]
        · have hdiff : ¬ path2resmem.hashEqual path key = true := fun heq =>
            hsame ((path2resmem_equal path key).mp heq)
          rw [if_neg hdiff]
          simp only [AList.lookup_insert_ne (Ne.symm hsame)]
          exact h.maps key val
      refine ⟨true, fun _ => rfl, ?_⟩
      by_cases hmem : path ∈ t
      · obtain rfl := hknown.mpr hmem
        cases b with
        | debug =>
          refine Or.inl ⟨.assertFailed .putNew, ?_, ?_⟩
          · simp [HashedGetter.insert, hlock, hput, assert, bind, Except.bind]
          · simp [lazyInsert, khPut, hmem, assert, bind, Except.bind]
        | release =>
          refine Or.inr ⟨lastUnlock env, r', _, ?_, ?_, hmaps, hdone.size⟩
          · simp [HashedGetter.insert, hlock, hput, hset, bind, Except.bind, pure, Except.pure]
          · simp [lazyInsert, khPut, hmem, lastUnlock, bind, Except.bind, pure, Except.pure]
      · have hnew : ret' ≠ 0 := fun hzero => hmem (hknown.mp hzero)
        refine Or.inr ⟨lastUnlock env, r', _, ?_, ?_, hmaps, hdone.size⟩
        · simp [HashedGetter.insert, hlock, hput, hset, assert_of hnew, bind, Except.bind, pure,
            Except.pure]
        · simp [lazyInsert, khPut, hmem, lastUnlock, assert, bind, Except.bind, pure, Except.pure]

end Step

/-- The call as the map sees it: all it knows of the allocator is whether the put had memory. -/
def HashedCall.flat (call : HashedCall) (putOk : Bool) : LazyCall PathKey where
  path := call.path
  flush := call.flush
  res := call.res
  env := { call.env with putOk := putOk }

/-- The two keep the same mappings. -/
def Same (getter : HashedGetter) (flat : ResourceGetter PathKey) : Prop :=
  getter.mapped = flat.mapped ∧ ∃ table t, getter.table = some table ∧ flat.table = some t ∧ Hashes table t

def HashedGetter.size (getter : HashedGetter) : Nat := (getter.table.map Khash.size).getD 0

/-- One call over the hash table is a call over the map. -/
theorem Same.getResource {getter : HashedGetter} {flat : ResourceGetter PathKey}
    (h : Same getter flat) (hsize : getter.size < 2 ^ 30) (b : Build) (call : HashedCall) :
    ∃ putOk, (call.alloc = ⟨true, true, true⟩ → putOk = true) ∧
      ((∃ e, getter.getResource b call = .error e ∧ getResourceLazy b flat (call.flat putOk) = .error e) ∨
        ∃ r getter' flat', getter.getResource b call = .ok (r, getter') ∧
          getResourceLazy b flat (call.flat putOk) = .ok (r, flat') ∧ Same getter' flat' ∧
          getter'.size ≤ getter.size + 1) := by
  obtain ⟨hmapped, table, t, htable, ht, hsame⟩ := h
  have hroom : table.size < 2 ^ 30 := by simpa [HashedGetter.size, htable] using hsize
  have hlookup := hsame.lookup call.env call.path call.flush
  have hflat (putOk : Bool) : lazyLookup (call.flat putOk).env t (call.flat putOk).path
      (call.flat putOk).flush = lazyLookup call.env t call.path call.flush := rfl
  cases hlook : lazyLookup call.env t call.path call.flush with
  | ret herr =>
    refine ⟨true, fun _ => rfl, Or.inr ⟨⟨herr, call.res, none⟩, getter, flat, ?_, ?_, ?_, by omega⟩⟩
    · simp [HashedGetter.getResource, htable, hlookup, hlook, bind, Except.bind, pure, Except.pure]
    · simp only [getResourceLazy, ht, hflat, hlook]
      rfl
    · exact ⟨hmapped, table, t, htable, ht, hsame⟩
  | miss =>
    obtain ⟨putOk, hok, hcases⟩ := hsame.insert hroom b call.env call.alloc call.path
      (openResource call.env.opened getter.mapped .zero).2
    have hopen : openResource (call.flat putOk).env.opened flat.mapped .zero =
        openResource call.env.opened getter.mapped .zero := by rw [hmapped]; rfl
    refine ⟨putOk, hok, ?_⟩
    rcases hcases with ⟨e, hhashed, hlazy⟩ | ⟨herr, table', t', hhashed, hlazy, hsame', hsize'⟩
    · refine Or.inl ⟨e, ?_, ?_⟩
      · simp [HashedGetter.getResource, htable, hlookup, hlook, hhashed, bind, Except.bind]
      · simp only [getResourceLazy, ht, hflat, hlook, hopen]
        simp only [HashedCall.flat, hlazy, bind, Except.bind]
    · let opening := openResource call.env.opened getter.mapped .zero
      refine Or.inr ⟨⟨herr, opening.2.view, some opening⟩,
        ⟨some table', countMapping getter.mapped opening.2⟩,
        ⟨some t', countMapping flat.mapped opening.2⟩, ?_, ?_, ?_, ?_⟩
      · simp only [HashedGetter.getResource, htable, hlookup, hlook, hhashed, bind, Except.bind, pure,
          Except.pure, opening]
      · simp only [getResourceLazy, ht, hflat, hlook, hopen]
        simp only [HashedCall.flat, hlazy, bind, Except.bind, pure, Except.pure, opening]
      · exact ⟨by rw [hmapped], table', t', rfl, rfl, hsame'⟩
      · simpa [HashedGetter.size, htable] using hsize'

/-- What the loop of the release collects is the value of every bucket in use. -/
theorem releaseFrom_ok {table : Khash PathKey MappedMemory} (hw : table.Wf path2resmem)
    (kitrs : List Nat) (hin : ∀ i ∈ kitrs, i < table.nBuckets) (hnodup : kitrs.Nodup) :
    ∃ pairs : List (PathKey × MappedMemory),
      HashedGetter.releaseFrom table kitrs = .ok (pairs.map Prod.snd) ∧ pairs.Nodup ∧
      ∀ key val, (key, val) ∈ pairs ↔
        ∃ i ∈ kitrs, table.Used i key ∧ table.vals[i]? = some (some val) := by
  induction kitrs with
  | nil => exact ⟨[], rfl, List.nodup_nil, by simp⟩
  | cons i kitrs ih =>
    rw [List.forall_mem_cons] at hin
    obtain ⟨hnot, hnodup⟩ := List.nodup_cons.mp hnodup
    obtain ⟨pairs, hrun, hpairs, hmem⟩ := ih hin.2 hnodup
    obtain ⟨flag, hflag⟩ := hw.exists_flag hin.1
    cases hlive : flag.isEither with
    | true =>
      have hunused (key : PathKey) : ¬ table.Used i key := by
        intro hu
        rw [hu.1, Option.some.injEq] at hflag
        simp [← hflag, Flag.isEither] at hlive
      refine ⟨pairs, ?_, hpairs, fun key val => ?_⟩
      · simpa [HashedGetter.releaseFrom, flagAt, hflag, hlive, bind, Except.bind] using hrun
      · rw [hmem, List.exists_mem_cons_iff]
        exact (or_iff_right fun hi => hunused key hi.1).symm
    | false =>
      rw [Khash.flag_eq_of_not_either hlive] at hflag
      obtain ⟨key, val, hkey, hval⟩ := hw.stored i hflag
      refine ⟨(key, val) :: pairs, ?_, ?_, fun key' val' => ?_⟩
      · simp [HashedGetter.releaseFrom, flagAt, hflag, Flag.isEither, Khash.value, peek, hval, hrun, bind,
          Except.bind, pure, Except.pure]
      · refine List.nodup_cons.mpr ⟨?_, hpairs⟩
        intro hthere
        obtain ⟨j, hj, hu, -⟩ := (hmem key val).mp hthere
        have hij : i = j := hw.unique i j key key ⟨hflag, hkey⟩ hu (path2resmem_lawful.refl key)
        exact hnot (hij ▸ hj)
      · rw [List.mem_cons, hmem, List.exists_mem_cons_iff, Prod.mk.injEq]
        apply or_congr_left
        constructor
        · rintro ⟨rfl, rfl⟩
          exact ⟨⟨hflag, hkey⟩, hval⟩
        · intro hthere
          have hkeys := hkey.symm.trans hthere.1.2
          have hvals := hval.symm.trans hthere.2
          simp only [Option.some.injEq] at hkeys hvals
          exact ⟨hkeys.symm, hvals.symm⟩

/-- The release unmaps what the map holds, in some order. -/
theorem Hashes.release {table : Khash PathKey MappedMemory} {t : Table PathKey} (h : Hashes table t) :
    ∃ mems, HashedGetter.release table = .ok mems ∧ mems.Perm (resourceGetterRelease t) := by
  obtain ⟨pairs, hrun, hnodup, hmem⟩ := releaseFrom_ok h.wf (List.range table.nBuckets)
    (fun i hi => List.mem_range.mp hi) List.nodup_range
  refine ⟨_, hrun, ?_⟩
  let flatten : (Σ _ : PathKey, MappedMemory) → PathKey × MappedMemory := fun e => (e.1, e.2)
  have hflat : resourceGetterRelease t = (t.entries.map flatten).map Prod.snd := by
    rw [List.map_map]
    rfl
  rw [hflat]
  apply List.Perm.map
  have hentries : (t.entries.map flatten).Nodup := by
    apply List.Nodup.map
    · rintro ⟨k, v⟩ ⟨k', v'⟩ heq
      simp only [flatten, Prod.mk.injEq] at heq
      rw [heq.1, heq.2]
    · exact t.nodupKeys.nodup
  apply (List.perm_ext_iff_of_nodup hnodup hentries).mpr
  intro p
  obtain ⟨key, val⟩ := p
  have hlist : (key, val) ∈ t.entries.map flatten ↔ t.lookup key = some val := by
    have hdlookup : (⟨key, val⟩ : Σ _ : PathKey, MappedMemory) ∈ t.entries ↔ t.lookup key = some val :=
      (List.mem_dlookup_iff t.nodupKeys).symm
    rw [← hdlookup, List.mem_map]
    constructor
    · intro hp
      obtain ⟨⟨k, v⟩, he, hkv⟩ := hp
      obtain ⟨rfl, rfl⟩ := Prod.mk.inj hkv
      exact he
    · exact fun he => ⟨_, he, rfl⟩
  rw [hlist, h.maps key val, hmem]
  constructor
  · intro hp
    obtain ⟨i, -, hu, hv⟩ := hp
    exact ⟨i, key, hu, path2resmem_lawful.refl key, hv⟩
  · intro hp
    obtain ⟨i, k, hu, heq, hv⟩ := hp
    rw [path2resmem_equal] at heq
    subst heq
    refine ⟨i, List.mem_range.mpr ?_, hu, hv⟩
    exact h.wf.flags_length ▸ (List.getElem?_eq_some_iff.mp hu.1).1

/-- The call over the map is the call over the hash table, with memory for the put if the
allocator has it. -/
def FlatOf (call : HashedCall) (flat : LazyCall PathKey) : Prop :=
  ∃ putOk, flat = call.flat putOk ∧ (call.alloc = ⟨true, true, true⟩ → putOk = true)

theorem Same.exec {getter : HashedGetter} {flat : ResourceGetter PathKey} (calls : List HashedCall)
    (h : Same getter flat) (b : Build) (hsize : getter.size + calls.length ≤ 2 ^ 30) :
    ∃ flats, List.Forall₂ FlatOf calls flats ∧
      ((∃ e, exec (HashedGetter.getResource b) getter calls = .error e ∧
          exec (getResourceLazy b) flat flats = .error e) ∨
        ∃ rs getter' flat', exec (HashedGetter.getResource b) getter calls = .ok (rs, getter') ∧
          exec (getResourceLazy b) flat flats = .ok (rs, flat') ∧ Same getter' flat') := by
  induction calls generalizing getter flat with
  | nil => exact ⟨[], .nil, Or.inr ⟨[], getter, flat, rfl, rfl, h⟩⟩
  | cons call calls ih =>
    rw [List.length_cons] at hsize
    obtain ⟨putOk, hok, hcases⟩ := h.getResource (by omega) b call
    rcases hcases with ⟨e, hhashed, hlazy⟩ | ⟨r, getter₁, flat₁, hhashed, hlazy, h₁, hsize₁⟩
    · refine ⟨call.flat putOk :: calls.map (HashedCall.flat · true), ?_, Or.inl ⟨e, ?_, ?_⟩⟩
      · refine .cons ⟨putOk, rfl, hok⟩ ?_
        rw [List.forall₂_map_right_iff]
        exact List.forall₂_same.mpr fun c _ => ⟨true, rfl, fun _ => rfl⟩
      · simp [Run.exec, hhashed]
      · simp [Run.exec, hlazy]
    · obtain ⟨flats, hflats, hrest⟩ := ih h₁ (by omega)
      refine ⟨call.flat putOk :: flats, .cons ⟨putOk, rfl, hok⟩ hflats, ?_⟩
      rcases hrest with ⟨e, hrun, hrun'⟩ | ⟨rs, getter', flat', hrun, hrun', hsame⟩
      · exact Or.inl ⟨e, by simp [Run.exec, hhashed, hrun], by simp [Run.exec, hlazy, hrun']⟩
      · exact Or.inr ⟨r :: rs, getter', flat', exec_cons hhashed hrun, exec_cons hlazy hrun', hsame⟩

/-- Every history of up to 2^30 lookups on a new table ends over the hash table as it does over
the map: with the same fault, or with the same results and, at the release, the same
mappings to unmap. -/
theorem run_hashed (b : Build) (calls : List HashedCall) (hlen : calls.length ≤ 2 ^ 30) :
    ∃ flats, List.Forall₂ FlatOf calls flats ∧
      ((∃ e, exec (HashedGetter.getResource b) .initial calls = .error e ∧
          exec (getResourceLazy b) .initial flats = .error e) ∨
        ∃ rs getter flat table t mems, exec (HashedGetter.getResource b) .initial calls = .ok (rs, getter) ∧
          exec (getResourceLazy b) .initial flats = .ok (rs, flat) ∧
          getter.table = some table ∧ flat.table = some t ∧
          HashedGetter.release table = .ok mems ∧ mems.Perm (resourceGetterRelease t)) := by
  have hempty : Hashes .init (∅ : Table PathKey) := by
    refine ⟨Khash.wf_init _, ?_⟩
    simpa using Khash.maps_init
  have hstart : Same .initial .initial := ⟨rfl, .init, ∅, rfl, rfl, hempty⟩
  obtain ⟨flats, hflats, hcases⟩ := hstart.exec calls b
    (show 0 + calls.length ≤ 2 ^ 30 by omega)
  refine ⟨flats, hflats, hcases.imp_right ?_⟩
  intro hdone
  obtain ⟨rs, getter, flat, hrun, hrun', -, table, t, htable, ht, hsame⟩ := hdone
  obtain ⟨mems, hrelease, hperm⟩ := hsame.release
  exact ⟨rs, getter, flat, table, t, mems, hrun, hrun', htable, ht, hrelease, hperm⟩

def indexKey : PathKey := ⟨ascii "/srv/res/index.html".toList, by decide, by decide⟩

/-- The same file twice: the miss that fills the table, and the hit. -/
def repeatedLookup : List HashedCall :=
  let env : LazyEnv := ⟨true, true, .file (ascii "hi".toList) true, true, true, true⟩
  [⟨indexKey, false, ⟨.null, 0⟩, env, ⟨true, true, true⟩⟩,
    ⟨indexKey, false, ⟨.null, 0⟩, env, ⟨true, true, true⟩⟩]

theorem repeatedLookup_hashed :
    ∃ flats, List.Forall₂ FlatOf repeatedLookup flats ∧
      ((∃ e, exec (HashedGetter.getResource .debug) .initial repeatedLookup = .error e ∧
          exec (getResourceLazy .debug) .initial flats = .error e) ∨
        ∃ rs getter flat table t mems,
          exec (HashedGetter.getResource .debug) .initial repeatedLookup = .ok (rs, getter) ∧
          exec (getResourceLazy .debug) .initial flats = .ok (rs, flat) ∧
          getter.table = some table ∧ flat.table = some t ∧
          HashedGetter.release table = .ok mems ∧ mems.Perm (resourceGetterRelease t)) :=
  run_hashed .debug repeatedLookup (by decide)

end LiteHttp
