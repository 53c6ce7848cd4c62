import LiteHttp.Resource
import LiteHttp.Lib.Run

/-!
# Failed opens and the table

`get_resource_lazy` does not look at what `open_resource` returns and writes
behind the array when kh_put has no memory. A failure is reported, and leaves the
table alone, only where the second lock fails as well; past that lock the call is
as it should be only when the file opened and kh_put had memory.
-/

namespace LiteHttp

open Run

set_option autoImplicit false

variable {κ : Type} [DecidableEq κ]

/-- The call gets as far as `open_resource`. -/
def LazyCall.Opens (call : LazyCall κ) (getter : ResourceGetter κ) : Prop :=
  ∃ t, getter.table = some t ∧ lazyLookup call.env t call.path call.flush = .miss

/-- The open or the insertion of the call fails. -/
def LazyCall.Fails (call : LazyCall κ) (getter : ResourceGetter κ) : Prop :=
  call.Opens getter ∧
    (¬ call.env.opened.Opens ∨ (call.env.insertLock = true ∧ call.env.putOk = false))

/-- What the call writes into the table. -/
def LazyCall.Stores (call : LazyCall κ) (getter : ResourceGetter κ) (mem : MappedMemory) : Prop :=
  call.Opens getter ∧ call.env.insertLock = true ∧ call.env.putOk = true ∧
    mem = (openResource call.env.opened getter.mapped .zero).2

/-- A failure is an error, changes nothing, and the same lookup made again opens the
file again; what is stored is a mapping whose open succeeded. -/
structure FailsCleanly (b : Build) (getter : ResourceGetter κ) (call : LazyCall κ) : Prop where
  clean : call.Fails getter → ∃ r getter', getResourceLazy b getter call = .ok (r, getter') ∧
    r.herr ≠ .success ∧ getter'.table = getter.table ∧
    ∀ env : LazyEnv, env.lookupLock = true → env.missUnlock = true →
      LazyCall.Opens { call with env := env } getter'
  real : ∀ r getter', getResourceLazy b getter call = .ok (r, getter') →
    ∀ mem, call.Stores getter mem → mem.Real

/-- A call that gets past its second lock has opened the file and has memory. -/
def Sound (getter : ResourceGetter κ) (call : LazyCall κ) : Prop :=
  call.Opens getter → call.env.insertLock = true → call.env.opened.Opens ∧ call.env.putOk = true

theorem real_openResource_iff {answer : OpenAnswer} {addr : Nat} :
    (openResource answer addr .zero).2.Real ↔ answer.Opens := by
  rcases openResource_data answer addr with ⟨hopens, content, hmem⟩ | ⟨hno, hdata⟩
  · exact iff_of_true ⟨⟨addr, content⟩, hmem⟩ hopens
  · refine iff_of_false ?_ hno
    rintro ⟨mapping, hmem⟩
    exact hdata mapping (by rw [hmem])

theorem sound_of_failsCleanly {b : Build} {getter : ResourceGetter κ} {call : LazyCall κ}
    (h : FailsCleanly b getter call) : Sound getter call := by
  rintro ⟨t, ht, hmiss⟩ hlock
  -- a failure would return, and returning past the lock means that it stored
  have hreturn (hfails : call.Fails getter) :
      call.env.putOk = true ∧ (openResource call.env.opened getter.mapped .zero).2.Real := by
    obtain ⟨r, getter', hs, -, -, -⟩ := h.clean hfails
    rcases getResourceLazy_ok hs with ⟨-, -, -, -, hno⟩ | ⟨u, t', _, _, -, -, -, hinsert, -, -, -⟩
    · exact absurd hmiss (hno t ht)
    · rcases lazyInsert_ok hinsert with ⟨hfalse, -, -⟩ | ⟨-, hput, -, -, -⟩
      · simp [hlock] at hfalse
      · exact ⟨hput, h.real r getter' hs _ ⟨⟨t, ht, hmiss⟩, hlock, hput, rfl⟩⟩
  constructor
  · by_contra hno
    exact hno (real_openResource_iff.mp (hreturn ⟨⟨t, ht, hmiss⟩, Or.inl hno⟩).2)
  · by_contra hno
    exact hno (hreturn ⟨⟨t, ht, hmiss⟩, Or.inr ⟨hlock, by simpa using hno⟩⟩).1

theorem failsCleanly_of_sound {b : Build} {getter : ResourceGetter κ} {call : LazyCall κ}
    (h : Sound getter call) : FailsCleanly b getter call := by
  constructor
  · rintro ⟨⟨t, ht, hmiss⟩, hfail⟩
    have hlock : call.env.insertLock = false := by
      by_contra hlock
      obtain ⟨hopens, hput⟩ := h ⟨t, ht, hmiss⟩ (by simpa using hlock)
      rcases hfail with hno | ⟨-, hno⟩
      · exact hno hopens
      · simp [hput] at hno
    let opening := openResource call.env.opened getter.mapped .zero
    refine ⟨⟨.pthreadMutexLock, opening.2.view, some opening⟩,
      ⟨some t, countMapping getter.mapped opening.2⟩, ?_, by simp, ht.symm, ?_⟩
    · simp only [getResourceLazy, ht, hmiss, lazyInsert, hlock, Bool.not_false, if_true, bind,
        Except.bind, pure, Except.pure, opening]
    · intro env hlookup hunlock
      refine ⟨t, rfl, lazyLookup_miss_iff.mpr ⟨hlookup, hunlock, ?_⟩⟩
      exact (lazyLookup_miss_iff.mp hmiss).2.2
  · rintro r getter' - mem ⟨hopens, hlock, -, rfl⟩
    exact real_openResource_iff.mpr (h hopens hlock).1

theorem mem_release_insert {t : Table κ} {path : κ} {resmem mem : MappedMemory}
    (h : mem ∈ resourceGetterRelease (t.insert path resmem)) :
    mem = resmem ∨ mem ∈ resourceGetterRelease t := by
  unfold resourceGetterRelease at h ⊢
  rw [AList.entries_insert, List.map_cons, List.mem_cons] at h
  apply h.imp_right
  intro hin
  obtain ⟨e, he, rfl⟩ := List.mem_map.mp hin
  exact List.mem_map.mpr ⟨e, (List.kerase_sublist path t.entries).subset he, rfl⟩

/-- Whatever the release unmaps is a real mapping or was there at the start. -/
def ReleasesReal (start getter : ResourceGetter κ) : Prop :=
  ∀ t, getter.table = some t → ∀ mem ∈ resourceGetterRelease t,
    mem.Real ∨ ∃ u, start.table = some u ∧ mem ∈ resourceGetterRelease u

theorem releasesReal_step {b : Build} {start getter getter' : ResourceGetter κ} {call : LazyCall κ}
    {r : LazyResult} (hstart : ReleasesReal start getter) (h : FailsCleanly b getter call)
    (hs : getResourceLazy b getter call = .ok (r, getter')) : ReleasesReal start getter' := by
  rcases getResourceLazy_ok hs with ⟨-, -, rfl, -, -⟩ |
    ⟨t, t', opened, resmem, ht, hmiss, hopen, hinsert, -, -, rfl⟩
  · exact hstart
  · rintro u hu mem hmem
    simp only [Option.some.injEq] at hu
    subst hu
    rcases lazyInsert_ok hinsert with ⟨-, -, rfl⟩ | ⟨hlock, hput, -, -, rfl⟩
    · exact hstart _ ht mem hmem
    · rcases mem_release_insert hmem with rfl | hold
      · exact Or.inl (h.real r _ hs mem ⟨⟨t, ht, hmiss⟩, hlock, hput, by rw [hopen]⟩)
      · exact hstart _ ht mem hold

/-- Every failure of a run is clean, and the release of every table it reaches unmaps
real mappings, exactly when every call past its second lock has opened its file
and has memory for its entry. -/
theorem run_failsCleanly_iff (b : Build) (getter : ResourceGetter κ) (calls : List (LazyCall κ)) :
    (Meets (getResourceLazy b) (FailsCleanly b) getter calls ∧
      ∀ results getter', Reaches (getResourceLazy b) getter calls results getter' →
        ReleasesReal getter getter') ↔
      Meets (getResourceLazy b) Sound getter calls := by
  have hiff (s : ResourceGetter κ) (i : LazyCall κ) : FailsCleanly b s i ↔ Sound s i :=
    ⟨sound_of_failsCleanly, failsCleanly_of_sound⟩
  rw [meets_congr hiff, and_iff_left_iff_imp, ← meets_congr hiff]
  intro hm results getter' hreach
  have hstart : ReleasesReal getter getter := fun t ht mem hmem => Or.inr ⟨t, ht, hmem⟩
  exact inv_of_reaches (fun h hc hs => releasesReal_step h hc hs) hstart hm hreach

def missingFile : LazyCall (Bytes × Nat) where
  path := resourceKey (ascii "/srv/res/none.html".toList)
  flush := false
  res := ⟨.null, 0⟩
  env := ⟨true, true, .openFails, true, true, true⟩

/-- The lookup of a file that does not open is a success. -/
theorem missingFile_not_clean :
    ¬ Meets (getResourceLazy .debug) (FailsCleanly .debug) .initial [missingFile] := by
  intro hm
  have hfails : missingFile.Fails .initial := ⟨⟨∅, rfl, rfl⟩, Or.inl (by decide)⟩
  obtain ⟨r, getter', hs, herr, -, -⟩ := hm.1.clean hfails
  have hsuccess : ∃ r getter', getResourceLazy .debug .initial missingFile = .ok (r, getter') ∧
      r.herr = .success := ⟨_, _, rfl, rfl⟩
  obtain ⟨r', getter'', hs', hr'⟩ := hsuccess
  rw [hs', Except.ok.injEq, Prod.mk.injEq] at hs
  exact herr (hs.1 ▸ hr')

end LiteHttp
