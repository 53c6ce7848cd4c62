import LiteHttp.StringAppend
import LiteHttp.StringResize
import LiteHttp.StringAssign
import LiteHttp.Lib.Run

/-!
# The representation invariant over runs

Clearing leaves the NUL to what the small buffer happens to hold, a reserve of an
empty string to what new memory happens to hold, and a taken block to a byte
behind it; every other operation restores the invariant.
-/

namespace LiteHttp

open Run

set_option autoImplicit false

/-- The public operations on an initialised string, with their arguments. -/
inductive StringOp where
  | append (cstr : Option Bytes)
  | appendCstr (cstr : Option Bytes)
  | appendParts (cstr : Option Bytes) (len : Nat)
  | appendString (appendS : Bytes)
  | appendView (sv : StringView)
  | pushBack (ch : Byte)
  | assign (cstr : Option Bytes)
  | assignView (sv : StringView)
  | resize (newLen : Nat)
  | reserve (capacity : Nat)
  | clear
  | takeOwnership (data : Bytes) (len : Nat)

structure StringCall where
  op : StringOp
  alloc : StringAlloc

/-- One operation: what it returns, and the string it leaves. -/
def stringStep (b : Build) (s : StringImpl) (call : StringCall) :
    Except Fault (Bool × StringImpl) :=
  match call.op with
  | .append cstr => s.append b call.alloc cstr
  | .appendCstr cstr => s.appendCstr b call.alloc cstr
  | .appendParts cstr len => s.appendParts b call.alloc cstr len
  | .appendString appendS => s.appendString b call.alloc appendS
  | .appendView sv => s.appendView b call.alloc sv
  | .pushBack ch => s.pushBack b call.alloc ch
  | .assign cstr => s.assign b call.alloc cstr
  | .assignView sv => s.assignView b call.alloc sv
  | .resize newLen => s.resize b call.alloc newLen
  | .reserve capacity => s.reserve b call.alloc capacity
  | .clear => do
    let s ← s.clear b
    return (true, s)
  | .takeOwnership data len => .ok (true, s.takeOwnership data len)

/-- The length of what the operation makes of a string of so many bytes. -/
def StringOp.length (old : Nat) : StringOp → Nat
  | .append cstr => (StringView.fromCstr cstr).bytes.length + old
  | .appendCstr cstr => (StringView.fromCstr cstr).bytes.length + old
  | .appendParts cstr len => (StringView.fromParts cstr len).bytes.length + old
  | .appendString appendS => appendS.length + old
  | .appendView sv => sv.bytes.length + old
  | .pushBack _ => 1 + old
  | .assign cstr => (StringView.fromCstr cstr).bytes.length
  | .assignView sv => sv.bytes.length
  | .resize newLen => newLen
  | .reserve capacity => capacity
  | .clear => 0
  | .takeOwnership _ len => len

/-- The sizes of the call stay below 2^30. -/
def Sized (s : StringImpl) (call : StringCall) : Prop := call.op.length s.len < 2 ^ 30

instance (s : StringImpl) (call : StringCall) : Decidable (Sized s call) := by
  unfold Sized
  infer_instance

/-- The operation leaves the string without content. -/
def StringOp.Clears : StringOp → Prop
  | .assign cstr => cstr = none
  | .assignView sv => sv = none
  | .resize newLen => newLen = 0
  | .clear => True
  | _ => False

/-- What an operation needs to restore the invariant: clearing, a NUL in the small buffer;
a reserve that moves an empty string, new memory that starts with a NUL; taking a block, a NUL
behind the length it is given. -/
def Restores (s : StringImpl) (call : StringCall) : Prop :=
  (call.op.Clears → s.smallBuf.1[0]? = some 0) ∧
    (∀ capacity, call.op = .reserve capacity →
      s.EmptyMove call.alloc capacity → call.alloc.fill 0 = 0) ∧
    ∀ data len, call.op = .takeOwnership data len → data[len]? = some 0

theorem restores_of_keeps {s : StringImpl} {call : StringCall} (hclears : ¬ call.op.Clears)
    (hreserve : ∀ capacity, call.op ≠ .reserve capacity)
    (htake : ∀ data len, call.op ≠ .takeOwnership data len) : Restores s call :=
  ⟨fun h => absurd h hclears, fun c h => absurd h (hreserve c), fun d n h => absurd h (htake d n)⟩

theorem restores_of_clears {s : StringImpl} {call : StringCall} (h : call.op.Clears) :
    Restores s call ↔ s.smallBuf.1[0]? = some 0 := by
  constructor
  · exact fun hr => hr.1 h
  · intro hnul
    refine ⟨fun _ => hnul, ?_, ?_⟩
    · intro capacity hop
      simp [hop, StringOp.Clears] at h
    · intro data len hop
      simp [hop, StringOp.Clears] at h

/-- The members of the append family. -/
def StringOp.IsAppend : StringOp → Prop
  | .append _ => True
  | .appendCstr _ => True
  | .appendParts _ _ => True
  | .appendString _ => True
  | .appendView _ => True
  | .pushBack _ => True
  | _ => False

theorem restores_of_append (s : StringImpl) {call : StringCall} (h : call.op.IsAppend) :
    Restores s call := by
  obtain ⟨op, alloc⟩ := call
  apply restores_of_keeps
  · cases op <;> simp_all [StringOp.IsAppend, StringOp.Clears]
  · rintro capacity rfl
    exact h
  · rintro data len rfl
    exact h

/-- An append turns a null pointer down and leaves the string alone, or it appends a view, and a
push back answers true in any case. What holds of the string as it is and behind an append of a
view holds behind every member of the family. -/
theorem stringStep_append {P : StringImpl → Prop} (b : Build) {s : StringImpl} {call : StringCall}
    (hsized : Sized s call) (h : call.op.IsAppend) (alone : P s)
    (appended : ∀ sv : StringView, sv.bytes.length + s.len < 2 ^ 30 →
      ∃ r t, s.appendView b call.alloc sv = .ok (r, t) ∧ P t) :
    ∃ r t, stringStep b s call = .ok (r, t) ∧ P t := by
  obtain ⟨op, alloc⟩ := call
  unfold Sized at hsized
  cases op with
  | append cstr => exact appended (.fromCstr cstr) hsized
  | appendView sv => exact appended sv hsized
  | appendString appendS => exact appended (some appendS) hsized
  | appendCstr cstr =>
    by_cases hnull : cstr = none
    · exact ⟨false, s, by simp [stringStep, StringImpl.appendCstr, hnull], alone⟩
    · have hstep : stringStep b s ⟨.appendCstr cstr, alloc⟩ =
          s.appendView b alloc (.fromCstr cstr) := if_neg hnull
      rw [hstep]
      exact appended (.fromCstr cstr) hsized
  | appendParts cstr len =>
    by_cases hnull : cstr = none ∧ 0 < len
    · exact ⟨false, s, by simp [stringStep, StringImpl.appendParts, hnull], alone⟩
    · have hstep : stringStep b s ⟨.appendParts cstr len, alloc⟩ =
          s.appendView b alloc (.fromParts cstr len) := if_neg hnull
      rw [hstep]
      exact appended (.fromParts cstr len) hsized
  | pushBack ch =>
    obtain ⟨r, t, happend, ht⟩ := appended (some [ch]) hsized
    refine ⟨true, t, ?_, ht⟩
    simp only [stringStep, StringImpl.pushBack, happend, bind, Except.bind, pure, Except.pure]
  | _ => exact absurd h id

/-- An operation that appends a view and restores the invariant by doing so. -/
theorem appendView_restores {s : StringImpl} (hs : s.Sound) (b : Build) {op : StringOp}
    {alloc : StringAlloc} {sv : StringView} (hlen : sv.bytes.length + s.len < 2 ^ 30)
    (keeps : Restores s ⟨op, alloc⟩) :
    ∃ r t, s.appendView b alloc sv = .ok (r, t) ∧ (t.Sound ↔ Restores s ⟨op, alloc⟩) := by
  obtain ⟨t, happend, hgrown, hkept⟩ := StringImpl.appendView_spec hs.placed b alloc sv (by omega)
  refine ⟨alloc.ok, t, happend, iff_of_true ?_ keeps⟩
  cases hok : alloc.ok with
  | true => exact (hgrown hok).1
  | false => exact hkept hok ▸ hs

theorem cleared_restores (s : StringImpl) {op : StringOp} (alloc : StringAlloc) (h : op.Clears) :
    s.cleared.Sound ↔ Restores s ⟨op, alloc⟩ := by
  rw [restores_of_clears h, s.cleared_sound_iff]

/-- An operation that assigns a view, which clears where the view is null. -/
theorem assignView_restores {s : StringImpl} (hs : s.Sound) (b : Build) {op : StringOp}
    {alloc : StringAlloc} {sv : StringView} (hlen : sv.bytes.length < 2 ^ 30)
    (hnull : sv = none → op.Clears) (keeps : sv ≠ none → Restores s ⟨op, alloc⟩) :
    ∃ r t, s.assignView b alloc sv = .ok (r, t) ∧ (t.Sound ↔ Restores s ⟨op, alloc⟩) := by
  cases sv with
  | none =>
    exact ⟨true, s.cleared, StringImpl.assignView_null hs.stored b alloc,
      cleared_restores s alloc (hnull rfl)⟩
  | some bytes =>
    have hspec := StringImpl.assignView_spec hs.stored b alloc (show bytes.length < 2 ^ 30 from hlen)
    rcases hspec with ⟨t, hassign, hsound, -⟩ | ⟨-, hassign⟩
    · exact ⟨true, t, hassign, iff_of_true hsound (keeps (by simp))⟩
    · exact ⟨false, s, hassign, iff_of_true hs (keeps (by simp))⟩

/-- From a sound string every operation of ordinary size returns, and leaves a sound string
exactly when it restores the invariant. -/
theorem stringStep_spec (b : Build) {s : StringImpl} {call : StringCall} (hs : s.Sound)
    (hsized : Sized s call) :
    ∃ r t, stringStep b s call = .ok (r, t) ∧ (t.Sound ↔ Restores s call) := by
  obtain ⟨op, alloc⟩ := call
  have happend (h : op.IsAppend) : ∃ r t, stringStep b s ⟨op, alloc⟩ = .ok (r, t) ∧
      (t.Sound ↔ Restores s ⟨op, alloc⟩) := by
    have keeps : Restores s ⟨op, alloc⟩ := restores_of_append s h
    exact stringStep_append b hsized h (iff_of_true hs keeps) fun sv hlen =>
      appendView_restores hs b hlen keeps
  unfold Sized at hsized
  cases op with
  | append cstr => exact happend trivial
  | appendView sv => exact happend trivial
  | appendString appendS => exact happend trivial
  | appendCstr cstr => exact happend trivial
  | appendParts cstr len => exact happend trivial
  | pushBack ch => exact happend trivial
  | assign cstr =>
    refine assignView_restores hs b hsized (fun h => ?_) fun h =>
      restores_of_keeps (fun hc => ?_) (by simp) (by simp)
    · exact Option.map_eq_none_iff.mp h
    · exact h (Option.map_eq_none_iff.mpr hc)
  | assignView sv =>
    exact assignView_restores hs b hsized id fun h => restores_of_keeps h (by simp) (by simp)
  | resize newLen =>
    by_cases hzero : newLen = 0
    · refine ⟨true, s.cleared, ?_, cleared_restores s alloc hzero⟩
      simp only [stringStep, StringImpl.resize, hzero, if_true, StringImpl.clear_eq hs.placed b, bind,
        Except.bind, pure, Except.pure]
    · have keeps : Restores s ⟨.resize newLen, alloc⟩ := restores_of_keeps hzero (by simp) (by simp)
      rcases StringImpl.resize_spec hs.stored b alloc hzero hsized with ⟨t, hresize, hsound, -⟩ | ⟨-, hresize⟩
      · exact ⟨true, t, hresize, iff_of_true hsound keeps⟩
      · exact ⟨false, s, hresize, iff_of_true hs keeps⟩
  | reserve capacity =>
    obtain ⟨r, t, hok, hiff⟩ := StringImpl.reserve_spec hs b alloc (Nat.le_of_lt hsized)
    refine ⟨r, t, hok, hiff.trans ?_⟩
    constructor
    · intro h
      refine ⟨fun hc => by simp [StringOp.Clears] at hc, ?_, by simp⟩
      intro c hc
      simp only [StringOp.reserve.injEq] at hc
      exact hc ▸ h
    · exact fun h => h.2.1 capacity rfl
  | clear =>
    refine ⟨true, s.cleared, ?_, cleared_restores s alloc trivial⟩
    simp only [stringStep, StringImpl.clear_eq hs.placed b, bind, Except.bind, pure, Except.pure]
  | takeOwnership data len =>
    refine ⟨true, s.takeOwnership data len, rfl, (s.takeOwnership_sound_iff data len).trans ?_⟩
    constructor
    · intro h
      refine ⟨fun hc => by simp [StringOp.Clears] at hc, by simp, ?_⟩
      intro d n hop
      simp only [StringOp.takeOwnership.injEq] at hop
      rwa [← hop.1, ← hop.2]
    · exact fun h => h.2.2 data len rfl

/-- A block that is taken holds the length it is given, and a NUL behind it. -/
def TakesWhole (call : StringCall) : Prop :=
  ∀ data len, call.op = .takeOwnership data len → data[len]? = some 0

theorem cleared_stored (s : StringImpl) : s.cleared.Stored :=
  ⟨fun h => absurd rfl h, iff_of_true rfl rfl, fun _ => Nat.zero_le _, fun h => absurd rfl h⟩

theorem appendView_stored {s : StringImpl} (hs : s.Stored) (b : Build) (alloc : StringAlloc)
    {sv : StringView} (hlen : sv.bytes.length + s.len < 2 ^ 30) :
    ∃ r t, s.appendView b alloc sv = .ok (r, t) ∧ t.Stored := by
  obtain ⟨t, happend, hgrown, hkept⟩ := StringImpl.appendView_spec hs.placed b alloc sv (by omega)
  refine ⟨alloc.ok, t, happend, ?_⟩
  cases hok : alloc.ok with
  | true => exact (hgrown hok).1.stored
  | false => exact hkept hok ▸ hs

theorem assignView_stored {s : StringImpl} (hs : s.Stored) (b : Build) (alloc : StringAlloc)
    {sv : StringView} (hlen : sv.bytes.length < 2 ^ 30) :
    ∃ r t, s.assignView b alloc sv = .ok (r, t) ∧ t.Stored := by
  cases sv with
  | none => exact ⟨true, s.cleared, StringImpl.assignView_null hs b alloc, cleared_stored s⟩
  | some bytes =>
    have hspec := StringImpl.assignView_spec hs b alloc (show bytes.length < 2 ^ 30 from hlen)
    rcases hspec with ⟨t, hassign, hsound, -⟩ | ⟨-, hassign⟩
    · exact ⟨true, t, hassign, hsound.stored⟩
    · exact ⟨false, s, hassign, hs⟩

/-- From a stored string every operation of ordinary size returns, and leaves a stored string. -/
theorem stringStep_stored (b : Build) {s : StringImpl} {call : StringCall} (hs : s.Stored)
    (hsized : Sized s call) (htakes : TakesWhole call) :
    ∃ r t, stringStep b s call = .ok (r, t) ∧ t.Stored := by
  obtain ⟨op, alloc⟩ := call
  have happend (h : op.IsAppend) : ∃ r t, stringStep b s ⟨op, alloc⟩ = .ok (r, t) ∧ t.Stored :=
    stringStep_append b hsized h hs fun sv hlen => appendView_stored hs b alloc hlen
  unfold Sized at hsized
  cases op with
  | append cstr => exact happend trivial
  | appendView sv => exact happend trivial
  | appendString appendS => exact happend trivial
  | appendCstr cstr => exact happend trivial
  | appendParts cstr len => exact happend trivial
  | pushBack ch => exact happend trivial
  | assign cstr => exact assignView_stored hs b alloc hsized
  | assignView sv => exact assignView_stored hs b alloc hsized
  | resize newLen =>
    by_cases hzero : newLen = 0
    · refine ⟨true, s.cleared, ?_, cleared_stored s⟩
      simp only [stringStep, StringImpl.resize, hzero, if_true, StringImpl.clear_eq hs.placed b, bind,
        Except.bind, pure, Except.pure]
    · rcases StringImpl.resize_spec hs b alloc hzero hsized with ⟨t, hresize, hsound, -⟩ | ⟨-, hresize⟩
      · exact ⟨true, t, hresize, hsound.stored⟩
      · exact ⟨false, s, hresize, hs⟩
  | reserve capacity =>
    by_cases hsize : capacity ≤ s.size
    · exact ⟨false, s, by simp [stringStep, StringImpl.reserve, hsize], hs⟩
    by_cases hmore : capacity ≤ s.capacity
    · exact ⟨true, s, by simp [stringStep, StringImpl.reserve, hsize, hmore], hs⟩
    obtain ⟨c, hc, hge, hpos, hle⟩ :=
      StringImpl.nextCapacity_fits (show capacity ≤ 2 ^ 30 from Nat.le_of_lt hsized)
    have hmoved := @StringImpl.reserve_moved s hs.placed b alloc capacity c hsize hmore hc fun _ => hle
    cases hok : alloc.ok with
    | true =>
      rw [hok, if_pos rfl] at hmoved
      exact ⟨true, _, hmoved, StringImpl.reheaped_stored hs alloc hpos (by omega)⟩
    | false =>
      rw [hok, if_neg (by simp)] at hmoved
      exact ⟨false, s, hmoved, hs⟩
  | clear =>
    refine ⟨true, s.cleared, ?_, cleared_stored s⟩
    simp only [stringStep, StringImpl.clear_eq hs.placed b, bind, Except.bind, pure, Except.pure]
  | takeOwnership data len =>
    exact ⟨true, s.takeOwnership data len, rfl,
      ((s.takeOwnership_sound_iff data len).mpr (htakes data len rfl)).stored⟩

/-- The strings that come out of the initialisers. -/
inductive Initialised : StringImpl → Prop where
  | init : Initialised .init
  | fromStringView {a : StringAlloc} {sv : StringView} {s : StringImpl}
      (h : StringImpl.initFromStringView a sv = .ok (some s)) : Initialised s
  | fromCstr {a : StringAlloc} {cstr : Option Bytes} {s : StringImpl}
      (h : StringImpl.initFromCstr a cstr = .ok (some s)) : Initialised s
  | fromParts {a : StringAlloc} {cstr : Option Bytes} {len : Nat} {s : StringImpl}
      (h : StringImpl.initFromParts a cstr len = .ok (some s)) : Initialised s

theorem Initialised.sound {s : StringImpl} (h : Initialised s) : s.Sound := by
  cases h with
  | init => exact StringImpl.init_sound
  | fromStringView h => exact (StringImpl.initFromStringView_sound h).1
  | fromCstr h => exact (StringImpl.initFromStringView_sound h).1
  | fromParts h =>
    unfold StringImpl.initFromParts at h
    split at h
    · simp at h
    · exact (StringImpl.initFromStringView_sound h).1

/-- A run of operations of ordinary size on an initialised string returns, with a sound string
after each of them, exactly when each of them restores the invariant. -/
theorem run_sound_iff (b : Build) {s : StringImpl} {calls : List StringCall} (hinit : Initialised s)
    (hsized : Meets (stringStep b) Sized s calls) :
    ((∃ rs t, exec (stringStep b) s calls = .ok (rs, t)) ∧
        ∀ rs t, Reaches (stringStep b) s calls rs t → t.Sound) ↔
      Meets (stringStep b) Restores s calls :=
  forall_reaches_iff (fun _ _ hs hsize => stringStep_spec b hs hsize) hinit.sound hsized

def greeting : StringImpl where
  smallBuf := ⟨ascii "hi".toList ++ List.replicate 14 0, rfl⟩
  data := .small
  size := 3
  capacity := 0

/-- Every run of such operations on an initialised string returns, and every string it reaches is
stored. -/
theorem run_stored (b : Build) {s : StringImpl} {calls : List StringCall} (hinit : Initialised s)
    (hm : Meets (stringStep b) (fun s call => Sized s call ∧ TakesWhole call) s calls) :
    (∃ rs t, exec (stringStep b) s calls = .ok (rs, t)) ∧
      ∀ rs t, Reaches (stringStep b) s calls rs t → t.Stored := by
  have hall : Meets (stringStep b) (fun _ _ => True) s calls :=
    meets_of_forall (fun _ _ => trivial) s calls
  refine (forall_reaches_iff ?_ hinit.sound.stored hm).mpr hall
  intro s call hs hcall
  obtain ⟨r, t, hstep, hstored⟩ := stringStep_stored b hs hcall.1 hcall.2
  exact ⟨r, t, hstep, iff_of_true hstored trivial⟩

theorem greeting_initialised : Initialised greeting := by
  have h : StringImpl.initFromCstr usedMemory (some (ascii "hi".toList)) = .ok (some greeting) := by
    decide +kernel
  exact .fromCstr h

def greetingCalls : List StringCall :=
  [⟨.appendCstr (some (ascii " there".toList)), usedMemory⟩, ⟨.resize 3, usedMemory⟩,
    ⟨.pushBack 33, usedMemory⟩]

theorem greetingCalls_sound :
    (∃ rs t, exec (stringStep .debug) greeting greetingCalls = .ok (rs, t)) ∧
      ∀ rs t, Reaches (stringStep .debug) greeting greetingCalls rs t → t.Sound := by
  apply (run_sound_iff .debug greeting_initialised (by decide +kernel)).mpr
  have keeps (s : StringImpl) (call : StringCall) (h : call ∈ greetingCalls) : Restores s call := by
    simp only [greetingCalls, List.mem_cons, List.not_mem_nil, or_false] at h
    rcases h with rfl | rfl | rfl
    · exact restores_of_keeps (by simp [StringOp.Clears]) (by simp) (by simp)
    · exact restores_of_keeps (by simp [StringOp.Clears]) (by simp) (by simp)
    · exact restores_of_keeps (by simp [StringOp.Clears]) (by simp) (by simp)
  exact ⟨keeps _ _ (by simp [greetingCalls]), fun _ _ _ => ⟨keeps _ _ (by simp [greetingCalls]),
    fun _ _ _ => ⟨keeps _ _ (by simp [greetingCalls]), fun _ _ _ => trivial⟩⟩⟩

/-- A clear of the two bytes leaves the first of them where the NUL should be. -/
theorem greeting_clear_not_sound :
    Initialised greeting ∧ Meets (stringStep .debug) Sized greeting [⟨.clear, usedMemory⟩] ∧
      stringStep .debug greeting ⟨.clear, usedMemory⟩ = .ok (true, greeting.cleared) ∧
      ¬ greeting.cleared.Sound := by
  refine ⟨greeting_initialised, by decide +kernel, by decide +kernel, ?_⟩
  rw [StringImpl.cleared_sound_iff]
  decide

end LiteHttp
