import LiteHttp.StringInvariant

/-!
# Runs of appends

What the members of the append family have in common, and the text a run of them
leaves: the pieces one behind the other, however they were cut.
-/

namespace LiteHttp

open Run

set_option autoImplicit false

/-- The bytes an operation puts behind the content; `none` where it appends nothing: it is no
append, or one of a null pointer that it turns down. -/
def StringOp.piece? : StringOp → Option Bytes
  | .append cstr => some (StringView.fromCstr cstr).bytes
  | .appendCstr cstr => if cstr = none then none else some (StringView.fromCstr cstr).bytes
  | .appendParts cstr len =>
    if cstr = none ∧ 0 < len then none else some (StringView.fromParts cstr len).bytes
  | .appendString appendS => some appendS
  | .appendView sv => some sv.bytes
  | .pushBack ch => some [ch]
  | _ => none

def StringOp.isPushBack : StringOp → Bool
  | .pushBack _ => true
  | _ => false

/-- Every append is one of a view, up to the answer that a push back gives in any case. -/
theorem stringStep_piece (b : Build) (s : StringImpl) {call : StringCall} {piece : Bytes}
    (h : call.op.piece? = some piece) :
    ∃ sv : StringView, sv.bytes = piece ∧ stringStep b s call =
      (s.appendView b call.alloc sv).map fun p => (p.1 || call.op.isPushBack, p.2) := by
  have unmasked (x : Except Fault (Bool × StringImpl)) :
      x = x.map fun p => (p.1 || false, p.2) := by
    cases x with
    | error e => rfl
    | ok p => simp [Except.map]
  obtain ⟨op, alloc⟩ := call
  cases op with
  | append cstr => exact ⟨.fromCstr cstr, Option.some.inj h, unmasked _⟩
  | appendView sv => exact ⟨sv, Option.some.inj h, unmasked _⟩
  | appendString appendS => exact ⟨some appendS, Option.some.inj h, unmasked _⟩
  | appendCstr cstr =>
    by_cases hnull : cstr = none
    · simp [StringOp.piece?, hnull] at h
    · have hstep : stringStep b s ⟨.appendCstr cstr, alloc⟩ =
          s.appendView b alloc (.fromCstr cstr) := if_neg hnull
      refine ⟨.fromCstr cstr, by simpa [StringOp.piece?, hnull] using h, ?_⟩
      rw [hstep]
      exact unmasked _
  | appendParts cstr len =>
    by_cases hnull : cstr = none ∧ 0 < len
    · simp [StringOp.piece?, hnull] at h
    · have hstep : stringStep b s ⟨.appendParts cstr len, alloc⟩ =
          s.appendView b alloc (.fromParts cstr len) := if_neg hnull
      rw [StringOp.piece?, if_neg hnull, Option.some.injEq] at h
      refine ⟨.fromParts cstr len, h, ?_⟩
      rw [hstep]
      exact unmasked _
  | pushBack ch =>
    refine ⟨some [ch], Option.some.inj h, ?_⟩
    simp only [stringStep, StringImpl.pushBack, StringOp.isPushBack, Bool.or_true, bind, Except.bind,
      pure, Except.pure]
    cases s.appendView b alloc (some [ch]) with
    | error e => rfl
    | ok p => rfl
  | assign cstr => simp [StringOp.piece?] at h
  | assignView sv => simp [StringOp.piece?] at h
  | resize newLen => simp [StringOp.piece?] at h
  | reserve capacity => simp [StringOp.piece?] at h
  | clear => simp [StringOp.piece?] at h
  | takeOwnership data len => simp [StringOp.piece?] at h

/-- The calls are appends that all get their memory, and their pieces make up the text. -/
def Appends (calls : List StringCall) (text : Bytes) : Prop :=
  (∃ pieces : List Bytes, calls.map (fun call => call.op.piece?) = pieces.map some ∧
      pieces.flatten = text) ∧
    ∀ call ∈ calls, call.alloc.ok = true

theorem appends_cons {call : StringCall} {calls : List StringCall} {text : Bytes}
    (h : Appends (call :: calls) text) :
    ∃ piece rest, call.op.piece? = some piece ∧ call.alloc.ok = true ∧ Appends calls rest ∧
      text = piece ++ rest := by
  obtain ⟨⟨pieces, hpieces, hflat⟩, hok⟩ := h
  cases pieces with
  | nil => simp at hpieces
  | cons piece pieces =>
    rw [List.map_cons, List.map_cons, List.cons.injEq] at hpieces
    refine ⟨piece, pieces.flatten, hpieces.1, ?_, ⟨⟨pieces, hpieces.2, rfl⟩, ?_⟩, ?_⟩
    · exact hok call List.mem_cons_self
    · exact fun c hc => hok c (List.mem_cons_of_mem call hc)
    · rw [← hflat, List.flatten_cons]

/-- The string ends in a NUL that its capacity has room for. -/
def StringImpl.Ended (t : StringImpl) : Prop := t.buffer[t.len]? = some 0 ∧ t.len + 1 ≤ t.capacity

theorem append_step (b : Build) {s : StringImpl} (hs : s.Placed) {call : StringCall} {piece : Bytes}
    (hpiece : call.op.piece? = some piece) (hok : call.alloc.ok = true)
    (hlen : piece.length + s.len + 1 ≤ 2 ^ 30) :
    ∃ t, stringStep b s call = .ok (true, t) ∧ t.Sound ∧ t.bytes = s.bytes ++ piece ∧ t.Ended := by
  obtain ⟨sv, hsv, hstep⟩ := stringStep_piece b s hpiece
  obtain ⟨t, happend, hgrown, -⟩ :=
    StringImpl.appendView_spec hs b call.alloc sv (by rw [hsv]; exact hlen)
  obtain ⟨hsound, hbytes, hcap⟩ := hgrown hok
  rw [hsv] at hbytes
  rw [hsound.placed.bytes_length] at hcap
  refine ⟨t, ?_, hsound, hbytes, hsound.nul, hcap⟩
  rw [hstep, happend, hok]
  rfl

theorem exec_appends (b : Build) {s : StringImpl} (hs : s.Placed) {calls : List StringCall}
    {text : Bytes} (h : Appends calls text) (hsize : s.len + text.length + 1 ≤ 2 ^ 30) :
    ∃ rs t, exec (stringStep b) s calls = .ok (rs, t) ∧ (∀ r ∈ rs, r = true) ∧ t.Placed ∧
      t.bytes = s.bytes ++ text ∧ (calls ≠ [] → t.Ended) := by
  induction calls generalizing s text with
  | nil =>
    obtain ⟨⟨pieces, hpieces, hflat⟩, -⟩ := h
    have hnil : pieces = [] := by simpa using hpieces.symm
    refine ⟨[], s, rfl, by simp, hs, ?_, fun hne => absurd rfl hne⟩
    rw [← hflat, hnil, List.flatten_nil, List.append_nil]
  | cons call calls ih =>
    obtain ⟨piece, rest, hpiece, hok, hrest, rfl⟩ := appends_cons h
    rw [List.length_append] at hsize
    obtain ⟨u, hstep, hsound, hbytes, hended⟩ := append_step b hs hpiece hok (by omega)
    have hlen : u.len = s.len + piece.length := by
      rw [← hsound.placed.bytes_length, hbytes, List.length_append, hs.bytes_length]
    obtain ⟨rs, t, hexec, hall, hplaced, htext, hmore⟩ := ih hsound.placed hrest (by omega)
    refine ⟨true :: rs, t, exec_cons hstep hexec, ?_, hplaced, ?_, fun _ => ?_⟩
    · simpa using hall
    · rw [htext, hbytes, List.append_assoc]
    · cases calls with
      | nil =>
        rw [exec_nil, Except.ok.injEq, Prod.mk.injEq] at hexec
        exact hexec.2 ▸ hended
      | cons c cs => exact hmore (by simp)

/-- The text of the run stands behind the old content, and there is nothing else. -/
structure Concatenated (s t : StringImpl) (text : Bytes) : Prop where
  bytes : t.bytes = s.bytes ++ text
  len : t.len = s.len + text.length

/-- A run of appends concatenates, from every placed string and however the text is cut; behind
the first append the string is ended. -/
theorem run_concatenates (b : Build) {s : StringImpl} (hs : s.Placed)
    {calls calls' : List StringCall} {text : Bytes} (h : Appends calls text)
    (h' : Appends calls' text) (hsize : s.len + text.length + 1 ≤ 2 ^ 30) :
    ∃ rs t rs' t', exec (stringStep b) s calls = .ok (rs, t) ∧
      exec (stringStep b) s calls' = .ok (rs', t') ∧ (∀ r ∈ rs, r = true) ∧
      Concatenated s t text ∧ (calls ≠ [] → t.Ended) ∧ t'.bytes = t.bytes := by
  obtain ⟨rs, t, hexec, hall, hplaced, hbytes, hended⟩ := exec_appends b hs h hsize
  obtain ⟨rs', t', hexec', -, -, hbytes', -⟩ := exec_appends b hs h' hsize
  refine ⟨rs, t, rs', t', hexec, hexec', hall, ⟨hbytes, ?_⟩, hended, ?_⟩
  · rw [← hplaced.bytes_length, hbytes, List.length_append, hs.bytes_length]
  · rw [hbytes, hbytes']

theorem zeroed_placed : StringImpl.zeroed.Placed := ⟨by simp [StringImpl.zeroed], Nat.le_refl 0⟩

/-- An all-zero struct gets a view with a NUL in it and a character, or all three bytes at once. -/
theorem zeroed_concatenates :
    ∃ rs t rs' t',
      exec (stringStep .debug) .zeroed
        [⟨.appendView (some [97, 0]), usedMemory⟩, ⟨.pushBack 98, usedMemory⟩] = .ok (rs, t) ∧
      exec (stringStep .debug) .zeroed
        [⟨.appendParts (some [97, 0, 98, 99]) 3, usedMemory⟩] = .ok (rs', t') ∧
      (∀ r ∈ rs, r = true) ∧ Concatenated .zeroed t [97, 0, 98] ∧
      (([⟨.appendView (some [97, 0]), usedMemory⟩, ⟨.pushBack 98, usedMemory⟩] :
        List StringCall) ≠ [] → t.Ended) ∧ t'.bytes = t.bytes := by
  apply run_concatenates .debug zeroed_placed
  · refine ⟨⟨[[97, 0], [98]], rfl, rfl⟩, ?_⟩
    simp [usedMemory]
  · refine ⟨⟨[[97, 0, 98]], rfl, rfl⟩, ?_⟩
    simp [usedMemory]
  · decide

/-- A string that was only initialised has no capacity: no append, no room for the NUL. -/
theorem init_not_ended :
    StringImpl.init.Placed ∧ Appends [] [] ∧
      exec (stringStep .debug) .init [] = .ok ([], .init) ∧ ¬ StringImpl.init.Ended := by
  refine ⟨StringImpl.init_sound.placed, ⟨⟨[], rfl, rfl⟩, by simp⟩, rfl, ?_⟩
  intro h
  exact absurd h.2 (by decide)

end LiteHttp
