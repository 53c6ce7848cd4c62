import LiteHttp.RequestLine
import LiteHttp.ViewOrder

/-!
# The grammar of the request line

The method table, the six versions and the cut at the first two spaces, against
what `parse_request_line` makes of every line.
-/

namespace LiteHttp

set_option autoImplicit false

/-- `m` begins with `e`, and an `int` shows no difference of their lengths. -/
def LooksLike (m e : Bytes) : Prop := e <+: m ∧ (m.length - e.length) % 2 ^ 32 = 0

theorem looksLike_self (e : Bytes) : LooksLike e e := ⟨List.prefix_rfl, by simp⟩

theorem prefix_of_not_differs {m e : Bytes} (he : 0 ∉ e) (h : ¬ DiffersBeforeNul m e) :
    e <+: m ∨ m <+: e := by
  induction m generalizing e with
  | nil => exact Or.inr List.nil_prefix
  | cons x m ih =>
    cases e with
    | nil => exact Or.inl List.nil_prefix
    | cons y e =>
      rw [List.mem_cons, not_or] at he
      rw [DiffersBeforeNul, not_or, not_not] at h
      obtain ⟨rfl, hrest⟩ := h
      rw [List.prefix_cons_inj, List.prefix_cons_inj]
      exact ih he.2 fun hd => hrest ⟨Ne.symm he.1, hd⟩

theorem not_differs_of_prefix {m e : Bytes} (h : e <+: m) : ¬ DiffersBeforeNul m e := by
  induction m generalizing e with
  | nil => exact id
  | cons x m ih =>
    cases e with
    | nil => exact id
    | cons y e =>
      rw [List.cons_prefix_cons] at h
      obtain ⟨rfl, hrest⟩ := h
      rw [DiffersBeforeNul, or_iff_right (fun hne => hne rfl)]
      exact fun hd => ih hrest hd.2

/-- Against a name of ordinary length without a NUL the comparison says equal of what looks like it. -/
theorem stringViewCompare_looksLike {m e : Bytes} (he : 0 ∉ e) (hlen : e.length < 2 ^ 32) :
    stringViewCompare m e = 0 ↔ LooksLike m e := by
  by_cases hd : DiffersBeforeNul m e
  · refine iff_of_false ?_ fun h => not_differs_of_prefix h.1 hd
    rw [stringViewCompare_of_differs hd]
    exact (strncmp_of_differs hd).2.2
  · obtain ⟨hneg, hpos⟩ := stringViewCompare_of_not_differs hd
    have hzero : stringViewCompare m e = 0 ↔ ((m.length : Int) - e.length) % 2 ^ 32 = 0 := by
      unfold LooksShorter at hneg
      unfold LooksLonger at hpos
      omega
    rw [hzero]
    constructor
    · intro h
      have hle : e.length ≤ m.length := by omega
      refine ⟨?_, by omega⟩
      rcases prefix_of_not_differs he hd with hpre | hpre
      · exact hpre
      · exact (hpre.eq_of_length_le hle) ▸ List.prefix_rfl
    · intro h
      have hle := h.1.length_le
      have hmod := h.2
      omega

/-- The entry of the method table that `m` is. -/
def methodEntry (m : Bytes) : HttpMethod :=
  match httpMethodsStr.find? fun e => e.2 = m with
  | some e => e.1
  | none => .unkown

/-- The six versions. -/
def httpVersions : List (HttpVersion × Bytes) :=
  [(.ver10, ascii "HTTP/1.0".toList), (.ver11, ascii "HTTP/1.1".toList),
   (.ver20, ascii "HTTP/2".toList), (.ver20, ascii "HTTP/2.0".toList),
   (.ver30, ascii "HTTP/3".toList), (.ver30, ascii "HTTP/3.0".toList)]

def versionEntry (v : Bytes) : HttpVersion :=
  match httpVersions.find? fun e => e.2 = v with
  | some e => e.1
  | none => .unkown

theorem methods_plain (e : HttpMethod × Bytes) (he : e ∈ httpMethodsStr) :
    e.1 ≠ .unkown ∧ 0 ∉ e.2 ∧ e.2.length < 2 ^ 32 := by
  have h : ∀ e ∈ httpMethodsStr, e.1 ≠ .unkown ∧ 0 ∉ e.2 ∧ e.2.length < 2 ^ 32 := by decide
  exact h e he

/-- A search of a table of plain names finds the entry a name looks like, or nothing. -/
theorem find?_looksLike {α : Type} {table : List (α × Bytes)}
    (htable : ∀ e ∈ table, 0 ∉ e.2 ∧ e.2.length < 2 ^ 32) (m : Bytes) :
    (∃ e ∈ table, LooksLike m e.2 ∧
        table.find? (fun e => stringViewCompare m e.2 = 0) = some e) ∨
      ((∀ e ∈ table, ¬ LooksLike m e.2) ∧
        table.find? (fun e => stringViewCompare m e.2 = 0) = none) := by
  have hmatch (e : α × Bytes) (he : e ∈ table) : stringViewCompare m e.2 = 0 ↔ LooksLike m e.2 :=
    stringViewCompare_looksLike (htable e he).1 (htable e he).2
  cases h : table.find? (fun e => stringViewCompare m e.2 = 0) with
  | some e =>
    have he := List.mem_of_find?_eq_some h
    have hcmp : stringViewCompare m e.2 = 0 := by simpa using List.find?_some h
    exact Or.inl ⟨e, he, (hmatch e he).mp hcmp, rfl⟩
  | none =>
    refine Or.inr ⟨?_, rfl⟩
    intro e he hlike
    exact List.find?_eq_none.mp h e he (by simpa using (hmatch e he).mpr hlike)

theorem httpMatchMethod_cases (m : Bytes) :
    (∃ e ∈ httpMethodsStr, LooksLike m e.2 ∧ httpMatchMethod m = e.1) ∨
      ((∀ e ∈ httpMethodsStr, ¬ LooksLike m e.2) ∧ httpMatchMethod m = .unkown) := by
  unfold httpMatchMethod
  rcases find?_looksLike (fun e he => (methods_plain e he).2) m with ⟨e, he, hlike, hf⟩ | ⟨hno, hf⟩
  · exact Or.inl ⟨e, he, hlike, by rw [hf]⟩
  · exact Or.inr ⟨hno, by rw [hf]⟩

theorem methodEntry_self (e : HttpMethod × Bytes) (he : e ∈ httpMethodsStr) : methodEntry e.2 = e.1 := by
  have h : ∀ e ∈ httpMethodsStr, methodEntry e.2 = e.1 := by decide
  exact h e he

theorem methodEntry_of_not_mem {m : Bytes} (h : ∀ e ∈ httpMethodsStr, e.2 ≠ m) :
    methodEntry m = .unkown := by
  have hnone : httpMethodsStr.find? (fun e => e.2 = m) = none := by
    rw [List.find?_eq_none]
    intro e he
    simpa using h e he
  rw [methodEntry, hnone]

theorem httpMatchMethod_eq_unkown_iff (m : Bytes) :
    httpMatchMethod m = .unkown ↔ ∀ e ∈ httpMethodsStr, ¬ LooksLike m e.2 := by
  rcases httpMatchMethod_cases m with ⟨e, he, hlike, hmatch⟩ | ⟨hnone, hmatch⟩
  · rw [hmatch]
    exact iff_of_false (methods_plain e he).1 fun h => h e he hlike
  · exact iff_of_true hmatch hnone

theorem httpMatchMethod_eq_entry_iff (m : Bytes) :
    httpMatchMethod m = methodEntry m ↔ ∀ e ∈ httpMethodsStr, LooksLike m e.2 → m = e.2 := by
  constructor
  · intro h e he hlike
    by_contra hne
    have hother : ∀ e' ∈ httpMethodsStr, e'.2 ≠ m := by
      intro e' he' heq
      -- what only looks like a method is longer than every entry of the table
      have hlt := (methods_plain e' he').2.2
      have hle := hlike.1.length_le
      have hmod := hlike.2
      rw [heq] at hlt
      exact hne (hlike.1.eq_of_length (by omega)).symm
    rw [methodEntry_of_not_mem hother, httpMatchMethod_eq_unkown_iff] at h
    exact h e he hlike
  · intro h
    rcases httpMatchMethod_cases m with ⟨e, he, hlike, hmatch⟩ | ⟨hnone, hmatch⟩
    · rw [hmatch, h e he hlike, methodEntry_self e he]
    · rw [hmatch, methodEntry_of_not_mem]
      rintro e he rfl
      exact hnone e he (looksLike_self e.2)

theorem differsBeforeNul_comm {a b : Bytes} : DiffersBeforeNul a b ↔ DiffersBeforeNul b a := by
  induction a generalizing b with
  | nil => cases b <;> exact Iff.rfl
  | cons x a ih =>
    cases b with
    | nil => exact Iff.rfl
    | cons y b =>
      rw [DiffersBeforeNul, DiffersBeforeNul, ne_comm, ih]
      by_cases hxy : y = x
      · rw [hxy]
      · exact iff_of_true (Or.inl hxy) (Or.inl hxy)

def versionPrefix : Bytes := ascii "HTTP/".toList

/-- The prefix of a version is compared as a prefix. -/
theorem strncmp_prefix_iff {e v : Bytes} (he : 0 ∉ e) (hlen : e.length ≤ v.length) :
    strncmp e.length e v = 0 ↔ e <+: v := by
  constructor
  · intro h
    by_contra hpre
    have hd : DiffersBeforeNul e v := by
      by_contra hd
      rw [differsBeforeNul_comm] at hd
      rcases prefix_of_not_differs he hd with h' | h'
      · exact hpre h'
      · exact hpre (h'.eq_of_length_le hlen ▸ List.prefix_rfl)
    have hne := (strncmp_of_differs hd).2.2
    rw [Nat.min_eq_left hlen] at hne
    exact hne h
  · intro h
    apply strncmp_of_not_differs
    rw [differsBeforeNul_comm]
    exact not_differs_of_prefix h

theorem httpMatchVersion_unprefixed {v : Bytes} (h : ¬ ∃ c rest, v = versionPrefix ++ c :: rest) :
    httpMatchVersion v = .unkown := by
  have hfive : versionPrefix.length = 5 := by decide
  unfold httpMatchVersion
  simp only
  rw [if_pos]
  by_contra hn
  rw [not_or, not_lt, not_not] at hn
  obtain ⟨hlen, hcmp⟩ := hn
  have hpre : versionPrefix <+: v := (strncmp_prefix_iff (by decide) (by omega)).mp hcmp
  obtain ⟨r, rfl⟩ := hpre
  cases r with
  | nil => simp [hfive] at hlen
  | cons c rest => exact h ⟨c, rest, rfl⟩

theorem httpMatchVersion_prefixed (c : Byte) (rest : Bytes) :
    httpMatchVersion (versionPrefix ++ c :: rest) =
      if c = 49 then
        if rest = [46, 49] then .ver11 else if rest = [46, 48] then .ver10 else .unkown
      else if c = 50 then .ver20
      else if c = 51 then .ver30
      else .unkown := by
  have hcmp : strncmp 5 versionPrefix (versionPrefix ++ c :: rest) = 0 :=
    (strncmp_prefix_iff (show 0 ∉ versionPrefix by decide) (by simp)).mpr (List.prefix_append _ _)
  have hlen : (versionPrefix ++ c :: rest).length = rest.length + 6 := by
    rw [List.length_append, List.length_cons, show versionPrefix.length = 5 by decide]
    omega
  have hget (i : Nat) : (versionPrefix ++ c :: rest).getD (5 + i) 0 = (c :: rest).getD i 0 := by
    rw [List.getD_eq_getElem?_getD, List.getD_eq_getElem?_getD,
      List.getElem?_append_right (by rw [show versionPrefix.length = 5 by decide]; omega),
      show versionPrefix.length = 5 by decide, Nat.add_sub_cancel_left]
  have hfive : (versionPrefix ++ c :: rest).getD 5 0 = c := hget 0
  have hsix : (versionPrefix ++ c :: rest).getD 6 0 = rest.getD 0 0 := hget 1
  have hseven : (versionPrefix ++ c :: rest).getD 7 0 = rest.getD 1 0 := hget 2
  unfold httpMatchVersion
  simp only
  rw [if_neg (by rw [not_or, not_not]; exact ⟨by omega, hcmp⟩), hfive, hsix, hseven, hlen]
  by_cases hone : c = 49
  · rw [if_pos hone, if_pos hone]
    match rest with
    | [] => simp
    | [x] => simp
    | [x, y] =>
      by_cases hx : x = 46
      · by_cases hy : y = 49
        · simp [hx, hy]
        · by_cases hy' : y = 48
          · simp [hx, hy']
          · simp [hx, hy, hy']
      · simp [hx]
    | x :: y :: z :: rest => simp
  · rw [if_neg hone, if_neg hone]

theorem versionEntry_prefixed (c : Byte) (rest : Bytes) :
    versionEntry (versionPrefix ++ c :: rest) =
      if c = 49 then
        if rest = [46, 49] then .ver11 else if rest = [46, 48] then .ver10 else .unkown
      else if c = 50 ∧ (rest = [] ∨ rest = [46, 48]) then .ver20
      else if c = 51 ∧ (rest = [] ∨ rest = [46, 48]) then .ver30
      else .unkown := by
  have htable : httpVersions =
      [(.ver10, versionPrefix ++ [49, 46, 48]), (.ver11, versionPrefix ++ [49, 46, 49]),
        (.ver20, versionPrefix ++ [50]), (.ver20, versionPrefix ++ [50, 46, 48]),
        (.ver30, versionPrefix ++ [51]), (.ver30, versionPrefix ++ [51, 46, 48])] := by decide
  simp only [versionEntry, htable, List.find?_cons, List.append_cancel_left_eq, List.cons.injEq,
    List.find?_nil, eq_comm (b := c), eq_comm (b := rest)]
  by_cases hone : c = 49
  · by_cases h49 : rest = [46, 49]
    · simp [hone, h49]
    · by_cases h48 : rest = [46, 48]
      · simp [hone, h48]
      · simp [hone, h48, h49]
  · by_cases hrest : rest = [] ∨ rest = [46, 48]
    · by_cases htwo : c = 50
      · rcases hrest with hrest | hrest
        · simp [htwo, hrest]
        · simp [htwo, hrest]
      · by_cases hthree : c = 51
        · rcases hrest with hrest | hrest
          · simp [hthree, hrest]
          · simp [hthree, hrest]
        · simp [hone, htwo, hthree]
    · rw [not_or] at hrest
      simp [hone, hrest.1, hrest.2]

theorem versionEntry_unprefixed {v : Bytes} (h : ¬ ∃ c rest, v = versionPrefix ++ c :: rest) :
    versionEntry v = .unkown := by
  have hprefix : ∀ e ∈ httpVersions, ∃ c rest, e.2 = versionPrefix ++ c :: rest := by
    have hall : ∀ e ∈ httpVersions, e.2 = versionPrefix ++ e.2.getD 5 0 :: e.2.drop 6 := by decide
    exact fun e he => ⟨_, _, hall e he⟩
  have hnone : httpVersions.find? (fun e => e.2 = v) = none := by
    rw [List.find?_eq_none]
    intro e he heq
    obtain ⟨c, rest, hv⟩ := hprefix e he
    exact h ⟨c, rest, by rw [← hv, of_decide_eq_true heq]⟩
  rw [versionEntry, hnone]

/-- Behind HTTP/2 and HTTP/3 there is nothing, or a zero. -/
def VersionPlain (v : Bytes) : Prop :=
  ∀ c rest, v = versionPrefix ++ c :: rest → c = 50 ∨ c = 51 → rest = [] ∨ rest = [46, 48]

theorem httpMatchVersion_eq_entry_iff (v : Bytes) :
    httpMatchVersion v = versionEntry v ↔ VersionPlain v := by
  by_cases hpre : ∃ c rest, v = versionPrefix ++ c :: rest
  · obtain ⟨c, rest, rfl⟩ := hpre
    have hplain : VersionPlain (versionPrefix ++ c :: rest) ↔
        (c = 50 ∨ c = 51 → rest = [] ∨ rest = [46, 48]) := by
      constructor
      · exact fun h => h c rest rfl
      · intro h c' rest' heq
        rw [List.append_cancel_left_eq, List.cons.injEq] at heq
        exact heq.1 ▸ heq.2 ▸ h
    rw [hplain, httpMatchVersion_prefixed, versionEntry_prefixed]
    by_cases hone : c = 49
    · simp [hone]
    · by_cases htwo : c = 50
      · by_cases hrest : rest = [] ∨ rest = [46, 48]
        · simp [htwo, hrest]
        · simp [htwo, hrest]
      · by_cases hthree : c = 51
        · by_cases hrest : rest = [] ∨ rest = [46, 48]
          · simp [hthree, hrest]
          · simp [hthree, hrest]
        · simp [hone, htwo, hthree]
  · rw [httpMatchVersion_unprefixed hpre, versionEntry_unprefixed hpre]
    exact iff_of_true rfl fun c rest heq => absurd ⟨c, rest, heq⟩ hpre

/-- The path needs no memory, or gets it and has a length the growth arithmetic can take. -/
def PathStored (pathOk : Bool) (p : Bytes) : Prop :=
  p.length < smallBufSize ∨ pathOk = true ∧ Storable p.length

theorem pathStored_iff (pathOk : Bool) (p : Bytes) :
    PathStored pathOk p ↔ stringInitFromStringView pathOk p = .ok (true, p) := by
  by_cases hshort : p.length < smallBufSize
  · exact iff_of_true (Or.inl hshort) (by simp [stringInitFromStringView, hshort])
  · rw [PathStored, or_iff_right hshort]
    constructor
    · intro h
      obtain ⟨rfl, hs⟩ := h
      exact stringInitFromStringView_true hs
    · intro h
      unfold stringInitFromStringView at h
      rw [if_neg hshort] at h
      cases hc : nextCapacity (p.length + 1) with
      | none => simp [hc] at h
      | some c =>
        simp only [hc] at h
        obtain ⟨ok, halloc, h⟩ := bind_ok h
        unfold malloc at halloc
        split at halloc
        · simp at halloc
        · rename_i hfits
          rw [Except.ok.injEq] at halloc
          subst halloc
          cases pathOk with
          | false => simp [pure, Except.pure] at h
          | true => exact ⟨rfl, c, hc, by simpa using hfits⟩

/-- The node as `wait_req` hands it to the parser, at the line that is the first of its bytes. -/
structure AtStart (ctx : HttpParseCtx) (line : Bytes) : Prop where
  text : ctx.requestLine = line
  cur : ctx.cur = 0
  next : ctx.nextLine = line.length + 2
  fits : ctx.nextLine < sizeMod
  request : ctx.httpRequest = .new

/-- The parser says success of the lines with two spaces, reads their parts by the tables, and
marks the request of any other line. -/
def FollowsGrammar (b : Build) (pathOk : Bool) (ctx : HttpParseCtx) (line : Bytes) : Prop :=
  ∃ herr request, parseRequestLine b pathOk ctx = .ok (herr, { ctx with httpRequest := request }) ∧
    (herr = .success ↔ 2 ≤ line.count space) ∧
    (∀ m p v, line = m ++ space :: (p ++ space :: v) → space ∉ m → space ∉ p →
      request.method = methodEntry m ∧ request.path = p ∧ request.version = versionEntry v) ∧
    (herr ≠ .success → request.method = .unkown ∨ request.version = .unkown)

/-- A line with one space begins with no method; one with two has a path that can be stored, a
method that is one of the table if it looks like it, and a plain version. -/
def PlainLine (pathOk : Bool) (line : Bytes) : Prop :=
  (∀ m r, line = m ++ space :: r → space ∉ m → space ∉ r →
      ∀ e ∈ httpMethodsStr, ¬ LooksLike m e.2) ∧
    ∀ m p v, line = m ++ space :: (p ++ space :: v) → space ∉ m → space ∉ p →
      PathStored pathOk p ∧ (∀ e ∈ httpMethodsStr, LooksLike m e.2 → m = e.2) ∧ VersionPlain v

/-- A list is cut at the first `c` in one way. -/
theorem cut_unique {c : Byte} {s s' t t' : Bytes} (hs : c ∉ s) (hs' : c ∉ s')
    (h : s ++ c :: t = s' ++ c :: t') : s = s' ∧ t = t' := by
  have hidx := congrArg (List.idxOf? c) h
  rw [idxOf?_token hs, idxOf?_token hs', Option.some.injEq] at hidx
  obtain ⟨rfl, htail⟩ := List.append_inj h hidx
  exact ⟨rfl, List.tail_eq_of_cons_eq htail⟩

theorem line_cases (line : Bytes) :
    space ∉ line ∨ (∃ m r, line = m ++ space :: r ∧ space ∉ m ∧ space ∉ r) ∨
      ∃ m p v, line = m ++ space :: (p ++ space :: v) ∧ space ∉ m ∧ space ∉ p := by
  by_cases hline : space ∈ line
  · obtain ⟨m, r, rfl, hm⟩ := List.eq_append_cons_of_mem hline
    by_cases hr : space ∈ r
    · obtain ⟨p, v, rfl, hp⟩ := List.eq_append_cons_of_mem hr
      exact Or.inr (Or.inr ⟨m, p, v, rfl, hm, hp⟩)
    · exact Or.inr (Or.inl ⟨m, r, rfl, hm, hr⟩)
  · exact Or.inl hline

section Grammar

variable (b : Build) (pathOk : Bool) {ctx : HttpParseCtx} {line : Bytes} (hstart : AtStart ctx line)
include hstart

theorem followsGrammar_none (hline : space ∉ line) :
    FollowsGrammar b pathOk ctx line ∧ PlainLine pathOk line := by
  have hno (s t : Bytes) (heq : line = s ++ space :: t) : False := hline (by rw [heq]; simp)
  constructor
  · refine ⟨_, _, parseRequestLine_none b pathOk (by rw [hstart.text]; exact hline), ?_, ?_, ?_⟩
    · rw [List.count_eq_zero_of_not_mem hline]
      simp
    · exact fun m p v heq _ _ => (hno m _ heq).elim
    · exact fun _ => Or.inl rfl
  · exact ⟨fun m r heq _ _ => (hno m r heq).elim, fun m p v heq _ _ => (hno m _ heq).elim⟩

/-- Of a line with one space the version is left at what the allocation made it, HTTP/1.0. -/
theorem followsGrammar_one_iff {m r : Bytes} (hline : line = m ++ space :: r) (hm : space ∉ m)
    (hr : space ∉ r) : FollowsGrammar b pathOk ctx line ↔ PlainLine pathOk line := by
  have hl : ctx.requestLine = m ++ space :: r := hstart.text.trans hline
  have hparse := parseRequestLine_one b pathOk hl hm hr hstart.cur
    (by rw [hstart.next, hstart.text])
  have htwo (m' p' v' : Bytes) (heq : line = m' ++ space :: (p' ++ space :: v')) (hm' : space ∉ m') :
      False := by
    obtain ⟨-, rfl⟩ := cut_unique hm hm' (hline.symm.trans heq)
    exact hr (by simp)
  have hplain : PlainLine pathOk line ↔ httpMatchMethod m = .unkown := by
    rw [httpMatchMethod_eq_unkown_iff]
    constructor
    · exact fun h => h.1 m r hline hm hr
    · intro h
      refine ⟨?_, fun m' p' v' heq hm' _ => (htwo m' p' v' heq hm').elim⟩
      intro m' r' heq hm' hr'
      obtain ⟨rfl, -⟩ := cut_unique hm hm' (hline.symm.trans heq)
      exact h
  rw [hplain]
  constructor
  · intro h
    obtain ⟨herr, request, hok, -, -, hmarked⟩ := h
    rw [hparse, Except.ok.injEq, Prod.mk.injEq] at hok
    obtain ⟨rfl, hctx⟩ := hok
    have hrequest := congrArg HttpParseCtx.httpRequest hctx
    simp only at hrequest
    rw [← hrequest, hstart.request] at hmarked
    rcases hmarked (by simp) with h | h
    · exact h
    · simp [HttpRequest.new] at h
  · intro h
    refine ⟨_, _, hparse, ?_, ?_, ?_⟩
    · have hcount : line.count space = 1 := by
        rw [hline, List.count_append, List.count_cons_self, List.count_eq_zero_of_not_mem hm,
          List.count_eq_zero_of_not_mem hr]
      rw [hcount]
      simp
    · exact fun m' p' v' heq hm' _ => (htwo m' p' v' heq hm').elim
    · exact fun _ => Or.inl h

theorem followsGrammar_two_iff {m p v : Bytes} (hline : line = m ++ space :: (p ++ space :: v))
    (hm : space ∉ m) (hp : space ∉ p) :
    FollowsGrammar b pathOk ctx line ↔ PlainLine pathOk line := by
  have hl : ctx.requestLine = m ++ space :: (p ++ space :: v) := hstart.text.trans hline
  have hparse := parseRequestLine_split b pathOk hm hp hl hstart.cur
    (by rw [hstart.next, hstart.text]) hstart.fits
  have hcount : 2 ≤ line.count space := by
    rw [hline, List.count_append, List.count_cons_self, List.count_append, List.count_cons_self]
    omega
  have hunique {m' p' v' : Bytes} (heq : line = m' ++ space :: (p' ++ space :: v'))
      (hm' : space ∉ m') (hp' : space ∉ p') : m = m' ∧ p = p' ∧ v = v' := by
    obtain ⟨hmm, hrest⟩ := cut_unique hm hm' (hline.symm.trans heq)
    exact ⟨hmm, cut_unique hp hp' hrest⟩
  have hplain : PlainLine pathOk line ↔
      PathStored pathOk p ∧ httpMatchMethod m = methodEntry m ∧ httpMatchVersion v = versionEntry v := by
    rw [httpMatchMethod_eq_entry_iff, httpMatchVersion_eq_entry_iff]
    constructor
    · exact fun h => h.2 m p v hline hm hp
    · intro h
      constructor
      · intro m' r' heq hm' hr'
        obtain ⟨-, rfl⟩ := cut_unique hm hm' (hline.symm.trans heq)
        exact (hr' (by simp)).elim
      · intro m' p' v' heq hm' hp'
        obtain ⟨rfl, rfl, rfl⟩ := hunique heq hm' hp'
        exact h
  rw [hplain]
  constructor
  · intro h
    obtain ⟨herr, request, hok, hsuccess, hparts, -⟩ := h
    have hstored : PathStored pathOk p := by
      rw [pathStored_iff]
      rcases stringInitFromStringView_cases pathOk p with hfail | ⟨-, hgot⟩ | ⟨-, -, hfail⟩
      · rw [hparse, hfail] at hok
        simp [Except.map] at hok
      · exact hgot
      · rw [hparse, hfail] at hok
        simp only [Except.map, Bool.false_eq_true, if_false, Except.ok.injEq, Prod.mk.injEq] at hok
        rw [← hok.1] at hsuccess
        simp [hcount] at hsuccess
    rw [hparse, (pathStored_iff pathOk p).mp hstored] at hok
    simp only [Except.map, if_true, Except.ok.injEq, Prod.mk.injEq] at hok
    have hrequest := congrArg HttpParseCtx.httpRequest hok.2
    simp only at hrequest
    obtain ⟨hmethod, -, hversion⟩ := hparts m p v hline hm hp
    rw [← hrequest] at hmethod hversion
    exact ⟨hstored, hmethod, hversion⟩
  · intro h
    obtain ⟨hstored, hmethod, hversion⟩ := h
    rw [(pathStored_iff pathOk p).mp hstored] at hparse
    refine ⟨_, _, hparse, iff_of_true rfl hcount, ?_, fun hne => absurd rfl hne⟩
    intro m' p' v' heq hm' hp'
    obtain ⟨rfl, rfl, rfl⟩ := hunique heq hm' hp'
    exact ⟨hmethod, rfl, hversion⟩

/-- On every line at the start of a node the parser follows its grammar exactly if the line is
plain. -/
theorem followsGrammar_iff : FollowsGrammar b pathOk ctx line ↔ PlainLine pathOk line := by
  rcases line_cases line with hline | ⟨m, r, hline, hm, hr⟩ | ⟨m, p, v, hline, hm, hp⟩
  · obtain ⟨hfollows, hplain⟩ := followsGrammar_none b pathOk hstart hline
    exact iff_of_true hfollows hplain
  · exact followsGrammar_one_iff b pathOk hstart hline hm hr
  · exact followsGrammar_two_iff b pathOk hstart hline hm hp

end Grammar

/-- The node at a line. -/
def lineNode (line : Bytes) : HttpParseCtx :=
  { HttpParseCtx.new with
    waitState := .waitReq
    post := line ++ [cr, lf]
    nextLine := line.length + 2
    requestLine := line }

theorem lineNode_atStart {line : Bytes} (h : line.length + 2 < sizeMod) :
    AtStart (lineNode line) line := ⟨rfl, rfl, rfl, h, rfl⟩

theorem getLine_followsGrammar :
    FollowsGrammar .debug true (lineNode (ascii "GET / HTTP/1.1".toList))
      (ascii "GET / HTTP/1.1".toList) := by
  apply (followsGrammar_iff .debug true (lineNode_atStart (by decide))).mpr
  have hline : ascii "GET / HTTP/1.1".toList =
      ascii "GET".toList ++ space :: ([47] ++ space :: (versionPrefix ++ [49, 46, 49])) := by decide
  constructor
  · intro m r heq hm hr
    obtain ⟨-, rfl⟩ := cut_unique (by decide) hm (hline.symm.trans heq)
    exact (hr (by decide)).elim
  · intro m p v heq hm hp
    obtain ⟨rfl, hrest⟩ := cut_unique (by decide) hm (hline.symm.trans heq)
    obtain ⟨rfl, rfl⟩ := cut_unique (by decide) hp hrest
    refine ⟨Or.inl (by decide), ?_, ?_⟩
    · exact (httpMatchMethod_eq_entry_iff _).mp (by decide +kernel)
    · intro c rest heq' hc
      rw [List.append_cancel_left_eq, List.cons.injEq] at heq'
      rcases hc with rfl | rfl
      · exact absurd heq'.1 (by decide)
      · exact absurd heq'.1 (by decide)

/-- "GET /" is an error that leaves a GET with HTTP/1.0, and "GET / HTTP/2xyz" a success with a
version none of the six. -/
theorem getSlash_not_grammar :
    parseRequestLine .debug true (lineNode (ascii "GET /".toList)) =
        .ok (.parseCannotFindSpace, lineNode (ascii "GET /".toList)) ∧
      HttpRequest.new.method = .get ∧ HttpRequest.new.version = .ver10 ∧
      ¬ FollowsGrammar .debug true (lineNode (ascii "GET /".toList)) (ascii "GET /".toList) ∧
      (parseRequestLine .debug true (lineNode (ascii "GET / HTTP/2xyz".toList))).map
        (fun r => (r.1, r.2.httpRequest.version)) = .ok (.success, .ver20) := by
  have hparse : parseRequestLine .debug true (lineNode (ascii "GET /".toList)) =
      .ok (.parseCannotFindSpace, lineNode (ascii "GET /".toList)) := by decide +kernel
  refine ⟨hparse, rfl, rfl, ?_, by decide +kernel⟩
  intro h
  obtain ⟨herr, request, hok, -, -, hmarked⟩ := h
  rw [hparse, Except.ok.injEq, Prod.mk.injEq] at hok
  obtain ⟨rfl, hctx⟩ := hok
  have hrequest : HttpRequest.new = request := congrArg HttpParseCtx.httpRequest hctx
  rw [← hrequest] at hmarked
  rcases hmarked (by simp) with h | h
  · simp [HttpRequest.new] at h
  · simp [HttpRequest.new] at h

end LiteHttp
