import LiteHttp.ContentLength
import LiteHttp.RequestGrammar
import LiteHttp.Lib.Trim

/-!
# A header line and the blanks in it

`parse_header_line` skips one space behind the colon. What the blanks it leaves
around the value do is up to the parser of the field: Content-Length does not
see them, Content-Type may see those at the end, and Connection and
Transfer-Encoding compare the value with the blanks still on it.
-/

namespace LiteHttp

set_option autoImplicit false

/-- Nothing but spaces and tabs. -/
def Blanks (s : Bytes) : Prop := ∀ c ∈ s, isBlank c = true

instance (s : Bytes) : Decidable (Blanks s) :=
  decidable_of_iff (s.all isBlank = true) List.all_eq_true

/-- A header line by its parts. The value begins and ends with no blank. -/
structure HeaderLine where
  name : Bytes
  before : Bytes
  value : Bytes
  after : Bytes
  name_token : colon ∉ name
  before_blank : Blanks before
  after_blank : Blanks after
  value_head : ∀ c ∈ value.head?, isBlank c = false
  value_last : ∀ c ∈ value.getLast?, isBlank c = false
  fits : before.length + value.length + after.length ≤ npos

namespace HeaderLine

/-- What stands behind the colon. -/
def rest (k : HeaderLine) : Bytes := k.before ++ (k.value ++ k.after)

def text (k : HeaderLine) : Bytes := k.name ++ colon :: k.rest

/-- The value `parse_header_line` stores. -/
def valueSv (k : HeaderLine) : Bytes :=
  if k.rest.head? = some space then k.rest.tail else k.rest

end HeaderLine

theorem isBlank_space : isBlank space = true := by decide

theorem Blanks.not_mem {s : Bytes} (h : Blanks s) {c : Byte} (hc : isBlank c = false) : c ∉ s := by
  intro hmem
  rw [h c hmem] at hc
  cases hc

theorem Blanks.no_nul {s : Bytes} (h : Blanks s) : 0 ∉ s := h.not_mem rfl

theorem Blanks.of_cons {c : Byte} {s : Bytes} (h : Blanks (c :: s)) : Blanks s :=
  fun d hd => h d (List.mem_cons_of_mem c hd)

theorem blanks_nil : Blanks [] := by simp [Blanks]

section Line

variable (k : HeaderLine)

theorem splitHeader_text : splitHeader k.text = some (k.name, k.valueSv) := by
  have hrest : k.rest.length ≤ npos := by
    have := k.fits
    rw [HeaderLine.rest, List.length_append, List.length_append]
    omega
  have hfits : k.valueSv.length ≤ npos := by
    unfold HeaderLine.valueSv
    split
    · rw [List.length_tail]
      omega
    · exact hrest
  exact splitHeader_colon k.name_token rfl hfits

/-- The stored value is the value between blanks. -/
theorem valueSv_blanks : ∃ s t, Blanks s ∧ Blanks t ∧ k.valueSv = s ++ (k.value ++ t) ∧
    (k.value ≠ [] → t = k.after) := by
  have hrest : k.rest = k.before ++ (k.value ++ k.after) := rfl
  by_cases hspace : k.rest.head? = some space
  · have hsv : k.valueSv = k.rest.tail := if_pos hspace
    rw [hsv, hrest]
    cases hbefore : k.before with
    | cons c s =>
      have hs := k.before_blank
      rw [hbefore] at hs
      exact ⟨s, k.after, hs.of_cons, k.after_blank, rfl, fun _ => rfl⟩
    | nil =>
      cases hvalue : k.value with
      | cons c v =>
        rw [hrest, hbefore, hvalue] at hspace
        have hc : c = space := Option.some.inj hspace
        have hhead := k.value_head c (by rw [hvalue]; rfl)
        rw [hc, isBlank_space] at hhead
        exact absurd hhead (by decide)
      | nil =>
        refine ⟨[], k.after.tail, blanks_nil, ?_, rfl, fun h => absurd rfl h⟩
        intro c hc
        exact k.after_blank c (List.mem_of_mem_tail hc)
  · have hsv : k.valueSv = k.rest := if_neg hspace
    exact ⟨k.before, k.after, k.before_blank, k.after_blank, by rw [hsv, hrest], fun _ => rfl⟩

end Line

/-- The value as a C string behind its leading blanks, where two of the parsers start. -/
def shown (v : Bytes) : Bytes := (toCstr v).dropWhile isBlank

theorem shown_blanks {s : Bytes} (hs : Blanks s) (v : Bytes) : shown (s ++ v) = shown v := by
  rw [shown, toCstr_append_of_free hs.no_nul]
  exact Trim.dropWhile_pad hs (toCstr v)

/-- Trailing blanks are seen unless a NUL or nothing stands in front of them. -/
theorem shown_append {t : Bytes} (ht : Blanks t) (v : Bytes) :
    shown (v ++ t) = shown v ∨ shown (v ++ t) = shown v ++ t := by
  by_cases hnul : 0 ∈ v
  · left
    rw [shown, toCstr_append_of_mem hnul, shown]
  · have hcut : toCstr (v ++ t) = toCstr v ++ t := by
      rw [toCstr_append_of_free hnul, toCstr_of_free ht.no_nul, toCstr_of_free hnul]
    rw [shown, shown, hcut, List.dropWhile_append]
    split
    · rename_i hnil
      left
      rw [List.isEmpty_iff.mp hnil]
      exact List.dropWhile_eq_nil_iff.mpr ht
    · exact Or.inr rfl

section Strtoll

theorem takeWhile_isDigit_blanks {t : Bytes} (ht : Blanks t) (s : Bytes) :
    (s ++ t).takeWhile isDigit = s.takeWhile isDigit := by
  induction s with
  | nil =>
    cases t with
    | nil => rfl
    | cons c t =>
      have hc : isDigit c = false := by
        by_contra hdigit
        have hspace := (not_isSpace_of_isDigit (Bool.not_eq_false _ ▸ hdigit)).1
        rw [isSpace_of_isBlank (ht c List.mem_cons_self)] at hspace
        exact absurd hspace (by decide)
      rw [List.nil_append, List.takeWhile_cons_of_neg (by simp [hc]), List.takeWhile_nil]
  | cons c s ih =>
    by_cases hc : isDigit c = true
    · rw [List.cons_append, List.takeWhile_cons_of_pos hc, List.takeWhile_cons_of_pos hc, ih]
    · rw [List.cons_append, List.takeWhile_cons_of_neg hc, List.takeWhile_cons_of_neg hc]

/-- `strtoll` reads the same number with and without blanks behind it. -/
theorem strtoll_blanks {t : Bytes} (ht : Blanks t) (p : Bytes) :
    (strtoll (p ++ t)).1 = (strtoll p).1 ∧ ((strtoll (p ++ t)).2 = 0 ↔ (strtoll p).2 = 0) := by
  have hscan : (unsigned ((p ++ t).dropWhile isSpace)).takeWhile isDigit =
        (unsigned (p.dropWhile isSpace)).takeWhile isDigit ∧
      ((p ++ t).dropWhile isSpace).head? = (p.dropWhile isSpace).head? := by
    have hspaces : t.dropWhile isSpace = [] :=
      List.dropWhile_eq_nil_iff.mpr fun c hc => isSpace_of_isBlank (ht c hc)
    rw [List.dropWhile_append]
    cases hs : p.dropWhile isSpace with
    | nil => simp [hspaces]
    | cons c s =>
      have hsign (r : Bytes) : unsigned (c :: r) = if c = 45 ∨ c = 43 then r else c :: r := by
        simp [unsigned]
      rw [List.isEmpty_cons, if_neg Bool.false_ne_true, List.cons_append, hsign, hsign]
      refine ⟨?_, rfl⟩
      split
      · exact takeWhile_isDigit_blanks ht s
      · exact takeWhile_isDigit_blanks ht (c :: s)
  rcases strtoll_cases (p ++ t) with ⟨hno, h⟩ | ⟨hsome, hoff, hval⟩
  · rcases strtoll_cases p with ⟨-, h'⟩ | ⟨hsome', -⟩
    · rw [h, h']
      exact ⟨rfl, Iff.rfl⟩
    · exact absurd (hscan.1 ▸ hno) hsome'
  · rcases strtoll_cases p with ⟨hno', -⟩ | ⟨-, hoff', hval'⟩
    · exact absurd (hscan.1.trans hno') hsome
    · rw [hscan.1, hscan.2, ← hval'] at hval
      exact ⟨hval, iff_of_false hoff hoff'⟩

end Strtoll

/-- What the parser of a field makes of a value `http_hdr_parse_value` hands it. -/
def typedValue (field : HttpHeaderField) (v : Bytes) : HttpErr × HttpHdrValue :=
  parseTypedValue field ⟨v, true, .content 0⟩

theorem newHeader_taken {k v : Bytes} (h : (typedValue (httpMatchHeaderField k) v).1 = .success) :
    (newHeader k v).2.field = httpMatchHeaderField k ∧
      (newHeader k v).2.value = (typedValue (httpMatchHeaderField k) v).2 := by
  unfold typedValue at h ⊢
  by_cases hname : httpMatchHeaderField k = .unkown
  · rw [hname] at h ⊢
    simp [newHeader, httpHdrParseValue, HttpHeader.zero, hname, h]
  · simp [newHeader, httpHdrParseValue, HttpHeader.zero, hname, h]

theorem newHeader_refused {k v : Bytes}
    (h : (typedValue (httpMatchHeaderField k) v).1 ≠ .success) :
    (newHeader k v).2.field = .unkown := by
  unfold typedValue at h
  by_cases hname : httpMatchHeaderField k = .unkown
  · rw [hname] at h
    exact absurd rfl h
  · simp [newHeader, httpHdrParseValue, HttpHeader.zero, hname, h]

/-- The two headers are the same field and frame the body alike. -/
structure HttpHeader.Alike (h h' : HttpHeader) : Prop where
  field : h.field = h'.field
  frame : ∀ f, h.frame f = h'.frame f

/-- The parser of a field takes both values or neither, and reads the same in them. -/
structure ReadsAlike (field : HttpHeaderField) (v v' : Bytes) : Prop where
  taken : (typedValue field v).1 = .success ↔ (typedValue field v').1 = .success
  parsed : field ≠ .contentType → (typedValue field v).2.parsed = (typedValue field v').2.parsed

theorem readsAlike_refl (field : HttpHeaderField) (v : Bytes) : ReadsAlike field v v :=
  ⟨Iff.rfl, fun _ => rfl⟩

theorem frame_of_unkown {h : HttpHeader} (hf : h.field = .unkown) (f : Framing) : h.frame f = f := by
  rw [HttpHeader.frame, hf]

theorem typedValue_hasParsedType {field : HttpHeaderField} (hf : field = .contentLength ∨
    field = .transferEncoding) (v : Bytes) : (typedValue field v).2.hasParsedType = true := by
  rcases hf with rfl | rfl
  · simp only [typedValue, parseTypedValue, httpHdrValueParseContentLength]
    split <;> rfl
  · simp only [typedValue, parseTypedValue, httpHdrValueParseTransferEncoding]
    split <;> rfl

theorem newHeader_alike {k k' v v' : Bytes} (hk : httpMatchHeaderField k = httpMatchHeaderField k')
    (hv : ReadsAlike (httpMatchHeaderField k) v v') :
    (newHeader k v).2.Alike (newHeader k' v').2 := by
  by_cases htaken : (typedValue (httpMatchHeaderField k) v).1 = .success
  · have htaken' : (typedValue (httpMatchHeaderField k') v').1 = .success := by
      rw [← hk]
      exact hv.taken.mp htaken
    obtain ⟨hfield, hvalue⟩ := newHeader_taken htaken
    obtain ⟨hfield', hvalue'⟩ := newHeader_taken htaken'
    refine ⟨by rw [hfield, hfield', hk], ?_⟩
    intro f
    have hparsed := hv.parsed
    rw [← hk] at hfield' hvalue'
    rw [HttpHeader.frame, HttpHeader.frame, hfield, hfield', hvalue, hvalue']
    cases hf : httpMatchHeaderField k with
    | contentLength =>
      rw [hf] at hparsed
      simp only [typedValue_hasParsedType (Or.inl rfl), if_true, hparsed (by decide)]
    | transferEncoding =>
      rw [hf] at hparsed
      simp only [typedValue_hasParsedType (Or.inr rfl), hparsed (by decide)]
    | _ => rfl
  · have htaken' : ¬ (typedValue (httpMatchHeaderField k') v').1 = .success := by
      rw [← hk]
      exact fun h => htaken (hv.taken.mpr h)
    have hfield := newHeader_refused htaken
    have hfield' := newHeader_refused htaken'
    refine ⟨by rw [hfield, hfield'], ?_⟩
    intro f
    rw [frame_of_unkown hfield, frame_of_unkown hfield']

section Values

variable {s s' t t' v : Bytes}

theorem contentLength_shown (v : Bytes) : typedValue .contentLength v =
    if (strtoll (shown v)).2 = 0 then (.parseInvalidContentLength, ⟨v, true, .content 0⟩)
    else (.success, ⟨v, true, .content (strtoll (shown v)).1⟩) := rfl

/-- A length is read past any blanks. -/
theorem contentLength_alike (hs : Blanks s) (hs' : Blanks s') (ht : Blanks t) (ht' : Blanks t') :
    ReadsAlike .contentLength (s ++ (v ++ t)) (s' ++ (v ++ t')) := by
  have hread {s t : Bytes} (hs : Blanks s) (ht : Blanks t) :
      (strtoll (shown (s ++ (v ++ t)))).1 = (strtoll (shown v)).1 ∧
        ((strtoll (shown (s ++ (v ++ t)))).2 = 0 ↔ (strtoll (shown v)).2 = 0) := by
    rw [shown_blanks hs]
    rcases shown_append ht v with h | h
    · rw [h]
      exact ⟨rfl, Iff.rfl⟩
    · rw [h]
      exact strtoll_blanks ht (shown v)
  obtain ⟨hval, hoff⟩ := hread hs ht
  obtain ⟨hval', hoff'⟩ := hread hs' ht'
  constructor
  · simp only [contentLength_shown, hoff, hoff']
    split
    · simp
    · simp
  · intro _
    simp only [contentLength_shown, hoff, hoff', hval, hval']
    split
    · rfl
    · rfl

/-- The names `contentTypeMajorOf` knows. -/
def knownMajors : List Bytes :=
  [ascii ['t', 'e', 'x', 't'], ascii ['a', 'p', 'p', 'l', 'i', 'c', 'a', 't', 'i', 'o', 'n'],
    ascii ['i', 'm', 'a', 'g', 'e'], ascii ['a', 'u', 'd', 'i', 'o'], ascii ['v', 'i', 'd', 'e', 'o']]

theorem contentTypeMajorOf_mem {m : Bytes} (h : contentTypeMajorOf m ≠ .unkown) :
    m ∈ knownMajors := by
  by_contra hno
  simp only [knownMajors, List.mem_cons, List.not_mem_nil, or_false, not_or] at hno
  obtain ⟨h1, h2, h3, h4, h5⟩ := hno
  exact h (by rw [contentTypeMajorOf, if_neg h1, if_neg h2, if_neg h3, if_neg h4, if_neg h5])

/-- What the parser of a content type makes of a value by what is left of it as a C string. -/
theorem contentType_shown (v v' : Bytes) (h : shown v = shown v') :
    ReadsAlike .contentType v v' := by
  refine ⟨?_, fun hne => absurd rfl hne⟩
  unfold shown at h
  simp only [typedValue, parseTypedValue, httpHdrValueParseContentType, h]
  split
  · exact Iff.rfl
  · simp only [apply_ite Prod.fst]

/-- The values that the parsers of Connection and Transfer-Encoding compare with. -/
def knownValues : HttpHeaderField → List Bytes
  | .connection => [ascii ['k', 'e', 'e', 'p', '-', 'a', 'l', 'i', 'v', 'e'],
      ascii ['c', 'l', 'o', 's', 'e']]
  | .transferEncoding => [ascii ['c', 'h', 'u', 'n', 'k', 'e', 'd']]
  | _ => []

theorem knownValues_plain {field : HttpHeaderField} {e : Bytes} (he : e ∈ knownValues field) :
    0 ∉ e ∧ e.length < 2 ^ 32 ∧ e ≠ [] ∧ ∀ d ∈ e, isBlank d = false := by
  have hall : ∀ field, field = .connection ∨ field = .transferEncoding → ∀ e ∈ knownValues field,
      0 ∉ e ∧ e.length < 2 ^ 32 ∧ e ≠ [] ∧ ∀ d ∈ e, isBlank d = false := by
    rintro field (rfl | rfl)
    · decide +kernel
    · decide +kernel
  cases field with
  | connection => exact hall .connection (Or.inl rfl) e he
  | transferEncoding => exact hall .transferEncoding (Or.inr rfl) e he
  | _ => simp [knownValues] at he

/-- A value that looks like none of its field's is in no table of them. -/
theorem find?_refused {α : Type} {field : HttpHeaderField} {table : List (α × Bytes)}
    (hvalues : ∀ e ∈ table, e.2 ∈ knownValues field) {u : Bytes}
    (h : ∀ e ∈ knownValues field, ¬ LooksLike u e) :
    table.find? (fun e => stringViewCompare u e.2 = 0) = none := by
  have hplain (e : α × Bytes) (he : e ∈ table) : 0 ∉ e.2 ∧ e.2.length < 2 ^ 32 :=
    ⟨(knownValues_plain (hvalues e he)).1, (knownValues_plain (hvalues e he)).2.1⟩
  rcases find?_looksLike hplain u with ⟨e, he, hlike, -⟩ | ⟨-, hnone⟩
  · exact absurd hlike (h e.2 (hvalues e he))
  · exact hnone

theorem connection_refused {u : Bytes} (h : ∀ e ∈ knownValues .connection, ¬ LooksLike u e) :
    typedValue .connection u = (.parseUnkownConnectionType, ⟨u, true, .connection .unkown⟩) := by
  have hvalues : ∀ e ∈ [(ConnectionType.keepAlive,
      ascii ['k', 'e', 'e', 'p', '-', 'a', 'l', 'i', 'v', 'e']),
      (.close, ascii ['c', 'l', 'o', 's', 'e'])], e.2 ∈ knownValues .connection := by decide
  simp only [typedValue, parseTypedValue, httpHdrValueParseConnection]
  exact find?_refused hvalues h ▸ rfl

theorem transferEncoding_refused {u : Bytes}
    (h : ∀ e ∈ knownValues .transferEncoding, ¬ LooksLike u e) : typedValue .transferEncoding u =
      (.parseUnkownTransferEncoding, ⟨u, true, .transferEncoding .unkown⟩) := by
  have hvalues : ∀ e ∈ [(TransferEncodingType.chunked,
      ascii ['c', 'h', 'u', 'n', 'k', 'e', 'd'])], e.2 ∈ knownValues .transferEncoding := by decide
  simp only [typedValue, parseTypedValue, httpHdrValueParseTransferEncoding]
  exact find?_refused hvalues h ▸ rfl

end Values

end LiteHttp
