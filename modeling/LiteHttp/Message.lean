import LiteHttp.ContentLength
import LiteHttp.HeaderBlock

/-!
# Well-formed requests and the nodes that read them

A request by its parts, its bytes, and what a client should get for it. The node
in front of a line of such a message, and the node in front of its body, are
functions of the bytes received.
-/

namespace LiteHttp

open Delim

set_option autoImplicit false

def contentLengthName : Bytes :=
  ascii ['C', 'o', 'n', 't', 'e', 'n', 't', '-', 'L', 'e', 'n', 'g', 't', 'h']

def transferEncodingName : Bytes :=
  ascii ['T', 'r', 'a', 'n', 's', 'f', 'e', 'r', '-', 'E', 'n', 'c', 'o', 'd', 'i', 'n', 'g']

def decimal (n : Nat) : Bytes := ascii (Nat.toDigits 10 n)

/-- A well-formed request, with any number of header lines. The body may hold any bytes. -/
structure WireRequest where
  method : Bytes
  path : Bytes
  version : Bytes
  headers : List (Bytes × Bytes)
  body : Bytes
  method_free : CrlfFree method
  path_free : CrlfFree path
  version_free : CrlfFree version
  method_token : space ∉ method
  path_token : space ∉ path
  headers_free : ∀ h ∈ headers, CrlfFree h.1 ∧ CrlfFree h.2
  names : ∀ h ∈ headers, colon ∉ h.1
  not_chunked : ∀ h ∈ headers, h.1 ≠ transferEncodingName
  length_value : ∀ h ∈ headers, h.1 = contentLengthName → h.2 = decimal body.length
  length_given : body ≠ [] → ∃ h ∈ headers, h.1 = contentLengthName

def bareGet : WireRequest where
  method := ascii "GET".toList
  path := ascii "/".toList
  version := ascii "HTTP/1.1".toList
  headers := []
  body := []
  method_free := by decide +kernel
  path_free := by decide +kernel
  version_free := by decide +kernel
  method_token := by decide +kernel
  path_token := by decide +kernel
  headers_free := by simp
  names := by simp
  not_chunked := by simp
  length_value := by simp
  length_given := by simp

def headerLine (h : Bytes × Bytes) : Bytes := h.1 ++ colon :: space :: h.2

namespace WireRequest

variable (m : WireRequest)

def requestLine : Bytes := m.method ++ space :: (m.path ++ space :: m.version)

def lines : List Bytes := m.headers.map headerLine

/-- The request line, the header lines and the blank line. -/
def head : Bytes := unlines cr lf (m.requestLine :: m.lines) ++ [cr, lf]

def bytes : Bytes := m.head ++ m.body

theorem bytes_ne_nil : m.bytes ≠ [] := by simp [bytes, head]

/-- What the pop should return. -/
def request : HttpRequest where
  method := httpMatchMethod m.method
  path := m.path
  version := httpMatchVersion m.version
  headerList := m.headers.map fun h => (newHeader h.1 h.2).2
  body := m.body

theorem requestLine_free : CrlfFree m.requestLine := by
  have hspace : space ≠ cr := by decide
  have hjoin (t : Bytes) : (space :: t).head? ≠ some lf := by simp [space, lf]
  refine m.method_free.append_of_ne (Free.cons_of_ne hspace ?_) (hjoin _)
  exact m.path_free.append_of_ne (Free.cons_of_ne hspace m.version_free) (hjoin _)

theorem headerLine_free {h : Bytes × Bytes} (hh : h ∈ m.headers) :
    headerLine h ≠ [] ∧ CrlfFree (headerLine h) := by
  obtain ⟨hname, hvalue⟩ := m.headers_free h hh
  have hcolon : colon ≠ cr := by decide
  have hspace : space ≠ cr := by decide
  have hjoin : (colon :: space :: h.2).head? ≠ some lf := by simp [colon, lf]
  refine ⟨by simp [headerLine], hname.append_of_ne ?_ hjoin⟩
  exact Free.cons_of_ne hcolon (Free.cons_of_ne hspace hvalue)

theorem lines_free : ∀ l ∈ m.lines, l ≠ [] ∧ CrlfFree l := by
  intro l hl
  obtain ⟨h, hh, rfl⟩ := List.mem_map.mp hl
  exact m.headerLine_free hh

theorem length_lines : m.lines.length = m.headers.length := List.length_map _

theorem header_length_le {h : Bytes × Bytes} (hh : h ∈ m.headers) :
    h.1.length + h.2.length < m.head.length := by
  have hmem : headerLine h ∈ m.requestLine :: m.lines :=
    List.mem_cons_of_mem _ (List.mem_map.mpr ⟨h, hh, rfl⟩)
  have hle := length_le_unlines (a := cr) (b := lf) hmem
  simp only [headerLine, List.length_append, List.length_cons] at hle
  simp only [head, List.length_append, List.length_cons, List.length_nil]
  omega

end WireRequest

theorem splitHeader_headerLine {h : Bytes × Bytes} (hname : colon ∉ h.1) (hlen : h.2.length ≤ npos) :
    splitHeader (headerLine h) = some h := splitHeader_colon hname (by simp) hlen

theorem httpMatchHeaderField_mem {k : Bytes} (h : httpMatchHeaderField k ≠ .unkown) :
    ∃ e ∈ httpHdrDef, httpMatchHeaderField k = e.1 ∧ stringViewCompare k e.2 = 0 := by
  unfold httpMatchHeaderField at h ⊢
  cases hf : httpHdrDef.find? fun e => stringViewCompare k e.2 = 0 with
  | none => simp [hf] at h
  | some e => exact ⟨e, List.mem_of_find?_eq_some hf, rfl, by simpa using List.find?_some hf⟩

/-- A name of ordinary length is matched to a field of the table by being its name. -/
theorem httpMatchHeaderField_name {k : Bytes} (hk : k.length < 2 ^ 31)
    (h : httpMatchHeaderField k ≠ .unkown) : (httpMatchHeaderField k, k) ∈ httpHdrDef := by
  obtain ⟨e, he, hfield, hcmp⟩ := httpMatchHeaderField_mem h
  have htable : ∀ e ∈ httpHdrDef, e.2.length < 2 ^ 31 ∧ (0 : Byte) ∉ e.2 := by decide
  obtain ⟨hlen, hnul⟩ := htable e he
  rw [hfield, (stringViewCompare_eq_zero_iff hk hlen hnul).mp hcmp]
  exact he

theorem isDigit_toUInt8 {c : Char} (hc : c.isDigit = true) :
    isDigit c.toUInt8 = true ∧ c.toUInt8.toNat = c.toNat := by
  have hrange : 48 ≤ c.toNat ∧ c.toNat ≤ 57 := by
    simp only [Char.isDigit, Bool.and_eq_true, decide_eq_true_eq, ge_iff_le,
      UInt32.le_iff_toNat_le] at hc
    exact hc
  have hnat : c.toUInt8.toNat = c.toNat := by
    rw [Char.toUInt8, UInt32.toNat_toUInt8]
    exact Nat.mod_eq_of_lt (by unfold Char.toNat at hrange; omega)
  refine ⟨?_, hnat⟩
  simp only [isDigit, Bool.and_eq_true, decide_eq_true_eq, UInt8.le_iff_toNat_le, hnat]
  exact hrange

theorem decimalValue_decimal (n : Nat) : decimalValue (decimal n) = n := by
  have hfold (cs : List Char) (hcs : ∀ c ∈ cs, c.isDigit = true) (k : Nat) :
      (ascii cs).foldl (fun n c => 10 * n + (c.toNat - 48)) k = Nat.ofDigitChars 10 cs k := by
    induction cs generalizing k with
    | nil => rfl
    | cons c cs ih =>
      rw [List.forall_mem_cons] at hcs
      have := ih hcs.2 (10 * k + (c.toNat - 48))
      simpa [ascii, Nat.ofDigitChars, (isDigit_toUInt8 hcs.1).2] using this
  rw [decimalValue, decimal, hfold _ fun c hc => Nat.isDigit_of_mem_toDigits (by decide) (by decide) hc]
  exact Nat.ofDigitChars_ten_toDigits

theorem decimal_ne_nil (n : Nat) : decimal n ≠ [] := by
  rw [decimal, ascii, ne_eq, List.map_eq_nil_iff]
  exact Nat.toDigits_ne_nil

theorem isDigit_of_mem_decimal {n : Nat} {c : Byte} (hc : c ∈ decimal n) : isDigit c = true := by
  obtain ⟨d, hd, rfl⟩ := List.mem_map.mp hc
  exact (isDigit_toUInt8 (Nat.isDigit_of_mem_toDigits (by decide) (by decide) hd)).1

theorem canonical_decimal {n : Nat} (hn : (n : Int) ≤ int64Max) :
    Canonical (decimal n) ∧ digitsOf (decimal n) = decimal n := by
  have hdigits : ∀ c ∈ decimal n, isDigit c = true := fun c hc => isDigit_of_mem_decimal hc
  have hne := decimal_ne_nil n
  have hself : digitsOf (decimal n) = decimal n := by
    obtain ⟨d, ds, hds⟩ := List.exists_cons_of_ne_nil hne
    have hd := hdigits d (hds ▸ List.mem_cons_self)
    have hblank : isBlank d = false := by
      by_contra hb
      have := isSpace_of_isBlank (by simpa using hb)
      rw [(not_isSpace_of_isDigit hd).1] at this
      simp at this
    rw [digitsOf, hds, List.dropWhile_cons_of_neg (by simp [hblank])]
  refine ⟨?_, hself⟩
  rw [Canonical, hself, decimalValue_decimal]
  exact ⟨hne, hdigits, hn⟩

theorem frame_of_framing {h : HttpHeader} {n : Nat} (hf : h.framing = some (.fixed, n))
    (f : Framing) : h.frame f = ⟨.fixed, n⟩ := by
  unfold HttpHeader.framing at hf
  unfold HttpHeader.frame
  cases hfield : h.field with
  | contentLength =>
    simp only [hfield] at hf ⊢
    split at hf
    · rename_i hp
      simp only [Option.some.injEq, Prod.mk.injEq, true_and] at hf
      rw [if_pos hp, hf]
    · simp at hf
  | transferEncoding =>
    simp only [hfield] at hf
    split at hf <;> simp at hf
  | _ => simp [hfield] at hf

theorem frame_of_field {h : HttpHeader} (hc : h.field ≠ .contentLength)
    (ht : h.field ≠ .transferEncoding) (f : Framing) : h.frame f = f := by
  unfold HttpHeader.frame
  cases hfield : h.field with
  | contentLength => exact absurd hfield hc
  | transferEncoding => exact absurd hfield ht
  | _ => rfl

namespace WireRequest

variable (m : WireRequest)

/-- What the header lines of a well-formed request say about its body. -/
def framing : Framing :=
  if ∃ h ∈ m.headers, h.1 = contentLengthName then ⟨.fixed, m.body.length⟩ else .none

section Sized

variable {m} (hsize : m.bytes.length < 2 ^ 30)
include hsize

theorem head_length_lt : m.head.length < 2 ^ 30 := by
  rw [bytes, List.length_append] at hsize
  omega

theorem body_length_lt : m.body.length < 2 ^ 30 := by
  rw [bytes, List.length_append] at hsize
  omega

theorem splitHeader_line {h : Bytes × Bytes} (hh : h ∈ m.headers) :
    splitHeader (headerLine h) = some h := by
  have hlen := m.header_length_le hh
  have hhead := head_length_lt hsize
  exact splitHeader_headerLine (m.names h hh) (by unfold npos sizeMod; omega)

theorem parsedHeader_line {h : Bytes × Bytes} (hh : h ∈ m.headers) :
    parsedHeader (headerLine h) = some (newHeader h.1 h.2).2 := by
  rw [parsedHeader, headerOf_eq, splitHeader_line hsize hh]
  rfl

theorem filterMap_lines : m.lines.filterMap parsedHeader = m.request.headerList := by
  rw [lines, List.filterMap_map, request, ← List.filterMap_eq_map]
  exact List.filterMap_congr fun h hh => parsedHeader_line hsize hh

theorem frameLine_line {h : Bytes × Bytes} (hh : h ∈ m.headers) (f : Framing) :
    frameLine (headerLine h) f =
      if h.1 = contentLengthName then ⟨.fixed, m.body.length⟩ else f := by
  have hframe : frameLine (headerLine h) f = (newHeader h.1 h.2).2.frame f := by
    rw [frameLine, headerOf_eq, splitHeader_line hsize hh]
    rfl
  rw [hframe]
  have hbody := body_length_lt hsize
  by_cases hlength : h.1 = contentLengthName
  · have hmax : (m.body.length : Int) ≤ int64Max := by unfold int64Max; omega
    obtain ⟨hcan, hself⟩ := canonical_decimal hmax
    obtain ⟨hsome, hval⟩ := strtoll_canonical hcan
    have hmatch : httpMatchHeaderField h.1 = .contentLength := by rw [hlength]; decide
    have hframing := newHeader_contentLength hmatch h.2
    rw [m.length_value h hh hlength, if_neg hsome, hval, hself, decimalValue_decimal] at hframing
    have hmod : ((m.body.length : Int) % (sizeMod : Int)).toNat = m.body.length := by
      unfold sizeMod
      omega
    rw [hmod, ← m.length_value h hh hlength] at hframing
    rw [if_pos hlength, frame_of_framing hframing]
  · rw [if_neg hlength]
    have hname : h.1.length < 2 ^ 31 := by
      have := m.header_length_le hh
      have := head_length_lt hsize
      omega
    have hfield (field : HttpHeaderField) (hne : field ≠ .unkown) (hother : (field, h.1) ∉ httpHdrDef) :
        (newHeader h.1 h.2).2.field ≠ field := by
      rcases newHeader_field h.1 h.2 with hn | hn
      · rw [hn]
        exact hne.symm
      · rw [hn]
        rintro rfl
        exact hother (httpMatchHeaderField_name hname hne)
    have htable (field : HttpHeaderField) (name : Bytes)
        (hentry : ∀ e ∈ httpHdrDef, e.1 = field → e.2 = name) (hne : h.1 ≠ name) :
        (field, h.1) ∉ httpHdrDef := fun hmem => hne (hentry _ hmem rfl)
    apply frame_of_field
    · exact hfield _ (by decide) (htable _ _ (by decide) hlength)
    · exact hfield _ (by decide) (htable _ _ (by decide) (m.not_chunked h hh))

theorem framing_lines : m.lines.foldl (fun f l => frameLine l f) .none = m.framing := by
  have hfold (hs : List (Bytes × Bytes)) (hsub : ∀ h ∈ hs, h ∈ m.headers) (f : Framing) :
      (hs.map headerLine).foldl (fun f l => frameLine l f) f =
        if ∃ h ∈ hs, h.1 = contentLengthName then ⟨.fixed, m.body.length⟩ else f := by
    induction hs generalizing f with
    | nil => simp
    | cons h hs ih =>
      rw [List.forall_mem_cons] at hsub
      rw [List.map_cons, List.foldl_cons, frameLine_line hsize hsub.1, ih hsub.2]
      simp only [List.mem_cons, exists_eq_or_imp]
      by_cases hlength : h.1 = contentLengthName
      · simp [hlength]
      · rw [if_neg hlength]
        exact if_congr (or_iff_right hlength).symm rfl rfl
  exact hfold m.headers (fun _ hh => hh) .none

end Sized

theorem framing_cases : m.framing = ⟨.fixed, m.body.length⟩ ∨ (m.framing = .none ∧ m.body = []) := by
  unfold framing
  split
  · exact Or.inl rfl
  · rename_i hno
    exact Or.inr ⟨rfl, by_contra fun hb => hno (m.length_given hb)⟩

end WireRequest

end LiteHttp
