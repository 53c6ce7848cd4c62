import LiteHttp.ContentType

/-!
# Which header line decides about the connection

The value of a header is a union whose member belongs to the field. The parsers of
http_types.c write it, `header_line_update_body_type` reads it, and its case of Content-Type
reads the member of Connection: a media type comes out as a verdict on the connection, and
no Connection header ever does.
-/

namespace LiteHttp

open Trim

set_option autoImplicit false

inductive UnionMember where
  | content
  | contentType
  | connection
  | transferEncoding
  deriving DecidableEq, Repr

/-- The member written last. -/
def HdrUnion.written : HdrUnion → UnionMember
  | .content _ => .content
  | .contentType _ _ => .contentType
  | .connection _ => .connection
  | .transferEncoding _ => .transferEncoding

/-- The union looks the same through a member; all but `content` are enumerators at its start. -/
def HdrUnion.SameIn (m : UnionMember) (u u' : HdrUnion) : Prop :=
  match m with
  | .content => u.contentLength = u'.contentLength
  | _ => u.firstWord = u'.firstWord

/-- The member that `header_line_update_body_type` reads. -/
def memberRead (header : HttpHeader) : Option UnionMember :=
  if header.value.hasParsedType then
    match header.field with
    | .contentLength => some .content
    | .transferEncoding => some .transferEncoding
    | .contentType => some .connection
    | _ => none
  else none

def HttpHeader.withUnion (header : HttpHeader) (u : HdrUnion) : HttpHeader :=
  { header with value := { header.value with parsed := u } }

/-- Nothing else of the union is read. -/
theorem headerLineUpdateBodyType_congr {header : HttpHeader} {u : HdrUnion}
    (h : ∀ m ∈ memberRead header, u.SameIn m header.value.parsed) (ctx : HttpParseCtx) :
    headerLineUpdateBodyType (header.withUnion u) ctx = headerLineUpdateBodyType header ctx := by
  obtain ⟨field, ⟨valueSv, parsed?, union⟩, name⟩ := header
  cases parsed? with
  | false =>
    cases field with
    | contentLength => rfl
    | transferEncoding => simp [headerLineUpdateBodyType, HttpHeader.withUnion]
    | contentType => rfl
    | _ => rfl
  | true =>
    cases field with
    | contentLength =>
      have hsame : u.contentLength = union.contentLength := h .content rfl
      simp only [headerLineUpdateBodyType, HttpHeader.withUnion, hsame]
    | transferEncoding =>
      have hsame : u.firstWord = union.firstWord := h .transferEncoding rfl
      simp only [headerLineUpdateBodyType, HttpHeader.withUnion, hsame]
    | contentType =>
      have hsame : u.firstWord = union.firstWord := h .connection rfl
      simp only [headerLineUpdateBodyType, HttpHeader.withUnion, hsame]
    | _ => rfl

def keepAliveValue : Bytes := ascii ['k', 'e', 'e', 'p', '-', 'a', 'l', 'i', 'v', 'e']
def closeValue : Bytes := ascii ['c', 'l', 'o', 's', 'e']

/-- The line is a Connection header with the value `e`. -/
def ConnectionIs (keySv valueSv e : Bytes) : Prop :=
  httpMatchHeaderField keySv = .connection ∧ valueSv = e

/-- The line is a Content-Type header whose first name is `m`. -/
def TypeNamed (keySv valueSv m : Bytes) : Prop :=
  httpMatchHeaderField keySv = .contentType ∧
    ∃ s gap r, toCstr valueSv = s ++ (m ++ (gap ++ 47 :: r)) ∧ Blanks s ∧ Blanks gap

/-- The line is a Content-Type header with a known name on a side of its first slash. -/
def TypeTaken (keySv valueSv : Bytes) : Prop :=
  httpMatchHeaderField keySv = .contentType ∧
    ∃ a b, toCstr valueSv = a ++ 47 :: b ∧ 47 ∉ a ∧
      (contentTypeMajorOf (trim isBlank a) ≠ .unkown ∨ contentTypeSubOf (subStr b) ≠ .unknown)

/-- The verdict on the connection is that of a Connection header. -/
structure OnlyConnection (keySv valueSv : Bytes) (ctx : HttpParseCtx) : Prop where
  keep_alive : (headerLineUpdateBodyType (newHeader keySv valueSv).2 ctx).1 = .requestKeepAlive ↔
    ConnectionIs keySv valueSv keepAliveValue
  want_to_close : (headerLineUpdateBodyType (newHeader keySv valueSv).2 ctx).1 =
    .requestWantToClose ↔ ConnectionIs keySv valueSv closeValue

/-- The member that is read is the one that was written. -/
def ReadsWritten (header : HttpHeader) : Prop :=
  ∀ m ∈ memberRead header, header.value.parsed.written = m

theorem contentType_taken_iff (v : Bytes) : (typedValue .contentType v).1 = .success ↔
    ∃ a b, toCstr v = a ++ 47 :: b ∧ 47 ∉ a ∧
      (contentTypeMajorOf (trim isBlank a) ≠ .unkown ∨ contentTypeSubOf (subStr b) ≠ .unknown) := by
  constructor
  · intro h
    have hslash : 47 ∈ toCstr v := by
      by_contra hno
      rw [typedValue, parseTypedValue, parseContentType_noSlash hno] at h
      cases h
    obtain ⟨a, b, hv, ha⟩ := List.eq_append_cons_of_mem hslash
    exact ⟨a, b, hv, ha, (parse_success_iff hv ha).mp h⟩
  · intro h
    obtain ⟨a, b, hv, ha, hknown⟩ := h
    exact (parse_success_iff hv ha).mpr hknown

theorem contentLength_written (v : Bytes) :
    (typedValue .contentLength v).2.parsed.written = .content := by
  rw [contentLength_shown]
  split
  · rfl
  · rfl

theorem transferEncoding_written (v : Bytes) :
    (typedValue .transferEncoding v).2.parsed.written = .transferEncoding := by
  simp only [typedValue, parseTypedValue, httpHdrValueParseTransferEncoding]
  split
  · rfl
  · rfl

def textName : Bytes := ascii ['t', 'e', 'x', 't']
def applicationName : Bytes := ascii ['a', 'p', 'p', 'l', 'i', 'c', 'a', 't', 'i', 'o', 'n']

theorem contentTypeMajorOf_iff (m : Bytes) : (contentTypeMajorOf m = .text ↔ m = textName) ∧
    (contentTypeMajorOf m = .application ↔ m = applicationName) := by
  have hknown : ∀ m ∈ knownMajors, (contentTypeMajorOf m = .text → m = textName) ∧
      (contentTypeMajorOf m = .application → m = applicationName) := by decide +kernel
  constructor
  · constructor
    · intro h
      exact (hknown m (contentTypeMajorOf_mem (by simp [h]))).1 h
    · rintro rfl
      decide
  · constructor
    · intro h
      exact (hknown m (contentTypeMajorOf_mem (by simp [h]))).2 h
    · rintro rfl
      decide

/-- A first name is what stands in front of the first slash, between blanks. -/
theorem typeNamed_iff {k v a b m : Bytes} (hk : httpMatchHeaderField k = .contentType)
    (hv : toCstr v = a ++ 47 :: b) (ha : 47 ∉ a) (hm : 47 ∉ m ∧ ∀ c ∈ m, isBlank c = false) :
    TypeNamed k v m ↔ trim isBlank a = m := by
  constructor
  · intro h
    obtain ⟨-, s, gap, r, heq, hs, hgap⟩ := h
    have hfree : 47 ∉ s ++ (m ++ gap) := by
      rw [List.mem_append, List.mem_append, not_or, not_or]
      exact ⟨hs.not_mem rfl, hm.1, hgap.not_mem rfl⟩
    have hcut : (s ++ (m ++ gap)) ++ 47 :: r = a ++ 47 :: b := by
      rw [← hv, heq, List.append_assoc, List.append_assoc]
    rw [← (cut_unique hfree ha hcut).1]
    exact trim_pad hs hm.2 hgap
  · intro h
    obtain ⟨s, t, hs, ht, hparts⟩ := trim_parts isBlank a
    refine ⟨hk, s, t, b, ?_, hs, ht⟩
    rw [hv, ← h, ← List.append_assoc (trim isBlank a), ← List.append_assoc s, ← hparts]

/-- The verdict on a Content-Type line is by its first name. -/
theorem verdict_contentType {k v : Bytes} (hk : httpMatchHeaderField k = .contentType)
    (ctx : HttpParseCtx) :
    ((headerLineUpdateBodyType (newHeader k v).2 ctx).1 = .requestKeepAlive ↔
        TypeNamed k v textName) ∧
      ((headerLineUpdateBodyType (newHeader k v).2 ctx).1 = .requestWantToClose ↔
        TypeNamed k v applicationName) := by
  have htext : 47 ∉ textName ∧ ∀ c ∈ textName, isBlank c = false := by decide +kernel
  have happlication : 47 ∉ applicationName ∧ ∀ c ∈ applicationName, isBlank c = false := by
    decide +kernel
  by_cases htaken : (typedValue .contentType v).1 = .success
  · obtain ⟨hfield, hvalue⟩ := newHeader_taken (hk ▸ htaken)
    obtain ⟨a, b, hv, ha, -⟩ := (contentType_taken_iff v).mp htaken
    rw [hk, typedValue, parseTypedValue, parseContentType_slash hv ha] at hvalue
    rw [hk] at hfield
    rw [typeNamed_iff hk hv ha htext, typeNamed_iff hk hv ha happlication,
      ← (contentTypeMajorOf_iff _).1, ← (contentTypeMajorOf_iff _).2]
    simp only [headerLineUpdateBodyType, hfield, hvalue, HdrUnion.firstWord]
    cases contentTypeMajorOf (trim isBlank a) with
    | _ => simp [ContentTypeMajor.toNat, ConnectionType.toNat]
  · have hfield := newHeader_refused (hk.symm ▸ htaken)
    have hnot {m : Bytes} (hm : contentTypeMajorOf m ≠ .unkown)
        (hplain : 47 ∉ m ∧ ∀ c ∈ m, isBlank c = false) : ¬ TypeNamed k v m := by
      intro h
      have hslash : 47 ∈ toCstr v := by
        obtain ⟨-, s, gap, r, heq, -⟩ := h
        rw [heq]
        simp
      obtain ⟨a, b, hv, ha⟩ := List.eq_append_cons_of_mem hslash
      rw [typeNamed_iff hk hv ha hplain] at h
      exact htaken ((contentType_taken_iff v).mpr ⟨a, b, hv, ha, Or.inl (h ▸ hm)⟩)
    simp only [headerLineUpdateBodyType, hfield]
    exact ⟨iff_of_false (by decide) (hnot (by decide) htext),
      iff_of_false (by decide) (hnot (by decide) happlication)⟩

theorem verdict_other {k : Bytes} (hk : httpMatchHeaderField k ≠ .contentType) (v : Bytes)
    (ctx : HttpParseCtx) : (headerLineUpdateBodyType (newHeader k v).2 ctx).1 = .success := by
  have hfield : (newHeader k v).2.field ≠ .contentType := by
    by_cases htaken : (typedValue (httpMatchHeaderField k) v).1 = .success
    · rw [(newHeader_taken htaken).1]
      exact hk
    · rw [newHeader_refused htaken]
      decide
  unfold headerLineUpdateBodyType
  split
  · split
    · rfl
    · rfl
  · split
    · rfl
    · rfl
  · rename_i h
    exact absurd h hfield
  · rfl

theorem memberRead_other {header : HttpHeader} (h : header.field ≠ .contentLength ∧
    header.field ≠ .transferEncoding ∧ header.field ≠ .contentType) : memberRead header = none := by
  obtain ⟨hlength, hencoding, htype⟩ := h
  unfold memberRead
  split
  · split
    · contradiction
    · contradiction
    · contradiction
    · rfl
  · rfl

theorem readsWritten_of_read {header : HttpHeader} {m : UnionMember}
    (hread : memberRead header = some m) :
    ReadsWritten header ↔ header.value.parsed.written = m := by
  constructor
  · intro h
    exact h m hread
  · intro h m' hm'
    rw [hread, Option.mem_def, Option.some.injEq] at hm'
    rw [h, hm']

/-- A connection verdict is right exactly for the lines that are neither a Connection header
with one of the two values nor a Content-Type header with one of two names. -/
theorem onlyConnection_iff (keySv valueSv : Bytes) (ctx : HttpParseCtx) :
    OnlyConnection keySv valueSv ctx ↔
      (¬ ConnectionIs keySv valueSv keepAliveValue ∧ ¬ ConnectionIs keySv valueSv closeValue) ∧
        ¬ TypeNamed keySv valueSv textName ∧ ¬ TypeNamed keySv valueSv applicationName := by
  by_cases htype : httpMatchHeaderField keySv = .contentType
  · obtain ⟨hkeep, hclose⟩ := verdict_contentType (v := valueSv) htype ctx
    have hconn (e : Bytes) : ¬ ConnectionIs keySv valueSv e := by
      intro h
      rw [h.1] at htype
      cases htype
    constructor
    · intro h
      exact ⟨⟨hconn _, hconn _⟩, fun hn => hconn _ (h.keep_alive.mp (hkeep.mpr hn)),
        fun hn => hconn _ (h.want_to_close.mp (hclose.mpr hn))⟩
    · intro h
      exact ⟨iff_of_false (fun hv => h.2.1 (hkeep.mp hv)) (hconn _),
        iff_of_false (fun hv => h.2.2 (hclose.mp hv)) (hconn _)⟩
  · have hnone := verdict_other htype valueSv ctx
    have hname (m : Bytes) : ¬ TypeNamed keySv valueSv m := fun h => htype h.1
    constructor
    · intro h
      have hkeep := h.keep_alive
      have hclose := h.want_to_close
      rw [hnone] at hkeep hclose
      exact ⟨⟨fun hc => absurd (hkeep.mpr hc) (by decide),
        fun hc => absurd (hclose.mpr hc) (by decide)⟩, hname _, hname _⟩
    · intro h
      constructor
      · rw [hnone]
        exact iff_of_false (by decide) h.1.1
      · rw [hnone]
        exact iff_of_false (by decide) h.1.2

theorem readsWritten_iff (keySv valueSv : Bytes) :
    ReadsWritten (newHeader keySv valueSv).2 ↔ ¬ TypeTaken keySv valueSv := by
  have htaken_iff := contentType_taken_iff valueSv
  have hother {field : HttpHeaderField} (hk : httpMatchHeaderField keySv = field)
      (hne : field ≠ .contentType) : ¬ TypeTaken keySv valueSv :=
    fun h => hne (hk.symm.trans h.1)
  by_cases htaken : (typedValue (httpMatchHeaderField keySv) valueSv).1 = .success
  · obtain ⟨hfield, hvalue⟩ := newHeader_taken htaken
    cases hk : httpMatchHeaderField keySv with
    | contentType =>
      rw [hk] at hfield hvalue htaken
      obtain ⟨a, b, hv, ha, -⟩ := htaken_iff.mp htaken
      rw [typedValue, parseTypedValue, parseContentType_slash hv ha] at hvalue
      have hread : memberRead (newHeader keySv valueSv).2 = some .connection := by
        rw [memberRead, hfield, hvalue]
        rfl
      rw [readsWritten_of_read hread, hvalue]
      exact iff_of_false (by simp [HdrUnion.written]) (not_not.mpr ⟨hk, htaken_iff.mp htaken⟩)
    | contentLength =>
      rw [hk] at hfield hvalue
      have hread : memberRead (newHeader keySv valueSv).2 = some .content := by
        rw [memberRead, hfield, hvalue, typedValue_hasParsedType (Or.inl rfl)]
        rfl
      rw [readsWritten_of_read hread, hvalue]
      exact iff_of_true (contentLength_written valueSv) (hother hk (by decide))
    | transferEncoding =>
      rw [hk] at hfield hvalue
      have hread : memberRead (newHeader keySv valueSv).2 = some .transferEncoding := by
        rw [memberRead, hfield, hvalue, typedValue_hasParsedType (Or.inr rfl)]
        rfl
      rw [readsWritten_of_read hread, hvalue]
      exact iff_of_true (transferEncoding_written valueSv) (hother hk (by decide))
    | _ =>
      refine iff_of_true ?_ (hother hk (by decide))
      intro m hm
      rw [memberRead_other (by rw [hfield, hk]; decide)] at hm
      cases hm
  · have hfield := newHeader_refused htaken
    apply iff_of_true
    · intro m hm
      rw [memberRead_other (by rw [hfield]; decide)] at hm
      cases hm
    · intro h
      rw [h.1] at htaken
      exact htaken (htaken_iff.mpr h.2)

/-- Where the verdict is that of a Connection header, and where the union is read through the
member that was written. -/
theorem persistence_iff (keySv valueSv : Bytes) (ctx : HttpParseCtx) :
    (OnlyConnection keySv valueSv ctx ↔
      (¬ ConnectionIs keySv valueSv keepAliveValue ∧ ¬ ConnectionIs keySv valueSv closeValue) ∧
        ¬ TypeNamed keySv valueSv textName ∧ ¬ TypeNamed keySv valueSv applicationName) ∧
      (ReadsWritten (newHeader keySv valueSv).2 ↔ ¬ TypeTaken keySv valueSv) :=
  ⟨onlyConnection_iff keySv valueSv ctx, readsWritten_iff keySv valueSv⟩

/-- A media type keeps the connection alive, and the header that asks for it does not. -/
theorem mediaType_verdict :
    ((headerLineUpdateBodyType (newHeader (ascii "Content-Type".toList) (ascii "text/html".toList)).2
        .new).1 = .requestKeepAlive ∧
      (headerLineUpdateBodyType (newHeader (ascii "Connection".toList) keepAliveValue).2 .new).1 =
        .success) ∧
    ¬ OnlyConnection (ascii "Content-Type".toList) (ascii "text/html".toList) .new ∧
    ¬ OnlyConnection (ascii "Connection".toList) keepAliveValue .new := by
  have htype : (headerLineUpdateBodyType (newHeader (ascii "Content-Type".toList)
      (ascii "text/html".toList)).2 .new).1 = .requestKeepAlive := by decide +kernel
  have hconn : (headerLineUpdateBodyType (newHeader (ascii "Connection".toList) keepAliveValue).2
      .new).1 = .success := by decide +kernel
  refine ⟨⟨htype, hconn⟩, ?_, ?_⟩
  · intro h
    have hline := (h.keep_alive.mp htype).1
    exact absurd hline (by decide +kernel)
  · intro h
    have hverdict := h.keep_alive.mpr ⟨by decide +kernel, rfl⟩
    rw [hconn] at hverdict
    cases hverdict

end LiteHttp
