import LiteHttp.HeaderLine

/-!
# The two names of a content type

`http_hdr_value_parse_content_type` cuts the value at its first slash and only then, behind
the slash, at a semicolon. Blanks at both ends of the first name are dropped; of the second
name only those in front of it are.
-/

namespace LiteHttp

open Trim

set_option autoImplicit false

/-- The `sub_str` of the parser, from what stands behind the slash. -/
def subStr (b : Bytes) : Bytes := (b.dropWhile isBlank).takeWhile (· ≠ 59)

/-- The names `contentTypeSubOf` knows. -/
def knownSubs : List Bytes :=
  [ascii ['p', 'l', 'a', 'i', 'n'], ascii ['h', 't', 'm', 'l'], ascii ['j', 's', 'o', 'n'],
    ascii ['x', 'm', 'l'],
    ascii ['x', '-', 'w', 'w', 'w', '-', 'f', 'o', 'r', 'm', '-', 'u', 'r', 'l', 'e', 'n', 'c', 'o',
      'd', 'e', 'd'],
    ascii ['f', 'o', 'r', 'm', '-', 'd', 'a', 't', 'a'], ascii ['p', 'n', 'g'],
    ascii ['j', 'p', 'e', 'g'], ascii ['g', 'i', 'f']]

theorem contentTypeSubOf_mem {s : Bytes} (h : contentTypeSubOf s ≠ .unknown) : s ∈ knownSubs := by
  by_contra hno
  simp only [knownSubs, List.mem_cons, List.not_mem_nil, or_false, not_or] at hno
  obtain ⟨h1, h2, h3, h4, h5, h6, h7, h8, h9⟩ := hno
  exact h (by rw [contentTypeSubOf, if_neg h1, if_neg h2, if_neg h3, if_neg h4, if_neg h5, if_neg h6,
    if_neg h7, if_neg h8, if_neg h9])

theorem contentTypeSubOf_plain {s : Bytes} (h : contentTypeSubOf s ≠ .unknown) :
    59 ∉ s ∧ ∀ c ∈ s, isBlank c = false := by
  have hknown : ∀ s ∈ knownSubs, 59 ∉ s ∧ ∀ c ∈ s, isBlank c = false := by decide +kernel
  exact hknown s (contentTypeSubOf_mem h)

theorem semicolon_major {m : Bytes} (h : 59 ∈ m) : contentTypeMajorOf m = .unkown := by
  have hknown : ∀ m ∈ knownMajors, (59 : Byte) ∉ m := by decide +kernel
  by_contra hne
  exact hknown m (contentTypeMajorOf_mem hne) h

/-- What the parser answers on a value without a slash. -/
theorem parseContentType_noSlash {value : HttpHdrValue} (h : 47 ∉ toCstr value.valueSv) :
    httpHdrValueParseContentType value =
      (.parseUnkownContentType, { value with parsed := .contentType .unkown .unknown }) := by
  have hp : ((toCstr value.valueSv).dropWhile isBlank).idxOf? 47 = none := by
    rw [List.idxOf?_eq_none_iff]
    intro hmem
    exact h ((List.dropWhile_suffix isBlank).mem hmem)
  simp only [httpHdrValueParseContentType, hp]

theorem dropWhile_slash (a b : Bytes) :
    (a ++ 47 :: b).dropWhile isBlank = a.dropWhile isBlank ++ 47 :: b := by
  rw [List.dropWhile_append]
  split
  · rename_i hnil
    rw [List.isEmpty_iff.mp hnil, List.dropWhile_cons_of_neg (by decide), List.nil_append]
  · rfl

/-- What the parser makes of the two sides of the first slash. -/
theorem parseContentType_slash {value : HttpHdrValue} {a b : Bytes}
    (hv : toCstr value.valueSv = a ++ 47 :: b) (ha : 47 ∉ a) :
    httpHdrValueParseContentType value =
      (if contentTypeMajorOf (trim isBlank a) = .unkown ∧ contentTypeSubOf (subStr b) = .unknown then
        .parseUnkownContentType else .success,
        { value with
          hasParsedType := true
          parsed := .contentType (contentTypeMajorOf (trim isBlank a)) (contentTypeSubOf (subStr b)) }) := by
  have hfree : 47 ∉ a.dropWhile isBlank := fun hmem => ha ((List.dropWhile_suffix isBlank).mem hmem)
  have hsub : (b.dropWhile isBlank).takeWhile (· ≠ 59) = subStr b := rfl
  cases hdrop : a.dropWhile isBlank with
  | nil =>
    have hidx : (47 :: b).idxOf? 47 = some 0 := idxOf?_token (t := []) List.not_mem_nil b
    simp only [httpHdrValueParseContentType, hv, dropWhile_slash, trim, hdrop, List.rdropWhile_nil,
      List.nil_append, hidx, List.take_zero, List.drop_succ_cons, List.drop_zero, hsub]
    split
    · rfl
    · rfl
  | cons c cs =>
    -- the trimming loop spares the first character, which is no blank
    have hne : a.dropWhile isBlank ≠ [] := by
      rw [hdrop]
      exact List.cons_ne_nil c cs
    have hc := List.head_dropWhile_not isBlank hne
    simp only [hdrop, List.head_cons] at hc
    rw [hdrop] at hfree
    have hdropped : (c :: cs ++ 47 :: b).drop ((c :: cs).length + 1) = b := by
      rw [List.drop_append]
      simp
    simp only [httpHdrValueParseContentType, hv, dropWhile_slash, trim, hdrop, idxOf?_token hfree,
      List.take_left, hdropped, cons_rdropWhile hc, hsub]
    split
    · rfl
    · rfl

theorem parse_success_iff {value : HttpHdrValue} {a b : Bytes}
    (hv : toCstr value.valueSv = a ++ 47 :: b) (ha : 47 ∉ a) :
    (httpHdrValueParseContentType value).1 = .success ↔
      contentTypeMajorOf (trim isBlank a) ≠ .unkown ∨ contentTypeSubOf (subStr b) ≠ .unknown := by
  rw [parseContentType_slash hv ha]
  split
  · rename_i h
    simp [h]
  · rename_i h
    exact iff_of_true rfl (Decidable.not_and_iff_or_not.mp h)

/-- Nothing, or a text with a semicolon in front. -/
def Parameters (rest : Bytes) : Prop := rest = [] ∨ rest.head? = some 59

theorem takeWhile_parameters {s rest : Bytes} (hs : 59 ∉ s) (hrest : Parameters rest) :
    (s ++ rest).takeWhile (· ≠ 59) = s := by
  have hall : ∀ c ∈ s, decide (c ≠ 59) = true := by
    intro c hc
    rw [decide_eq_true_eq]
    exact fun h => hs (h ▸ hc)
  rw [List.takeWhile_append_of_pos hall]
  have hstop : rest.takeWhile (· ≠ 59) = [] := by
    cases rest with
    | nil => rfl
    | cons c rest =>
      obtain rfl : c = 59 := by simpa [Parameters] using hrest
      exact List.takeWhile_cons_of_neg (by simp)
  rw [hstop, List.append_nil]

/-- Blanks behind the second name are in the way when nothing else is and the name is known. -/
theorem contentTypeSubOf_blanks {t : Bytes} (ht : Blanks t) {b : Bytes}
    (h : contentTypeSubOf (b.dropWhile isBlank) = .unknown) :
    contentTypeSubOf (subStr (b ++ t)) = contentTypeSubOf (subStr b) := by
  unfold subStr
  rw [List.dropWhile_append]
  split
  · rename_i hnil
    rw [List.isEmpty_iff.mp hnil, List.dropWhile_eq_nil_iff.mpr ht]
  · by_cases hsemicolon : 59 ∈ b.dropWhile isBlank
    · obtain ⟨m, r, hb, hm⟩ := List.eq_append_cons_of_mem hsemicolon
      have hcut (u : Bytes) : (m ++ 59 :: u).takeWhile (· ≠ 59) = m :=
        takeWhile_parameters hm (Or.inr rfl)
      rw [hb, List.append_assoc, List.cons_append, hcut, hcut]
    · have hwhole : (b.dropWhile isBlank).takeWhile (· ≠ 59) = b.dropWhile isBlank := by
        have hcut := takeWhile_parameters hsemicolon (Or.inl rfl)
        rwa [List.append_nil] at hcut
      have hfree : 59 ∉ b.dropWhile isBlank ++ t := by
        rw [List.mem_append, not_or]
        exact ⟨hsemicolon, ht.not_mem rfl⟩
      have hlonger := takeWhile_parameters hfree (Or.inl rfl)
      rw [List.append_nil] at hlonger
      rw [hlonger, hwhole, h]
      by_contra hknown
      -- no known name has a blank in it, so none stands behind this one
      have hnil : t = [] := by
        rw [List.eq_nil_iff_forall_not_mem]
        intro c hc
        have hblank := (contentTypeSubOf_plain hknown).2 c (List.mem_append_right _ hc)
        rw [ht c hc] at hblank
        exact absurd hblank (by decide)
      rw [hnil, List.append_nil] at hknown
      exact hknown h

/-- The type is known by the name behind the slash alone, and the value ends with it. -/
def SubDecides (v : Bytes) : Prop :=
  0 ∉ v ∧ ∃ a b, v = a ++ 47 :: b ∧ 47 ∉ a ∧ contentTypeMajorOf (trim isBlank a) = .unkown ∧
    contentTypeSubOf (b.dropWhile isBlank) ≠ .unknown

section Spaced

variable {s s' t t' v a b : Bytes}

/-- What the parser answers on a value between blanks, by the two sides of its first slash. -/
theorem parseContentType_spaced (hs : Blanks s) (ht : Blanks t) (hnul : 0 ∉ v)
    (hv : v = a ++ 47 :: b) (ha : 47 ∉ a) :
    (typedValue .contentType (s ++ (v ++ t))).1 = .success ↔
      contentTypeMajorOf (trim isBlank a) ≠ .unkown ∨ contentTypeSubOf (subStr (b ++ t)) ≠ .unknown := by
  have hfree : 0 ∉ s ++ (v ++ t) := by
    rw [List.mem_append, List.mem_append]
    rintro (h | h | h)
    · exact hs.no_nul h
    · exact hnul h
    · exact ht.no_nul h
  have hsplit : toCstr (s ++ (v ++ t)) = (s ++ a) ++ 47 :: (b ++ t) := by
    rw [toCstr_of_free hfree, hv]
    simp
  have hslash : 47 ∉ s ++ a := by
    rw [List.mem_append]
    rintro (h | h)
    · exact hs.not_mem rfl h
    · exact ha h
  have htrim : trim isBlank (s ++ a) = trim isBlank a := by
    rw [trim, trim, dropWhile_pad hs]
  let value : HttpHdrValue := ⟨s ++ (v ++ t), true, .content 0⟩
  have hread := parse_success_iff (show toCstr value.valueSv = _ from hsplit) hslash
  rwa [htrim] at hread

/-- Blanks around a type change nothing but behind a name that decides alone. -/
theorem contentType_alike (hs : Blanks s) (hs' : Blanks s') (ht : Blanks t) (ht' : Blanks t')
    (h : SubDecides v → t = t') : ReadsAlike .contentType (s ++ (v ++ t)) (s' ++ (v ++ t')) := by
  by_cases hnul : 0 ∈ v
  · apply contentType_shown
    rw [shown_blanks hs, shown_blanks hs', shown, shown, toCstr_append_of_mem hnul,
      toCstr_append_of_mem hnul]
  · refine ⟨?_, fun hne => absurd rfl hne⟩
    by_cases hslash : 47 ∈ v
    · obtain ⟨a, b, rfl, ha⟩ := List.eq_append_cons_of_mem hslash
      rw [parseContentType_spaced hs ht hnul rfl ha, parseContentType_spaced hs' ht' hnul rfl ha]
      by_cases hmajor : contentTypeMajorOf (trim isBlank a) = .unkown
      · by_cases hsub : contentTypeSubOf (b.dropWhile isBlank) = .unknown
        · rw [contentTypeSubOf_blanks ht hsub, contentTypeSubOf_blanks ht' hsub]
        · rw [h ⟨hnul, a, b, rfl, ha, hmajor, hsub⟩]
      · exact iff_of_true (Or.inl hmajor) (Or.inl hmajor)
    · have hrefused {s t : Bytes} (hs : Blanks s) (ht : Blanks t) :
          (typedValue .contentType (s ++ (v ++ t))).1 ≠ .success := by
        have hno : 47 ∉ toCstr (s ++ (v ++ t)) := by
          intro hmem
          have hin := (List.takeWhile_prefix _).mem hmem
          rw [List.mem_append, List.mem_append] at hin
          rcases hin with hin | hin | hin
          · exact hs.not_mem rfl hin
          · exact hslash hin
          · exact ht.not_mem rfl hin
        let value : HttpHdrValue := ⟨s ++ (v ++ t), true, .content 0⟩
        have hread := parseContentType_noSlash (show 47 ∉ toCstr value.valueSv from hno)
        have hfst : (typedValue .contentType (s ++ (v ++ t))).1 = .parseUnkownContentType :=
          congrArg Prod.fst hread
        rw [hfst]
        decide
      exact iff_of_false (hrefused hs ht) (hrefused hs' ht')

end Spaced

theorem parameters_dropWhile (s : Bytes) : Parameters (s.dropWhile (· ≠ 59)) := by
  cases hs : s.dropWhile (· ≠ 59) with
  | nil => exact Or.inl rfl
  | cons c t =>
    have hne : s.dropWhile (· ≠ 59) ≠ [] := by
      rw [hs]
      exact List.cons_ne_nil c t
    have hc := List.head_dropWhile_not (fun d : Byte => decide (d ≠ 59)) hne
    simp only [hs, List.head_cons, decide_eq_false_iff_not, not_not] at hc
    exact Or.inr (congrArg some hc)

/-- The second name by its parts: blanks, the name, and blanks up to the parameters. -/
theorem subStr_parts (b : Bytes) : ∃ gap tail rest,
    b = gap ++ ((subStr b).rdropWhile isBlank ++ (tail ++ rest)) ∧ Blanks gap ∧ Blanks tail ∧
      Parameters rest ∧ subStr b = (subStr b).rdropWhile isBlank ++ tail := by
  obtain ⟨gap, hgap, hb⟩ := dropWhile_parts isBlank b
  obtain ⟨tail, htail, hsub⟩ := rdropWhile_parts isBlank (subStr b)
  refine ⟨gap, tail, (b.dropWhile isBlank).dropWhile (· ≠ 59), ?_, hgap, htail,
    parameters_dropWhile _, hsub⟩
  have hrest : b.dropWhile isBlank = subStr b ++ (b.dropWhile isBlank).dropWhile (· ≠ 59) :=
    List.takeWhile_append_dropWhile.symm
  rw [← List.append_assoc ((subStr b).rdropWhile isBlank), ← hsub, ← hrest]
  exact hb

theorem subStr_of_parts {gap s tail rest : Bytes} (hgap : Blanks gap)
    (hs : contentTypeSubOf s ≠ .unknown) (htail : Blanks tail) (hrest : Parameters rest) :
    subStr (gap ++ (s ++ (tail ++ rest))) = s ++ tail ∧
      (s ++ tail).rdropWhile isBlank = s := by
  obtain ⟨hsemicolon, hblank⟩ := contentTypeSubOf_plain hs
  have hne : s ≠ [] := by
    rintro rfl
    exact hs rfl
  obtain ⟨c, cs, rfl⟩ := List.exists_cons_of_ne_nil hne
  refine ⟨?_, rdropWhile_pad hblank htail⟩
  have hc : ¬ isBlank c = true := by
    rw [hblank c List.mem_cons_self]
    exact Bool.false_ne_true
  have hfree : 59 ∉ c :: cs ++ tail := by
    rw [List.mem_append, not_or]
    exact ⟨hsemicolon, htail.not_mem rfl⟩
  rw [subStr, dropWhile_pad hgap, List.cons_append, List.dropWhile_cons_of_neg hc,
    ← List.cons_append, ← List.append_assoc]
  exact takeWhile_parameters hfree hrest

/-- A known second name that the parser misses for the blanks behind it, or finds behind a
slash that belongs to a parameter. -/
def Misread (v : Bytes) : Prop :=
  ∃ a gap s tail rest, v = a ++ 47 :: (gap ++ (s ++ (tail ++ rest))) ∧ 47 ∉ a ∧ Blanks gap ∧
    contentTypeSubOf s ≠ .unknown ∧ Blanks tail ∧ Parameters rest ∧ (59 ∈ a ↔ tail = [])

theorem misread_slash_iff {a b : Bytes} (ha : 47 ∉ a) : Misread (a ++ 47 :: b) ↔
    contentTypeSubOf ((subStr b).rdropWhile isBlank) ≠ .unknown ∧
      (59 ∈ a ↔ (subStr b).rdropWhile isBlank = subStr b) := by
  constructor
  · intro h
    obtain ⟨a', gap, s, tail, rest, heq, ha', hgap, hs, htail, hrest, hiff⟩ := h
    obtain ⟨rfl, rfl⟩ := cut_unique ha ha' heq
    obtain ⟨hsub, htrim⟩ := subStr_of_parts hgap hs htail hrest
    rw [hsub, htrim]
    exact ⟨hs, hiff.trans List.self_eq_append_right.symm⟩
  · intro h
    obtain ⟨hknown, hiff⟩ := h
    obtain ⟨gap, tail, rest, hb, hgap, htail, hrest, hsub⟩ := subStr_parts b
    have htail_nil : (subStr b).rdropWhile isBlank = subStr b ↔ tail = [] := by
      constructor
      · intro hself
        exact List.self_eq_append_right.mp (hself.trans hsub)
      · intro hnil
        rw [hnil, List.append_nil] at hsub
        exact hsub.symm
    exact ⟨a, gap, (subStr b).rdropWhile isBlank, tail, rest, by rw [← hb], ha, hgap, hknown, htail,
      hrest, hiff.trans htail_nil⟩

/-- The value up to its first semicolon. -/
def bare (v : Bytes) : Bytes := v.takeWhile (· ≠ 59)

/-- The parser takes the two names from the sides of the first slash of the value without its
parameters, each without the blanks around it. -/
structure SplitsBare (value : HttpHdrValue) : Prop where
  no_slash : 47 ∉ bare value.valueSv → (httpHdrValueParseContentType value).1 ≠ .success
  slash : ∀ a b, bare value.valueSv = a ++ 47 :: b → 47 ∉ a →
    (httpHdrValueParseContentType value).2.parsed =
        .contentType (contentTypeMajorOf (trim isBlank a)) (contentTypeSubOf (trim isBlank b)) ∧
      ((httpHdrValueParseContentType value).1 = .success ↔
        contentTypeMajorOf (trim isBlank a) ≠ .unkown ∨
          contentTypeSubOf (trim isBlank b) ≠ .unknown)

section Split

variable {value : HttpHdrValue} {a b : Bytes}

theorem bare_of_semicolon (ha : 59 ∈ a) (r : Bytes) : bare (a ++ r) = bare a := by
  induction a with
  | nil => exact absurd ha List.not_mem_nil
  | cons c a ih =>
    by_cases hc : c = 59
    · rw [List.cons_append, bare, bare, List.takeWhile_cons_of_neg (by simp [hc]),
        List.takeWhile_cons_of_neg (by simp [hc])]
    · have hmem := ih ((List.mem_cons.mp ha).resolve_left fun h => hc h.symm)
      unfold bare at hmem ⊢
      rw [List.cons_append, List.takeWhile_cons_of_pos (by simp [hc]),
        List.takeWhile_cons_of_pos (by simp [hc]), hmem]

theorem bare_of_free (ha : 59 ∉ a) (b : Bytes) : bare (a ++ 47 :: b) = a ++ 47 :: bare b := by
  induction a with
  | nil => exact List.takeWhile_cons_of_pos (by decide)
  | cons c a ih =>
    rw [List.mem_cons, not_or] at ha
    have hmem := ih ha.2
    unfold bare at hmem ⊢
    rw [List.cons_append, List.takeWhile_cons_of_pos (by simpa using Ne.symm ha.1), hmem,
      List.cons_append]

/-- The second name is what the parser cuts out, without the blanks behind it. -/
theorem trim_bare (b : Bytes) : trim isBlank (bare b) = (subStr b).rdropWhile isBlank := by
  have hblank : ∀ c, isBlank c = true → decide (c ≠ 59) = true := by
    intro c hc
    rw [decide_eq_true_eq]
    rintro rfl
    exact absurd hc (by decide)
  rw [trim, bare, ← takeWhile_dropWhile hblank, subStr]

/-- The slash belongs to a parameter: no name may be read. -/
theorem splitsBare_parameter (hv : toCstr value.valueSv = a ++ 47 :: b)
    (hbare : bare value.valueSv = bare a) (ha : 47 ∉ a) (hsemicolon : 59 ∈ a) :
    SplitsBare value ↔ contentTypeSubOf (subStr b) = .unknown := by
  have hfree : 47 ∉ bare a := fun hmem => ha ((List.takeWhile_prefix _).mem hmem)
  have hmajor := semicolon_major (mem_trim (p := isBlank) hsemicolon (by decide))
  have hread := parse_success_iff hv ha
  rw [hmajor] at hread
  constructor
  · intro h
    by_contra hsub
    exact h.no_slash (hbare ▸ hfree) (hread.mpr (Or.inr hsub))
  · intro hsub
    constructor
    · intro _ hok
      exact (hread.mp hok).elim (fun h => h rfl) fun h => h hsub
    · intro a' b' heq
      rw [hbare] at heq
      exact absurd (heq ▸ List.mem_append_right a' List.mem_cons_self) hfree

/-- The slash stands in front of the parameters: the second name may have lost its blanks. -/
theorem splitsBare_names (hv : toCstr value.valueSv = a ++ 47 :: b)
    (hbare : bare value.valueSv = a ++ 47 :: bare b) (ha : 47 ∉ a) :
    SplitsBare value ↔
      contentTypeSubOf (subStr b) = contentTypeSubOf ((subStr b).rdropWhile isBlank) := by
  have hparsed : (httpHdrValueParseContentType value).2.parsed =
      .contentType (contentTypeMajorOf (trim isBlank a)) (contentTypeSubOf (subStr b)) := by
    rw [parseContentType_slash hv ha]
  constructor
  · intro h
    have hstated := (h.slash a (bare b) hbare ha).1
    rw [hparsed, trim_bare, HdrUnion.contentType.injEq] at hstated
    exact hstated.2
  · intro hsub
    constructor
    · intro hno
      rw [hbare] at hno
      exact absurd (List.mem_append_right a List.mem_cons_self) hno
    · intro a' b' heq ha'
      rw [hbare] at heq
      obtain ⟨rfl, rfl⟩ := cut_unique ha ha' heq
      rw [hparsed, trim_bare, ← hsub]
      exact ⟨rfl, parse_success_iff hv ha⟩

end Split

/-- The names are taken from the bare value exactly when it is not misread. -/
theorem splitsBare_iff (value : HttpHdrValue) (hnul : 0 ∉ value.valueSv) :
    SplitsBare value ↔ ¬ Misread value.valueSv := by
  have hcstr := toCstr_of_free hnul
  by_cases hslash : 47 ∈ value.valueSv
  · obtain ⟨a, b, hv, ha⟩ := List.eq_append_cons_of_mem hslash
    have hread := hcstr.trans hv
    have hknown {s : Bytes} (hs : contentTypeSubOf s ≠ .unknown) : s.rdropWhile isBlank = s := by
      have hpad := rdropWhile_pad (contentTypeSubOf_plain hs).2 blanks_nil
      rwa [List.append_nil] at hpad
    rw [hv, misread_slash_iff ha]
    by_cases hsemicolon : 59 ∈ a
    · rw [splitsBare_parameter hread (by rw [hv, bare_of_semicolon hsemicolon]) ha hsemicolon]
      constructor
      · intro hsub h
        have hself := h.2.mp hsemicolon
        rw [hself] at h
        exact h.1 hsub
      · intro h
        by_contra hsub
        have hself := hknown hsub
        exact h ⟨by rwa [hself], iff_of_true hsemicolon hself⟩
    · rw [splitsBare_names hread (by rw [hv, bare_of_free hsemicolon]) ha]
      constructor
      · intro hsub h
        rw [← hsub] at h
        exact hsemicolon (h.2.mpr (hknown h.1))
      · intro h
        by_contra hsub
        have hne : (subStr b).rdropWhile isBlank ≠ subStr b := by
          intro hself
          rw [hself] at hsub
          exact hsub rfl
        have hlost : contentTypeSubOf (subStr b) = .unknown := by
          by_contra hs
          exact hne (hknown hs)
        rw [hlost] at hsub
        exact h ⟨Ne.symm hsub, iff_of_false hsemicolon hne⟩
  · refine iff_of_true ⟨?_, ?_⟩ ?_
    · intro _
      rw [parseContentType_noSlash (hcstr.symm ▸ hslash)]
      simp
    · intro a b heq
      have hmem : 47 ∈ bare value.valueSv := by
        rw [heq]
        exact List.mem_append_right a List.mem_cons_self
      exact absurd ((List.takeWhile_prefix _).mem hmem) hslash
    · intro h
      obtain ⟨a, gap, s, tail, rest, heq, -⟩ := h
      rw [heq] at hslash
      exact hslash (List.mem_append_right a List.mem_cons_self)

def typeValue (v : Bytes) : HttpHdrValue := ⟨v, true, .content 0⟩

theorem blanks_splitsBare : SplitsBare (typeValue (ascii " text / html;a=b/c ".toList)) := by
  apply (splitsBare_iff _ (by decide)).mpr
  have hslash : ascii " text / html;a=b/c ".toList =
      ascii " text ".toList ++ 47 :: ascii " html;a=b/c ".toList := by rfl
  show ¬ Misread (ascii " text / html;a=b/c ".toList)
  rw [hslash, misread_slash_iff (by decide)]
  decide +kernel

/-- A blank in front of the parameters hides the second name, and a slash in a parameter makes
a name of what is none. -/
theorem misread_not_splitsBare :
    ¬ SplitsBare (typeValue (ascii "text/html ;q=1".toList)) ∧
    ¬ SplitsBare (typeValue (ascii "x/html ".toList)) ∧
    ¬ SplitsBare (typeValue (ascii "text;a=b/html".toList)) := by
  refine ⟨?_, ?_, ?_⟩
  · intro h
    have hstated := (h.slash (ascii "text".toList) (ascii "html ".toList) rfl (by decide)).1
    exact absurd hstated (by decide +kernel)
  · intro h
    have hstated := (h.slash (ascii "x".toList) (ascii "html ".toList) rfl (by decide)).2
    exact absurd hstated (by decide +kernel)
  · intro h
    exact h.no_slash (by decide +kernel) (by decide +kernel)

end LiteHttp
