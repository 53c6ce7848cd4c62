import LiteHttp.ParseCtx

/-!
# What the request line gives

The token scanner, and `parse_request_line` on the node `wait_req` hands it: the
cursors stand around the line, so its assertions hold and nothing but the
request changes.
-/

namespace LiteHttp

set_option autoImplicit false

theorem posNextToken_le {view : Bytes} {c : Byte} {thisToken tokenLen nextToken : Nat}
    (h : posNextToken view c thisToken = some (tokenLen, nextToken)) :
    nextToken = thisToken + tokenLen + 1 ∧ nextToken ≤ view.length := by
  obtain ⟨i, hi, he⟩ := Option.map_eq_some_iff.mp h
  simp only [Prod.mk.injEq] at he
  obtain ⟨rfl, rfl⟩ := he
  obtain ⟨hlt, -⟩ := List.idxOf?_eq_some_iff.mp hi
  rw [List.length_drop] at hlt
  exact ⟨rfl, by omega⟩

theorem posNextToken_eq_none_iff {view : Bytes} {c : Byte} {thisToken : Nat} :
    posNextToken view c thisToken = none ↔ c ∉ view.drop thisToken := by
  rw [posNextToken, Option.map_eq_none_iff, List.idxOf?_eq_none_iff]

theorem idxOf?_token {t : Bytes} {c : Byte} (ht : c ∉ t) (r : Bytes) :
    (t ++ c :: r).idxOf? c = some t.length := by
  induction t with
  | nil => simp [List.idxOf?_cons]
  | cons x t ih =>
    rw [List.mem_cons, not_or] at ht
    have hx : (x == c) = false := beq_eq_false_iff_ne.mpr fun h => ht.1 h.symm
    rw [List.cons_append, List.idxOf?_cons, hx, ih ht.2]
    rfl

theorem posNextToken_token {t : Bytes} {c : Byte} (ht : c ∉ t) (pre r : Bytes) :
    posNextToken (pre ++ (t ++ c :: r)) c pre.length =
      some (t.length, pre.length + t.length + 1) := by
  rw [posNextToken, List.drop_left, idxOf?_token ht]
  rfl

section Line

variable (b : Build) (pathOk : Bool) {ctx : HttpParseCtx}

/-- The request line parser fails no assertion, reports nothing fatal, and
leaves all but the request alone. -/
theorem parseRequestLine_cases (hcur : ctx.cur = 0)
    (hnext : ctx.requestLine.length ≤ ctx.nextLine) :
    parseRequestLine b pathOk ctx = .error .undefined ∨
    ∃ herr request, parseRequestLine b pathOk ctx = .ok (herr, { ctx with httpRequest := request }) ∧
      herr ≠ .requestFatal ∧ request.headerList = ctx.httpRequest.headerList := by
  unfold parseRequestLine
  simp only
  cases hm : posNextToken ctx.requestLine space 0 with
  | none => exact Or.inr ⟨_, _, rfl, by simp, rfl⟩
  | some p =>
    obtain ⟨methodLen, pathAt⟩ := p
    have hpath := posNextToken_le hm
    have hmethod : (stringViewSubstr ctx.requestLine 0 methodLen).length = methodLen := by
      rw [stringViewSubstr_eq, List.length_take, List.drop_zero]
      omega
    simp only [bind, Except.bind]
    rw [assert_of (show pathAt ≤ ctx.nextLine by omega), assert_of (show ctx.cur ≤ pathAt by omega),
      assert_of hmethod]
    simp only
    cases hp : posNextToken ctx.requestLine space pathAt with
    | none => exact Or.inr ⟨_, _, rfl, by simp, rfl⟩
    | some q =>
      obtain ⟨pathLen, versionAt⟩ := q
      have hversion := posNextToken_le hp
      simp only
      rw [assert_of (show versionAt ≤ ctx.nextLine by omega),
        assert_of (show ctx.cur ≤ versionAt by omega)]
      simp only
      rcases stringInitFromStringView_cases pathOk
          (stringViewSubstr ctx.requestLine pathAt pathLen) with h | ⟨-, h⟩ | ⟨-, -, h⟩
      · rw [h]
        exact Or.inl rfl
      · rw [h]
        exact Or.inr ⟨_, _, rfl, by simp, rfl⟩
      · rw [h]
        exact Or.inr ⟨_, _, rfl, by simp, rfl⟩

variable {b pathOk} in
/-- Wherever the cursors stand, a parse that returns is not fatal and keeps the headers. -/
theorem parseRequestLine_ok {herr : HttpErr} {ctx' : HttpParseCtx}
    (h : parseRequestLine b pathOk ctx = .ok (herr, ctx')) :
    ∃ request, ctx' = { ctx with httpRequest := request } ∧ herr ≠ .requestFatal ∧
      request.headerList = ctx.httpRequest.headerList := by
  unfold parseRequestLine at h
  simp only at h
  split at h
  · obtain ⟨rfl, rfl⟩ := Prod.mk.inj (pure_ok.mp h)
    exact ⟨_, rfl, by simp, rfl⟩
  · obtain ⟨-, -, h⟩ := bind_ok h
    obtain ⟨-, -, h⟩ := bind_ok h
    obtain ⟨-, -, h⟩ := bind_ok h
    split at h
    · obtain ⟨rfl, rfl⟩ := Prod.mk.inj (pure_ok.mp h)
      exact ⟨_, rfl, by simp, rfl⟩
    · obtain ⟨-, -, h⟩ := bind_ok h
      obtain ⟨-, -, h⟩ := bind_ok h
      obtain ⟨⟨ok, path⟩, -, h⟩ := bind_ok h
      cases ok with
      | false =>
        obtain ⟨rfl, rfl⟩ := Prod.mk.inj (pure_ok.mp h)
        exact ⟨_, rfl, by simp, rfl⟩
      | true =>
        obtain ⟨rfl, rfl⟩ := Prod.mk.inj (pure_ok.mp h)
        exact ⟨_, rfl, by simp, rfl⟩

theorem parseRequestLine_none (hl : space ∉ ctx.requestLine) :
    parseRequestLine b pathOk ctx = .ok (.parseCannotFindSpace, { ctx with httpRequest :=
      { ctx.httpRequest with method := .unkown, version := .unkown } }) := by
  have hm : posNextToken ctx.requestLine space 0 = none := posNextToken_eq_none_iff.mpr hl
  simp only [parseRequestLine, hm]
  rfl

section Method

variable {method rest : Bytes} (hl : ctx.requestLine = method ++ space :: rest)
include hl

theorem substr_method : stringViewSubstr ctx.requestLine 0 method.length = method := by
  rw [stringViewSubstr_eq, hl, List.drop_zero, List.take_left]

variable (hm : space ∉ method)
include hm

theorem posNextToken_method :
    posNextToken ctx.requestLine space 0 = some (method.length, method.length + 1) := by
  rw [hl]
  simpa using posNextToken_token hm [] rest

/-- Of a line with one space only the method is set. -/
theorem parseRequestLine_one (hr : space ∉ rest) (hcur : ctx.cur = 0)
    (hnext : ctx.nextLine = ctx.requestLine.length + 2) :
    parseRequestLine b pathOk ctx = .ok (.parseCannotFindSpace, { ctx with httpRequest :=
      { ctx.httpRequest with method := httpMatchMethod method } }) := by
  have hmethod := substr_method hl
  have hp : posNextToken ctx.requestLine space (method.length + 1) = none := by
    rw [posNextToken_eq_none_iff, hl, ← List.drop_drop, List.drop_left]
    exact hr
  have hlen : ctx.requestLine.length = method.length + 1 + rest.length := by
    rw [hl]
    simp only [List.length_append, List.length_cons]
    omega
  unfold parseRequestLine
  simp only [posNextToken_method hl hm, hp, hmethod, bind, Except.bind]
  rw [assert_of (show method.length + 1 ≤ ctx.nextLine by omega),
    assert_of (show ctx.cur ≤ method.length + 1 by omega), assert_of (show True from trivial)]
  rfl

end Method

/-- Of a line with two spaces every part is set, up to the path if there is no memory for it. -/
theorem parseRequestLine_split {method path version : Bytes} (hm : space ∉ method)
    (hp : space ∉ path) (hl : ctx.requestLine = method ++ space :: (path ++ space :: version))
    (hcur : ctx.cur = 0) (hnext : ctx.nextLine = ctx.requestLine.length + 2)
    (hlt : ctx.nextLine < sizeMod) :
    parseRequestLine b pathOk ctx = (stringInitFromStringView pathOk path).map fun r =>
      if r.1 then (.success, { ctx with httpRequest := { ctx.httpRequest with
        method := httpMatchMethod method
        path := r.2
        version := httpMatchVersion version } })
      else (.malloc, { ctx with httpRequest := { ctx.httpRequest with
        method := httpMatchMethod method
        path := r.2 } }) := by
  have hm' := posNextToken_method hl hm
  have hp' : posNextToken ctx.requestLine space (method.length + 1) =
      some (path.length, method.length + 1 + path.length + 1) := by
    have h := posNextToken_token hp (method ++ [space]) version
    rw [List.length_append, List.length_singleton] at h
    rw [hl, ← h, List.append_assoc]
    rfl
  have hlen : ctx.requestLine.length = method.length + 1 + path.length + 1 + version.length := by
    rw [hl]
    simp only [List.length_append, List.length_cons]
    omega
  have hmethod := substr_method hl
  have hpath : stringViewSubstr ctx.requestLine (method.length + 1) path.length = path := by
    rw [stringViewSubstr_eq, hl, ← List.drop_drop, List.drop_left]
    simp
  have hversion : stringViewSubstr ctx.requestLine (method.length + 1 + path.length + 1)
      (sizeSub (sizeSub ctx.nextLine 2) (method.length + 1 + path.length + 1)) = version := by
    have hinner : sizeSub ctx.nextLine 2 = ctx.requestLine.length := by
      rw [sizeSub_eq (by omega) hlt]
      omega
    have houter : sizeSub ctx.requestLine.length (method.length + 1 + path.length + 1) =
        version.length := by
      rw [sizeSub_eq (by omega) (by omega)]
      omega
    have hdrop : ctx.requestLine.drop (method.length + 1 + path.length + 1) = version := by
      rw [hl, show method ++ space :: (path ++ space :: version) =
        (method ++ space :: path ++ [space]) ++ version by simp]
      apply List.drop_left'
      simp only [List.length_append, List.length_cons, List.length_nil]
      omega
    rw [hinner, houter, stringViewSubstr_eq, hdrop, List.take_length]
  unfold parseRequestLine
  simp only [hm', hp', hmethod, hpath, hversion, bind, Except.bind]
  rw [assert_of (show method.length + 1 ≤ ctx.nextLine by omega),
    assert_of (show ctx.cur ≤ method.length + 1 by omega),
    assert_of (show True from trivial),
    assert_of (show method.length + 1 + path.length + 1 ≤ ctx.nextLine by omega),
    assert_of (show ctx.cur ≤ method.length + 1 + path.length + 1 by omega)]
  simp only
  rcases stringInitFromStringView_cases pathOk path with h | ⟨-, h⟩ | ⟨-, -, h⟩
  · rw [h]
    rfl
  · rw [h]
    rfl
  · rw [h]
    rfl

theorem parseRequestLine_parts {method path version : Bytes} (hm : space ∉ method)
    (hp : space ∉ path) (hs : Storable path.length)
    (hl : ctx.requestLine = method ++ space :: (path ++ space :: version)) (hcur : ctx.cur = 0)
    (hnext : ctx.nextLine = ctx.requestLine.length + 2) (hlt : ctx.nextLine < sizeMod) :
    parseRequestLine b true ctx = .ok (.success, { ctx with httpRequest := { ctx.httpRequest with
      method := httpMatchMethod method
      path := path
      version := httpMatchVersion version } }) := by
  rw [parseRequestLine_split b true hm hp hl hcur hnext hlt, stringInitFromStringView_true hs]
  rfl

end Line

end LiteHttp
