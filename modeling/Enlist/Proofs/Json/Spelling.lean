import Enlist.Json.Written

/-!
# How values are spelled

The tokens of a value are those of its parts, with brackets around them and commas between them. The
reader keeps the open values on a stack; what it does with the tokens of one value is to go on behind
that value, and where it goes to the end of a text it went through the tokens of a value.

* `Written.ofTokens?_eq_some_iff`   a value is read from its tokens, and from no others
-/

namespace Enlist.Json

namespace Written

mutual

/-- The tokens that spell a value. -/
def tokens : Written → List Token
  | .null => [.null]
  | .bool b => [.bool b]
  | .number n => [.number n]
  | .string text => [.string text]
  | .array [] => [.openBracket, .closeBracket]
  | .array (v :: vs) => .openBracket :: (v.tokens ++ elementTokens vs)
  | .object [] => [.openBrace, .closeBrace]
  | .object ((n, v) :: ms) => .openBrace :: .string n :: .colon :: (v.tokens ++ memberTokens ms)

/-- The tokens behind an element of an array: further elements and the end of the array. -/
def elementTokens : List Written → List Token
  | [] => [.closeBracket]
  | v :: vs => .comma :: (v.tokens ++ elementTokens vs)

/-- The tokens behind a member of an object: further members and the end of the object. -/
def memberTokens : List (Option String × Written) → List Token
  | [] => [.closeBrace]
  | (n, v) :: ms => .comma :: .string n :: .colon :: (v.tokens ++ memberTokens ms)

end

end Written

namespace Reader

open Written

/-! ## Values are read from their tokens -/

/-- Behind an opening bracket any token but the closing one begins a value. -/
theorem step_element {t : Token} (ht : t ≠ .closeBracket) (stack : List Frame) :
    step (element stack) t = step (value (.array [] :: stack)) t := by
  cases t <;> first | rfl | exact absurd rfl ht

/-- A value does not begin with a closing bracket. -/
theorem tokens_eq_cons (v : Written) :
    ∃ t ts, v.tokens = t :: ts ∧ t ≠ .closeBracket := by
  match v with
  | .null | .bool _ | .number _ | .string _ => exact ⟨_, _, rfl, nofun⟩
  | .array [] => exact ⟨_, _, rfl, nofun⟩
  | .array (_ :: _) => exact ⟨_, _, rfl, nofun⟩
  | .object [] => exact ⟨_, _, rfl, nofun⟩
  | .object (_ :: _) => exact ⟨_, _, rfl, nofun⟩

/-- The tokens of a value are read as those of the first element of an array. -/
theorem foldlM_element_tokens (v : Written) (stack : List Frame) :
    v.tokens.foldlM step (element stack) = v.tokens.foldlM step (value (.array [] :: stack)) := by
  obtain ⟨t, ts, hts, ht⟩ := tokens_eq_cons v
  rw [hts, List.foldlM_cons, List.foldlM_cons, step_element ht]

mutual

/-- The reader goes through the tokens of a value and then goes on behind it. -/
theorem foldlM_tokens (v : Written) (stack : List Frame) :
    v.tokens.foldlM step (value stack) = some (close v stack) := by
  match v with
  | .null | .bool _ | .number _ | .string _ => rfl
  | .array [] => rfl
  | .array (v :: vs) =>
    have hfirst : v.tokens.foldlM step (element stack) = some (close v (.array [] :: stack)) := by
      rw [foldlM_element_tokens, foldlM_tokens v]
    simp [tokens, step, begin?, List.foldlM_append, hfirst, close, foldlM_elementTokens vs]
  | .object [] => rfl
  | .object ((n, v) :: ms) =>
    simp [tokens, step, begin?, List.foldlM_append, foldlM_tokens v, close, foldlM_memberTokens ms]

/-- The tokens of the remaining elements close the array with these elements. -/
theorem foldlM_elementTokens (vs back : List Written) (stack : List Frame) :
    (elementTokens vs).foldlM step (arrayRest back stack) =
      some (close (.array (back.reverse ++ vs)) stack) := by
  match vs with
  | [] => simp [elementTokens, step]
  | v :: vs =>
    simp [elementTokens, step, List.foldlM_append, foldlM_tokens v, close, foldlM_elementTokens vs]

/-- The tokens of the remaining members close the object with these members. -/
theorem foldlM_memberTokens (ms back : List (Option String × Written)) (stack : List Frame) :
    (memberTokens ms).foldlM step (objectRest back stack) =
      some (close (.object (back.reverse ++ ms)) stack) := by
  match ms with
  | [] => simp [memberTokens, step]
  | (n, v) :: ms =>
    simp [memberTokens, step, List.foldlM_append, foldlM_tokens v, close, foldlM_memberTokens ms]

end

/-! ## What the reader accepts -/

/-- The reader goes through the tokens to the end of a text that is this value. -/
def Accepts (r : Reader) (ts : List Token) (v : Written) : Prop :=
  ts.foldlM step r = some (done v)

section
variable {stack : List Frame} {t : Token} {r : Reader} {v : Written}

theorem Accepts.exists_cons {ts : List Token} (h : Accepts r ts v) (hr : r ≠ done v) :
    ∃ t ts' r', ts = t :: ts' ∧ step r t = some r' ∧ Accepts r' ts' v := by
  match ts with
  | [] => exact absurd (Option.some.inj h) hr
  | t :: ts =>
    rw [Accepts, List.foldlM_cons] at h
    obtain ⟨r', hstep, hrest⟩ := Option.bind_eq_some_iff.1 h
    exact ⟨t, ts, r', rfl, hstep, hrest⟩

/-- A value is one token, or it begins with a bracket. -/
theorem step_value_cases (h : step (value stack) t = some r) :
    (∃ u : Written, u.tokens = [t] ∧ close u stack = r) ∨
      t = .openBracket ∧ element stack = r ∨ t = .openBrace ∧ firstName stack = r := by
  cases t with
  | null => exact .inl ⟨.null, rfl, Option.some.inj h⟩
  | bool b => exact .inl ⟨.bool b, rfl, Option.some.inj h⟩
  | number n => exact .inl ⟨.number n, rfl, Option.some.inj h⟩
  | string text => exact .inl ⟨.string text, rfl, Option.some.inj h⟩
  | openBracket => exact .inr (.inl ⟨rfl, Option.some.inj h⟩)
  | openBrace => exact .inr (.inr ⟨rfl, Option.some.inj h⟩)
  | closeBracket | closeBrace | comma | colon => exact nomatch h

/-- Behind an opening brace stands the closing one, or the first name. -/
theorem step_firstName_eq_some_iff :
    step (firstName stack) t = some r ↔
      t = .closeBrace ∧ close (.object []) stack = r ∨ step (name [] stack) t = some r := by
  cases t <;> simp [step]

/-- A name is a string. -/
theorem step_name_eq_some_iff {back : List (Option String × Written)} :
    step (name back stack) t = some r ↔ ∃ n, t = .string n ∧ colon back n stack = r := by
  cases t <;> simp [step]

/-- Behind a name stands a colon. -/
theorem step_colon_eq_some_iff {back : List (Option String × Written)} {n : Option String} :
    step (colon back n stack) t = some r ↔ t = .colon ∧ value (.member back n :: stack) = r := by
  cases t <;> simp [step]

/-- Behind an element stands a comma or the closing bracket. -/
theorem step_arrayRest_eq_some_iff {back : List Written} :
    step (arrayRest back stack) t = some r ↔
      t = .comma ∧ value (.array back :: stack) = r ∨
        t = .closeBracket ∧ close (.array back.reverse) stack = r := by
  cases t <;> simp [step]

/-- Behind a member stands a comma or the closing brace. -/
theorem step_objectRest_eq_some_iff {back : List (Option String × Written)} :
    step (objectRest back stack) t = some r ↔
      t = .comma ∧ name back stack = r ∨
        t = .closeBrace ∧ close (.object back.reverse) stack = r := by
  cases t <;> simp [step]

end

mutual

/-- A reader that reads a value goes through the tokens of one and then goes on behind it. -/
theorem Accepts.exists_tokens {stack : List Frame} {ts : List Token} {v : Written}
    (h : Accepts (value stack) ts v) :
    ∃ u rest, ts = u.tokens ++ rest ∧ Accepts (close u stack) rest v := by
  obtain ⟨t, ts', r, hts, hstep, hrest⟩ := h.exists_cons nofun
  obtain ⟨u, hu, rfl⟩ | ⟨rfl, rfl⟩ | ⟨rfl, rfl⟩ := step_value_cases hstep
  · exact ⟨u, ts', by rw [hts, hu, List.singleton_append], hrest⟩
  · obtain ⟨t', ts'', r, hts', hstep', hrest'⟩ := hrest.exists_cons nofun
    -- Behind an opening bracket a value is read like anywhere, unless the array ends at once
    by_cases ht' : t' = .closeBracket
    · subst ht'
      exact ⟨.array [], ts'', by rw [hts, hts']; rfl, Option.some.inj hstep' ▸ hrest'⟩
    · have hvalue : Accepts (value (.array [] :: stack)) ts' v := by
        rw [Accepts, hts', List.foldlM_cons, ← step_element ht', ← List.foldlM_cons, ← hts']
        exact hrest
      obtain ⟨u, rest₁, hu, hrest₁⟩ := hvalue.exists_tokens
      have hlt : rest₁.length < ts.length := by
        rw [hts, hu, List.length_cons, List.length_append]
        omega
      obtain ⟨us, rest, hus, hrest₂⟩ := Accepts.exists_elementTokens hrest₁
      exact ⟨.array (u :: us), rest, by simp [hts, hu, hus, tokens], hrest₂⟩
  · obtain ⟨t', ts'', r, hts', hstep', hrest'⟩ := hrest.exists_cons nofun
    obtain ⟨rfl, rfl⟩ | hname := step_firstName_eq_some_iff.1 hstep'
    · exact ⟨.object [], ts'', by rw [hts, hts']; rfl, hrest'⟩
    · have hfirst : Accepts (name [] stack) ts' v := by
        rw [Accepts, hts', List.foldlM_cons, hname]
        exact hrest'
      obtain ⟨n, u, rest₁, hu, hrest₁⟩ := hfirst.exists_member
      have hlt : rest₁.length < ts.length := by
        simp only [hts, hu, List.length_cons, List.length_append]
        omega
      obtain ⟨ms, rest, hms, hrest₂⟩ := Accepts.exists_memberTokens hrest₁
      exact ⟨.object ((n, u) :: ms), rest, by simp [hts, hu, hms, tokens], hrest₂⟩
termination_by ts.length

/-- What is accepted behind an element begins with the tokens of the remaining elements. -/
theorem Accepts.exists_elementTokens {back : List Written} {stack : List Frame} {ts : List Token}
    {v : Written} (h : Accepts (arrayRest back stack) ts v) :
    ∃ us rest, ts = elementTokens us ++ rest ∧
      Accepts (close (.array (back.reverse ++ us)) stack) rest v := by
  obtain ⟨t, ts', r, hts, hstep, hrest⟩ := h.exists_cons nofun
  obtain ⟨rfl, rfl⟩ | ⟨rfl, rfl⟩ := step_arrayRest_eq_some_iff.1 hstep
  · obtain ⟨u, rest₁, hu, hrest₁⟩ := hrest.exists_tokens
    have hlt : rest₁.length < ts.length := by
      rw [hts, hu, List.length_cons, List.length_append]
      omega
    obtain ⟨us, rest, hus, hrest₂⟩ := Accepts.exists_elementTokens hrest₁
    exact ⟨u :: us, rest, by simp [hts, hu, hus, elementTokens], by simpa using hrest₂⟩
  · exact ⟨[], ts', hts, by simpa using hrest⟩
termination_by ts.length

/-- What is accepted for a member begins with its name, a colon and the tokens of its value. -/
theorem Accepts.exists_member {back : List (Option String × Written)} {stack : List Frame}
    {ts : List Token} {v : Written} (h : Accepts (name back stack) ts v) :
    ∃ n u rest, ts = .string n :: .colon :: (u.tokens ++ rest) ∧
      Accepts (objectRest ((n, u) :: back) stack) rest v := by
  obtain ⟨t, ts₁, r, hts, hstep, hrest⟩ := h.exists_cons nofun
  obtain ⟨n, rfl, rfl⟩ := step_name_eq_some_iff.1 hstep
  obtain ⟨t, ts₂, r, hts₁, hstep, hrest⟩ := hrest.exists_cons nofun
  obtain ⟨rfl, rfl⟩ := step_colon_eq_some_iff.1 hstep
  obtain ⟨u, rest, hu, hrest⟩ := hrest.exists_tokens
  exact ⟨n, u, rest, by rw [hts, hts₁, hu], hrest⟩
termination_by ts.length

/-- What is accepted behind a member begins with the tokens of the remaining members. -/
theorem Accepts.exists_memberTokens {back : List (Option String × Written)} {stack : List Frame}
    {ts : List Token} {v : Written} (h : Accepts (objectRest back stack) ts v) :
    ∃ ms rest, ts = memberTokens ms ++ rest ∧
      Accepts (close (.object (back.reverse ++ ms)) stack) rest v := by
  obtain ⟨t, ts', r, hts, hstep, hrest⟩ := h.exists_cons nofun
  obtain ⟨rfl, rfl⟩ | ⟨rfl, rfl⟩ := step_objectRest_eq_some_iff.1 hstep
  · obtain ⟨n, u, rest₁, hu, hrest₁⟩ := hrest.exists_member
    have hlt : rest₁.length < ts.length := by
      simp only [hts, hu, List.length_cons, List.length_append]
      omega
    obtain ⟨ms, rest, hms, hrest₂⟩ := Accepts.exists_memberTokens hrest₁
    exact ⟨(n, u) :: ms, rest, by simp [hts, hu, hms, memberTokens], by simpa using hrest₂⟩
  · exact ⟨[], ts', hts, by simpa using hrest⟩
termination_by ts.length

end

theorem Accepts.eq_nil {u v : Written} {ts : List Token} (h : Accepts (done u) ts v) :
    ts = [] ∧ u = v := by
  match ts with
  | [] => exact ⟨rfl, Reader.done.inj (Option.some.inj h)⟩
  | t :: ts => cases t <;> exact nomatch h

end Reader

namespace Written

open Reader

/-- A value is read from its tokens, and from no others. -/
theorem ofTokens?_eq_some_iff {ts : List Token} {v : Written} :
    ofTokens? ts = some v ↔ ts = v.tokens := by
  constructor
  · intro h
    have haccepts : Accepts (value []) ts v := by
      rw [ofTokens?] at h
      split at h
      case h_1 u hu => exact Option.some.inj h ▸ hu
      case h_2 => exact nomatch h
    -- What is left behind the value is nothing
    obtain ⟨u, rest, rfl, hrest⟩ := haccepts.exists_tokens
    obtain ⟨rfl, rfl⟩ := hrest.eq_nil
    exact List.append_nil _
  · rintro rfl
    simp [ofTokens?, foldlM_tokens, close]

/-- A text is read as a value exactly if its tokens are those of the value. -/
theorem ofText?_eq_some_iff {text : List Char} {v : Written} :
    ofText? text = some v ↔ Token.ofText? text = some v.tokens := by
  simp [ofText?, Option.bind_eq_some_iff, ofTokens?_eq_some_iff]

end Written

end Enlist.Json
