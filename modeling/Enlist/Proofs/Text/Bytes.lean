import Enlist.Text.Utf8

/-!
# Texts as bytes

Offsets count the bytes of the UTF-8 form of a text. This file says what cutting a list of
characters at a byte offset does to that form.

## Key results

- `textBytes_eq`: the UTF-8 form of a text is that of its characters, one after the other
- `utf8Bytes_takeBytes` / `utf8Bytes_dropBytes`: cutting at a boundary cuts the bytes there
- `isBoundary_iff`: the boundaries are the byte lengths of the fronts of a text
- `takeBytes_append_add` / `takeBytes_append_of_le`: cutting behind a front, and inside of it
- `dropBytes_dropBytes`: cutting twice at boundaries is cutting once
- `slice_append`: two slices, one behind the other, are one slice
-/

namespace Enlist.Text

/-- The bytes of the UTF-8 form of a list of characters. -/
def utf8Bytes (cs : List Char) : List UInt8 :=
  cs.flatMap String.utf8EncodeChar

def textBytes (text : String) : List UInt8 :=
  text.toUTF8.data.toList

@[simp] theorem utf8Bytes_nil : utf8Bytes [] = [] := rfl

@[simp] theorem utf8Bytes_cons (c : Char) (cs : List Char) :
    utf8Bytes (c :: cs) = String.utf8EncodeChar c ++ utf8Bytes cs := rfl

@[simp] theorem utf8Bytes_append (as bs : List Char) :
    utf8Bytes (as ++ bs) = utf8Bytes as ++ utf8Bytes bs := by
  simp [utf8Bytes]

/-- A text is as long as it has bytes. -/
@[simp] theorem length_utf8Bytes (cs : List Char) : (utf8Bytes cs).length = utf8Length cs := by
  induction cs with
  | nil => rfl
  | cons c cs ih => simp [utf8Length, ih]

/-- The UTF-8 form of a text is that of its characters, one after the other. -/
theorem textBytes_eq (text : String) : textBytes text = utf8Bytes text.toList := by
  have h : text.toUTF8 = text.toList.utf8Encode := (String.utf8Encode_toList).symm
  rw [textBytes, h, List.utf8Encode, List.data_toByteArray]
  rfl

/-- The length of a text in bytes is the one that is counted. -/
theorem utf8ByteSize_eq (text : String) : text.utf8ByteSize = utf8Length text.toList := by
  rw [← length_utf8Bytes, ← textBytes_eq]
  rfl

/-- A text has the bytes of its characters. -/
@[simp] theorem textBytes_ofList (cs : List Char) : textBytes (String.ofList cs) = utf8Bytes cs := by
  rw [textBytes_eq, String.toList_ofList]

@[simp] theorem textBytes_append (a b : String) : textBytes (a ++ b) = textBytes a ++ textBytes b := by
  rw [textBytes_eq, textBytes_eq, textBytes_eq, String.toList_append, utf8Bytes_append]

/-- The bytes of joined texts stand one behind the other. -/
theorem textBytes_join (texts : List String) :
    textBytes (String.join texts) = texts.flatMap textBytes := by
  induction texts with
  | nil => rfl
  | cons text texts ih => rw [String.join_cons, textBytes_append, ih, List.flatMap_cons]

/-- A text is known by its bytes. -/
theorem textBytes_inj {a b : String} (h : textBytes a = textBytes b) : a = b := by
  apply String.toByteArray_inj.1
  exact ByteArray.ext (Array.toList_inj.1 h)

/-! ## Boundaries -/

/-- The boundaries of a text are the byte lengths of its fronts. -/
theorem isBoundary_iff {cs : List Char} {n : Nat} :
    isBoundary cs n = true ↔ ∃ front back, cs = front ++ back ∧ utf8Length front = n := by
  constructor
  · intro h
    -- The front is what is taken up to the offset
    exact ⟨takeBytes cs n, dropBytes cs n, (takeBytes_append_dropBytes cs n).symm,
      utf8Length_takeBytes h⟩
  · rintro ⟨front, back, rfl, rfl⟩
    induction front with
    | nil => cases back <;> simp [isBoundary, utf8Length]
    | cons c cs ih => simp [isBoundary, utf8Length, ih]

/-- A text ends between two characters. -/
theorem isBoundary_utf8Length (cs : List Char) : isBoundary cs (utf8Length cs) = true :=
  isBoundary_iff.2 ⟨cs, [], by simp, rfl⟩

/-- What is dropped at a boundary and what is left have together the length of the text. -/
theorem add_utf8Length_dropBytes {cs : List Char} {n : Nat} (h : isBoundary cs n = true) :
    n + utf8Length (dropBytes cs n) = utf8Length cs := by
  have hlength := congrArg utf8Length (takeBytes_append_dropBytes cs n)
  rwa [utf8Length_append, utf8Length_takeBytes h] at hlength

/-- No boundary lies behind the end of the text. -/
theorem le_of_isBoundary {cs : List Char} {n : Nat} (h : isBoundary cs n = true) :
    n ≤ utf8Length cs := by
  obtain ⟨front, back, rfl, rfl⟩ := isBoundary_iff.1 h
  simp

@[simp] theorem dropBytes_zero (cs : List Char) : dropBytes cs 0 = cs := by
  cases cs <;> simp [dropBytes]

@[simp] theorem takeBytes_zero (cs : List Char) : takeBytes cs 0 = [] := by
  cases cs <;> simp [takeBytes]

/-! ## Cutting at a known front -/

theorem utf8Length_pos_of_cons (c : Char) (cs : List Char) : utf8Length (c :: cs) ≠ 0 := by
  have := c.utf8Size_pos
  simp only [utf8Length]
  omega

/-- Taking more than a front takes the front and goes on behind it. -/
theorem takeBytes_append_add (front back : List Char) (n : Nat) :
    takeBytes (front ++ back) (utf8Length front + n) = front ++ takeBytes back n := by
  induction front with
  | nil => simp [utf8Length]
  | cons c cs ih =>
    have hpos := utf8Length_pos_of_cons c cs
    have hsub : utf8Length (c :: cs) + n - c.utf8Size = utf8Length cs + n := by
      simp only [utf8Length]
      omega
    rw [List.cons_append, takeBytes, if_neg (by omega), hsub, ih, List.cons_append]

/-- Leaving out more than the first of two texts is leaving out of the second. -/
theorem dropBytes_append_add (front back : List Char) (n : Nat) :
    dropBytes (front ++ back) (utf8Length front + n) = dropBytes back n := by
  induction front with
  | nil => simp [utf8Length]
  | cons c cs ih =>
    have hpos := utf8Length_pos_of_cons c cs
    have hsub : utf8Length (c :: cs) + n - c.utf8Size = utf8Length cs + n := by
      simp only [utf8Length]
      omega
    rw [List.cons_append, dropBytes, if_neg (by omega), hsub, ih]

@[simp] theorem takeBytes_append (front back : List Char) :
    takeBytes (front ++ back) (utf8Length front) = front := by
  simpa using takeBytes_append_add front back 0

@[simp] theorem dropBytes_append (front back : List Char) :
    dropBytes (front ++ back) (utf8Length front) = back := by
  simpa using dropBytes_append_add front back 0

/-- Inside a front, what follows it does not matter. -/
theorem takeBytes_append_of_le {front : List Char} {n : Nat} (h : n ≤ utf8Length front)
    (back : List Char) : takeBytes (front ++ back) n = takeBytes front n := by
  induction front generalizing n with
  | nil => rw [Nat.le_zero.1 h, takeBytes_zero, takeBytes_zero]
  | cons c cs ih =>
    have hle : n - c.utf8Size ≤ utf8Length cs := Nat.sub_le_iff_le_add'.2 h
    rw [List.cons_append, takeBytes, takeBytes, ih hle]

theorem dropBytes_append_of_le {front : List Char} {n : Nat} (h : n ≤ utf8Length front)
    (back : List Char) : dropBytes (front ++ back) n = dropBytes front n ++ back := by
  induction front generalizing n with
  | nil => rw [Nat.le_zero.1 h, dropBytes_zero, dropBytes_zero]
  | cons c cs ih =>
    have hle : n - c.utf8Size ≤ utf8Length cs := Nat.sub_le_iff_le_add'.2 h
    rw [List.cons_append, dropBytes, dropBytes, ih hle]
    split
    · rfl
    · rfl

/-- Taking at a boundary takes that many bytes. -/
theorem utf8Bytes_takeBytes {cs : List Char} {n : Nat} (h : isBoundary cs n = true) :
    utf8Bytes (takeBytes cs n) = (utf8Bytes cs).take n := by
  obtain ⟨front, back, rfl, rfl⟩ := isBoundary_iff.1 h
  rw [takeBytes_append, utf8Bytes_append, ← length_utf8Bytes, List.take_left]

/-- Between two characters, leaving out bytes of a text leaves out bytes. -/
theorem utf8Bytes_dropBytes {cs : List Char} {n : Nat} (h : isBoundary cs n = true) :
    utf8Bytes (dropBytes cs n) = (utf8Bytes cs).drop n := by
  obtain ⟨front, back, rfl, rfl⟩ := isBoundary_iff.1 h
  rw [dropBytes_append, utf8Bytes_append, ← length_utf8Bytes, List.drop_left]

/-- Behind a front, the boundaries are those of what follows it. -/
@[simp] theorem isBoundary_append (front back : List Char) (n : Nat) :
    isBoundary (front ++ back) (utf8Length front + n) = isBoundary back n := by
  induction front with
  | nil => simp [utf8Length]
  | cons c cs ih =>
    have hpos := utf8Length_pos_of_cons c cs
    simp only [utf8Length] at hpos
    have hsub : c.utf8Size + utf8Length cs + n - c.utf8Size = utf8Length cs + n := by omega
    have hle : c.utf8Size ≤ c.utf8Size + utf8Length cs + n := by omega
    simp only [List.cons_append, isBoundary, utf8Length, hsub, ih, hle, decide_true, Bool.true_and]
    have hne : (c.utf8Size + utf8Length cs + n == 0) = false := by simp; omega
    rw [hne, Bool.false_or]

/-- Inside a front, the boundaries are those of the front. -/
theorem isBoundary_append_of_le {front : List Char} {n : Nat} (h : n ≤ utf8Length front)
    (back : List Char) : isBoundary (front ++ back) n = isBoundary front n := by
  induction front generalizing n with
  | nil => rw [Nat.le_zero.1 h, isBoundary_zero, isBoundary_zero]
  | cons c cs ih =>
    have hle : n - c.utf8Size ≤ utf8Length cs := Nat.sub_le_iff_le_add'.2 h
    rw [List.cons_append, isBoundary, isBoundary, ih hle]

/-- Two boundaries part a text into three pieces. -/
theorem exists_pieces {cs : List Char} {m n : Nat} (hm : isBoundary cs m = true)
    (hn : isBoundary cs n = true) (hmn : m ≤ n) :
    ∃ front middle back, cs = front ++ (middle ++ back) ∧ utf8Length front = m ∧
      utf8Length middle = n - m := by
  obtain ⟨front, rest, rfl, rfl⟩ := isBoundary_iff.1 hm
  rw [← Nat.add_sub_cancel' hmn, isBoundary_append] at hn
  obtain ⟨middle, back, rfl, hmiddle⟩ := isBoundary_iff.1 hn
  exact ⟨front, middle, back, rfl, rfl, hmiddle⟩

/-- Dropping up to a boundary and then on to a later one is dropping up to the later one. -/
theorem dropBytes_dropBytes {cs : List Char} {m n : Nat} (hm : isBoundary cs m = true)
    (hn : isBoundary cs n = true) (hmn : m ≤ n) :
    dropBytes (dropBytes cs m) (n - m) = dropBytes cs n := by
  obtain ⟨front, middle, back, rfl, hfront, hmiddle⟩ := exists_pieces hm hn hmn
  -- Both offsets are byte lengths of fronts now, where dropping is known
  have hn' : n = utf8Length (front ++ middle) := by rw [utf8Length_append]; omega
  calc dropBytes (dropBytes (front ++ (middle ++ back)) m) (n - m)
      = dropBytes (middle ++ back) (n - m) := by rw [← hfront, dropBytes_append]
    _ = back := by rw [← hmiddle, dropBytes_append]
    _ = dropBytes (front ++ middle ++ back) n := by rw [hn', dropBytes_append]
    _ = dropBytes (front ++ (middle ++ back)) n := by rw [List.append_assoc]

/-- A boundary stays one, counted from an earlier boundary. -/
theorem isBoundary_dropBytes {cs : List Char} {m n : Nat} (hm : isBoundary cs m = true)
    (hn : isBoundary cs n = true) (hmn : m ≤ n) : isBoundary (dropBytes cs m) (n - m) = true := by
  obtain ⟨front, middle, back, rfl, hfront, hmiddle⟩ := exists_pieces hm hn hmn
  rw [← hfront, dropBytes_append]
  exact isBoundary_iff.2 ⟨middle, back, rfl, by rw [hmiddle, hfront]⟩

/-! ## Slices -/

/-- The characters between two offsets. There are none when the offsets are the wrong way round, when
one lies behind the end, or when one lies inside a character. -/
def cut? (cs : List Char) (start stop : Nat) : Option (List Char) :=
  if start ≤ stop ∧ stop ≤ utf8Length cs ∧ isBoundary cs start = true ∧ isBoundary cs stop = true then
    some (slice cs start stop)
  else none

/-- A cut between two characters and two others gives what is in between. -/
theorem cut?_eq_some {cs : List Char} {start stop : Nat} (hstart : isBoundary cs start = true)
    (hstop : isBoundary cs stop = true) (hle : start ≤ stop) :
    cut? cs start stop = some (takeBytes (dropBytes cs start) (stop - start)) := by
  rw [cut?, if_pos ⟨hle, le_of_isBoundary hstop, hstart, hstop⟩, slice]

/-- The slice behind a front is what stands there. -/
theorem slice_append_append (front middle back : List Char) :
    slice (front ++ (middle ++ back)) (utf8Length front) (utf8Length front + utf8Length middle) =
      middle := by
  rw [slice, dropBytes_append, Nat.add_sub_cancel_left, takeBytes_append]

/-- Two slices, one behind the other, are one slice. -/
theorem slice_append {cs : List Char} {l m n : Nat} (hl : isBoundary cs l = true)
    (hm : isBoundary cs m = true) (hn : isBoundary cs n = true) (hlm : l ≤ m) (hmn : m ≤ n) :
    slice cs l m ++ slice cs m n = slice cs l n := by
  -- The text is a front, two parts and a back, of which the slices are the parts
  obtain ⟨front, rest, rfl, rfl⟩ := isBoundary_iff.1 hl
  obtain ⟨i, rfl⟩ := Nat.exists_eq_add_of_le hlm
  obtain ⟨j, rfl⟩ := Nat.exists_eq_add_of_le hmn
  rw [isBoundary_append] at hm
  obtain ⟨first, rest, rfl, rfl⟩ := isBoundary_iff.1 hm
  rw [Nat.add_assoc, isBoundary_append, isBoundary_append] at hn
  obtain ⟨second, back, rfl, rfl⟩ := isBoundary_iff.1 hn
  -- All three are slices behind a front now
  have hsecond := slice_append_append (front ++ first) second back
  have hboth := slice_append_append front (first ++ second) back
  simp only [utf8Length_append, List.append_assoc, Nat.add_assoc] at hsecond hboth ⊢
  rw [slice_append_append, hsecond, hboth]

/-- The slice up to the end of the text is all that follows its start. -/
theorem cut?_utf8Length {cs : List Char} {start : Nat} (hstart : isBoundary cs start = true) :
    cut? cs start (utf8Length cs) = some (dropBytes cs start) := by
  rw [cut?_eq_some hstart (isBoundary_utf8Length cs) (le_of_isBoundary hstart)]
  obtain ⟨front, back, rfl, rfl⟩ := isBoundary_iff.1 hstart
  -- The rest is its own front, with nothing behind it
  have hback : takeBytes back (utf8Length back) = back := by simpa using takeBytes_append back []
  rw [utf8Length_append, Nat.add_sub_cancel_left, dropBytes_append, hback]

end Enlist.Text
