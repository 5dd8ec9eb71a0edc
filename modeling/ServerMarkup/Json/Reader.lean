/-
# Reading JSON

A strict reader of RFC 8259: one value with blanks around it and nothing else, no comments, no
trailing commas.  Every reader returns what it has read and the text after it, which is shorter
(`Parsed`); that is why reading ends, however deeply a value is nested.  A string is read in two
steps: `stringUnits` finds its end and its code units, `textOfUnits` joins surrogate pairs and
fails on half a pair.

A string whose escapes make no text, such as half of a surrogate pair, is kept as a string without
text; numbers are recognised and not kept.
-/

namespace ServerMarkup

/-- A JSON value; strings and field names have a text unless their escapes make none. -/
inductive JsonValue where
  | null
  | bool (value : Bool)
  | number
  | string (text : Option String)
  | array (items : List JsonValue)
  | object (fields : List (Option String × JsonValue))
deriving Repr

namespace JsonValue

/-- The text of a string. -/
def text? : JsonValue → Option String
  | .string text => text
  | _ => none

/-- The texts of an array of strings. -/
def texts? : JsonValue → Option (List String)
  | .array items => items.mapM text?
  | _ => none

end JsonValue

namespace JsonReader

/-- What has been read and the text after it, which has fewer than `room` characters. -/
structure Parsed (α : Type) (room : Nat) where
  value : α
  rest : List Char
  shorter : rest.length < room

/-- The text after the blanks that it begins with. -/
def afterBlanks (cs : List Char) : List Char :=
  cs.dropWhile [' ', '\t', '\n', '\r'].contains

/-- The value of a hexadecimal digit. -/
def hexValue? (c : Char) : Option Nat :=
  if '0' ≤ c ∧ c ≤ '9' then some (c.toNat - '0'.toNat)
  else if 'a' ≤ c ∧ c ≤ 'f' then some (c.toNat - 'a'.toNat + 10)
  else if 'A' ≤ c ∧ c ≤ 'F' then some (c.toNat - 'A'.toNat + 10)
  else none

/-- The code unit that four hexadecimal digits name. -/
def unitOf? (a b c d : Char) : Option Nat := do
  return (((← hexValue? a) * 16 + (← hexValue? b)) * 16 + (← hexValue? c)) * 16 + (← hexValue? d)

/-- The code unit that one letter after a backslash names. -/
def escaped? : Char → Option Nat
  | '"' => some 0x22
  | '\\' => some 0x5c
  | '/' => some 0x2f
  | 'b' => some 0x08
  | 'f' => some 0x0c
  | 'n' => some 0x0a
  | 'r' => some 0x0d
  | 't' => some 0x09
  | _ => none

/-- The units of a string up to its closing quote, and the text after that. -/
def stringUnits : List Char → Option (List Nat × List Char)
  | '"' :: rest => some ([], rest)
  | '\\' :: 'u' :: a :: b :: c :: d :: rest => do
    let unit ← unitOf? a b c d
    let (units, rest) ← stringUnits rest
    return (unit :: units, rest)
  | '\\' :: e :: rest => do
    let unit ← escaped? e
    let (units, rest) ← stringUnits rest
    return (unit :: units, rest)
  | c :: rest =>
    if c.toNat < 0x20 then none
    else do
      let (units, rest) ← stringUnits rest
      return (c.toNat :: units, rest)
  | [] => none

/-- The characters of code units: a surrogate counts only as a half of a pair. -/
def charsOfUnits : List Nat → Option (List Char)
  | [] => some []
  | [u] => if 0xd800 ≤ u ∧ u ≤ 0xdfff then none else some [Char.ofNat u]
  | u :: v :: rest =>
    if 0xd800 ≤ u ∧ u ≤ 0xdbff then
      if 0xdc00 ≤ v ∧ v ≤ 0xdfff then
        (charsOfUnits rest).map (Char.ofNat (0x10000 + (u - 0xd800) * 0x400 + (v - 0xdc00)) :: ·)
      else none
    else if 0xdc00 ≤ u ∧ u ≤ 0xdfff then none
    else (charsOfUnits (v :: rest)).map (Char.ofNat u :: ·)

/-- The text of code units, if they make one. -/
def textOfUnits (units : List Nat) : Option String :=
  (charsOfUnits units).map String.ofList

theorem length_of_stringUnits {cs rest : List Char} {units : List Nat}
    (h : stringUnits cs = some (units, rest)) : rest.length < cs.length := by
  fun_induction stringUnits cs generalizing units rest with
  | case1 r => simp at h; simp [h.2]
  | case2 a b c d r ih =>
    simp only [Option.bind_eq_bind, Option.bind_eq_some_iff, Option.pure_def, Option.some.injEq,
      Prod.mk.injEq, Prod.exists] at h
    obtain ⟨_, _, _, _, h, _, rfl⟩ := h
    have := ih h
    simp only [List.length_cons]
    omega
  | case3 e r _ ih =>
    simp only [Option.bind_eq_bind, Option.bind_eq_some_iff, Option.pure_def, Option.some.injEq,
      Prod.mk.injEq, Prod.exists] at h
    obtain ⟨_, _, _, _, h, _, rfl⟩ := h
    have := ih h
    simp only [List.length_cons]
    omega
  | case4 => simp at h
  | case5 c r _ _ _ _ ih =>
    simp only [Option.bind_eq_bind, Option.bind_eq_some_iff, Option.pure_def, Option.some.injEq,
      Prod.mk.injEq, Prod.exists] at h
    obtain ⟨_, _, h, _, rfl⟩ := h
    have := ih h
    simp only [List.length_cons]
    omega
  | case6 => simp at h

/-- A string after its opening quote. -/
def readString (cs : List Char) : Option (Parsed (Option String) cs.length) :=
  match h : stringUnits cs with
  | some (units, rest) => some ⟨textOfUnits units, rest, length_of_stringUnits h⟩
  | none => none

/-- The text after one digit or more, if it begins with one. -/
def afterDigits? (cs : List Char) : Option (List Char) :=
  if cs.head?.any Char.isDigit then some (cs.dropWhile Char.isDigit) else none

/-- The text after a number's whole part: a zero, or digits that begin with another one. -/
def afterWhole? : List Char → Option (List Char)
  | '0' :: rest => some rest
  | cs => afterDigits? cs

/-- The text after a fraction, if it begins with a point. -/
def afterFraction? : List Char → Option (List Char)
  | '.' :: rest => afterDigits? rest
  | cs => some cs

/-- The text after an exponent, if it begins with its mark. -/
def afterExponent? : List Char → Option (List Char)
  | c :: rest =>
    if c = 'e' ∨ c = 'E' then
      match rest with
      | s :: digits => afterDigits? (if s = '+' ∨ s = '-' then digits else rest)
      | [] => none
    else some (c :: rest)
  | [] => some []

/-- The text after the number that it begins with. -/
def afterNumber? (cs : List Char) : Option (List Char) := do
  let cs := if cs.head? = some '-' then cs.tail else cs
  afterExponent? (← afterFraction? (← afterWhole? cs))

/-- A number. -/
def readNumber (cs : List Char) : Option (Parsed JsonValue cs.length) :=
  match afterNumber? cs with
  | some rest => if h : rest.length < cs.length then some ⟨.number, rest, h⟩ else none
  | none => none

/-- A word with a value of its own. -/
def readWord (cs : List Char) : Option (Parsed JsonValue cs.length) :=
  match cs with
  | 't' :: 'r' :: 'u' :: 'e' :: rest => some ⟨.bool true, rest, by simp; omega⟩
  | 'f' :: 'a' :: 'l' :: 's' :: 'e' :: rest => some ⟨.bool false, rest, by simp; omega⟩
  | 'n' :: 'u' :: 'l' :: 'l' :: rest => some ⟨.null, rest, by simp; omega⟩
  | _ => none

theorem length_afterBlanks_le (cs : List Char) : (afterBlanks cs).length ≤ cs.length :=
  (List.dropWhile_suffix _).length_le

theorem length_of_afterBlanks_eq {c : Char} {cs rest : List Char} (h : afterBlanks cs = c :: rest) :
    rest.length < cs.length := by
  have := length_afterBlanks_le cs
  rw [h, List.length_cons] at this
  exact this

mutual

/-- A value, after the blanks before it. -/
def readValue (cs : List Char) : Option (Parsed JsonValue cs.length) :=
  match h : afterBlanks cs with
  | [] => none
  | '"' :: rest =>
    have := length_of_afterBlanks_eq h
    match readString rest with
    | some s => some ⟨.string s.value, s.rest, by have := s.shorter; omega⟩
    | none => none
  | '[' :: rest =>
    have := length_of_afterBlanks_eq h
    match hr : afterBlanks rest with
    | ']' :: after => some ⟨.array [], after, by have := length_of_afterBlanks_eq hr; omega⟩
    | _ =>
      match readItems rest with
      | some items => some ⟨.array items.value, items.rest, by have := items.shorter; omega⟩
      | none => none
  | '\x7b' :: rest =>
    have := length_of_afterBlanks_eq h
    match hr : afterBlanks rest with
    | '\x7d' :: after => some ⟨.object [], after, by have := length_of_afterBlanks_eq hr; omega⟩
    | _ =>
      match readFields rest with
      | some fields => some ⟨.object fields.value, fields.rest, by have := fields.shorter; omega⟩
      | none => none
  | c :: rest =>
    have := length_of_afterBlanks_eq h
    match readWord (c :: rest) <|> readNumber (c :: rest) with
    | some v => some ⟨v.value, v.rest, by have := v.shorter; simp at this; omega⟩
    | none => none
termination_by 2 * cs.length

/-- One value or more, with commas between them, and the bracket after them. -/
def readItems (cs : List Char) : Option (Parsed (List JsonValue) cs.length) :=
  match readValue cs with
  | none => none
  | some item =>
    have := item.shorter
    match h : afterBlanks item.rest with
    | ']' :: after =>
      some ⟨[item.value], after, by have := length_of_afterBlanks_eq h; omega⟩
    | ',' :: rest =>
      have := length_of_afterBlanks_eq h
      match readItems rest with
      | some items =>
        some ⟨item.value :: items.value, items.rest, by have := items.shorter; omega⟩
      | none => none
    | _ => none
termination_by 2 * cs.length + 1

/-- One field or more, with commas between them, and the brace after them. -/
def readFields (cs : List Char) : Option (Parsed (List (Option String × JsonValue)) cs.length) :=
  match h : afterBlanks cs with
  | '"' :: quoted =>
    have := length_of_afterBlanks_eq h
    match readString quoted with
    | none => none
    | some name =>
      have := name.shorter
      match hc : afterBlanks name.rest with
      | ':' :: rest =>
        have := length_of_afterBlanks_eq hc
        match readValue rest with
        | none => none
        | some item =>
          have := item.shorter
          match he : afterBlanks item.rest with
          | '\x7d' :: after =>
            some ⟨[(name.value, item.value)], after,
              by have := length_of_afterBlanks_eq he; omega⟩
          | ',' :: rest =>
            have := length_of_afterBlanks_eq he
            match readFields rest with
            | some fields =>
              some ⟨(name.value, item.value) :: fields.value, fields.rest,
                by have := fields.shorter; omega⟩
            | none => none
          | _ => none
      | _ => none
  | _ => none
termination_by 2 * cs.length + 1

end

end JsonReader

/-- The value that a JSON text holds, if it is one. -/
def JsonValue.ofText? (text : String) : Option JsonValue := do
  let v ← JsonReader.readValue text.toList
  guard (JsonReader.afterBlanks v.rest).isEmpty
  return v.value

end ServerMarkup
