import PathForecast.Toml.Value

/-!
# TOML scalars

Strings in their four forms, and the words that stand for numbers, booleans, dates and times.
Readers take characters off the front and leave the rest; `fuel` bounds the characters read.
-/

set_option autoImplicit false

namespace PathForecast

namespace Toml

/-! ## Characters -/

def isSpace (c : Char) : Bool := c == ' ' || c == '\t'

/-- A character of a comment or a literal string: no control character but the tab. -/
def isPlain (c : Char) : Bool := c == '\t' || (0x20 ≤ c.toNat && c.toNat ≠ 0x7f)

def isBareKey (c : Char) : Bool := c.isAlphanum || c == '_' || c == '-'

def skipSpace (cs : List Char) : List Char := cs.dropWhile isSpace

/-- A line break at the front: a line feed, or a carriage return before one. -/
def newline? : List Char → Option (List Char)
  | '\n' :: r => some r
  | '\r' :: '\n' :: r => some r
  | _ => none

def hexValue? (c : Char) : Option Nat :=
  if c.isDigit then some (c.toNat - 0x30)
  else if 'a' ≤ c && c ≤ 'f' then some (c.toNat - 0x57)
  else if 'A' ≤ c && c ≤ 'F' then some (c.toNat - 0x37)
  else none

/-! ## Strings -/

/-- The character of a code point that is not a surrogate. -/
def scalarValue? (n : Nat) : Option Char :=
  if h : n.isValidChar then some (Char.ofNatAux n h) else none

/-- A character spelled by a number of hexadecimal digits. -/
def hexEscape? (size : Nat) (cs : List Char) : Option (Char × List Char) := do
  let ds := cs.take size
  if ds.length ≠ size then none
  let values ← ds.mapM hexValue?
  let c ← scalarValue? (values.foldl (fun n d => 16 * n + d) 0)
  return (c, cs.drop size)

/-- What follows a backslash. -/
def escape? : List Char → Option (Char × List Char)
  | 'b' :: r => some ('\x08', r)
  | 't' :: r => some ('\t', r)
  | 'n' :: r => some ('\n', r)
  | 'f' :: r => some ('\x0c', r)
  | 'r' :: r => some ('\r', r)
  | 'e' :: r => some ('\x1b', r)
  | '"' :: r => some ('"', r)
  | '\\' :: r => some ('\\', r)
  | 'x' :: r => hexEscape? 2 r
  | 'u' :: r => hexEscape? 4 r
  | 'U' :: r => hexEscape? 8 r
  | _ => none

/-- The rest of a string in double quotes; `done` holds what was read, last character first. -/
def basicString (done : List Char) : Nat → List Char → Option (String × List Char)
  | 0, _ => none
  | fuel + 1, cs =>
      match cs with
      | '"' :: r => some (String.ofList done.reverse, r)
      | '\\' :: r =>
          match escape? r with
          | some (c, r) => basicString (c :: done) fuel r
          | none => none
      | c :: r => if isPlain c then basicString (c :: done) fuel r else none
      | [] => none

/-- The rest of a string in single quotes. -/
def literalString (done : List Char) : List Char → Option (String × List Char)
  | '\'' :: r => some (String.ofList done.reverse, r)
  | c :: r => if isPlain c then literalString (c :: done) r else none
  | [] => none

/-- Skips spaces and line breaks. -/
def skipLines (cs : List Char) : Nat → List Char
  | 0 => cs
  | fuel + 1 =>
      let cs := skipSpace cs
      match newline? cs with
      | some r => skipLines r fuel
      | none => cs

/-- The end of a string in triple quotes: three quotes, after at most two that belong to it. -/
def closing? (q : Char) (cs : List Char) : Option (List Char × List Char) :=
  let quotes := cs.takeWhile (· == q)
  let n := min quotes.length 5
  if n < 3 then none else some (List.replicate (n - 3) q, cs.drop n)

/-- The rest of a string in triple double quotes. -/
def longBasicString (done : List Char) : Nat → List Char → Option (String × List Char)
  | 0, _ => none
  | fuel + 1, cs =>
      match closing? '"' cs with
      | some (extra, r) => some (String.ofList (done.reverse ++ extra), r)
      | none =>
          match newline? cs with
          | some r => longBasicString ('\n' :: done) fuel r
          | none =>
              match cs with
              | '\\' :: r =>
                  match newline? (skipSpace r) with
                  | some r => longBasicString done fuel (skipLines r r.length)
                  | none =>
                      match escape? r with
                      | some (c, r) => longBasicString (c :: done) fuel r
                      | none => none
              | c :: r => if isPlain c then longBasicString (c :: done) fuel r else none
              | [] => none

/-- The rest of a string in triple single quotes. -/
def longLiteralString (done : List Char) : Nat → List Char → Option (String × List Char)
  | 0, _ => none
  | fuel + 1, cs =>
      match closing? '\'' cs with
      | some (extra, r) => some (String.ofList (done.reverse ++ extra), r)
      | none =>
          match newline? cs with
          | some r => longLiteralString ('\n' :: done) fuel r
          | none =>
              match cs with
              | c :: r => if isPlain c then longLiteralString (c :: done) fuel r else none
              | [] => none

/-- A line break right after opening triple quotes is not part of the string. -/
def dropFirstBreak (cs : List Char) : List Char := (newline? cs).getD cs

/-- A string on one line. -/
def shortString? (cs : List Char) : Option (String × List Char) :=
  match cs with
  | '"' :: r => basicString [] cs.length r
  | '\'' :: r => literalString [] r
  | _ => none

/-- A string in any form. -/
def string? (cs : List Char) : Option (String × List Char) :=
  match cs with
  | '"' :: '"' :: '"' :: r => longBasicString [] cs.length (dropFirstBreak r)
  | '\'' :: '\'' :: '\'' :: r => longLiteralString [] cs.length (dropFirstBreak r)
  | _ => shortString? cs

/-! ## Numbers

The spelling of a number decides whether the text can be read at all. Whether a number of that
spelling has a value is another question, and only its reader asks it. -/

/-- Whether each underscore stands between two digits. `joins` says whether an underscore may come
first. -/
def joinsDigits (isDigit : Char → Bool) (joins : Bool) : List Char → Bool
  | [] => true
  | c :: r =>
      if c == '_' then joins && r.head?.any isDigit && joinsDigits isDigit false r
      else joinsDigits isDigit (isDigit c) r

def isHexDigit (c : Char) : Bool := (hexValue? c).isSome

/-- The values of the digits of a base, underscores aside; there has to be a digit. -/
def digits? (base : Nat) (cs : List Char) : Option (List Nat) :=
  let ds := cs.filter (· != '_')
  if ds.isEmpty then none
  else ds.mapM fun c => (hexValue? c).filter fun d => decide (d < base)

def valueOf (base : Nat) (ds : List Nat) : Nat := ds.foldl (fun n d => base * n + d) 0

/-- An optional sign, and whether it is a minus. -/
def signed (cs : List Char) : Bool × List Char :=
  match cs with
  | '-' :: r => (true, r)
  | '+' :: r => (false, r)
  | _ => (false, cs)

def applySign (negative : Bool) (n : Nat) : Int := if negative then -(n : Int) else n

/-- Integers that fit into 128 bits, with or without a sign bit. -/
def inRange (n : Int) : Bool :=
  if n < 0 then decide (n.natAbs ≤ 1 <<< 127) else decide (n.natAbs < 1 <<< 128)

/-- The integer that the digits of a base spell. -/
def integerOf (negative : Bool) (base : Nat) (cs : List Char) : TomlValue :=
  match (digits? base cs).map fun ds => applySign negative (valueOf base ds) with
  | some n => if inRange n then .integer n else .unreadable
  | none => .unreadable

/-- An integer after the mark of its base. It may lack digits, but then it has no value. -/
def basedInteger? (base : Nat) (cs : List Char) : Option TomlValue :=
  if cs.all (fun c => c == '_' || (digits? base [c]).isSome) && joinsDigits isHexDigit false cs then
    some (integerOf false base cs)
  else none

/-- A decimal integer: digits with no superfluous zero in front. An underscore may also follow the
sign. After an underscore any characters may come, but if they are not digits, there is no value. -/
def decimalInteger? (word : List Char) : Option TomlValue :=
  let (negative, cs) := signed word
  let rest := cs.dropWhile Char.isDigit
  if cs.isEmpty || (cs.head? == some '0' && cs.length != 1) then none
  else if !rest.isEmpty && rest.head? != some '_' then none
  else if rest.any fun c => c == '.' || c == 'e' || c == 'E' then none
  else if joinsDigits isHexDigit (cs != word) cs then some (integerOf negative 10 cs)
  else none

def integer? (word : List Char) : Option TomlValue :=
  match word with
  | '0' :: 'x' :: r => basedInteger? 16 r
  | '0' :: 'o' :: r => basedInteger? 8 r
  | '0' :: 'b' :: r => basedInteger? 2 r
  | _ => decimalInteger? word

/-- The exponent of a float. -/
def exponent? (cs : List Char) : Option Int :=
  let (negative, r) := signed cs
  (digits? 10 r).map fun ds => applySign negative (valueOf 10 ds)

/-- The float nearest to a decimal number; it has no value if that is infinite. -/
def floatOf (negative : Bool) (ds : List Nat) (exponent : Int) : TomlValue :=
  let x := Binary64.ofDecimal negative (valueOf 10 ds) exponent
  if x = .infinity negative then .unreadable else .float x

/-- A float with a fraction, an exponent or both. -/
def decimalFloat? (word : List Char) : Option TomlValue :=
  let (negative, cs) := signed word
  let mantissa := cs.takeWhile fun c => c != 'e' && c != 'E'
  let power := cs.drop mantissa.length
  let whole := mantissa.takeWhile (· != '.')
  let fraction := mantissa.drop whole.length
  if (power.isEmpty && fraction.isEmpty) || !joinsDigits Char.isDigit (cs != word) cs then none
  else do
    let ws ← digits? 10 whole
    let fs ← if fraction.isEmpty then some [] else digits? 10 (fraction.drop 1)
    let e ← if power.isEmpty then some 0 else exponent? (power.drop 1)
    if whole.head? = some '0' ∧ ws.length ≠ 1 then none
    else some (floatOf negative (ws ++ fs) (e - fs.length))

def float? (word : List Char) : Option TomlValue :=
  let (negative, r) := signed word
  if r = ['i', 'n', 'f'] then some (.float (.infinity negative))
  else if r = ['n', 'a', 'n'] then some (.float (.ofFloat (0.0 / 0.0)))
  else decimalFloat? word

/-! ## Dates and times -/

/-- A number of exactly `size` digits at the front. -/
def fixed? (size : Nat) (cs : List Char) : Option (Nat × List Char) :=
  let ds := cs.take size
  if ds.length = size ∧ ds.all Char.isDigit then
    some (ds.foldl (fun n c => 10 * n + (c.toNat - 0x30)) 0, cs.drop size)
  else none

def char? (c : Char) : List Char → Option (List Char)
  | d :: r => if c == d then some r else none
  | [] => none

def isLeapYear (y : Nat) : Bool := (y % 4 == 0 && y % 100 != 0) || y % 400 == 0

def daysIn (year month : Nat) : Nat :=
  if month == 2 then (if isLeapYear year then 29 else 28)
  else if month == 4 || month == 6 || month == 9 || month == 11 then 30
  else 31

/-- A date; the answer is what follows it. -/
def date? (cs : List Char) : Option (List Char) := do
  let (year, r) ← fixed? 4 cs
  let r ← char? '-' r
  let (month, r) ← fixed? 2 r
  let r ← char? '-' r
  let (day, r) ← fixed? 2 r
  if 1 ≤ month ∧ month ≤ 12 ∧ 1 ≤ day ∧ day ≤ daysIn year month then some r else none

/-- A fraction of a second, or nothing. -/
def secondFraction? (cs : List Char) : Option (List Char) :=
  match cs with
  | '.' :: r =>
      let ds := r.takeWhile Char.isDigit
      if ds.isEmpty then none else some (r.drop ds.length)
  | _ => some cs

/-- A time, with or without seconds. -/
def time? (cs : List Char) : Option (List Char) := do
  let (hour, r) ← fixed? 2 cs
  let r ← char? ':' r
  let (minute, r) ← fixed? 2 r
  if hour ≤ 23 ∧ minute ≤ 59 then
    match r with
    | ':' :: r => do
        let (second, r) ← fixed? 2 r
        if second ≤ 60 then secondFraction? r else none
    | _ => some r
  else none

/-- An offset from universal time, or nothing. -/
def offset? (cs : List Char) : Option (List Char) :=
  match cs with
  | [] => some []
  | c :: r =>
      if c == 'Z' || c == 'z' then some r
      else if c == '+' || c == '-' then do
        let (hour, r) ← fixed? 2 r
        let r ← char? ':' r
        let (minute, r) ← fixed? 2 r
        if hour ≤ 23 ∧ minute ≤ 59 then some r else none
      else none

/-- Whether a word is a date, a time, or a date and a time. -/
def isDatetime (word : List Char) : Bool :=
  match date? word with
  | some [] => true
  | some (c :: r) =>
      (c == 'T' || c == 't' || c == ' ') && ((time? r).bind offset? == some [])
  | none => time? word == some []

/-! ## Words -/

/-- The value that a word stands for. -/
def word? (word : List Char) : Option TomlValue :=
  if word = ['t', 'r', 'u', 'e'] then some (.bool true)
  else if word = ['f', 'a', 'l', 's', 'e'] then some (.bool false)
  else
    ((integer? word).or (float? word)).or (if isDatetime word then some .datetime else none)

/-- The characters that end a word. -/
def wordEnds : List Char := ['=', ',', '[', ']', '{', '}', '#', ' ', '\t', '\r', '\n']

def isWordChar (c : Char) : Bool := !wordEnds.contains c

/-- A word at the front. A date may be followed by a blank and a time. -/
def takeWord (cs : List Char) : List Char × List Char :=
  let word := cs.takeWhile isWordChar
  let rest := cs.drop word.length
  match rest with
  | ' ' :: c :: r =>
      if c.isDigit && (date? word == some []) then
        let time := (c :: r).takeWhile isWordChar
        (word ++ ' ' :: time, (c :: r).drop time.length)
      else (word, rest)
  | _ => (word, rest)

end Toml

end PathForecast
