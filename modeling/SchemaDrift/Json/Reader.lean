import SchemaDrift.Fields
import SchemaDrift.Json
import SchemaDrift.Text.Hex

/-!
# Reading JSON texts

The grammar is that of JSON, with three more words for numbers: `NaN`, `Infinity` and
`-Infinity`. Of several fields with one key the last gives the value and the first the position.

The strings that are read are sequences of scalar values. An escape of half a surrogate pair without
the other half gives U+FFFD, so that strings which differ in such halves only are read as one.

* `Json.ofText` reads a whole text, and fails if anything but blanks follows the value.
* `Json.ofBytes` reads a UTF-8 text.
* A literal without point and exponent is an integer and may have at most `Json.digitLimit` digits;
  every other number is rounded to a double.
-/

namespace SchemaDrift.Json

inductive TextFault where
  /-- The text is no JSON text. -/
  | malformed
  /-- An integer literal has this many digits, which is more than are read. -/
  | integerTooLong (digits : Nat)
  deriving DecidableEq, Repr

/-- The largest number of digits of an integer literal. -/
def digitLimit : Nat := 4300

def isBlank (c : Char) : Bool := c == ' ' || c == '\t' || c == '\n' || c == '\r'

def skipBlanks : List Char → List Char := List.dropWhile isBlank

/-! ## Strings -/

def unit? (a b c d : Char) : Option Nat := do
  let a ← Text.hexValue? a
  let b ← Text.hexValue? b
  let c ← Text.hexValue? c
  let d ← Text.hexValue? d
  some (((a * 16 + b) * 16 + c) * 16 + d)

/-- The character that an escape of one letter stands for. -/
def shortEscape? (c : Char) : Option Nat :=
  if c = '\x22' ∨ c = '\\' ∨ c = '/' then some c.toNat
  else if c = 'n' then some 10
  else if c = 'r' then some 13
  else if c = 't' then some 9
  else if c = 'f' then some 12
  else if c = 'b' then some 8
  else none

/-- The codes of a string up to its closing quotation mark, and what follows. Halves of surrogate
pairs are still apart. -/
def stringCodes : List Char → Option (List Nat × List Char)
  | [] => none
  | c :: rest =>
    if c = '\x22' then some ([], rest)
    else if c = '\\' then
      match rest with
      | [] => none
      | e :: rest =>
        if e = 'u' then
          match rest with
          | a :: b :: c :: d :: rest =>
            match unit? a b c d, stringCodes rest with
            | some code, some (codes, after) => some (code :: codes, after)
            | _, _ => none
          | _ => none
        else
          match shortEscape? e, stringCodes rest with
          | some code, some (codes, after) => some (code :: codes, after)
          | _, _ => none
    else if c < ' ' then none
    else
      match stringCodes rest with
      | some (codes, after) => some (c.toNat :: codes, after)
      | none => none

/-- Whether a code is the first half of a surrogate pair. -/
def isHighHalf (code : Nat) : Bool := decide (55296 ≤ code ∧ code < 56320)

/-- Whether a code is the second half of a surrogate pair. -/
def isLowHalf (code : Nat) : Bool := decide (56320 ≤ code ∧ code < 57344)

/-- The character with a code. A half of a pair that stands alone is no scalar value and becomes the
replacement character. -/
def charOfCode (code : Nat) : Char :=
  if isHighHalf code || isLowHalf code then '\ufffd' else Char.ofNat code

/-- Joins the halves of surrogate pairs; `high` is a first half that waits for its partner. -/
def joinHalves : Option Nat → List Nat → List Char
  | none, [] => []
  | some high, [] => [charOfCode high]
  | none, code :: codes =>
    if isHighHalf code then joinHalves (some code) codes
    else charOfCode code :: joinHalves none codes
  | some high, code :: codes =>
    if isLowHalf code then
      Char.ofNat (65536 + (high - 55296) * 1024 + (code - 56320)) :: joinHalves none codes
    else if isHighHalf code then charOfCode high :: joinHalves (some code) codes
    else charOfCode high :: charOfCode code :: joinHalves none codes

def readString (cs : List Char) : Except TextFault (String × List Char) :=
  match stringCodes cs with
  | some (codes, rest) => .ok (String.ofList (joinHalves none codes), rest)
  | none => .error .malformed

/-! ## Numbers -/

/-- The number that decimal digits spell. -/
def digitsValue (ds : List Char) : Nat := ds.foldl (fun n d => n * 10 + (d.toNat - 48)) 0

/-- The digits in front of a number's point, and what follows: a lone zero or digits that do not
start with zero. -/
def wholeDigits : List Char → Option (List Char × List Char)
  | [] => none
  | c :: cs =>
    if c = '0' then some (['0'], cs)
    else if c.isDigit then some (c :: cs.takeWhile Char.isDigit, cs.dropWhile Char.isDigit)
    else none

/-- The digits behind a point, if a point and a digit come next. -/
def fractionDigits : List Char → List Char × List Char
  | '.' :: d :: cs =>
    if d.isDigit then (d :: cs.takeWhile Char.isDigit, cs.dropWhile Char.isDigit)
    else ([], '.' :: d :: cs)
  | cs => ([], cs)

/-- The digits of an exponent behind its sign. -/
def exponentDigits (negative : Bool) : List Char → Option (Int × List Char)
  | [] => none
  | d :: cs =>
    if d.isDigit then
      let value : Int := digitsValue (d :: cs.takeWhile Char.isDigit)
      some (if negative then -value else value, cs.dropWhile Char.isDigit)
    else none

/-- The exponent, if one comes next. -/
def exponent? : List Char → Option (Int × List Char)
  | c :: cs =>
    if c = 'e' ∨ c = 'E' then
      match cs with
      | '+' :: cs => exponentDigits false cs
      | '-' :: cs => exponentDigits true cs
      | cs => exponentDigits false cs
    else none
  | [] => none

/-- Reads a number behind its sign. -/
def readNumber (negative : Bool) (cs : List Char) : Except TextFault (Json × List Char) :=
  match wholeDigits cs with
  | none => .error .malformed
  | some (whole, rest) =>
    let (fraction, rest) := fractionDigits rest
    match fraction, exponent? rest with
    | [], none =>
      if digitLimit < whole.length then .error (.integerTooLong whole.length)
      else
        let value : Int := digitsValue whole
        .ok (.num (.int (if negative then -value else value)), rest)
    | _, none =>
      .ok (.num (.double (.ofDecimal negative (digitsValue (whole ++ fraction))
        (-fraction.length))), rest)
    | _, some (exponent, rest) =>
      .ok (.num (.double (.ofDecimal negative (digitsValue (whole ++ fraction))
        (exponent - fraction.length))), rest)

/-! ## Values -/

/-- What follows `word` in a text that starts with it. -/
def afterWord : List Char → List Char → Option (List Char)
  | [], cs => some cs
  | w :: ws, c :: cs => if w = c then afterWord ws cs else none
  | _ :: _, [] => none

def readScalar (cs : List Char) : Except TextFault (Json × List Char) :=
  match afterWord "null".toList cs with
  | some rest => .ok (.null, rest)
  | none =>
    match afterWord "true".toList cs with
    | some rest => .ok (.bool true, rest)
    | none =>
      match afterWord "false".toList cs with
      | some rest => .ok (.bool false, rest)
      | none =>
        match afterWord "NaN".toList cs with
        | some rest => .ok (.num (.double .nan), rest)
        | none =>
          match afterWord "Infinity".toList cs with
          | some rest => .ok (.num (.double (.infinite false)), rest)
          | none =>
            match afterWord "-Infinity".toList cs with
            | some rest => .ok (.num (.double (.infinite true)), rest)
            | none =>
              match cs with
              | '-' :: cs => readNumber true cs
              | cs => readNumber false cs

mutual

/-- Reads a value that starts at the first character. The first argument bounds the nesting; twice
the length of the text is always enough. -/
def readValue : Nat → List Char → Except TextFault (Json × List Char)
  | 0, _ => .error .malformed
  | _ + 1, [] => .error .malformed
  | fuel + 1, c :: cs =>
    if c = '\x22' then
      match readString cs with
      | .ok (s, rest) => .ok (.str s, rest)
      | .error e => .error e
    else if c = '[' then
      match skipBlanks cs with
      | ']' :: rest => .ok (.arr [], rest)
      | rest =>
        match readItems fuel rest with
        | .ok (xs, rest) => .ok (.arr xs, rest)
        | .error e => .error e
    else if c = '{' then
      match skipBlanks cs with
      | '}' :: rest => .ok (.obj [], rest)
      | rest =>
        match readFields fuel [] rest with
        | .ok (fs, rest) => .ok (.obj fs, rest)
        | .error e => .error e
    else readScalar (c :: cs)

def readItems : Nat → List Char → Except TextFault (List Json × List Char)
  | 0, _ => .error .malformed
  | fuel + 1, cs =>
    match readValue fuel cs with
    | .error e => .error e
    | .ok (x, rest) =>
      match skipBlanks rest with
      | ']' :: rest => .ok ([x], rest)
      | ',' :: rest =>
        match readItems fuel (skipBlanks rest) with
        | .ok (xs, rest) => .ok (x :: xs, rest)
        | .error e => .error e
      | _ => .error .malformed

/-- Reads the fields of an object up to its closing brace, adding them to those read before. -/
def readFields : Nat → List (String × Json) → List Char →
    Except TextFault (List (String × Json) × List Char)
  | 0, _, _ => .error .malformed
  | fuel + 1, fields, cs =>
    match cs with
    | '\x22' :: cs =>
      match readString cs with
      | .error e => .error e
      | .ok (key, rest) =>
        match skipBlanks rest with
        | ':' :: rest =>
          match readValue fuel (skipBlanks rest) with
          | .error e => .error e
          | .ok (x, rest) =>
            let fields := Fields.put key x fields
            match skipBlanks rest with
            | '}' :: rest => .ok (fields, rest)
            | ',' :: rest => readFields fuel fields (skipBlanks rest)
            | _ => .error .malformed
        | _ => .error .malformed
    | _ => .error .malformed

end

def ofChars (cs : List Char) : Except TextFault Json :=
  match readValue (2 * cs.length + 2) (skipBlanks cs) with
  | .error e => .error e
  | .ok (x, rest) => if (skipBlanks rest).isEmpty then .ok x else .error .malformed

def ofText (s : String) : Except TextFault Json := ofChars s.toList

def ofBytes (bytes : ByteArray) : Except TextFault Json :=
  match String.fromUTF8? bytes with
  | some s => ofText s
  | none => .error .malformed

end SchemaDrift.Json
