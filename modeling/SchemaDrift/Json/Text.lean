import SchemaDrift.Double.Text
import SchemaDrift.Json
import SchemaDrift.Text.Quoted

/-!
# Texts of JSON values

A value is written on one line with a comma and a space between the entries of arrays and objects
and a colon and a space behind a key. The words for scalars are a `Spelling`.

* `Json.spell` writes a value in front of a given rest, in any spelling.
* `Json.wire` is the spelling of JSON texts, in ASCII only.
* `Json.literal` is the spelling of messages.
-/

namespace SchemaDrift.Json

structure Spelling where
  null : List Char
  yes : List Char
  no : List Char
  number : Number → List Char
  text : List Char → List Char

mutual

/-- The text of a value in front of `rest`. -/
def spell (sp : Spelling) : Json → List Char → List Char
  | .null, rest => sp.null ++ rest
  | .bool b, rest => (if b then sp.yes else sp.no) ++ rest
  | .num n, rest => sp.number n ++ rest
  | .str s, rest => sp.text s.toList ++ rest
  | .arr xs, rest => '[' :: spellItems sp [] xs (']' :: rest)
  | .obj fs, rest => '{' :: spellFields sp [] fs ('}' :: rest)

/-- The texts of items in front of `rest`; `lead` stands in front of the first one. -/
def spellItems (sp : Spelling) (lead : List Char) : List Json → List Char → List Char
  | [], rest => rest
  | x :: xs, rest => lead ++ spell sp x (spellItems sp [',', ' '] xs rest)

def spellFields (sp : Spelling) (lead : List Char) : List (String × Json) → List Char → List Char
  | [], rest => rest
  | (key, x) :: fs, rest =>
    lead ++ sp.text key.toList ++ ':' :: ' ' :: spell sp x (spellFields sp [',', ' '] fs rest)

end

def inSpelling (sp : Spelling) (x : Json) : String := String.ofList (spell sp x [])

/-- The text of a number, with the given names for the values that have no digits. Only values that
a text can hold are meant to be written: their integers have at most `Json.digitLimit` digits. -/
def numberText (names : Double.SpecialNames) : Number → List Char
  | .int n => (toString n).toList
  | .double x => (x.text names).toList

/-! ## JSON texts -/

def unitEscape (unit : Nat) : List Char := '\\' :: 'u' :: Text.hex 4 unit

/-- How one character is written between the quotation marks of a JSON text. Characters beyond
the basic plane are written as two units. -/
def escapedChar (c : Char) : List Char :=
  if c = '\x22' ∨ c = '\\' then ['\\', c]
  else if c = '\n' then ['\\', 'n']
  else if c = '\r' then ['\\', 'r']
  else if c = '\t' then ['\\', 't']
  else if c = '\x0c' then ['\\', 'f']
  else if c = '\x08' then ['\\', 'b']
  else if ' ' ≤ c ∧ c ≤ '~' then [c]
  else if c.toNat < 65536 then unitEscape c.toNat
  else
    let offset := c.toNat - 65536
    unitEscape (55296 + offset / 1024) ++ unitEscape (56320 + offset % 1024)

def stringText (cs : List Char) : List Char := '\x22' :: (cs.flatMap escapedChar ++ ['\x22'])

def wire : Spelling where
  null := "null".toList
  yes := "true".toList
  no := "false".toList
  number := numberText ⟨"NaN", "Infinity"⟩
  text := stringText

def toText (x : Json) : String := x.inSpelling wire

/-! ## Texts for messages -/

def message : Spelling where
  null := "None".toList
  yes := "True".toList
  no := "False".toList
  number := numberText ⟨"nan", "inf"⟩
  text := Text.quotedChars

def literal (x : Json) : String := x.inSpelling message

example : (Json.obj [("a", .arr [.num (.int 1), .null])]).toText = "\x7b\"a\": [1, null]\x7d" := by
  decide +kernel
example : (Json.arr [.bool true, .str "a"]).literal = "[True, 'a']" := by decide +kernel
example : stringText ['é', '😀'] = "\"\\u00e9\\ud83d\\ude00\"".toList := by decide +kernel

end SchemaDrift.Json
