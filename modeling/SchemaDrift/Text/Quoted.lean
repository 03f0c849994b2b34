import SchemaDrift.Text.Hex
import SchemaDrift.Text.Printable

/-!
# Quoted text

Messages show a text between quotation marks: single ones, or double ones when the text holds a
single mark and no double one. Inside, the mark in use and the backslash are escaped, tabs and line
ends have escapes of their own, and every other character that is not printable is written by its
code.
-/

namespace SchemaDrift.Text

def singleMark : Char := '\x27'

def doubleMark : Char := '\x22'

def markFor (cs : List Char) : Char :=
  if cs.contains singleMark && !cs.contains doubleMark then doubleMark else singleMark

def quotedChar (mark c : Char) : List Char :=
  if c = mark ∨ c = '\\' then ['\\', c]
  else if c = '\t' then ['\\', 't']
  else if c = '\n' then ['\\', 'n']
  else if c = '\r' then ['\\', 'r']
  else if isPrintable c then [c]
  else if c.toNat < 256 then '\\' :: 'x' :: hex 2 c.toNat
  else if c.toNat < 65536 then '\\' :: 'u' :: hex 4 c.toNat
  else '\\' :: 'U' :: hex 8 c.toNat

def quotedChars (cs : List Char) : List Char :=
  let mark := markFor cs
  mark :: (cs.flatMap (quotedChar mark) ++ [mark])

def quoted (s : String) : String := String.ofList (quotedChars s.toList)

example : quotedChars ['a', '\n'] = ['\x27', 'a', '\\', 'n', '\x27'] := by decide
example : quotedChars ['\x27'] = ['\x22', '\x27', '\x22'] := by decide

end SchemaDrift.Text
