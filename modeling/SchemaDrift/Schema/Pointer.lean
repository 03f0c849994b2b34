/-!
# Pointers into a document

A pointer is the list of keys and positions that lead from the root of a document to a value. Its
text puts a slash in front of each token and escapes the tilde and the slash inside it.
-/

namespace SchemaDrift

/-- The tokens on the way from the root to a value. -/
abbrev Pointer := List String

namespace Pointer

def root : Pointer := []

def field (p : Pointer) (key : String) : Pointer := p ++ [key]

def item (p : Pointer) (position : Nat) : Pointer := p ++ [toString position]

def escapedChar (c : Char) : List Char :=
  if c = '~' then ['~', '0'] else if c = '/' then ['~', '1'] else [c]

def tokenText (token : String) : List Char := '/' :: token.toList.flatMap escapedChar

/-- The text of a pointer; that of the root is empty. -/
def render (p : Pointer) : String := String.ofList (p.flatMap tokenText)

example : render ["a~/b", "0"] = "/a~0~1b/0" := by decide

end Pointer

end SchemaDrift
