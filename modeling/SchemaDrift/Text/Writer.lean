import SchemaDrift.Text.Quoted

/-!
# Writers

A writer puts the text of a value in front of a given rest. These are the writers of compound
values, made from writers of their parts: the entries of a compound value have a comma and a blank
between them.

* `Writer.optional` writes a value that may be absent, with a word for its absence.
* `Writer.tuple` and `Writer.table` write lists and tables.
* `Writer.next` stands between a field of a record and the value of its next field.
* `Writer.text` is all that is written for a value.
-/

namespace SchemaDrift

/-- A way to write the values of a type in front of a given rest. -/
abbrev Writer (α : Type) := α → List Char → List Char

namespace Writer

variable {α : Type}

abbrev word (s : String) (rest : List Char) : List Char := s.toList ++ rest

def quoted : Writer String := fun s rest => Text.quotedChars s.toList ++ rest

def optional (absent : String) (write : Writer α) : Writer (Option α)
  | none, rest => word absent rest
  | some x, rest => write x rest

/-- The entries of a compound value; `lead` stands in front of the first one. -/
def entries (write : Writer α) (lead : List Char) : Writer (List α)
  | [], rest => rest
  | x :: xs, rest => lead ++ write x (entries write [',', ' '] xs rest)

/-- The end of a tuple. A comma behind its only item tells a tuple from a value in brackets. -/
def tupleEnd : Writer (List α)
  | [_], rest => ',' :: ')' :: rest
  | _, rest => ')' :: rest

def tuple (write : Writer α) : Writer (List α) := fun xs rest =>
  '(' :: entries write [] xs (tupleEnd xs rest)

example : tuple quoted ["a"] [] = "('a',)".toList := by decide +kernel
example : tuple quoted ["a", "it's"] [] = "('a', \"it's\")".toList := by decide +kernel

def keyed (write : Writer α) : Writer (String × α) := fun f rest =>
  quoted f.1 (':' :: ' ' :: write f.2 rest)

def table (write : Writer α) : Writer (List (String × α)) := fun fs rest =>
  '{' :: entries (keyed write) [] fs ('}' :: rest)

/-- The name of a further field of a record in front of its value. -/
def next (name : String) (rest : List Char) : List Char :=
  ',' :: ' ' :: name.toList ++ '=' :: rest

/-! ## Whole texts -/

theorem toByteArray_loop (bytes : List UInt8) (front : ByteArray) :
    List.toByteArray.loop bytes front = ⟨⟨front.data.toList ++ bytes⟩⟩ := by
  induction bytes generalizing front with
  | nil => exact congrArg (fun all => (⟨⟨all⟩⟩ : ByteArray)) (List.append_nil _).symm
  | cons b bytes ih =>
    refine (ih (front.push b)).trans ?_
    rw [ByteArray.data_push, Array.toList_push, ← List.append_cons]

theorem utf8Encode_eq (cs : List Char) :
    cs.utf8Encode = ⟨⟨cs.flatMap String.utf8EncodeChar⟩⟩ := by
  rw [List.utf8Encode, List.toByteArray, toByteArray_loop]
  rfl

/-- All that is written for a value. The bytes are put down as one list, as a string that is made
byte by byte is too slow to be compared in proofs. -/
def text (write : Writer α) (x : α) : String :=
  ⟨⟨⟨(write x []).flatMap String.utf8EncodeChar⟩⟩, ⟨write x [], (utf8Encode_eq _).symm⟩⟩

theorem text_eq (write : Writer α) (x : α) : text write x = String.ofList (write x []) :=
  String.toByteArray_inj.mp (utf8Encode_eq _).symm

end Writer

end SchemaDrift
