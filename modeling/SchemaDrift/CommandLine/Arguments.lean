import SchemaDrift.Text.DecimalDigit
import SchemaDrift.Text.Quoted

/-!
# Arguments of the command line

There are two operands, the old and the new schema, and three switches, which may stand anywhere.
A long switch may be shortened as long as it is the only one that starts so, and switches of one
letter may be written together. Behind `--` everything is an operand.

* `Mark.ofArgument` tells what a single argument is.
* `Arguments.parse` reads all arguments; a switch that asks for a text takes effect as soon as it is
  met, even if later arguments are wrong.
-/

namespace SchemaDrift

inductive Switch where
  | help
  | verbose
  | version
  deriving DecidableEq, Repr

namespace Switch

/-- The spellings of the switches, in the order in which they are listed. -/
def spellings : List (String × Switch) :=
  [("-h", .help), ("--help", .help), ("-v", .verbose), ("--verbose", .verbose),
    ("--version", .version)]

def ofSpelling? (s : String) : Option Switch := spellings.lookup s

/-- All spellings of a switch, as messages name it. -/
def title : Switch → String
  | .help => "-h/--help"
  | .verbose => "-v/--verbose"
  | .version => "--version"

end Switch

/-- Why the arguments ask for no comparison. -/
inductive Halt where
  | help
  | version
  | ambiguous (argument : String) (candidates : List String)
  | ignored (switch : Switch) (attached : List Char)
  | missing (operands : List String)
  | unrecognised (arguments : List String)
  deriving DecidableEq, Repr

/-- What an argument is: an operand, the mark behind which there are operands only, an unknown
switch, or a switch with the text attached to it, if any. -/
inductive Mark where
  | operand
  | separator
  | unknown
  | switch (switch : Switch) (isLetter : Bool) (attached : Option (List Char))
  deriving DecidableEq, Repr

namespace Mark

/-- The mark behind which all arguments are operands. -/
def separatorText : String := "--"

def splitAtEquals (cs : List Char) : List Char × Option (List Char) :=
  match cs.dropWhile (· != '=') with
  | [] => (cs, none)
  | _ :: attached => (cs.takeWhile (· != '='), some attached)

def beginsWith : List Char → List Char → Bool
  | [], _ => true
  | s :: ss, c :: cs => s == c && beginsWith ss cs
  | _ :: _, [] => false

/-- Whether an argument looks like a negative number; those are operands. A line end behind it
does not matter. -/
def isNegativeNumber (cs : List Char) : Bool :=
  match cs with
  | '-' :: rest =>
    let rest := if rest.getLast? == some '\n' then rest.dropLast else rest
    match rest.dropWhile Text.isDecimalDigit with
    | [] => !rest.isEmpty
    | '.' :: fraction => !fraction.isEmpty && fraction.all Text.isDecimalDigit
    | _ => false
  | _ => false

/-- The spellings that a shortened long switch may stand for. -/
def longCandidates (start : List Char) : List (String × Switch) :=
  Switch.spellings.filter fun s => beginsWith start s.1.toList

/-- What an argument with an unknown spelling is. -/
def ofUnknown (cs : List Char) : Mark :=
  if isNegativeNumber cs || cs.contains ' ' then .operand else .unknown

/-- What an argument is that starts with one or two hyphens and is no spelling of a switch. -/
def ofHyphened (argument : String) (cs : List Char) : Except Halt Mark :=
  match cs with
  | '-' :: '-' :: _ =>
    let (start, attached) := splitAtEquals cs
    match longCandidates start with
    | [] => .ok (ofUnknown cs)
    | [(_, s)] => .ok (.switch s false attached)
    | candidates => .error (.ambiguous argument (candidates.map (·.1)))
  | '-' :: letter :: rest =>
    match Switch.ofSpelling? (String.ofList ['-', letter]) with
    | some s => .ok (.switch s true (some rest))
    | none => .ok (ofUnknown cs)
  | _ => .ok (ofUnknown cs)

def isLetterSpelling (cs : List Char) : Bool := !beginsWith ['-', '-'] cs

/-- What an argument in front of the separator is. -/
def ofArgument (argument : String) : Except Halt Mark :=
  let cs := argument.toList
  match cs with
  | [] => .ok .operand
  | '-' :: more =>
    match Switch.ofSpelling? argument with
    | some s => .ok (.switch s (isLetterSpelling cs) none)
    | none =>
      if more.isEmpty then .ok .operand
      else
        match splitAtEquals cs with
        | (start, some attached) =>
          match Switch.ofSpelling? (String.ofList start) with
          | some s => .ok (.switch s (isLetterSpelling start) (some attached))
          | none => ofHyphened argument cs
        | (_, none) => ofHyphened argument cs
  | _ => .ok .operand

/-- Whether a mark is a switch, known or not. -/
def isSwitch : Mark → Bool
  | .operand => false
  | .separator => false
  | .unknown => true
  | .switch .. => true

end Mark

abbrev Marked := String × Mark

namespace Arguments

def mark : List String → Except Halt (List Marked)
  | [] => .ok []
  | a :: rest =>
    if a = Mark.separatorText then
      .ok ((a, .separator) :: rest.map fun r => (r, .operand))
    else do
      let m ← Mark.ofArgument a
      let more ← mark rest
      return (a, m) :: more

/-- What has been read so far. An operand that consists of a separator has no value. -/
structure Progress where
  operands : List (Option String)
  verbose : Bool
  extras : List String

def operandNames : List String := ["old", "new"]

/-- The switches that letters written together stand for; the first one is already known. -/
def letters (s : Switch) : List Char → Except Halt (List Switch)
  | [] => .ok [s]
  | c :: cs =>
    match Switch.ofSpelling? (String.ofList ['-', c]) with
    | some t => do
      let more ← letters t cs
      return s :: more
    | none => .error (.ignored s (c :: cs))

/-- The switches of one argument. Only letters may be attached, and only to a letter. -/
def switches (s : Switch) (isLetter : Bool) : Option (List Char) → Except Halt (List Switch)
  | none => .ok [s]
  | some [] => .error (.ignored s [])
  | some (c :: cs) => if isLetter then letters s (c :: cs) else .error (.ignored s (c :: cs))

def apply (p : Progress) : List Switch → Except Halt Progress
  | [] => .ok p
  | .help :: _ => .error .help
  | .version :: _ => .error .version
  | .verbose :: rest => apply { p with verbose := true } rest

/-- The value of an operand from the arguments that belong to it; one separator is dropped. -/
def operandValue (group : List String) : Option String :=
  match group.erase Mark.separatorText with
  | [value] => some value
  | _ => none

/-- Takes the next operand together with the separators around it. -/
def takeOperand (rest : List Marked) : Option (Option String × List Marked) :=
  let isSeparator (m : Marked) : Bool := m.2 == .separator
  match rest.dropWhile isSeparator with
  | (a, .operand) :: more =>
    let group := (rest.takeWhile isSeparator).map (·.1) ++ a ::
      (more.takeWhile isSeparator).map (·.1)
    some (operandValue group, more.dropWhile isSeparator)
  | _ => none

def takeOperands : Nat → List Marked → List (Option String) × List Marked
  | 0, rest => ([], rest)
  | count + 1, rest =>
    match takeOperand rest with
    | none => ([], rest)
    | some (value, rest) =>
      let (values, rest) := takeOperands count rest
      (value :: values, rest)

/-- Reads marked arguments; every step takes at least one, so their number bounds the steps. -/
def consume : Nat → List Marked → Progress → Except Halt Progress
  | 0, _, p => .ok p
  | _ + 1, [], p => .ok p
  | fuel + 1, (a, m) :: rest, p =>
    match m with
    | .unknown => consume fuel rest { p with extras := p.extras ++ [a] }
    | .switch s isLetter attached => do
      let all ← switches s isLetter attached
      let p ← apply p all
      consume fuel rest p
    | _ =>
      let marked := (a, m) :: rest
      match takeOperands (operandNames.length - p.operands.length) marked with
      | ([], _) =>
        let extras := (marked.takeWhile fun x => !x.2.isSwitch).map (·.1)
        consume fuel (marked.dropWhile fun x => !x.2.isSwitch)
          { p with extras := p.extras ++ extras }
      | (values, rest) => consume fuel rest { p with operands := p.operands ++ values }

end Arguments

structure Arguments where
  old : Option String
  new : Option String
  verbose : Bool
  deriving DecidableEq, Repr

namespace Arguments

/-- Reads all arguments. Missing operands are reported before arguments that are left over. -/
def parse (args : List String) : Except Halt Arguments := do
  let marked ← mark args
  let p ← consume (marked.length + 1) marked ⟨[], false, []⟩
  match p.operands with
  | [old, new] =>
    if p.extras.isEmpty then return ⟨old, new, p.verbose⟩ else throw (.unrecognised p.extras)
  | given => throw (.missing (operandNames.drop given.length))

example : (parse ["a", "-v", "b"]).toOption = some ⟨some "a", some "b", true⟩ := by
  decide +kernel
example : (parse ["--", "-v", "b"]).toOption = some ⟨some "-v", some "b", false⟩ := by
  decide +kernel

end Arguments

end SchemaDrift
