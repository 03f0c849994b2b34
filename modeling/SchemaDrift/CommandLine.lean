import SchemaDrift.CommandLine.Arguments
import SchemaDrift.Comparison
import SchemaDrift.Json.Reader

/-!
# The command line program

The program compares the schemas in two files and writes one line for each change. Its exit code is
zero whether there are changes or not, one if a file gives no schema or the comparison fails, and
two if the arguments are wrong.

* `CommandLine.run` is the whole program as a function of its arguments and of what the files hold.
-/

namespace SchemaDrift

/-- What a path leads to. -/
inductive Source where
  | unreadable
  | file (content : ByteArray)

/-- What the program leaves behind. -/
structure Output where
  code : Nat
  stdout : String
  stderr : String
  deriving DecidableEq, Repr

/-- Why the program breaks off without an exit code of its own. -/
inductive Crash where
  | fault (fault : Fault)
  /-- An integer literal of a file has too many digits. -/
  | integerTooLong (digits : Nat)
  /-- An operand holds no path. -/
  | noPath
  /-- A path holds the character that ends texts. -/
  | nullInPath
  deriving Repr

namespace Crash

def message : Crash → String
  | .fault e => e.message
  | .integerTooLong digits =>
    s!"Exceeds the limit ({Json.digitLimit} digits) for integer string conversion: value has " ++
      s!"{digits} digits; use sys.set_int_max_str_digits() to increase the limit"
  | .noPath => "expected str, bytes or os.PathLike object, not list"
  | .nullInPath => "embedded null byte"

end Crash

namespace CommandLine

def program : String := "json-schema-diff"

def usage : String := s!"usage: {program} [-h] [-v] [--version] old new\n"

def help : String :=
  usage ++ String.join (([
    "",
    "Print the changes between two JSON Schema documents.",
    "",
    "positional arguments:",
    "  old            Path to the old (LHS) schema",
    "  new            Path to the new (RHS) schema",
    "",
    "options:",
    "  -h, --help     show this help message and exit",
    "  -v, --verbose  Log diagnostic messages to stderr",
    "  --version      show program's version number and exit"] : List String).map (· ++ "\n"))

def version : String := s!"{program} 0.1.0\n"

/-- The output for arguments that are wrong. -/
def misuse (message : String) : Output :=
  ⟨2, "", usage ++ s!"{program}: error: {message}\n"⟩

/-- The output for arguments that ask for no comparison. -/
def halted : Halt → Output
  | .help => ⟨0, help, ""⟩
  | .version => ⟨0, version, ""⟩
  | .ambiguous argument candidates =>
    misuse (s!"ambiguous option: {argument} could match " ++ String.intercalate ", " candidates)
  | .ignored switch attached =>
    misuse (s!"argument {switch.title}: ignored explicit argument " ++
      Text.quoted (String.ofList attached))
  | .missing operands =>
    misuse ("the following arguments are required: " ++ String.intercalate ", " operands)
  | .unrecognised arguments =>
    misuse ("unrecognized arguments: " ++ String.intercalate " " arguments)

/-- The output for a failure that the program itself reports. -/
def failure (notes : String) (message : String) : Output :=
  ⟨1, "", notes ++ s!"Error: {message}\n"⟩

def noteText (verbose : Bool) (notes : List Note) : String :=
  if verbose then String.join (notes.map fun n => n.line ++ "\n") else ""

/-- Why a document is not loaded: the program reports it, or it breaks off. -/
inductive LoadFault where
  | reported (message : String)
  | crashed (crash : Crash)

/-- Loads the document that an operand leads to. A message names the path between quotation marks,
in place of the wording of the system or of the reader. -/
def load (read : String → Source) (operand : Option String) : Except LoadFault Json :=
  match operand with
  | none => .error (.crashed .noPath)
  | some path =>
    if path.toList.contains '\x00' then .error (.crashed .nullInPath)
    else
      match read path with
      | .unreadable => .error (.reported s!"cannot read schema: {Text.quoted path}")
      | .file content =>
        match Json.ofBytes content with
        | .ok x => .ok x
        | .error .malformed => .error (.reported s!"invalid JSON: {Text.quoted path}")
        | .error (.integerTooLong digits) => .error (.crashed (.integerTooLong digits))

/-- Whether the program itself reports a fault; on any other it breaks off. -/
def isReported : Fault → Bool
  | .malformed .. => true
  | .tooDeep .. => true
  | _ => false

def finish (verbose : Bool) (c : Comparison) : Except Crash Output :=
  match c.changes with
  | .ok changes =>
    let notes := c.notes ++ [.compared changes.length, .writing changes.length]
    .ok ⟨0, String.join (changes.map fun change => change.line ++ "\n"), noteText verbose notes⟩
  | .error e =>
    if isReported e then .ok (failure (noteText verbose c.notes) e.message)
    else .error (.fault e)

/-- Loads both documents, the old one first, and compares them. -/
def compareFiles (args : Arguments) (read : String → Source) : Except Crash Output :=
  match load read args.old, load read args.new with
  | .error (.crashed e), _ => .error e
  | .error (.reported message), _ => .ok (failure "" message)
  | .ok _, .error (.crashed e) => .error e
  | .ok _, .error (.reported message) => .ok (failure "" message)
  | .ok old, .ok new =>
    finish args.verbose (.standard old new)

def run (args : List String) (read : String → Source) : Except Crash Output :=
  match Arguments.parse args with
  | .error halt => .ok (halted halt)
  | .ok arguments => compareFiles arguments read

def paths (args : List String) : List String :=
  match Arguments.parse args with
  | .error _ => []
  | .ok arguments => arguments.old.toList ++ arguments.new.toList

end CommandLine

end SchemaDrift
