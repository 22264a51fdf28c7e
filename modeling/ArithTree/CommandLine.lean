import ArithTree.Depth
import ArithTree.Expr.Generator
import ArithTree.Expr.Printer

namespace ArithTree

namespace CommandLine

-- Why a text is not a 32-bit number.
inductive NumberError
  | empty
  | invalidDigit
  | tooLarge
  deriving DecidableEq

def NumberError.message : NumberError → String
  | empty => "cannot parse integer from empty string"
  | invalidDigit => "invalid digit found in string"
  | tooLarge => "number too large to fit in target type"

-- Reads on from a value already read. The first character at fault decides the error.
def readDigits (value : Nat) : List Char → Except NumberError Nat
  | [] => .ok value
  | c :: rest =>
    if c.isDigit then
      let value := value * 10 + (c.toNat - '0'.toNat)
      if value < 2 ^ 32 then readDigits value rest else .error .tooLarge
    else .error .invalidDigit

-- Digits with an optional plus sign in front.
def readNumber : List Char → Except NumberError Nat
  | [] => .error .empty
  | ['+'] => .error .invalidDigit
  | '+' :: digits => readDigits 0 digits
  | digits => readDigits 0 digits

-- What is wrong with a list of arguments.
inductive UsageError
  | trailing
  | unrecognized (argument : String)
  | invalid (argument : String) (error : NumberError)
  | missing
  deriving DecidableEq

namespace UsageError

def message : UsageError → String
  | trailing => "Trailing arguments are not allowed after `help`."
  | unrecognized argument => s!"Unrecognized argument: {argument}\n"
  | invalid argument error =>
    s!"Error parsing positional argument 'max_rec' with value '{argument}': {error.message}\n"
  | missing => "Required positional arguments not provided:\n    max_rec\n"

end UsageError

-- What the arguments ask for.
inductive Request
  | help
  | generate (depth : Nat)
  deriving DecidableEq

namespace Request

-- There is one positional argument, the depth. Any after it is not known.
def readPositional (depth? : Option Nat) (argument : String) : Except UsageError Nat :=
  match depth? with
  | some _ => .error (.unrecognized argument)
  | none => (readNumber argument.toList).mapError (.invalid argument)

-- Reads arguments from left to right, given whether help was asked for, whether options
-- may still come, and the depth if there was one. The first error wins.
def readFrom (helpSeen options : Bool) (depth? : Option Nat) :
    List String → Except UsageError Request
  | [] =>
    if helpSeen then .ok help
    else match depth? with
      | some depth => .ok (generate depth)
      | none => .error .missing
  | argument :: rest =>
    if options ∧ (argument = "--help" ∨ argument = "help") then
      readFrom true options depth? rest
    else if options ∧ argument = "--" then readFrom helpSeen false depth? rest
    else if options ∧ argument.toList.head? = some '-' then
      .error (if helpSeen then .trailing else .unrecognized argument)
    else match readPositional depth? argument with
      | .ok depth => readFrom helpSeen options (some depth) rest
      | .error error => .error error

def ofArguments (arguments : List String) : Except UsageError Request :=
  readFrom false true none arguments

end Request

-- What a run will do.
inductive Plan
  | help
  | generate (depth : Nat)
  | tooDeep (error : DepthTooLarge)
  | misuse (error : UsageError)
  deriving DecidableEq

def Plan.ofArguments (arguments : List String) : Plan :=
  match Request.ofArguments arguments with
  | .error error => misuse error
  | .ok .help => help
  | .ok (.generate depth) =>
    match checkDepth depth with
    | .ok depth => generate depth
    | .error error => tooDeep error

def usage : String :=
  "Usage: gen-expr [--] <max_rec>\n\n" ++
  "Generate a random arithmetic expression and print it as an indented tree.\n\n" ++
  "Positional Arguments:\n" ++
  "  max_rec           maximum depth of the generated expression\n\n" ++
  "Options:\n" ++
  "  --help, help      display usage information\n\n"

-- What a run leaves behind: its exit code, its output and its messages.
structure Report where
  code : Nat
  output : String
  messages : String

-- The device behind the output.
inductive Device
  | working
  | full
  deriving DecidableEq

def Device.sink : Device → Sink
  | working => .unlimited
  | full => .limited 0 .deviceFull

def generating (depth : Nat) : String :=
  s!"INFO   Generating an expression of depth at most {depth}\n"

def deviceFull : String :=
  "Error: Io(Os \x7b code: 28, kind: StorageFull, message: \"No space left on device\" \x7d)\n"

-- Prints a tree as a program. A tree of an accepted depth keeps all widths and indents in
-- range, so nothing but the device can stop the printing.
def printOn (device : Device) (depth : Nat) (e : Expr) : Report :=
  match e.printProgram.runOn device.sink with
  | (.ok (), sink) => ⟨0, sink.text, generating depth⟩
  | (.error _, sink) => ⟨1, sink.text, generating depth ++ deviceFull⟩

-- The report of a run, or none if the source ends before there is a tree.
def Plan.run {σ : Type} [Source σ] (source : σ) (device : Device) : Plan → Option Report
  | help => some ⟨0, usage, ""⟩
  | generate depth => ((Expr.generate depth).runOn source).1.map (printOn device depth)
  | tooDeep error => some ⟨1, "", s!"Error: {error.outline}\n"⟩
  | misuse error =>
    some ⟨1, "", error.message ++ "\nRun gen-expr --help for more information.\n"⟩

end CommandLine

end ArithTree
