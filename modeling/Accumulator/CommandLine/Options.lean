import Accumulator.Assignment
import Accumulator.Program

/-! The options of the command line. An option has a long name and a short one. Its argument follows
it, or is attached: to a long name by an equals sign, to a short name directly or by an equals sign.
A long name may be cut short where no other begins like that, and short names of options without
argument may be joined. Text that begins with a dash is no argument, unless it is a negative number
or has a blank in it. Two dashes attached to a name are taken away, and leave the option with no
argument: it is set to nothing, which is found out when the option is put to use. The first thing
that is wrong is reported. -/

namespace Accumulator.CommandLine

/-- The options. -/
inductive Switch
  | help | inline | wordSize | memorySize | set | play | delay | trace | quiet | verbose
deriving DecidableEq, Repr

namespace Switch

/-- Every option, in the order in which their names are searched. -/
def all : List Switch :=
  [help, inline, wordSize, memorySize, set, play, delay, trace, quiet, verbose]

/-- The names of an option. -/
def names : Switch → List String
  | help => ["-h", "--help"]
  | inline => ["--inline", "-i"]
  | wordSize => ["--word-size", "-w"]
  | memorySize => ["--memory-size", "-m"]
  | set => ["--set", "-s"]
  | play => ["--play", "-p"]
  | delay => ["--delay", "-d"]
  | trace => ["--trace", "-t"]
  | quiet => ["--quiet", "-q"]
  | verbose => ["--verbose", "-v"]

/-- The option takes an argument. -/
def takesArgument : Switch → Bool
  | inline | wordSize | memorySize | set | delay => true
  | help | play | trace | quiet | verbose => false

/-- Every name with its option. -/
def named : List (List Char × Switch) :=
  all.flatMap fun s => s.names.map fun name => (name.toList, s)

/-- The option of a name. -/
def ofName? (name : List Char) : Option Switch := named.lookup name

end Switch

/-- What the command line asks for. Each option with an argument may be set to nothing. -/
structure Options where
  inline : Option String
  wordSize : Option Int := some 8
  memorySize : Option Int := some 256
  assignments : List (Option Assignment) := []
  play : Bool := false
  delay : Option Number.Binary64
  trace : Bool := false
  quiet : Bool := false
  verbose : Bool := false

/-- The program that runs when none is given: one pass of an adder of two cells, which leaves their
sum without carries in the first and the carries in the second. -/
def adderPass : String :=
  "load 0; xor 1; store 2; load 0; and 1; lshift; store 1; load 2; store 0"

/-- The options when none is given. -/
def Options.default : Options := { inline := some adderPass, delay := some Program.defaultDelay }

/-- Why the command line is not carried out: help is asked for, or it is wrong. -/
inductive Stop
  | help
  | misuse (message : String)
deriving DecidableEq, Repr

/-- An option is misused. -/
def Stop.ofSwitch (s : Switch) (message : String) : Stop :=
  .misuse ("argument " ++ "/".intercalate s.names ++ ": " ++ message)

/-- An option without argument is given one. -/
def Stop.ignored (s : Switch) (argument : List Char) : Stop :=
  .ofSwitch s ("ignored explicit argument " ++ Text.quote (String.ofList argument))

/-- An argument is not of the type of its option. -/
def Stop.invalid (s : Switch) (type : String) (argument : List Char) : Stop :=
  .ofSwitch s ("invalid " ++ type ++ " value: " ++ Text.quote (String.ofList argument))

/-- What a text on the command line is: an argument; a name of an option, with what is attached;
or a name of no option. -/
inductive Piece
  | argument
  | option (switch : Switch) (short : Bool) (attached : Option (List Char))
  | unknown
deriving DecidableEq, Repr

/-- A negative number: a dash, and digits with at most one point and a digit at the end. -/
def isNegativeNumber (s : List Char) : Bool :=
  match s.map Text.plainDigit with
  | '-' :: rest =>
    let number := if rest.getLast? = some '\n' then rest.dropLast else rest
    match number.dropWhile Char.isDigit with
    | [] => !number.isEmpty
    | '.' :: fraction => !fraction.isEmpty && fraction.all Char.isDigit
    | _ => false
  | _ => false

/-- The options that a text with two dashes may be short for, with their names. -/
def candidates (s : List Char) : List (List Char × Switch) :=
  let name := s.takeWhile (· != '=')
  Switch.named.filter fun entry => name.isPrefixOf entry.1

/-- A text that begins with a dash and is no name of an option: a name cut short, a short name with
something attached, or something else. -/
def classifyOther (s : List Char) : Except Stop Piece :=
  let neither := if isNegativeNumber s || s.contains ' ' then Piece.argument else .unknown
  match s with
  | '-' :: '-' :: _ =>
    match candidates s with
    | [] => .ok neither
    | [entry] => .ok (.option entry.2 false ((Assignment.splitAtEquals? s).map (·.2)))
    | several =>
      .error (.misuse ("ambiguous option: " ++ String.ofList s ++ " could match " ++
        ", ".intercalate (several.map fun entry => String.ofList entry.1)))
  | '-' :: c :: rest =>
    match Switch.ofName? ['-', c] with
    | some switch => .ok (.option switch true (some rest))
    | none => .ok neither
  | _ => .ok .argument

/-- A name of an option has one dash. -/
def isShort (name : List Char) : Bool := name.length = 2

/-- What a text on the command line is. -/
def classify (s : List Char) : Except Stop Piece :=
  match s with
  | '-' :: _ :: _ =>
    match Switch.ofName? s with
    | some switch => .ok (.option switch (isShort s) none)
    | none =>
      match Assignment.splitAtEquals? s with
      | some (name, attached) =>
        match Switch.ofName? name with
        | some switch => .ok (.option switch (isShort name) (some attached))
        | none => classifyOther s
      | none => classifyOther s
  | _ => .ok .argument

/-- What the texts on the command line are. After two dashes alone there are no more options, and
they are no argument either. -/
def classifyAll : List (List Char) → Except Stop (List (List Char × Piece))
  | [] => .ok []
  | s :: rest =>
    if s = ['-', '-'] then
      .ok ((s, .unknown) :: rest.map fun s => (s, .argument))
    else do
      let piece ← classify s
      return (s, piece) :: (← classifyAll rest)

/-- An option to be carried out, with its argument if it has one. -/
abbrev Use := Switch × Option (List Char)

/-- The use of an option with text attached, which is its argument unless it is two dashes. -/
def Use.attached (switch : Switch) (text : List Char) : Use :=
  (switch, if text = ['-', '-'] then none else some text)

/-- What joined short names come to: options to be carried out, and then nothing more, or an option
whose argument follows. -/
inductive Joined
  | complete (uses : List Use)
  | wanting (uses : List Use) (switch : Switch)
deriving DecidableEq, Repr

/-- What follows when one more option comes first. -/
def Joined.cons (use : Use) : Joined → Joined
  | complete uses => complete (use :: uses)
  | wanting uses switch => wanting (use :: uses) switch

/-- An option with nothing attached, whose argument follows if it takes one. -/
def Joined.alone (switch : Switch) : Joined :=
  if switch.takesArgument then wanting [] switch else complete [(switch, none)]

/-- An option with text attached. If it takes no argument and its name is short, the text holds more
short names, the last of which may take the rest as its argument. -/
def joined (switch : Switch) (short : Bool) : List Char → Except Stop Joined
  | [] =>
    if switch.takesArgument then .ok (.complete [.attached switch []])
    else .error (.ignored switch [])
  | c :: rest =>
    if switch.takesArgument then .ok (.complete [.attached switch (c :: rest)])
    else if !short then .error (.ignored switch (c :: rest))
    else
      match Switch.ofName? ['-', c], rest with
      | none, _ => .error (.ignored switch (c :: rest))
      | some next, [] => .ok ((Joined.alone next).cons (switch, none))
      | some next, d :: text => (joined next short (d :: text)).map (Joined.cons (switch, none))

/-- An option with what is attached to its name. -/
def joinedUses (switch : Switch) (short : Bool) : Option (List Char) → Except Stop Joined
  | some text => joined switch short text
  | none => .ok (.alone switch)

/-- Reads the argument of an option, if there is one. -/
def readArgument {α : Type} (read : List Char → Except Stop α) :
    Option (List Char) → Except Stop (Option α)
  | none => .ok none
  | some s => (read s).map some

/-- Reads the argument of an option that is a whole number. -/
def readInteger (switch : Switch) (s : List Char) : Except Stop Int :=
  match Number.readIn 10 s with
  | .ok n => .ok n
  | .error _ => .error (.invalid switch "int" s)

/-- Reads the argument of an option that is a number. -/
def readNumber (switch : Switch) (s : List Char) : Except Stop Number.Binary64 :=
  match Number.Binary64.read s with
  | some x => .ok x
  | none => .error (.invalid switch "float" s)

/-- Reads the argument of an option that is an assignment. -/
def readAssignment (switch : Switch) (s : List Char) : Except Stop Assignment :=
  match Assignment.read s with
  | .ok assignment => .ok assignment
  | .error fault => .error (.ofSwitch switch fault.message)

/-- Carries out an option. -/
def Options.use (o : Options) : Use → Except Stop Options
  | (.help, _) => .error .help
  | (.inline, s) => .ok { o with inline := s.map String.ofList }
  | (.wordSize, s) => do return { o with wordSize := ← readArgument (readInteger .wordSize) s }
  | (.memorySize, s) => do
    return { o with memorySize := ← readArgument (readInteger .memorySize) s }
  | (.set, s) => do
    let assignment ← readArgument (readAssignment .set) s
    return { o with assignments := o.assignments ++ [assignment] }
  | (.play, _) => .ok { o with play := true }
  | (.delay, s) => do return { o with delay := ← readArgument (readNumber .delay) s }
  | (.trace, _) => .ok { o with trace := true }
  | (.quiet, _) => .ok { o with quiet := true }
  | (.verbose, _) => .ok { o with verbose := true }

/-- Carries out options in order. -/
def Options.useAll (o : Options) (uses : List Use) : Except Stop Options :=
  uses.foldlM Options.use o

/-- Carries out the command line; the texts that belong to no option are left over. -/
def readPieces (o : Options) :
    List (List Char × Piece) → Except Stop (Options × List (List Char))
  | [] => .ok (o, [])
  | (s, .argument) :: rest | (s, .unknown) :: rest => do
    let (o, extras) ← readPieces o rest
    return (o, s :: extras)
  | (_, .option switch short attached) :: rest => do
    match ← joinedUses switch short attached with
    | .complete uses => readPieces (← o.useAll uses) rest
    | .wanting uses last =>
      match rest with
      | (argument, .argument) :: rest =>
        readPieces (← o.useAll (uses ++ [(last, some argument)])) rest
      | _ => throw (.ofSwitch last "expected one argument")

/-- Reads the command line. -/
def Options.read (arguments : List String) : Except Stop Options := do
  let (o, extras) ← readPieces .default (← classifyAll (arguments.map String.toList))
  if extras.isEmpty then return o
  else
    throw (.misuse ("unrecognized arguments: " ++ " ".intercalate (extras.map String.ofList)))

end Accumulator.CommandLine
