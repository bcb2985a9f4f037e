import Handheld.Asm.Listing
import Handheld.Disk
import Handheld.Source.Compile

/-!
The command line: programs are compiled, assembled, built or disassembled from one file to another.
-/
namespace Handheld

inductive Action where
  | compile
  | assemble
  | build
  | disassemble
  deriving DecidableEq, Repr

def Action.ofName? : String → Option Action
  | "compile" => some compile
  | "assemble" => some assemble
  | "build" => some build
  | "disasm" => some disassemble
  | _ => none

def Action.optionNames : Action → List String
  | compile | disassemble => ["log-level", "output"]
  | assemble | build => ["log-level", "output", "mask", "width", "height"]

structure Command where
  action : Action
  input : String
  output : Option String := none
  options : Asm.Options := {}
  deriving DecidableEq, Repr

namespace Command

structure Arguments where
  words : List String := []
  options : List (String × String) := []

def longName? : Char → Option String
  | 'o' => some "output"
  | 'l' => some "log-level"
  | _ => none

inductive Argument where
  | word
  | option (name value : String)
  | waiting (name : String)

def classify (arg : String) : Option Argument :=
  match arg.toList with
  | '-' :: '-' :: cs =>
    let name := String.ofList (cs.takeWhile (· != '='))
    match cs.dropWhile (· != '=') with
    | _ :: value => some (.option name (String.ofList value))
    | [] => some (.waiting name)
  | '-' :: c :: cs =>
    (longName? c).map fun name =>
      match cs with
      | [] => .waiting name
      | '=' :: value => .option name (String.ofList value)
      | value => .option name (String.ofList value)
  | _ => some .word

def isValue (arg : String) : Bool :=
  !arg.startsWith "-" || arg == "-"

def arguments : List String → Option Arguments
  | [] => some {}
  | "--" :: args => some { words := args }
  | arg :: args =>
    match classify arg with
    | none => none
    | some .word => (arguments args).map fun as => { as with words := arg :: as.words }
    | some (.option name value) =>
      (arguments args).map fun as => { as with options := (name, value) :: as.options }
    | some (.waiting name) =>
      match args with
      | value :: args =>
        if isValue value then
          (arguments args).map fun as => { as with options := (name, value) :: as.options }
        else none
      | [] => none

def byteDigits? (radix : Nat) (cs : List Char) : Option Nat :=
  let digits :=
    match cs with
    | '+' :: cs => cs
    | cs => cs
  (Text.numeral? radix digits).filter (· ≤ 0xFF)

def byte? (s : String) : Option Nat :=
  match s.toList with
  | '0' :: 'x' :: cs => byteDigits? 16 cs
  | '0' :: 'X' :: cs => byteDigits? 16 cs
  | cs => byteDigits? 10 cs

def size? (s : String) : Option Nat :=
  match Text.signed? 10 s.toList with
  | some n => if 0 ≤ n && n ≤ 0xFFFF then some n.toNat else none
  | none => none

def optionValue (as : Arguments) (name : String) (read : String → Option Nat) (absent : Nat) :
    Option Nat :=
  match as.options.lookup name with
  | some value => read value
  | none => some absent

def accepts (action : Action) (options : List (String × String)) : Bool :=
  let names := options.map Prod.fst
  names.all fun name =>
    action.optionNames.contains name && (name == "log-level" || names.count name == 1)

def parse (args : List String) : Option Command := do
  let as ← arguments args
  let [name, input] := as.words | none
  let action ← Action.ofName? name
  guard (accepts action as.options)
  let mask ← optionValue as "mask" byte? 0
  let width ← optionValue as "width" size? 160
  let height ← optionValue as "height" size? 80
  return {
    action := action
    input := input
    output := as.options.lookup "output"
    options :=
      { mask := UInt8.ofNat mask, width := UInt16.ofNat width, height := UInt16.ofNat height } }

def stem (name : List Char) : List Char :=
  match name.reverse.dropWhile (· != '.') with
  | _ :: rest => if rest.isEmpty then name else rest.reverse
  | [] => name

def withExtension (path extension : String) : String :=
  let name := (path.toList.reverse.takeWhile (· != '/')).reverse
  let dir := path.toList.take (path.length - name.length)
  String.ofList (dir ++ stem name) ++ "." ++ extension

inductive Outcome where
  | failure (message : String)
  | print (text : String)
  | write (path : String) (data : List UInt8)
  deriving DecidableEq, Repr

def fileError (path reason : String) : String :=
  path ++ ": " ++ reason

def target (c : Command) (extension : String) : String :=
  c.output.getD (withExtension c.input extension)

def onText (c : Command) (contents : List UInt8) (f : String → Outcome) : Outcome :=
  match Text.Utf8.decode? contents with
  | some text => f text
  | none => .failure (fileError c.input "stream did not contain valid UTF-8")

def outcome (c : Command) (contents : List UInt8) : Outcome :=
  match c.action with
  | .compile =>
    c.onText contents fun source =>
      match Source.compile source with
      | .ok text => .write (c.target "asm") (Text.Utf8.encodeString text)
      | .error e => .failure (e.diagnostic source)
  | .assemble =>
    c.onText contents fun text =>
      match Asm.assemble text c.options with
      | .ok image => .write (c.target "lav") image.toList
      | .error e => .failure ("error: " ++ e.message)
  | .build =>
    c.onText contents fun source =>
      match Source.build source c.options with
      | .ok image => .write (c.target "lav") image.toList
      | .error (.source e) => .failure (e.diagnostic source)
      | .error (.assembly e) => .failure ("error: " ++ e.message)
  | .disassemble =>
    match Asm.disassemble contents with
    | .error e => .failure ("error: " ++ e.message)
    | .ok text =>
      match c.output with
      | some path => .write path (Text.Utf8.encodeString text)
      | none => .print text

structure Reply where
  exit : UInt32 := 0
  output : String := ""
  errors : String := ""

def failed (message : String) : Reply where
  exit := 1
  errors := if message.endsWith "\n" then message else message ++ "\n"

def run (c : Command) (disk : Disk) : Reply × Disk :=
  match disk.read c.input with
  | .error e => (failed (fileError c.input e.message), disk)
  | .ok contents =>
    match c.outcome contents with
    | .failure message => (failed message, disk)
    | .print text => ({ output := text }, disk)
    | .write path data =>
      match disk.write path data with
      | .ok disk => ({}, disk)
      | .error e => (failed (fileError path e.message), disk)

end Command
end Handheld
