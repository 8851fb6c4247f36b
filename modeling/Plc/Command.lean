import Plc.Command.Path
import Plc.Compile
import Plc.Dump
import Plc.Java.Lowering
import Plc.Java.Print
import Plc.Machine.Run
import Plc.SourceText

/-! The command: which request its arguments make, and what it answers to the contents of the
file it was pointed to. Files are read and written elsewhere, and what comes of that is told to
the functions here. -/
namespace Plc

structure Options where
  input : Option String := none
  output : Option String := none
  dumpTokens : Bool := false
  emitTree : Bool := false
  noRun : Bool := false
deriving DecidableEq

inductive Request where
  | run (input : String) (options : Options)
  | build (input : String) (options : Options)
deriving DecidableEq

namespace Request

def input : Request → String
  | run input _ | build input _ => input

def options : Request → Options
  | run _ options | build _ options => options

def withInput (options : Options) (input : String) : Option Options :=
  if options.input.isNone then some { options with input := some input } else none

/-- An output may be named once, and only where something is built. -/
def withOutput (building : Bool) (options : Options) (output : String) : Option Options :=
  if building && options.output.isNone then some { options with output := some output } else none

def withEmit (options : Options) (what : String) : Option Options :=
  if what == "ast" then some { options with emitTree := true } else none

def after? (lead text : String) : Option String :=
  if text.startsWith lead && text != lead then
    some (String.ofList (text.toList.drop lead.length))
  else none

def readSingle (building : Bool) (options : Options) (argument : String) : Option Options :=
  if argument == "--dump-tokens" then some { options with dumpTokens := true }
  else if argument == "--no-run" && !building then some { options with noRun := true }
  else if let some what := after? "--emit=" argument then withEmit options what
  else if let some output := after? "--output=" argument then withOutput building options output
  else if let some output := after? "-o=" argument then withOutput building options output
  else if let some output := after? "-o" argument then withOutput building options output
  else if argument.startsWith "-" && argument != "-" then none
  else withInput options argument

def readOptions (building : Bool) (options : Options) : List String → Option Options
  | [] => some options
  | "--" :: inputs => inputs.foldlM withInput options
  | "--emit" :: what :: more => do readOptions building (← withEmit options what) more
  | "--output" :: output :: more => do
    readOptions building (← withOutput building options output) more
  | "-o" :: output :: more => do
    readOptions building (← withOutput building options output) more
  | argument :: more => do
    readOptions building (← readSingle building options argument) more

/-- The request that arguments make. The words `build` and `run` mean something only in front. -/
def ofArguments? (arguments : List String) : Option Request := do
  match arguments with
  | "build" :: more =>
    let options ← readOptions true {} more
    return build (← options.input) options
  | "run" :: more =>
    let options ← readOptions false {} more
    return run (← options.input) options
  | _ =>
    let options ← readOptions false {} arguments
    return run (← options.input) options

end Request

structure Report where
  code : Nat
  out : String
  err : String
deriving DecidableEq

inductive Reply where
  | finish (report : Report)
  | write (path text out : String)

inductive WriteFailure where
  | folder (path cause : String)
  | file (cause : String)

namespace Report

def failure (message cause : String) : String :=
  "Error: " ++ message ++ "\n\nCaused by:\n    " ++ cause ++ "\n"

def unreadable (input cause : String) : Report :=
  ⟨1, "", failure ("Failed to read " ++ Dump.quotedText input) cause⟩

def widen (cs : List Char) : List Char :=
  cs.flatMap fun c => if c = '\t' then [' ', ' ', ' ', ' '] else [c]

def caret (cs : List Char) : List Char :=
  (widen cs).map (fun _ => ' ') ++ ['^']

def diagnosticText (path : String) (text : List Char) (d : Diagnostic) : String :=
  let heading := "  - error: " ++ d.message ++ "\n"
  match d.index with
  | none => heading
  | some index =>
    let l := SourceText.location text index
    let place := "     --> " ++ path ++ ":" ++ toString l.line ++ ":" ++ toString l.column ++ "\n"
    match SourceText.line? text l.line with
    | none => heading ++ place
    | some line =>
      heading ++ place ++ "      " ++ String.ofList (widen line) ++ "\n      " ++
        String.ofList (caret (line.take (l.column - 1))) ++ "\n"

def compileFailure (path text out : String) (e : CompileError) : Report :=
  let diagnostics := e.diagnostics.entries.map (diagnosticText path text.toList)
  ⟨1, out,
    "Diagnostics:\n" ++ String.join diagnostics ++ failure "Compilation failed" e.message⟩

/-- The exit code for the value of a program: an integer of 32 bits modulo 256. -/
def exitCode : Value → Nat
  | .integer i => if Literal.fitsInt i then (i % 256).toNat else 1
  | _ => 0

def ofRun (path out : String) (answer : Except Fault Value) (store : Store) : Report :=
  let out := out ++ store.output.text
  match answer with
  | .ok v => ⟨exitCode v, out, ""⟩
  | .error fault => ⟨1, out, failure ("Runtime error in " ++ path) fault.message⟩

def ofWrite (path out : String) : Except WriteFailure Unit → Report
  | .ok _ => ⟨0, out ++ path ++ "\n", ""⟩
  | .error (.folder folder cause) => ⟨1, out, failure ("Failed to create " ++ folder) cause⟩
  | .error (.file cause) => ⟨1, out, failure ("Failed to write " ++ path) cause⟩

end Report

namespace Request

def tokensText (options : Options) (text : String) : String :=
  match options.dumpTokens, Token.lex text with
  | true, .ok tokens => String.join (tokens.map fun t => Dump.token t ++ "\n")
  | _, _ => ""

def treeText (options : Options) (p : Program) : String :=
  if options.emitTree then Layout.render (Dump.program p) ++ "\n" else ""

def outputPath (input : String) (options : Options) : String :=
  options.output.getD (Path.withFileName input "Main.java")

/-- What to do with a program that was compiled, behind the output so far. There is no answer if
the program runs for more than `limit` steps. -/
def perform (limit : Nat) (out : String) (p : Program) : Request → Option Reply
  | run input options =>
    if options.noRun then some (.finish ⟨0, out, ""⟩)
    else
      ((Store.initial none).runProgram limit p).map fun (answer, store) =>
        .finish (Report.ofRun input out answer store)
  | build input options =>
    let java := p.toJava.render ++ "\n"
    let path := outputPath input options
    if path == "-" then some (.finish ⟨0, out ++ java, ""⟩)
    else some (.write path java out)

def reply (limit : Nat) (r : Request) (text : String) : Option Reply :=
  let tokens := tokensText r.options text
  match compile text with
  | .error e => some (.finish (Report.compileFailure r.input text tokens e))
  | .ok p => r.perform limit (tokens ++ treeText r.options p) p

def decode (bytes : ByteArray) : Except String String :=
  match String.fromUTF8? bytes with
  | some text => .ok text
  | none => .error "stream did not contain valid UTF-8"

def respond (limit : Nat) (r : Request) (contents : Except String ByteArray) : Option Reply :=
  match contents.bind decode with
  | .error cause => some (.finish (Report.unreadable r.input cause))
  | .ok text => r.reply limit text

end Request
end Plc
