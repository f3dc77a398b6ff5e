import Reckon.CommandLine
import Reckon.Repl
import Reckon.Service

/-!
The program: reads its command line and runs the command it asks for. It opens no connections, so
the service takes its documents from standard input, one a line, and the symbolic backend is
reported as unreachable.
-/

namespace Reckon

def CommandLine.usage : String :=
  "Usage: reckon [OPTIONS] [serve | repl [--metrics]]\n\n" ++
  "  --host HOST               host to bind to\n" ++
  "  -p, --port NUMBER         number to listen on\n" ++
  "  --sympy-url URL           base URL of the symbolic backend\n" ++
  "  --delegate-timeout-ms MS  bound on one symbolic request\n" ++
  "  --max-body-bytes COUNT    largest accepted document\n" ++
  "  --no-symbolic             evaluate numerically only\n" ++
  "  -h, --help                print this text"

def CommandLine.Refusal.message : CommandLine.Refusal → String
  | help => usage
  | unknownOption => "error: unknown argument"
  | unknownCommand => "error: unknown command"
  | badValue => "error: invalid value"
  | missingValue => "error: a value is missing"
  | unexpectedValue => "error: a value is given to an option without one"
  | repeated => "error: an option is given twice"

def unreachable : Sidecar.Transport IO := fun request =>
  pure (.error ("no connection to " ++ request.target))

def milliseconds (nanos : Nat) : Binary64 := .ofNat nanos / 1000000

/-- Evaluation is a single step, so all of its time counts as reading. -/
def stopwatch (started : IO.Ref Nat) : IO Times := do
  let start ← started.get
  let stop ← IO.monoNanosNow
  let elapsed := milliseconds (stop - start)
  return ⟨fun phase => if phase = .parse then elapsed else 0, elapsed⟩

/-- Both are objects with a header and a few words. -/
def objectSizes : Sizes := ⟨40, 56⟩

partial def runRepl (delegate : Delegate IO) (metrics : Bool) (s : Session) : IO Unit := do
  let line ← (← IO.getStdin).getLine
  if line.isEmpty then return
  let started ← IO.mkRef (← IO.monoNanosNow)
  let meter? := if metrics then some ⟨objectSizes, stopwatch started⟩ else none
  match ← Repl.answer delegate meter? s line.toList with
  | none => return
  | some (text, s) => do
    let output ← IO.getStdout
    output.putStr text
    output.flush
    runRepl delegate metrics s

partial def runService (delegate : Delegate IO) (limit : Nat) : IO Unit := do
  let line ← (← IO.getStdin).getLine
  if line.isEmpty then return
  let response ← Service.respond delegate limit ⟨"POST", "/", line.toUTF8.toList⟩
  let output ← IO.getStdout
  output.write ⟨response.http.body.toArray⟩
  output.putStrLn ""
  output.flush
  runService delegate limit

end Reckon

open Reckon in
def main (args : List String) : IO UInt32 := do
  match CommandLine.parse args with
  | .error .help => do
    (← IO.getStdout).putStrLn CommandLine.usage
    return 0
  | .error refusal => do
    (← IO.getStderr).putStrLn refusal.message
    return 2
  | .ok ⟨command, options⟩ => do
    let delegate := options.delegate unreachable
    match command with
    | .serve => runService delegate options.maxBodyBytes
    | .repl metrics => runRepl delegate metrics .start
    return 0
