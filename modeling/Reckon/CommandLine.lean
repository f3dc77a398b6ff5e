import Reckon.Sidecar

/-!
The command line. Options may stand before the command and behind it, where they win; the command
to serve is the default. An option with a value is taken as late as the next option or the end of
its level, so a mistake further on may be reported first.
-/

namespace Reckon.CommandLine

/-- Why an invocation runs no command. -/
inductive Refusal where
  | help
  | unknownOption
  | unknownCommand
  | badValue
  | missingValue
  | unexpectedValue
  | repeated
deriving DecidableEq, Repr

/-- Options with a value. -/
inductive Setting where
  | host
  | portNumber
  | sympyUrl
  | delegateTimeoutMs
  | maxBodyBytes
deriving DecidableEq, Repr

/-- Options without a value. -/
inductive Switch where
  | noSymbolic
  | metrics
  | help
deriving DecidableEq, Repr

/-- Where an option stands: before a command or behind one. -/
inductive Level where
  | outer
  | serve
  | repl
deriving DecidableEq, Repr

namespace Level

def ofCommand? : String → Option Level
  | "serve" => some serve
  | "repl" => some repl
  | _ => none

/-- The option of a name. -/
def named? (level : Level) (name : String) : Option (Setting ⊕ Switch) :=
  match name with
  | "host" => some (.inl .host)
  | "port" => some (.inl .portNumber)
  | "sympy-url" => some (.inl .sympyUrl)
  | "delegate-timeout-ms" => some (.inl .delegateTimeoutMs)
  | "max-body-bytes" => some (.inl .maxBodyBytes)
  | "no-symbolic" => some (.inr .noSymbolic)
  | "help" => some (.inr .help)
  | "metrics" => if level = repl then some (.inr .metrics) else none
  | _ => none

/-- The option of a letter. -/
def lettered? : Char → Option (Setting ⊕ Switch)
  | 'p' => some (.inl .portNumber)
  | 'h' => some (.inr .help)
  | _ => none

/-- What a word is that is neither an option nor a value. -/
def stray : Level → Refusal
  | outer => .unknownCommand
  | _ => .unknownOption

end Level

/-- The options given at one level. -/
structure Given where
  host : Option String := none
  portNumber : Option Nat := none
  sympyUrl : Option String := none
  delegateTimeoutMs : Option Nat := none
  maxBodyBytes : Option Nat := none
  noSymbolic : Bool := false
  metrics : Bool := false
deriving DecidableEq

/-- A decimal number below `limit`, with one of the given signs or none. Only zero may be
negative. -/
def number? (signs : List Char) (limit : Nat) (text : String) : Option Nat :=
  let (sign, digits) := match text.toList with
    | c :: cs => if signs.contains c then ([c], cs) else ([], c :: cs)
    | [] => ([], [])
  if digits = [] || !digits.all Char.isDigit then none
  else
    let n := Nat.ofDigitChars 10 digits 0
    if n < limit && (sign != ['-'] || n == 0) then some n else none

namespace Given

/-- Keep a value, unless there is one or the text stands for none. -/
def once {α : Type} (old new : Option α) (keep : α → Given) : Except Refusal Given :=
  if old.isSome then .error .repeated
  else match new with
    | some value => .ok (keep value)
    | none => .error .badValue

def set (given : Given) (text : String) : Setting → Except Refusal Given
  | .host => once given.host (some text) fun v => { given with host := some v }
  | .portNumber => once given.portNumber (number? ['+', '-'] UInt16.size text) fun v =>
      { given with portNumber := some v }
  | .sympyUrl => once given.sympyUrl (some text) fun v => { given with sympyUrl := some v }
  | .delegateTimeoutMs => once given.delegateTimeoutMs (number? ['+'] UInt64.size text) fun v =>
      { given with delegateTimeoutMs := some v }
  | .maxBodyBytes => once given.maxBodyBytes (number? ['+'] UInt64.size text) fun v =>
      { given with maxBodyBytes := some v }

def turnOn (given : Given) : Switch → Except Refusal Given
  | .noSymbolic =>
    if given.noSymbolic then .error .repeated else .ok { given with noSymbolic := true }
  | .metrics => if given.metrics then .error .repeated else .ok { given with metrics := true }
  | .help => .error .help

end Given

/-- An option that is not taken yet, and its value once that is read. -/
structure Pending where
  setting : Setting
  value : Option String
deriving DecidableEq

/-- Take the pending option. -/
def settle (given : Given) : Option Pending → Except Refusal Given
  | none => .ok given
  | some ⟨_, none⟩ => .error .missingValue
  | some ⟨setting, some text⟩ => given.set text setting

/-- Take an option that is given with a value or without one. -/
def take (given : Given) (pending : Option Pending) (value : Option String) :
    Setting ⊕ Switch → Except Refusal (Given × Option Pending)
  | .inl setting => do
    let given ← settle given pending
    match value with
    | some text => return (← given.set text setting, none)
    | none => return (given, some ⟨setting, none⟩)
  | .inr switch => do return (← (← settle given pending).turnOn switch, none)

/-- A word of the command line. -/
inductive Word where
  /-- Nothing behind it is an option. -/
  | terminator
  | long (name : String) (value : Option String)
  | short (letter : Char) (attached : List Char)
  | plain
deriving DecidableEq

namespace Word

def ofChars : List Char → Word
  | '-' :: '-' :: [] => terminator
  | '-' :: '-' :: cs =>
    let name := cs.takeWhile (· != '=')
    let value := match cs.drop name.length with
      | _ :: value => some (String.ofList value)
      | [] => none
    long (String.ofList name) value
  | '-' :: c :: cs => short c cs
  | _ => plain

/-- The value attached to a letter, from which an equals sign may divide it. -/
def attachedValue : List Char → Option String
  | [] => none
  | '=' :: cs => some (String.ofList cs)
  | cs => some (String.ofList cs)

/-- Take the option that a word stands for. -/
def take (level : Level) (given : Given) (pending : Option Pending) :
    Word → Except Refusal (Given × Option Pending)
  | long name value =>
    match level.named? name with
    | some (.inr switch) =>
      if value.isSome then .error .unexpectedValue
      else CommandLine.take given pending none (.inr switch)
    | some option => CommandLine.take given pending value option
    | none => .error .unknownOption
  | short letter attached =>
    match Level.lettered? letter with
    | some option => CommandLine.take given pending (attachedValue attached) option
    | none => .error .unknownOption
  | _ => .error level.stray

end Word

/-- Commands that a request for help may name. -/
def isCommand (name : String) : Bool := name == "help" || (Level.ofCommand? name).isSome

/-- Help on the whole or on one command. -/
def helpOn : List String → Refusal
  | [] => .help
  | [name] => if isCommand name then .help else .unknownCommand
  | _ => .unknownCommand

/-- What is read of one level: its options, and the command that ends it with the words behind. -/
structure Scanned where
  given : Given
  pending : Option Pending
  command : Option (Level × List String)
deriving DecidableEq

def scan (level : Level) (given : Given) (pending : Option Pending) :
    List String → Except Refusal Scanned
  | [] => .ok ⟨given, pending, none⟩
  | word :: rest =>
    let awaited := pending.any fun p => p.value.isNone
    let commands := level == .outer && !awaited
    match if commands then Level.ofCommand? word else none with
    | some command => .ok ⟨given, pending, some (command, rest)⟩
    | none =>
      if commands && word == "help" then .error (helpOn rest)
      else match Word.ofChars word.toList with
        | .terminator =>
          match rest with
          | [] => .ok ⟨given, pending, none⟩
          | next :: _ => .error (if isCommand next then .unknownOption else level.stray)
        | .plain =>
          match pending with
          | some ⟨setting, none⟩ => scan level given (some ⟨setting, some word⟩) rest
          | _ => .error level.stray
        | option => do
          let (given, pending) ← option.take level given pending
          scan level given pending rest

inductive Command where
  | serve
  | repl (metrics : Bool)
deriving DecidableEq, Repr

structure Options where
  host : String
  portNumber : Nat
  sympyUrl : String
  delegateTimeoutMs : Nat
  maxBodyBytes : Nat
  noSymbolic : Bool
deriving DecidableEq

namespace Options

/-- Options behind the command win over those before it, and those over the defaults. -/
def ofGiven (outer inner : Given) : Options where
  host := (inner.host <|> outer.host).getD "127.0.0.1"
  portNumber := (inner.portNumber <|> outer.portNumber).getD 8765
  sympyUrl := (inner.sympyUrl <|> outer.sympyUrl).getD "http://127.0.0.1:8001"
  delegateTimeoutMs := (inner.delegateTimeoutMs <|> outer.delegateTimeoutMs).getD 5000
  maxBodyBytes := (inner.maxBodyBytes <|> outer.maxBodyBytes).getD (4 * 1024 * 1024)
  noSymbolic := inner.noSymbolic || outer.noSymbolic

def bindAddress (o : Options) : String := o.host ++ ":" ++ toString o.portNumber

/-- The delegate that the options ask for. -/
def delegate {m : Type → Type} [Monad m] (o : Options) (send : Sidecar.Transport m) :
    Delegate m :=
  if o.noSymbolic then unavailable else (Sidecar.Client.ofUrl o.sympyUrl).delegate send

end Options

structure Invocation where
  command : Command
  options : Options
deriving DecidableEq

/-- What a command line asks for. -/
def parse (args : List String) : Except Refusal Invocation := do
  let outer ← scan .outer {} none args
  match outer.command with
  | none =>
    let given ← settle outer.given outer.pending
    return ⟨.serve, .ofGiven given {}⟩
  | some (level, rest) =>
    let scanned ← scan level {} none rest
    let inner ← settle scanned.given scanned.pending
    let given ← settle outer.given outer.pending
    let command := if level = .repl then .repl inner.metrics else .serve
    return ⟨command, .ofGiven given inner⟩

end Reckon.CommandLine
