import ApiOutline.Log.Basic
import ApiOutline.Text.Digit

/-!
# Command-line arguments

Options are long words with two dashes. An option that takes a value takes the next argument or
what follows an equals sign; a switch takes none. The beginning of an option stands for it when it
is the beginning of no other. At most one argument may stand by itself. After `--` nothing is an
option; `--` may come before the argument that stands by itself, right after it, or instead of it.
An argument that looks like an option is never a value, unless it is a single dash, a negative
number, or holds a blank and begins no option.

The arguments are followed in two steps. First each is told apart on its own, and a beginning of
several options is refused at once. Then they are taken in order, so that of a plea for help and a
wrong use the first one counts; what is left over is refused only at the end.
-/

namespace ApiOutline

namespace Arguments

/-- The options of a program, and whether an argument may stand by itself. -/
structure Spec where
  values : List String
  switches : List String
  single : Bool

/-- One thing that the arguments ask for. -/
inductive Request where
  /-- The value of an option; there is none when it was written as `--`. -/
  | value (option : String) (text : Option String)
  | switch (option : String)
  | single (text : String)
  deriving DecidableEq

/-- Why the arguments are not followed: they make no sense, they ask for help, or the log level or
the manifest was given without a value. -/
inductive Refusal where
  | misuse
  | help
  | noLevel
  | noManifest
  deriving DecidableEq

/-- The code with which a program ends that does not follow its arguments. -/
def Refusal.exitCode : Refusal → Nat
  | .misuse => 2
  | .help => 0
  | .noLevel | .noManifest => 1

/-- The complaint about a value that was not given. -/
def Refusal.complaint? : Refusal → Option String
  | .noLevel => some "Level not an integer or a valid string: []"
  | .noManifest => some "expected str, bytes or os.PathLike object, not list"
  | .misuse | .help => none

/-- The options that ask for help. -/
def helpOptions : List String :=
  ["-h", "--help"]

/-- All options of a program. -/
def Spec.options (spec : Spec) : List String :=
  helpOptions ++ spec.values ++ spec.switches

/-! ### Telling arguments apart -/

/-- What an argument is on its own. -/
inductive Mark where
  | plain (text : String)
  /-- The argument `--`. -/
  | divider
  | option (name : String) (explicit : Option String)
  | unknown
  deriving DecidableEq

/-- Cuts an argument at its first equals sign. -/
def cutEquals (arg : String) : String × Option String :=
  let name := arg.toList.takeWhile (· != '=')
  match arg.toList.drop name.length with
  | [] => (arg, none)
  | _ :: text => (String.ofList name, some (String.ofList text))

/-- Whether an argument is a negative number, whole or with a point; a line feed may end it. -/
def isNegative (arg : String) : Bool :=
  match arg.toList with
  | '-' :: body =>
    let body := if body.getLast? = some '\n' then body.dropLast else body
    match body.dropWhile Text.isDigit with
    | [] => !body.isEmpty
    | '.' :: fraction => !fraction.isEmpty && fraction.all Text.isDigit
    | _ => false
  | _ => false

/-- The options that an argument may be an abbreviation of. -/
def abbreviated (spec : Spec) (arg : String) : List (String × Option String) :=
  if Text.startsWith arg "--" then
    let (name, explicit) := cutEquals arg
    (spec.options.filter fun o => Text.startsWith o name).map (·, explicit)
  else
    spec.options.filterMap fun o =>
      if o.toList == arg.toList.take 2 then some (o, some (String.ofList (arg.toList.drop 2)))
      else if Text.startsWith o arg then some (o, none)
      else none

/-- What an argument is that is not an option in full. -/
def markShort (spec : Spec) (arg : String) : Except Refusal Mark :=
  match abbreviated spec arg with
  | [(name, explicit)] => .ok (.option name explicit)
  | [] => .ok (if isNegative arg || arg.toList.contains ' ' then .plain arg else .unknown)
  | _ => .error .misuse

/-- What an argument other than `--` is on its own. -/
def mark (spec : Spec) (arg : String) : Except Refusal Mark :=
  if !Text.startsWith arg "-" then .ok (.plain arg)
  else if spec.options.contains arg then .ok (.option arg none)
  else if arg.length = 1 then .ok (.plain arg)
  else
    match cutEquals arg with
    | (name, some text) =>
      if spec.options.contains name then .ok (.option name (some text)) else markShort spec arg
    | _ => markShort spec arg

/-- What each argument is; all are plain after the first `--`. -/
def marks (spec : Spec) : List String → Except Refusal (List Mark)
  | [] => .ok []
  | arg :: rest =>
    if arg = "--" then .ok (.divider :: rest.map .plain)
    else do
      let first ← mark spec arg
      let others ← marks spec rest
      return first :: others

/-! ### Following them -/

/-- What a plea for help comes to. Text that belongs to it can only be the same plea again, in one
letter each. -/
def helpRefusal (name : String) : Option String → Refusal
  | none => .help
  | some text =>
    if name = "-h" && text ≠ "" && text.toList.all (· == 'h') then .help else .misuse

/-- The value that is written after an equals sign. -/
def explicitValue (text : String) : Option String :=
  if text = "--" then none else some text

/-- Puts a request before those that follow. -/
def adding (request : Request) :
    Except Refusal (List Request × Bool) → Except Refusal (List Request × Bool) :=
  Except.map fun (requests, spare) => (request :: requests, spare)

/-- Notes that an argument is left over. -/
def sparing : Except Refusal (List Request × Bool) → Except Refusal (List Request × Bool) :=
  Except.map fun (requests, _) => (requests, true)

/-- What the arguments ask for, and whether some are left over; `free` says whether an argument may
still stand by itself. -/
def follow (spec : Spec) (free : Bool) : List Mark → Except Refusal (List Request × Bool)
  | [] => .ok ([], false)
  | .unknown :: rest => sparing (follow spec free rest)
  | .divider :: rest =>
    match free, rest with
    | true, [] => .ok ([], false)
    | true, .plain text :: rest => adding (.single text) (follow spec false rest)
    | _, rest => sparing (follow spec false rest)
  | .plain text :: rest =>
    if !free then sparing (follow spec free rest)
    else
      match rest with
      | .divider :: rest => adding (.single text) (follow spec false rest)
      | rest => adding (.single text) (follow spec false rest)
  | .option name explicit :: rest =>
    if helpOptions.contains name then .error (helpRefusal name explicit)
    else if spec.switches.contains name then
      if explicit.isSome then .error .misuse
      else adding (.switch name) (follow spec free rest)
    else
      match explicit, rest with
      | some text, rest => adding (.value name (explicitValue text)) (follow spec free rest)
      | none, .plain text :: rest => adding (.value name (some text)) (follow spec free rest)
      | none, _ => .error .misuse

/-- What the arguments ask for, in order. -/
def parse (spec : Spec) (args : List String) : Except Refusal (List Request) := do
  let (requests, spare) ← follow spec spec.single (← marks spec args)
  if spare then throw .misuse
  return requests

/-! ### Requests for one thing -/

/-- What was given to an option the last time, if it was given at all. -/
def lastGiven (requests : List Request) (option : String) : Option (Option String) :=
  requests.foldl (fun found request =>
    match request with
    | .value o text => if o = option then some text else found
    | _ => found) none

/-- The value given last to an option. -/
def lastValue (requests : List Request) (option : String) : Option String :=
  (lastGiven requests option).join

/-- The log level that the arguments ask for. -/
def logLevel (requests : List Request) : Except Refusal Log.Level :=
  match lastGiven requests "--log-level" with
  | none => .ok .info
  | some (some name) => .ok (.ofName name)
  | some none => .error .noLevel

/-- The argument that stands by itself. -/
def single? (requests : List Request) : Option String :=
  requests.findSome? fun request =>
    match request with
    | .single text => some text
    | _ => none

end Arguments

end ApiOutline
