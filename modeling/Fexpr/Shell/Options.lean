import Fexpr.Eval.Basic
import Fexpr.Text.Decimal
import Fexpr.Text.Quoted

/-!
# Shell/Options — the command line

`Request.ofArguments` reads the arguments of a call. An argument that begins with a hyphen names
options; a lone hyphen, and everything behind `--`, does not. Options with a value take it from the
same argument, with or without an equals sign, or from the next one, unless that begins with a
hyphen too. The first argument that is no option and no value names the file to run first, a second
one is too many. Requests for the version or for help count as soon as they are met; a wrong number,
a program that is missing and an option given twice are found out at the end.
-/

namespace Fexpr

/-- **What a user can choose on the command line.** -/
structure Options where
  debug : Bool := false
  strictMulti : Bool := false
  maxDepth : Nat := 512
  /-- The program to run instead of reading programs from the input. -/
  eval : Option String := none
  /-- The file to run first. -/
  initFile : Option String := none

/-- **What a command line asks for.** -/
inductive Request where
  | start (options : Options)
  | help
  | version
  /-- The arguments are rejected. -/
  | usageError

namespace Options

/-- An option without a value. -/
inductive Flag where
  | debug | strictMulti
  deriving DecidableEq, Repr

/-- An option with a value. -/
inductive Setting where
  | maxDepth | eval
  deriving DecidableEq, Repr

/-- What the name of an option stands for. -/
inductive Name where
  | flag (f : Flag)
  | setting (s : Setting)
  | help
  | version

/-- The option of a long name. -/
def Name.ofLong? : String → Option Name
  | "debug" => some (.flag .debug)
  | "strict-multi" => some (.flag .strictMulti)
  | "max-depth" => some (.setting .maxDepth)
  | "eval" => some (.setting .eval)
  | "help" => some .help
  | "version" => some .version
  | _ => none

/-- The option of a one-letter name. -/
def Name.ofShort? : Char → Option Name
  | 'd' => some (.flag .debug)
  | 'e' => some (.setting .eval)
  | 'h' => some .help
  | 'V' => some .version
  | _ => none

/-- **What has been read of a command line.** -/
structure Scan where
  /-- The flags and settings met so far, repetitions included. -/
  flags : List Flag := []
  settings : List Setting := []
  /-- The values met so far, the latest first. -/
  values : List (Setting × String) := []
  initFile : Option String := none
  /-- The setting that still waits for its value. -/
  awaiting : Option Setting := none
  /-- Whether `--` has been met. -/
  onlyNames : Bool := false

namespace Scan

/-- Meets a setting, perhaps with its value; equals signs in front of a value do not count. -/
def meet (scan : Scan) (setting : Setting) (value : Option (List Char)) : Scan :=
  let scan := { scan with settings := setting :: scan.settings }
  match value with
  | some cs =>
    let v := String.ofList (cs.dropWhile (· == '='))
    { scan with values := (setting, v) :: scan.values, awaiting := none }
  | none => { scan with awaiting := some setting }

/-- Reads a long option: the name up to the first equals sign, behind which a value may stand. -/
def long (scan : Scan) (cs : List Char) : Except Request Scan :=
  let name := cs.takeWhile (· != '=')
  let value := (cs.dropWhile (· != '=')).tail?
  match Name.ofLong? (String.ofList name) with
  | some (.flag f) => .ok { scan with flags := f :: scan.flags, awaiting := none }
  | some (.setting s) => .ok (scan.meet s value)
  | some .help => .error .help
  | some .version => .error .version
  | none => .error .usageError

/-- Reads a group of one-letter options; behind one with a value the group ends. -/
def short (scan : Scan) : List Char → Except Request Scan
  | [] => .ok scan
  | c :: cs =>
    match Name.ofShort? c with
    | some (.flag f) => short { scan with flags := f :: scan.flags, awaiting := none } cs
    | some (.setting s) => .ok (scan.meet s (if cs.isEmpty then none else some cs))
    | some .help => .error .help
    | some .version => .error .version
    | none => .error .usageError

/-- Reads a file name. -/
def file (scan : Scan) (name : String) : Except Request Scan :=
  match scan.initFile with
  | none => .ok { scan with initFile := some name }
  | some _ => .error .usageError

/-- **Reads one argument.** -/
def step (scan : Scan) (arg : String) : Except Request Scan :=
  if scan.onlyNames then scan.file arg
  else match arg.toList with
    | ['-', '-'] => .ok { scan with onlyNames := true }
    | '-' :: '-' :: cs => scan.long (cs.dropWhile (· == '-'))
    | '-' :: c :: cs => scan.short (c :: cs)
    | cs =>
      match scan.awaiting with
      | some s => .ok { scan with values := (s, String.ofList cs) :: scan.values, awaiting := none }
      | none => scan.file arg

/-- The value of a setting that is not given twice. -/
def value? (scan : Scan) (s : Setting) : Option String :=
  scan.values.lookup s

end Scan

/-- The number that a text spells: decimal digits, perhaps behind a plus sign, below `2 ^ 64`. -/
def number? (text : String) : Option Nat :=
  let digits := match text.toList with
    | '+' :: cs => cs
    | cs => cs
  if digits.isEmpty || !Decimal.isDigits digits then none
  else if Decimal.value digits < 18446744073709551616 then some (Decimal.value digits)
  else none

/-- The options that a whole command line gives, if it is right. Of the settings only the depth can
do without its value. -/
def ofScan? (scan : Scan) : Option Options := do
  guard (scan.flags.Nodup ∧ scan.settings.Nodup)
  guard (.eval ∈ scan.settings → (scan.value? .eval).isSome)
  let maxDepth ← (scan.value? .maxDepth).elim (some 512) number?
  return {
    debug := scan.flags.contains .debug
    strictMulti := scan.flags.contains .strictMulti
    maxDepth
    eval := scan.value? .eval
    initFile := scan.initFile }

/-! ## Showing options -/

/-- A value that may be missing. -/
def shownOption (shown : String → String) : Option String → String
  | some v => "Some(" ++ shown v ++ ")"
  | none => "None"

/-- **The options as the log shows them.** -/
def shown (o : Options) : String :=
  "Opt \x7b debug: " ++ toString o.debug ++
    ", strict_multi: " ++ toString o.strictMulti ++
    ", max_depth: " ++ toString o.maxDepth ++
    ", eval: " ++ shownOption Quoted.text o.eval ++
    ", initfile: " ++ shownOption Quoted.text o.initFile ++ " \x7d"

/-- The configuration of the evaluator that the options choose. -/
def config (o : Options) : Config :=
  { maxDepth := o.maxDepth
    policy := if o.strictMulti then .strict else .lenient
    debug := o.debug }

end Options

/-- **What a command line asks for.** -/
def Request.ofArguments (args : List String) : Request :=
  match args.foldlM Options.Scan.step {} with
  | .error request => request
  | .ok scan =>
    match Options.ofScan? scan with
    | some options => .start options
    | none => .usageError

end Fexpr
