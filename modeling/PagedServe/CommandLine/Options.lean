/-
PagedServe/CommandLine/Options.lean

The options of the simulator and how they are written.

A long option is `--name`, a short one `-x`. A value follows as the next
argument, after an equals sign, or directly behind a short option; the next
argument counts as a value unless it begins like an option. Each option may be
given once. Arguments are read from left to right: the first mistake ends the
reading, and so does a request for help.
-/
import PagedServe.Decimal

namespace PagedServe.CommandLine

/-- What the arguments of the simulator set; the defaults hold for what they leave out. -/
structure Options where
  /-- The settings file; without one the defaults hold. -/
  config : Option String := none
  requests : Nat := 64
  /-- The longest prompt, without the shared part. -/
  promptLength : Nat := 128
  maxNewTokens : Nat := 64
  /-- Free memory of the simulated device, in units of `2 ^ 20` bytes. -/
  deviceMiB : Nat := 1088
  seed : Nat := 0
  reuse : Bool := false
  /-- Leading tokens that all prompts share. -/
  sharedLength : Nat := 0
deriving DecidableEq

/-- The options that can be written. -/
inductive Switch where
  | config
  | requests
  | promptLength
  | maxNewTokens
  | deviceMiB
  | seed
  | reuse
  | sharedLength
  | help
deriving DecidableEq

namespace Switch

/-- The option with a long name. -/
def ofLong? : String → Option Switch
  | "config" => some .config
  | "requests" => some .requests
  | "prompt-len" => some .promptLength
  | "max-new-tokens" => some .maxNewTokens
  | "device-memory-mb" => some .deviceMiB
  | "seed" => some .seed
  | "reuse-cache" => some .reuse
  | "shared-prefix" => some .sharedLength
  | "help" => some .help
  | _ => none

/-- The option with a one-letter name. -/
def ofShort? : Char → Option Switch
  | 'c' => some .config
  | 'n' => some .requests
  | 'h' => some .help
  | _ => none

/-- A value must be written for this option. -/
def takesValue : Switch → Bool
  | .reuse | .help => false
  | _ => true

end Switch

/-- A 64-bit number in decimal digits, with a plus sign in front or not. -/
def number? (text : String) : Option Nat :=
  match text.toList with
  | '+' :: digits => Decimal.word? digits
  | digits => Decimal.word? digits

/-- Set an option to the value written for it. -/
def Options.set? (o : Options) (switch : Switch) (text : String) : Option Options :=
  match switch with
  | .config => if text.isEmpty then none else some { o with config := some text }
  | .requests => (number? text).map fun n => { o with requests := n }
  | .promptLength => (number? text).map fun n => { o with promptLength := n }
  | .maxNewTokens => (number? text).map fun n => { o with maxNewTokens := n }
  | .deviceMiB => (number? text).map fun n => { o with deviceMiB := n }
  | .seed => (number? text).map fun n => { o with seed := n }
  | .sharedLength => (number? text).map fun n => { o with sharedLength := n }
  | .reuse | .help => none

/-- An argument by its form. -/
inductive Argument where
  /-- The two dashes that end the options. -/
  | divider
  /-- An option, with the value attached to it. -/
  | option (switch : Switch) (attached : Option String)
  | unknownSwitch
  | plain (text : String)

/-- Split a long option at its first equals sign. -/
def splitLong (text : List Char) : String × Option String :=
  let name := String.ofList (text.takeWhile (· != '='))
  match text.dropWhile (· != '=') with
  | [] => (name, none)
  | _ :: value => (name, some (String.ofList value))

/-- The form of an argument. A short option's value may follow its letter at once. -/
def Argument.ofText (text : String) : Argument :=
  match text.toList with
  | ['-', '-'] => .divider
  | '-' :: '-' :: rest =>
    let (name, attached) := splitLong rest
    match Switch.ofLong? name with
    | some switch => .option switch attached
    | none => .unknownSwitch
  | '-' :: letter :: rest =>
    match Switch.ofShort? letter with
    | none => .unknownSwitch
    | some switch =>
      if switch.takesValue then
        match rest with
        | [] => .option switch none
        | '=' :: value => .option switch (some (String.ofList value))
        | value => .option switch (some (String.ofList value))
      else .option switch none
  | _ => .plain text

/-- What the arguments ask for. -/
inductive Command where
  | run (options : Options)
  | help
  | misuse

/-- Set a switch that may be given once. -/
def assign (o : Options) (given : List Switch) (switch : Switch) (text : String) :
    Option Options :=
  if given.contains switch then none else o.set? switch text

/-- Read arguments on top of the options set so far. -/
def readFrom (o : Options) (given : List Switch) : List String → Command
  | [] => .run o
  | text :: rest =>
    match Argument.ofText text with
    | .divider => if rest.isEmpty then .run o else .misuse
    | .unknownSwitch => .misuse
    | .plain _ => .misuse
    | .option .help none => .help
    | .option .help (some _) => .misuse
    | .option .reuse none =>
      if given.contains .reuse then .misuse
      else readFrom { o with reuse := true } (.reuse :: given) rest
    | .option .reuse (some _) => .misuse
    | .option switch (some value) =>
      match assign o given switch value with
      | some o => readFrom o (switch :: given) rest
      | none => .misuse
    | .option switch none =>
      match rest with
      | [] => .misuse
      | next :: rest =>
        match Argument.ofText next with
        | .plain value =>
          match assign o given switch value with
          | some o => readFrom o (switch :: given) rest
          | none => .misuse
        | _ => .misuse

/-- What a list of arguments asks for. -/
def Command.ofArguments (arguments : List String) : Command := readFrom {} [] arguments

end PagedServe.CommandLine
