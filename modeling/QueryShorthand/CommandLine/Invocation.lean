import QueryShorthand.Text.Pieces

/-! What the arguments of the command ask for. They are read from left to right, and the
first that cannot stand, or that asks for the version, decides. -/

namespace QueryShorthand
set_option autoImplicit false

inductive Flag where
  | verbose
  | dryRun
  | commaArgs
  deriving DecidableEq

structure Options where
  uri : Text
  /-- When there are none they are read from the standard input. -/
  fields : List Text
  flags : List Flag
  deriving DecidableEq

def Options.has (o : Options) (flag : Flag) : Bool := o.flags.contains flag

inductive Invocation where
  | run (options : Options)
  | version
  /-- An unknown option, a flag given twice, or no URI. -/
  | misuse
  deriving DecidableEq

namespace Invocation

/-- The flags and the other arguments read so far, the last one first. -/
structure Seen where
  flags : List Flag
  others : List Text

def longFlag (arg : Text) : Option Flag :=
  if arg = "--verbose".toList then some .verbose
  else if arg = "--dry-run".toList then some .dryRun
  else if arg = "--comma-args".toList then some .commaArgs
  else none

def Seen.raise (seen : Seen) (flag : Flag) : Except Invocation Seen :=
  if flag ∈ seen.flags then .error .misuse else .ok { seen with flags := flag :: seen.flags }

def Seen.letters (seen : Seen) : Text → Except Invocation Seen
  | [] => .ok seen
  | 'v' :: cs => do (← seen.raise .verbose).letters cs
  | 'V' :: _ => .error .version
  | _ => .error .misuse

/-- One argument. A single dash on its own is no option. -/
def Seen.argument (seen : Seen) (arg : Text) : Except Invocation Seen :=
  match arg with
  | '-' :: '-' :: _ =>
    if arg = "--version".toList then .error .version
    else match longFlag arg with
      | some flag => seen.raise flag
      | none => .error .misuse
  | '-' :: c :: cs => seen.letters (c :: cs)
  | _ => .ok { seen with others := arg :: seen.others }

def Seen.arguments (seen : Seen) : List Text → Except Invocation Seen
  | [] => .ok seen
  | arg :: args =>
    if arg = "--".toList then .ok { seen with others := args.reverse ++ seen.others }
    else do (← seen.argument arg).arguments args

/-- The first argument that is no option is the URI, the others are fields. -/
def ofArgs (args : List Text) : Invocation :=
  match Seen.arguments ⟨[], []⟩ args with
  | .error stop => stop
  | .ok seen =>
    match seen.others.reverse with
    | [] => .misuse
    | uri :: fields => .run ⟨uri, fields, seen.flags⟩

end Invocation

end QueryShorthand
