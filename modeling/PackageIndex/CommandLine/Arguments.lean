import PackageIndex.Text.Pieces

/-!
# Arguments

How the arguments of a command are read. An option has a long name after two dashes and may have a
short one, a character after one dash. A flag stands alone; another option takes a value, which
follows as an argument of its own, after an equals sign, or right behind the short name. Several
short names can share a dash. A value of its own does not start with a dash, unless it is the dash
alone. After the argument `--` all others are positional.
-/

namespace PackageIndex

/-- How often an option can be given, and whether it has a value. -/
inductive OptionKind where
  /-- An option without a value, given at most once. -/
  | flag
  /-- An option with a value, given at most once. -/
  | single
  /-- An option with a value that can be given many times. -/
  | repeated
  deriving DecidableEq, Repr

/-- An option of a command. -/
structure OptionSpec where
  /-- The long name. -/
  long : String
  /-- The short name, if it has one. -/
  short : Option Char := none
  /-- What may follow it. -/
  kind : OptionKind
  deriving DecidableEq, Repr

/-- The options and positional arguments that were given. -/
structure Arguments where
  /-- The long names of the options with their values, in order; flags have the empty text. -/
  options : List (String × String) := []
  /-- The positional arguments, in order. -/
  positionals : List String := []
  deriving DecidableEq, Repr

namespace Arguments

/-- Whether an option was given. -/
def has (args : Arguments) (long : String) : Bool :=
  args.options.any fun o => o.1 == long

/-- The value of an option, or the default if it was not given. -/
def getD (args : Arguments) (long default : String) : String :=
  (args.options.lookup long).getD default

/-- The values of an option in order. -/
def getAll (args : Arguments) (long : String) : List String :=
  (args.options.filter fun o => o.1 == long).map Prod.snd

/-- Enters an option, unless it must not be given again. -/
def enter? (args : Arguments) (o : OptionSpec) (value : String) : Option Arguments :=
  if o.kind ≠ .repeated ∧ args.has o.long then none
  else some { args with options := args.options ++ [(o.long, value)] }

/-- Enters a positional argument. -/
def enterPositional (args : Arguments) (value : String) : Arguments :=
  { args with positionals := args.positionals ++ [value] }

/-- Whether an argument is read as options. -/
def isOption (arg : String) : Bool :=
  match arg.toList with
  | '-' :: _ :: _ => true
  | _ => false

/-- What reading one argument leads to. -/
inductive Step where
  /-- The argument is complete. -/
  | done (args : Arguments)
  /-- The next argument is the value of an option. -/
  | awaiting (args : Arguments) (o : OptionSpec)

/-- Reads an option after two dashes. -/
def readLong (specs : List OptionSpec) (args : Arguments) (cs : List Char) : Option Step := do
  let (name, value) := match Text.cut '=' cs with
    | some (name, value) => (name, some (String.ofList value))
    | none => (cs, none)
  let o ← specs.find? fun o => o.long == String.ofList name
  match o.kind, value with
  | .flag, some _ => none
  | .flag, none => .done <$> args.enter? o ""
  | _, some value => .done <$> args.enter? o value
  | _, none => some (.awaiting args o)

/-- The value that stands right behind a short name. -/
def attached (cs : List Char) : String :=
  match cs with
  | '=' :: cs => String.ofList cs
  | _ => String.ofList cs

/-- Reads options after one dash. -/
def readShort (specs : List OptionSpec) (args : Arguments) : List Char → Option Step
  | [] => some (.done args)
  | c :: cs => do
    let o ← specs.find? fun o => o.short == some c
    if o.kind = .flag then readShort specs (← args.enter? o "") cs
    else if cs.isEmpty then some (.awaiting args o)
    else .done <$> args.enter? o (attached cs)

/-- Reads one argument. -/
def readOne (specs : List OptionSpec) (args : Arguments) (arg : String) : Option Step :=
  match arg.toList with
  | '-' :: '-' :: cs => readLong specs args cs
  | '-' :: c :: cs => readShort specs args (c :: cs)
  | _ => some (.done (args.enterPositional arg))

/-- Reads the arguments after those that are entered already. -/
def readFrom (specs : List OptionSpec) (args : Arguments) : List String → Option Arguments
  | [] => some args
  | arg :: rest =>
    if arg = "--" then some { args with positionals := args.positionals ++ rest }
    else match readOne specs args arg with
      | none => none
      | some (.done args) => readFrom specs args rest
      | some (.awaiting args o) =>
        match rest with
        | [] => none
        | value :: rest =>
          if isOption value then none
          else match args.enter? o value with
            | none => none
            | some args => readFrom specs args rest

/-- Reads the arguments of a command; there are none if they do not fit its options. -/
def read? (specs : List OptionSpec) (args : List String) : Option Arguments :=
  readFrom specs {} args

end Arguments

end PackageIndex
