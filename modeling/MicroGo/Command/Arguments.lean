/-!
# Arguments

    [OPTIONS] [SOURCE]

The program text is given as the one positional argument or by the path of a file, never by both.
An option is given at most once.  The value of an option is the next argument, or stands in the
same one: behind the letter of a short option, with or without an equals sign between, or behind
the equals sign of a long one.  An argument of its own is no value if it looks like an option; a
lone dash does not.  Everything behind a `--` is positional.

Arguments are looked at from left to right, and asking for the version or for help settles the
matter as soon as it is met.  What concerns the arguments as a whole is looked at last.
-/

namespace MicroGo
namespace Command

/-- What is made of a program text. -/
inductive Product where
  | assembly
  | tokens
  | tree
deriving Repr, DecidableEq

/-- The product with a given word. -/
def Product.ofWord? : String → Option Product
  | "asm" => some assembly
  | "tokens" => some tokens
  | "ast" => some tree
  | _ => none

/-- Where the program text comes from. -/
inductive Input where
  | text (source : String)
  | file (path : String)
deriving Repr, DecidableEq

/-- A compilation as the user asks for it.  Without an output path the product is printed. -/
structure Invocation where
  input : Input
  output : Option String
  product : Product
deriving Repr, DecidableEq

/-- What the user asks for. -/
inductive Request where
  | version
  | help
  | run (invocation : Invocation)
deriving Repr, DecidableEq

/-- The options that have a value. -/
inductive Setting where
  | file
  | output
  | product
deriving Repr, DecidableEq

/-- What has been said by the arguments so far. -/
structure Arguments where
  source : Option String := none
  file : Option String := none
  output : Option String := none
  product : Option Product := none
deriving Repr, DecidableEq

/-- One argument by itself. -/
inductive Argument where
  /-- An option that takes the next argument as its value. -/
  | awaiting (setting : Setting)
  /-- An option together with its value. -/
  | assigned (setting : Setting) (value : String)
  | version
  | help
  | unknown
  | positional
deriving Repr, DecidableEq

namespace Argument

/-- A long option, by its name and the value attached to it. -/
def long (name : List Char) (value : Option String) : Argument :=
  match String.ofList name, value with
  | "file", none => awaiting .file
  | "file", some v => assigned .file v
  | "output", none => awaiting .output
  | "output", some v => assigned .output v
  | "emit", none => awaiting .product
  | "emit", some v => assigned .product v
  | "version", none => version
  | "help", none => help
  | _, _ => unknown

/-- The value that stands behind the letter of a short option. -/
def attached (setting : Setting) : List Char → Argument
  | [] => awaiting setting
  | '=' :: value => assigned setting (String.ofList value)
  | value => assigned setting (String.ofList value)

/-- A short option, by its letter and what stands behind it. -/
def short (letter : Char) (behind : List Char) : Argument :=
  match letter with
  | 'f' => attached .file behind
  | 'o' => attached .output behind
  | 'V' => version
  | 'h' => help
  | _ => unknown

/-- One argument by itself. -/
def ofChars : List Char → Argument
  | '-' :: '-' :: text =>
      match text.dropWhile (· ≠ '=') with
      | [] => long text none
      | _ :: value => long (text.takeWhile (· ≠ '=')) (some (String.ofList value))
  | '-' :: letter :: behind => short letter behind
  | _ => positional

end Argument

namespace Arguments

/-- An argument of its own can be the value of an option. -/
def isValue (arg : String) : Bool :=
  arg = "-" || arg.toList.head? ≠ some '-'

/-- Takes the program text. -/
def setSource (args : Arguments) (source : String) : Option Arguments :=
  match args.source with
  | none => some { args with source := some source }
  | some _ => none

/-- Takes the value of an option.  A path is not empty. -/
def set (args : Arguments) (setting : Setting) (value : String) : Option Arguments :=
  match setting with
  | .file => if args.file = none ∧ value ≠ "" then some { args with file := some value } else none
  | .output =>
      if args.output = none ∧ value ≠ "" then some { args with output := some value } else none
  | .product =>
      match args.product, Product.ofWord? value with
      | none, some product => some { args with product := some product }
      | _, _ => none

/-- The request made by all arguments together. -/
def finish (args : Arguments) : Option Request :=
  match args.source, args.file with
  | some source, none => some (.run ⟨.text source, args.output, args.product.getD .assembly⟩)
  | none, some path => some (.run ⟨.file path, args.output, args.product.getD .assembly⟩)
  | _, _ => none

/-- The request made by what has been said so far and further arguments. -/
def readFrom (args : Arguments) : List String → Option Request
  | [] => args.finish
  | "--" :: rest => (rest.foldlM setSource args).bind finish
  | arg :: rest =>
      match Argument.ofChars arg.toList with
      | .version => some .version
      | .help => some .help
      | .unknown => none
      | .positional => (args.setSource arg).bind fun args => readFrom args rest
      | .assigned setting value => (args.set setting value).bind fun args => readFrom args rest
      | .awaiting setting =>
          match rest with
          | [] => none
          | value :: rest =>
              if isValue value then (args.set setting value).bind fun args => readFrom args rest
              else none

/-- The request made by a list of arguments, if they make sense. -/
def read (args : List String) : Option Request :=
  readFrom {} args

end Arguments
end Command
end MicroGo
