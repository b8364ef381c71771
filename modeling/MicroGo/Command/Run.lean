import MicroGo.Command.Arguments
import MicroGo.Command.Files
import MicroGo.Compile
import MicroGo.Program.Outline

/-!
# Running a command

A request is answered by an exit code and by what is printed.  The log and the diagnostics go to
the error stream, the log first; nothing is printed or written if the text is rejected.
-/

namespace MicroGo
namespace Command

/-- The answer to a command. -/
structure Reply where
  exit : Nat
  stdout : String
  stderr : String
deriving Repr, DecidableEq

/-- The name and version of this program. -/
def versionText : String :=
  "gocmp 0.1.0\n"

/-- How the command is used.  The wording is this library's own, and nothing depends on it. -/
def usageText : String :=
  "Usage: gocmp [OPTIONS] [SOURCE]\n"

/-- What the command's parts mean.  The wording is this library's own, as that of
`usageText`. -/
def helpText : String :=
  usageText ++
    "\nArguments:\n" ++
    "  [SOURCE]  Program text to compile\n" ++
    "\nOptions:\n" ++
    "  -f, --file <PATH>    Read the program text from a file\n" ++
    "  -o, --output <PATH>  Write the result to a file instead of printing it\n" ++
    "      --emit <EMIT>    What to produce [default: asm] [possible values: asm, tokens, ast]\n" ++
    "  -h, --help           Print help\n" ++
    "  -V, --version        Print version\n"

/-- The word for a kind of lexeme in the token table. -/
def kindWord : Lexeme.Kind → String
  | .reserved => "Reserved"
  | .ident => "Ident"
  | .num => "Num"
  | .eof => "Eof"

/-- A line of the token table: place, kind and quoted text. -/
def tokenRow (t : Token) : String :=
  s!"{t.pos.line}:{t.pos.column}\t" ++ kindWord t.kind ++ "\t" ++ Text.quoted t.text ++ "\n"

/-- Makes a product of a program text. -/
def Product.make (product : Product) (source : String) : Traced Refusal String :=
  match product with
  | .assembly => compile source
  | .tokens => do
      let tokens ← tokensOf (withLineEnd source)
      return String.join (tokens.map tokenRow)
  | .tree => do
      let program ← parse (withLineEnd source)
      return program.outline.render ++ "\n"

/-- The records of a log that are at least as important as a threshold.  Without one, nothing is
important enough. -/
def shownLog (threshold : Option Level) (log : List Event) : String :=
  match threshold with
  | none => ""
  | some threshold =>
      String.join ((log.filter fun e => e.level.rank ≤ threshold.rank).map Event.render)

/-- The answer to a command that fails with a message. -/
def failed (log message : String) : Reply :=
  ⟨1, "", log ++ message ++ "\n"⟩

/-- The program text of an invocation. -/
def Input.load {m : Type → Type} [Monad m] (fs : FileSystem m) :
    Input → m (Except String String)
  | .text source => return .ok source
  | .file path => do
      match ← fs.read path with
      | .ok source => return .ok source
      | .error e => return .error s!"error: could not read {path}: {e.message}"

/-- Hands over a product, after the log of its making. -/
def deliver {m : Type → Type} [Monad m] (fs : FileSystem m) (threshold : Option Level)
    (output : Option String) (log : List Event) (text : String) : m Reply :=
  match output with
  | none => return ⟨0, text, shownLog threshold log⟩
  | some path => do
      match ← fs.write path text with
      | .ok () => return ⟨0, "", shownLog threshold (log ++ [.wrote text.utf8ByteSize path])⟩
      | .error e =>
          return failed (shownLog threshold log) s!"error: could not write {path}: {e.message}"

/-- Carries out an invocation. -/
def Invocation.run {m : Type → Type} [Monad m] (fs : FileSystem m) (threshold : Option Level)
    (invocation : Invocation) : m Reply := do
  match ← invocation.input.load fs with
  | .error message => return failed "" message
  | .ok source =>
      let made := invocation.product.make source
      match made.result with
      | .error e => return failed (shownLog threshold made.log) e.render
      | .ok text => deliver fs threshold invocation.output made.log text

/-- Answers a command. -/
def run {m : Type → Type} [Monad m] (fs : FileSystem m) (threshold : Option Level)
    (args : List String) : m Reply :=
  match Arguments.read args with
  | none => return ⟨2, "", "error: the arguments do not fit\n\n" ++ usageText⟩
  | some .version => return ⟨0, versionText, ""⟩
  | some .help => return ⟨0, helpText, ""⟩
  | some (.run invocation) => invocation.run fs threshold

end Command
end MicroGo
