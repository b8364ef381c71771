import MicroGo.Program.Basic
import MicroGo.Text.Quoted
import MicroGo.Token.Basic

/-!
# Why a program is rejected, and how that is shown

A stage that rejects a program gives a `Failure`: a complaint, and the place it is about.  The
complaint says what is wrong in the terms of the language; its wording is in one place,
`Complaint.message`.  Together with the text a failure becomes a `Diagnostic`, which shows the line
in question and a caret under the place.

Emitting code from a program that was read from a text cannot fail.  A program built in another way
may have no code, and the reason is then an internal error, which has no place in any text.
-/

namespace MicroGo

/-- The part of the language's definition that a text breaks. -/
inductive Stage where
  | lexical
  | syntactic
  | declaration
deriving Repr, DecidableEq

/-- What the grammar asks for at some point. -/
inductive Wanted where
  | sign (text : String)
  | identifier
  | type
  | expression
deriving Repr, DecidableEq

/-- What the grammar asks for, in words. -/
def Wanted.phrase : Wanted → String
  | sign text => "\"" ++ text ++ "\""
  | identifier => "an identifier"
  | type => "a type"
  | expression => "an expression"

/-- What is wrong with a text. -/
inductive Complaint where
  | foreignCharacter (c : Char)
  | emptyProgram
  | expected (wanted : Wanted) (found : Lexeme)
  | numeralOutOfRange (text : String)
  | assignmentAsCondition
  | assignmentToNonVariable
  /-- The reading budget ran out.  A budget always covers the tokens ahead, so this stays unsaid. -/
  | budgetExhausted
  | tooManyParameters
  | tooManyArguments (callee : String) (count : Nat)
  | redeclaredVariable (name : String)
  /-- A variable was declared outside of every scope.  A function opens one before its
  parameters, so this stays unsaid. -/
  | noOpenScope (name : String)
  | redeclaredFunction (name : String)
  | undefinedVariable (name : String)
deriving Repr, DecidableEq

namespace Complaint

/-- The part of the language's definition that is broken. -/
def stage : Complaint → Stage
  | foreignCharacter .. => .lexical
  | emptyProgram | expected .. | numeralOutOfRange .. | assignmentAsCondition
  | assignmentToNonVariable | budgetExhausted => .syntactic
  | tooManyParameters | tooManyArguments .. | redeclaredVariable .. | noOpenScope ..
  | redeclaredFunction .. | undefinedVariable .. => .declaration

/-- The wording of a complaint. -/
def message : Complaint → String
  | foreignCharacter c => "invalid character " ++ Text.quotedChar c
  | emptyProgram => "program is empty"
  | expected wanted found =>
      "expected " ++ wanted.phrase ++ ", but got " ++ found.describe
  | numeralOutOfRange text => s!"number {text} is out of range"
  | assignmentAsCondition => "expected a condition, but got an assignment"
  | assignmentToNonVariable => "left side of assignment is not a variable"
  | budgetExhausted => "program is nested too deeply"
  | tooManyParameters => s!"too many parameters (at most {maxArguments})"
  | tooManyArguments callee count =>
      s!"too many arguments in call to {callee} ({count}, at most {maxArguments})"
  | redeclaredVariable name => s!"{name} redeclared in this block"
  | noOpenScope name => s!"{name} declared outside of every block"
  | redeclaredFunction name => s!"function {name} redeclared"
  | undefinedVariable name => s!"undefined variable {name}"

end Complaint

/-- A complaint about a place in the text. -/
structure Failure where
  complaint : Complaint
  pos : Position
deriving Repr, DecidableEq

/-- What remains of a text after its first `n` line ends. -/
def afterLineEnds : Nat → List Char → List Char
  | 0, cs => cs
  | _ + 1, [] => []
  | n + 1, c :: cs => if c = '\n' then afterLineEnds n cs else afterLineEnds (n + 1) cs

/-- The text of line `line` without its line end and the carriage returns before it.  Line zero
counts as the first line, and a line past the last is empty. -/
def lineText (source : String) (line : Nat) : String :=
  let line := (afterLineEnds (line - 1) source.toList).takeWhile (· ≠ '\n')
  String.ofList (line.reverse.dropWhile (· = '\r')).reverse

/-- A message about a place in a text, with the line it is about. -/
structure Diagnostic where
  stage : Stage
  pos : Position
  lineText : String
  message : String
deriving Repr, DecidableEq

namespace Diagnostic

/-- A message about the place `pos` of the text `source`. -/
def about (source : String) (stage : Stage) (pos : Position) (message : String) : Diagnostic :=
  ⟨stage, pos, MicroGo.lineText source pos.line, message⟩

/-- The line, and under it a caret at the column, the place in numbers, and the message. -/
def render (d : Diagnostic) : String :=
  d.lineText ++ "\n" ++ String.ofList (List.replicate (d.pos.column - 1) ' ') ++
    s!"^ [{d.pos.line}:{d.pos.column}] " ++ d.message

end Diagnostic

/-- A failure as it is shown beside the text that it is about. -/
def Failure.diagnostic (source : String) (failure : Failure) : Diagnostic :=
  .about source failure.complaint.stage failure.pos failure.complaint.message

/-- Why there is no assembly for a text. -/
inductive Refusal where
  | rejected (diagnostic : Diagnostic)
  | internal (message : String)
deriving Repr, DecidableEq

namespace Refusal

/-- The message of a refusal without its place. -/
def message : Refusal → String
  | rejected d => d.message
  | internal message => message

/-- A refusal as it is shown to the user. -/
def render : Refusal → String
  | rejected d => d.render
  | internal message => "internal error: " ++ message

end Refusal
end MicroGo
