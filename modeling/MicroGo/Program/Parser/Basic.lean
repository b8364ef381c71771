import MicroGo.Diagnostic
import MicroGo.Log
import MicroGo.Program.Frame
import MicroGo.Program.Scope

/-!
# Reading tokens

A parser reads tokens from left to right and resolves names on the way.  Its state holds the tokens
ahead, the open scopes, the variables that the current function has declared, and the log.

## The end of the input

The tokens ahead are those before the first end of input, and that end of input is kept beside
them: it is what a parser sees when no token is ahead, and the place of a complaint that more was
expected.  A list of tokens that lacks an end of input ends on the line below its last token.

## What a parser can do

Everything below is built from a few operations: look at the token ahead (`current`, `following`,
`isAt`), take it if its lexeme is acceptable (`take?`), complain (`reject`, `failExpecting`), use
the scopes (`resolve`, `declare`, `inScope`), and repeat (`loop`).  Only lexemes decide what is
read; positions are passed on to complaints.

## Budgets

A repetition takes at least one token in each round but the last, so the number of tokens ahead
bounds the number of rounds.  `loop` runs on this budget.  Running out of it is a failure and never
an answer, so a result does not depend on how generous the budget was.
-/

namespace MicroGo

/-- The state of a parser. -/
structure Parser.State where
  /-- The tokens not yet taken, up to the end of the input. -/
  ahead : List Token
  /-- The end of the input. -/
  stop : Token
  /-- The open scopes. -/
  scopes : Scopes := []
  /-- The variables of the current function, in the order of their numbers. -/
  declared : List Declaration := []
  /-- What has been done so far. -/
  log : Array Event := #[]

/-- A parser gives a value or a failure, and in both cases a new state. -/
abbrev Parser := EStateM Failure Parser.State

namespace Parser

variable {α β σ : Type}

namespace State

/-- The end of a list of tokens: its first end of input, or a place below the last token. -/
def stopOf (tokens : List Token) : Token :=
  match tokens.find? fun t => t.kind = .eof, tokens.getLast? with
  | some stop, _ => stop
  | none, some last => .endOfInput last.pos.nextLine
  | none, none => .endOfInput .start

/-- The state before anything of a list of tokens is read. -/
def ofTokens (tokens : List Token) : State where
  ahead := tokens.takeWhile fun t => t.kind ≠ .eof
  stop := stopOf tokens

/-- The token ahead, or the end of the input. -/
def current (s : State) : Token :=
  s.ahead.headD s.stop

/-- The token after the one ahead, or the end of the input. -/
def following (s : State) : Token :=
  s.ahead.tail.headD s.stop

/-- The token ahead is the word or sign `text`. -/
def isAt (s : State) (text : String) : Bool :=
  s.ahead.head?.any fun t => t.toLexeme = .reserved text

/-- Adds to the log. -/
def record (s : State) (event : Event) : State :=
  { s with log := s.log.push event }

/-- Opens a scope. -/
def enter (s : State) : State :=
  { s with scopes := [] :: s.scopes }.record (.enteredScope (s.scopes.length + 1))

/-- Closes the innermost scope. -/
def leave (s : State) : State :=
  { s with scopes := s.scopes.tail }.record (.leftScope s.scopes.length)

end State

/-! ## Looking ahead -/

/-- The token ahead. -/
def current : Parser Token :=
  fun s => .ok s.current s

/-- The token after the one ahead. -/
def following : Parser Token :=
  fun s => .ok s.following s

/-- Whether the token ahead is the word or sign `text`. -/
def isAt (text : String) : Parser Bool :=
  fun s => .ok (s.isAt text) s

/-- Whether all tokens have been taken. -/
def atEnd : Parser Bool :=
  fun s => .ok s.ahead.isEmpty s

/-! ## Complaining -/

/-- Complains about a token. -/
def reject (complaint : Complaint) (token : Token) : Parser α :=
  fun s => .error ⟨complaint, token.pos⟩ s

/-- Complains that the token ahead is not what the grammar asks for. -/
def failExpecting (wanted : Wanted) : Parser α :=
  fun s => .error ⟨.expected wanted s.current.toLexeme, s.current.pos⟩ s

/-- Gives up because the budget is used up. -/
def exhausted : Parser α :=
  fun s => .error ⟨.budgetExhausted, s.current.pos⟩ s

/-! ## Taking tokens -/

/-- Takes the token ahead if `f` accepts its lexeme. -/
def take? (f : Lexeme → Option α) : Parser (Option α) := fun s =>
  match s.ahead with
  | [] => .ok none s
  | t :: rest =>
      match f t.toLexeme with
      | none => .ok none s
      | some a => .ok (some a) { s with ahead := rest }

/-- Takes the word or sign `text` if it is ahead, and tells whether it was. -/
def accept (text : String) : Parser Bool := do
  let taken ← take? fun l => if l = .reserved text then some () else none
  return taken.isSome

/-- Takes the word or sign `text`. -/
def expect (text : String) : Parser Unit := do
  if ← accept text then pure () else failExpecting (.sign text)

/-- Takes a name. -/
def identifier : Parser Token := do
  let t ← current
  match ← take? fun l => if l.kind = .ident then some () else none with
  | some _ => return t
  | none => failExpecting .identifier

/-- Takes the name of a type. -/
def typeName : Parser Ty := do
  match ← take? fun l => if l.kind = .ident then Ty.ofName? l.text else none with
  | some type => return type
  | none => failExpecting .type

/-! ## Scopes and variables -/

/-- The variable that a name stands for. -/
def resolve (name : String) : Parser (Option VarId) :=
  fun s => .ok (s.scopes.find? name) s

/-- Declares a variable of the current function in the innermost scope. -/
def declare (name : Token) (type : Ty) : Parser VarId := fun s =>
  match s.scopes with
  | [] => .error ⟨.noOpenScope name.text, name.pos⟩ s
  | scope :: outer =>
      if scope.knows name.text then
        .error ⟨.redeclaredVariable name.text, name.pos⟩ s
      else
        let id := s.declared.length
        .ok id
          { s with
            scopes := ((name.text, id) :: scope) :: outer
            declared := s.declared ++ [⟨name.text, type⟩] }

/-- Runs a parser in a scope of its own, which is closed whatever comes of it. -/
def inScope (p : Parser α) : Parser α := fun s =>
  match p s.enter with
  | .ok a t => .ok a t.leave
  | .error e t => .error e t.leave

/-- Adds to the log. -/
def record (event : Event) : Parser Unit :=
  modify fun s => s.record event

/-! ## Repetition -/

/-- Repeats `step` at most `budget` times.  A round goes on with a new value or ends with a result.
-/
def iterate (step : σ → Parser (σ ⊕ β)) : (budget : Nat) → σ → Parser β
  | 0, _ => exhausted
  | budget + 1, x => do
      match ← step x with
      | .inl y => iterate step budget y
      | .inr b => return b

/-- Repeats `step`, which takes a token in each round but the last. -/
def loop (step : σ → Parser (σ ⊕ β)) (x : σ) : Parser β :=
  fun s => iterate step (s.ahead.length + 1) x s

end Parser
end MicroGo
