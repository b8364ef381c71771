import MicroGo.Position
import MicroGo.Text.ControlSequence
import MicroGo.Text.Quoted

/-!
# The log

Each stage of the compiler leaves a record of what it did.  A record is an `Event`; its level, the
part of the compiler that speaks and the wording are functions of the event, so that the stages
speak of scopes, labels and tokens and never of text.

A stage that can fail keeps the events up to the failure: its answer is `Traced`, a log together
with a result.
-/

namespace MicroGo

/-- How much a record matters, the most important first. -/
inductive Level where
  | warn
  | info
  | debug
  | trace
deriving Repr, DecidableEq

namespace Level

/-- The number of more important levels. -/
def rank : Level → Nat
  | warn => 0
  | info => 1
  | debug => 2
  | trace => 3

/-- The word for a level in a record. -/
def name : Level → String
  | warn => "WARN"
  | info => "INFO"
  | debug => "DEBUG"
  | trace => "TRACE"

/-- The level with the given lowercase word. -/
def ofWord? : String → Option Level
  | "warn" => some warn
  | "info" => some info
  | "debug" => some debug
  | "trace" => some trace
  | _ => none

end Level

/-- Something the compiler did that is worth a record. -/
inductive Event where
  /-- A `;` was inferred at a line end, after a token with the given text. -/
  | inferredSemicolon (pos : Position) (after : String)
  /-- The text was cut into `count` tokens, the end of input included. -/
  | scanned (count lines : Nat)
  /-- A scope was opened; `depth` scopes are now open. -/
  | enteredScope (depth : Nat)
  /-- The innermost of `depth` open scopes was closed. -/
  | leftScope (depth : Nat)
  /-- A function was read to its end. -/
  | parsedFunction (name : String) (params locals : Nat) (frameSize : Int)
  /-- Code for a function is about to be emitted. -/
  | generating (name : String) (frameSize : Int)
  /-- A number for the labels of one statement was handed out. -/
  | allocatedLabel (id : Nat)
  /-- The output was written to a file. -/
  | wrote (bytes : Nat) (path : String)
deriving Repr, DecidableEq

namespace Event

/-- How much an event matters. -/
def level : Event → Level
  | inferredSemicolon .. | enteredScope .. | leftScope .. | allocatedLabel .. => .trace
  | scanned .. | parsedFunction .. | generating .. => .debug
  | wrote .. => .info

/-- The part of the compiler that reports an event. -/
def target : Event → String
  | inferredSemicolon .. | scanned .. => "gocmp::tokenizer"
  | enteredScope .. | leftScope .. | parsedFunction .. => "gocmp::parser"
  | generating .. | allocatedLabel .. => "gocmp::codegen"
  | wrote .. => "gocmp"

/-- The wording of an event. -/
def message : Event → String
  | inferredSemicolon pos after =>
      s!"inserting ';' at {pos.line}:{pos.column} after " ++ Text.quoted after
  | scanned count lines => s!"tokenized {count} tokens over {lines} lines"
  | enteredScope depth => s!"entered scope at depth {depth}"
  | leftScope depth => s!"left scope at depth {depth}"
  | parsedFunction name params locals frameSize =>
      s!"parsed function {name}: {params} params, {locals} locals, frame {frameSize} bytes"
  | generating name frameSize => s!"generating {name} ({frameSize} bytes of frame)"
  | allocatedLabel id => s!"allocated label id {id}"
  | wrote bytes path => s!"wrote {bytes} bytes to {path}"

/-- A message whose lines after the first are indented by four blanks. -/
def indented (message : String) : String :=
  String.ofList (message.toList.flatMap fun c =>
    if c = '\n' then '\n' :: List.replicate 4 ' ' else [c])

/-- An event as a record of the log: level, target, message.  A record is one line, unless the
message has more, and holds nothing that would steer a terminal. -/
def render (event : Event) : String :=
  let level := event.level.name
  Text.withoutControls
    ("[" ++ level ++ String.ofList (List.replicate (5 - level.length) ' ') ++ " " ++
      event.target ++ "] " ++ indented event.message ++ "\n")

end Event

/-- The answer of a stage: what it did, and its result or the reason why there is none. -/
structure Traced (ε α : Type) where
  log : List Event
  result : Except ε α

namespace Traced

variable {ε δ α β : Type}

/-- An answer reached without a record. -/
def pure (a : α) : Traced ε α :=
  ⟨[], .ok a⟩

/-- One stage after another: the second runs on the result of the first and only if there is one,
and its log follows. -/
def bind (first : Traced ε α) (next : α → Traced ε β) : Traced ε β :=
  match first.result with
  | .error e => ⟨first.log, .error e⟩
  | .ok a => ⟨first.log ++ (next a).log, (next a).result⟩

instance : Monad (Traced ε) where
  pure := pure
  bind := bind

/-- The same answer with its failure put differently. -/
def mapError (f : ε → δ) (answer : Traced ε α) : Traced δ α :=
  ⟨answer.log, answer.result.mapError f⟩

/-- The answer of a stateful computation, given where its state keeps the log. -/
def ofResult {σ : Type} (log : σ → Array Event) : EStateM.Result ε σ α → Traced ε α
  | .ok a s => ⟨(log s).toList, .ok a⟩
  | .error e s => ⟨(log s).toList, .error e⟩

end Traced
end MicroGo
