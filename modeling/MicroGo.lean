import MicroGo.Position
import MicroGo.Log
import MicroGo.Diagnostic
import MicroGo.Text.CodeRange
import MicroGo.Text.Unprintable
import MicroGo.Text.Combining
import MicroGo.Text.ControlSequence
import MicroGo.Text.Quoted
import MicroGo.Text.Outline
import MicroGo.Token.Basic
import MicroGo.Token.Piece
import MicroGo.Token.Scan
import MicroGo.Program.Basic
import MicroGo.Program.Equality
import MicroGo.Program.Frame
import MicroGo.Program.Numeral
import MicroGo.Program.Scope
import MicroGo.Program.Outline
import MicroGo.Program.Parser.Basic
import MicroGo.Program.Parser.Expr
import MicroGo.Program.Parser.Stmt
import MicroGo.Program.Parser.Function
import MicroGo.Assembly.Basic
import MicroGo.Assembly.Printer
import MicroGo.Assembly.Emission
import MicroGo.Assembly.Expr
import MicroGo.Assembly.Stmt
import MicroGo.Assembly.Program
import MicroGo.Compile
import MicroGo.Command.Arguments
import MicroGo.Command.Files
import MicroGo.Command.Run
import MicroGo.Main
import MicroGo.Proofs.Assembly.Listing
import MicroGo.Proofs.Assembly.Labels
import MicroGo.Proofs.Assembly.Walk
import MicroGo.Proofs.Assembly.Paths
import MicroGo.Proofs.Assembly.Padding
import MicroGo.Proofs.Semantics.Evaluation
import MicroGo.Proofs.Semantics.Machine
import MicroGo.Proofs.Semantics.Run
import MicroGo.Proofs.Semantics.Independence
import MicroGo.Proofs.Simulation.Operation
import MicroGo.Proofs.Simulation.Stack
import MicroGo.Proofs.Simulation.Expr
import MicroGo.Proofs.Simulation.Stmt
import MicroGo.Proofs.Simulation.Function
import MicroGo.Proofs.Grammar.Tree
import MicroGo.Proofs.Grammar.Elaboration
import MicroGo.Proofs.Grammar.Reading
import MicroGo.Proofs.Grammar.Agreement
import MicroGo.Proofs.Program.WellFormed
import MicroGo.Proofs.Grammar.Validity
import MicroGo.Proofs.Compile.Stages
import MicroGo.Proofs.Compile.StackDiscipline
import MicroGo.Proofs.Compile.Preservation
import MicroGo.Proofs.Scope.Marks
import MicroGo.Proofs.Scope.Denotation
import MicroGo.Proofs.Scope.Lexical
import MicroGo.Proofs.Grammar.Rules
import MicroGo.Proofs.Grammar.Shape
import MicroGo.Proofs.Grammar.Correspondence
import MicroGo.Proofs.Grammar.Exactness
import MicroGo.Proofs.Semantics.Initialization
import MicroGo.Proofs.Assembly.Numbering
import MicroGo.Proofs.Assembly.Reading
import MicroGo.Proofs.Compile.Landing
import MicroGo.Proofs.Assembly.Renumbering
import MicroGo.Proofs.Grammar.Advance
import MicroGo.Proofs.Token.Lines
import MicroGo.Proofs.Grammar.Functions
import MicroGo.Proofs.Compile.Concatenation
import MicroGo.Proofs.Assembly.Misfits
import MicroGo.Proofs.Command.OutputOption
import MicroGo.Proofs.Simulation.Context
import MicroGo.Proofs.Command.Effects
import MicroGo.Proofs.Grammar.Relocation
import MicroGo.Proofs.Token.Spelling
import MicroGo.Proofs.Compile.Layout
import MicroGo.Proofs.Token.Cutting
import MicroGo.Proofs.Token.Partition
import MicroGo.Proofs.Compile.Places
import MicroGo.Proofs.Token.LineByLine
import MicroGo.Proofs.Token.Foreign
import MicroGo.Proofs.Token.Bytes
import MicroGo.Proofs.Token.Insertion
import MicroGo.Proofs.Scope.Declarations
import MicroGo.Proofs.Compile.Frames
import MicroGo.Proofs.Grammar.Phrases
import MicroGo.Proofs.Grammar.Rendering
import MicroGo.Proofs.Program.Renaming
import MicroGo.Proofs.Grammar.Renaming
import MicroGo.Proofs.Compile.Renaming
import MicroGo.Proofs.Grammar.FirstEnd
import MicroGo.Proofs.Compile.Pointing
import MicroGo.Proofs.Grammar.Calls
import MicroGo.Proofs.Compile.Marking
import MicroGo.Proofs.Compile.Legibility
import MicroGo.Proofs.Compile.CallOrder
import MicroGo.Proofs.Grammar.Progress
import MicroGo.Proofs.Scope.Bracketing
