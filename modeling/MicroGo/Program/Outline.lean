import MicroGo.Program.Basic
import MicroGo.Text.Outline
import MicroGo.Text.Quoted

/-!
# The outline of a program

A program is shown as an indented outline of its tree, one field to a line.
-/

namespace MicroGo

open Text (Outline)

/-- The word for a type in an outline. -/
def Ty.word : Ty → String
  | int => "Int"

/-- The word for an operator in an outline. -/
def BinaryOp.word : BinaryOp → String
  | add => "Add"
  | sub => "Sub"
  | mul => "Mul"
  | div => "Div"
  | eq => "Eq"
  | ne => "Ne"
  | lt => "Lt"
  | le => "Le"

/-- The outline of a variable's number. -/
def VarId.outline (id : VarId) : Outline :=
  .wrap "VarId" (.leaf (toString id))

namespace Expr

mutual

/-- The outline of an expression. -/
def outline : Expr → Outline
  | num value => .wrap "Num" (.leaf (toString value.toInt))
  | var id => .wrap "Var" (VarId.outline id)
  | binary op lhs rhs =>
      .record "Binary" [("op", .leaf op.word), ("lhs", lhs.outline), ("rhs", rhs.outline)]
  | call callee args =>
      .record "Call" [("name", .leaf (Text.quoted callee)), ("args", .list (outlines args))]

/-- The outlines of expressions. -/
def outlines : List Expr → List Outline
  | [] => []
  | e :: es => e.outline :: outlines es

end

end Expr

namespace Stmt

mutual

/-- The outline of a statement. -/
def outline : Stmt → Outline
  | expr value => .wrap "Expr" value.outline
  | assign target value =>
      .record "Assign" [("target", VarId.outline target), ("value", value.outline)]
  | ret value => .wrap "Return" value.outline
  | block body => .wrap "Block" (.list (outlines body))
  | branch init cond body other =>
      .record "If"
        [("init", .optional (outline? init)), ("cond", cond.outline),
          ("then", .list (outlines body)), ("els", .optional (outline? other))]
  | loop init cond post body =>
      .record "For"
        [("init", .optional (outline? init)), ("cond", .optional (cond.map Expr.outline)),
          ("post", .optional (outline? post)), ("body", .list (outlines body))]

/-- The outlines of statements. -/
def outlines : List Stmt → List Outline
  | [] => []
  | s :: ss => s.outline :: outlines ss

/-- The outline of a statement that may be missing. -/
def outline? : Option Stmt → Option Outline
  | none => none
  | some s => some s.outline

end

end Stmt

/-- The outline of a variable. -/
def Variable.outline (v : Variable) : Outline :=
  .record "Variable"
    [("name", .leaf (Text.quoted v.name)), ("ty", .leaf v.type.word),
      ("offset", .leaf (toString v.offset))]

/-- The outline of a function. -/
def Function.outline (f : Function) : Outline :=
  .record "Function"
    [("name", .leaf (Text.quoted f.name)), ("params", .list (f.params.map Variable.outline)),
      ("locals", .list (f.locals.map Variable.outline)), ("body", .list (Stmt.outlines f.body)),
      ("frame_size", .leaf (toString f.frameSize))]

/-- The outline of a program. -/
def Program.outline (p : Program) : Outline :=
  .record "Program" [("functions", .list (p.functions.map Function.outline))]

end MicroGo
