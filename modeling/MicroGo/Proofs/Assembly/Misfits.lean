import MicroGo.Proofs.Compile.Stages

/-!
# Trees that have no code

A program is a tree of any kind: it need not have been read from a text, so a variable in it may be
one that its function does not have, and a call may pass more arguments than there are registers.
Such a node is a *misfit*, and a program without misfits has code.

## The order of emission

The nodes of a tree are met one after another while its code is emitted, and emission ends at the
first misfit.  `Stmt.nodes` lists them in this order.  A call is looked at before its arguments, and
an assigned variable before the value; a conditional is walked through from its first statement over
the condition to its two cases, and a loop from its first statement over the condition and the body
to the statement between rounds.  In the text of a loop that statement stands before the body, so
the order is not that of the text.

## Bookkeeping

An emission keeps count of the operands on the stack, and has two faults of its own for a count that
is wrong.  No tree brings them about, with or without misfits.
-/

namespace MicroGo

open Assembly

/-- The nodes of a tree that can be misfits. -/
inductive Node where
  /-- A variable, read or assigned. -/
  | mention (id : VarId)
  /-- A call with the given number of arguments. -/
  | call (callee : String) (count : Nat)
deriving DecidableEq

namespace Node

/-- **The node does not fit into the function**: the function has too few variables, or no call has
so many arguments. -/
def IsMisfit (f : Function) : Node → Prop
  | mention id => f.params.length + f.locals.length ≤ id
  | call _ count => 6 < count

instance (f : Function) : (n : Node) → Decidable (n.IsMisfit f)
  | mention id => inferInstanceAs (Decidable (_ ≤ id))
  | call _ count => inferInstanceAs (Decidable (_ < count))

/-- What is said about a misfit. -/
def complaint (f : Function) : Node → String
  | mention id => s!"variable #{id} is not part of the frame of {f.name}"
  | call callee count => s!"call to {callee} with {count} arguments reached code generation"

end Node

mutual

/-- The nodes of an expression in the order of emission. -/
def Expr.nodes : Expr → List Node
  | .num _ => []
  | .var id => [.mention id]
  | .binary _ lhs rhs => Expr.nodes lhs ++ Expr.nodes rhs
  | .call callee args => .call callee args.length :: Expr.allNodes args

/-- The nodes of expressions in the order of emission. -/
def Expr.allNodes : List Expr → List Node
  | [] => []
  | e :: es => Expr.nodes e ++ Expr.allNodes es

end

mutual

/-- The nodes of a statement in the order of emission. -/
def Stmt.nodes : Stmt → List Node
  | .expr value => value.nodes
  | .assign target value => .mention target :: value.nodes
  | .ret value => value.nodes
  | .block body => Stmt.allNodes body
  | .branch init cond body other =>
      Stmt.optNodes init ++ (cond.nodes ++ (Stmt.allNodes body ++ Stmt.optNodes other))
  | .loop init cond post body =>
      Stmt.optNodes init ++
        (cond.toList.flatMap Expr.nodes ++ (Stmt.allNodes body ++ Stmt.optNodes post))

/-- The nodes of statements in the order of emission. -/
def Stmt.allNodes : List Stmt → List Node
  | [] => []
  | s :: ss => Stmt.nodes s ++ Stmt.allNodes ss

/-- The nodes of a statement that may be missing. -/
def Stmt.optNodes : Option Stmt → List Node
  | none => []
  | some s => Stmt.nodes s

end

/-- The nodes of a function in the order of emission. -/
def Function.nodes (f : Function) : List Node :=
  Stmt.allNodes f.body

/-! ## Faults of nodes -/

namespace Node

/-- The fault that a misfit brings about. -/
def fault (f : Function) : Node → Fault
  | mention id => .unknownVariable id f.name
  | call callee count => .tooManyArguments callee count

/-- The fault of a node, if it is a misfit. -/
def fault? (f : Function) (n : Node) : Option Fault :=
  if n.IsMisfit f then some (n.fault f) else none

variable {f : Function} {n : Node}

theorem fault?_of_misfit (h : n.IsMisfit f) : n.fault? f = some (n.fault f) :=
  if_pos h

theorem fault?_eq_none_iff : n.fault? f = none ↔ ¬n.IsMisfit f := by
  unfold fault?
  split <;> simp_all

theorem message_fault (f : Function) (n : Node) : (n.fault f).message = n.complaint f := by
  cases n <;> rfl

/-- No misfit brings about a fault of the bookkeeping. -/
theorem fault_ne (f : Function) (n : Node) :
    (∀ dst, n.fault f ≠ .emptyStack dst) ∧
      ∀ name depth expected, n.fault f ≠ .unbalanced name depth expected := by
  cases n <;> exact ⟨nofun, nofun⟩

theorem isMisfit_mention (f : Function) (id : VarId) :
    (mention id).IsMisfit f ↔ f.vars.length ≤ id := by
  rw [Function.vars, List.length_append]
  exact Iff.rfl

theorem fault?_mention (f : Function) (id : VarId) : (mention id).fault? f = f.fault? id := by
  unfold Function.fault?
  by_cases h : id < f.vars.length
  · rw [if_pos h, fault?_eq_none_iff, isMisfit_mention]
    exact Nat.not_le.2 h
  · rw [if_neg h, fault?_of_misfit ((isMisfit_mention f id).2 (Nat.le_of_not_lt h))]
    rfl

end Node

/-! ## The first misfit of a tree -/

section

variable (f : Function)

mutual

/-- The fault of an expression is that of its first misfit. -/
theorem Expr.fault?_eq : ∀ e : Expr, e.fault? f = e.nodes.findSome? (Node.fault? f)
  | .num _ => rfl
  | .var id => by
    rw [Expr.fault?, Expr.nodes, List.findSome?_singleton, Node.fault?_mention]
  | .binary _ lhs rhs => by
    rw [Expr.fault?, Expr.nodes, List.findSome?_append, Expr.fault?_eq lhs, Expr.fault?_eq rhs,
      Option.orElse_eq_orElse, Option.orElse_eq_or]
  | .call callee args => by
    rw [Expr.fault?, Expr.nodes, List.findSome?_cons, ← Expr.faults?_eq args]
    by_cases h : args.length ≤ argumentRegs.length
    · have hfits : (Node.call callee args.length).fault? f = none :=
        Node.fault?_eq_none_iff.2 (Nat.not_lt.2 h)
      rw [if_pos h, hfits]
    · have hmisfit : (Node.call callee args.length).IsMisfit f := Nat.lt_of_not_le h
      rw [if_neg h, Node.fault?_of_misfit hmisfit]
      rfl

theorem Expr.faults?_eq :
    ∀ es : List Expr, Expr.faults? f es = (Expr.allNodes es).findSome? (Node.fault? f)
  | [] => rfl
  | e :: es => by
    rw [Expr.faults?, Expr.allNodes, List.findSome?_append, Expr.fault?_eq e, Expr.faults?_eq es,
      Option.orElse_eq_orElse, Option.orElse_eq_or]

end

theorem Expr.optFault?_eq (e : Option Expr) :
    e.bind (Expr.fault? f) = (e.toList.flatMap Expr.nodes).findSome? (Node.fault? f) := by
  cases e with
  | none => rfl
  | some e => rw [Option.bind_some, Expr.fault?_eq, Option.toList_some, List.flatMap_singleton]

mutual

/-- The fault of a statement is that of its first misfit. -/
theorem Stmt.fault?_eq : ∀ s : Stmt, s.fault? f = s.nodes.findSome? (Node.fault? f)
  | .expr value => Expr.fault?_eq f value
  | .assign target value => by
    rw [Stmt.fault?, Stmt.nodes, List.findSome?_cons, Node.fault?_mention, Expr.fault?_eq f value]
    cases f.fault? target <;> rfl
  | .ret value => Expr.fault?_eq f value
  | .block body => by rw [Stmt.fault?, Stmt.nodes, Stmt.faults?_eq body]
  | .branch init cond body other => by
    simp only [Stmt.fault?, Stmt.nodes, List.findSome?_append, Stmt.optFault?_eq init,
      Expr.fault?_eq f cond, Stmt.faults?_eq body, Stmt.optFault?_eq other,
      Option.orElse_eq_orElse, Option.orElse_eq_or]
  | .loop init cond post body => by
    simp only [Stmt.fault?, Stmt.nodes, List.findSome?_append, Stmt.optFault?_eq init,
      Expr.optFault?_eq f cond, Stmt.faults?_eq body, Stmt.optFault?_eq post,
      Option.orElse_eq_orElse, Option.orElse_eq_or]

theorem Stmt.faults?_eq :
    ∀ ss : List Stmt, Stmt.faults? f ss = (Stmt.allNodes ss).findSome? (Node.fault? f)
  | [] => rfl
  | s :: ss => by
    rw [Stmt.faults?, Stmt.allNodes, List.findSome?_append, Stmt.fault?_eq s, Stmt.faults?_eq ss,
      Option.orElse_eq_orElse, Option.orElse_eq_or]

theorem Stmt.optFault?_eq :
    ∀ s : Option Stmt, Stmt.optFault? f s = (Stmt.optNodes s).findSome? (Node.fault? f)
  | none => rfl
  | some s => by rw [Stmt.optFault?, Stmt.optNodes, Stmt.fault?_eq s]

end

end

/-- The fault of a program is that of its first misfit. -/
theorem Program.fault?_eq (p : Program) :
    p.fault? = p.functions.findSome? fun f => f.nodes.findSome? (Node.fault? f) := by
  unfold Program.fault? Function.nodes
  simp only [Stmt.faults?_eq]

variable {p : Program}

theorem Program.fault?_eq_none_iff :
    p.fault? = none ↔ ∀ f ∈ p.functions, ∀ n ∈ f.nodes, ¬n.IsMisfit f := by
  simp only [Program.fault?_eq, List.findSome?_eq_none_iff, Node.fault?_eq_none_iff]

/-- Every fault of a program is that of a node. -/
theorem Program.exists_node_of_fault? {e : Fault} (h : p.fault? = some e) :
    ∃ f ∈ p.functions, ∃ n ∈ f.nodes, e = n.fault f := by
  rw [Program.fault?_eq] at h
  obtain ⟨f, hf, hnodes⟩ := List.exists_of_findSome?_eq_some h
  obtain ⟨n, hn, hfault⟩ := List.exists_of_findSome?_eq_some hnodes
  unfold Node.fault? at hfault
  split at hfault
  · exact ⟨f, hf, n, hn, (Option.some.inj hfault).symm⟩
  · cases hfault

/-- The first misfit decides, in the first function that has one. -/
theorem Program.fault?_of_first {before after : List Function} {f : Function}
    {first rest : List Node} {n : Node} (hp : p.functions = before ++ f :: after)
    (hf : f.nodes = first ++ n :: rest) (hbefore : ∀ g ∈ before, ∀ m ∈ g.nodes, ¬m.IsMisfit g)
    (hfirst : ∀ m ∈ first, ¬m.IsMisfit f) (hn : n.IsMisfit f) : p.fault? = some (n.fault f) := by
  have hnone : (before.findSome? fun g => g.nodes.findSome? (Node.fault? g)) = none := by
    rw [List.findSome?_eq_none_iff]
    intro g hg
    rw [List.findSome?_eq_none_iff]
    exact fun m hm => Node.fault?_eq_none_iff.2 (hbefore g hg m hm)
  have hnone' : first.findSome? (Node.fault? f) = none := by
    rw [List.findSome?_eq_none_iff]
    exact fun m hm => Node.fault?_eq_none_iff.2 (hfirst m hm)
  rw [Program.fault?_eq, hp, List.findSome?_append, hnone, Option.none_or, List.findSome?_cons, hf,
    List.findSome?_append, hnone', Option.none_or, List.findSome?_cons, Node.fault?_of_misfit hn]

/-! ## Failure -/

theorem assemblyOf_of_fault?_eq_none (h : p.fault? = none) :
    (assemblyOf p).result = .ok (render p.code) := by
  have hlines : p.assemble.result = .ok p.code := by
    rw [Program.assemble_result, h]
  unfold assemblyOf
  rw [Traced.result_bind, Traced.result_mapError_eq_ok.2 hlines]
  rfl

theorem assemblyOf_of_fault?_eq_some {e : Fault} (h : p.fault? = some e) :
    (assemblyOf p).result = .error (.internal e.message) := by
  have hfault : p.assemble.result = .error e := by
    rw [Program.assemble_result, h]
  unfold assemblyOf
  rw [Traced.result_bind, Traced.result_mapError_eq_error.2 ⟨e, hfault, rfl⟩]
  rfl

/-- A program has no assembly text exactly if it has a misfit. -/
theorem assemblyOf_fails_iff :
    (∃ refusal, (assemblyOf p).result = .error refusal) ↔
      ∃ f ∈ p.functions, ∃ n ∈ f.nodes, n.IsMisfit f := by
  have hnone : p.fault? = none ↔ ¬∃ f ∈ p.functions, ∃ n ∈ f.nodes, n.IsMisfit f := by
    rw [Program.fault?_eq_none_iff]
    push Not
    rfl
  cases hp : p.fault? with
  | none =>
    rw [assemblyOf_of_fault?_eq_none hp]
    refine ⟨?_, fun h => absurd h (hnone.1 hp)⟩
    rintro ⟨refusal, h⟩
    cases h
  | some e =>
    rw [assemblyOf_of_fault?_eq_some hp]
    refine ⟨fun _ => ?_, fun _ => ⟨_, rfl⟩⟩
    by_contra h
    rw [hnone.2 h] at hp
    cases hp

/-- Emission never loses count of the operands. -/
theorem Program.assemble_ne_bookkeeping (p : Program) :
    (∀ dst, p.assemble.result ≠ .error (.emptyStack dst)) ∧
      ∀ name depth expected, p.assemble.result ≠ .error (.unbalanced name depth expected) := by
  rw [Program.assemble_result]
  cases hp : p.fault? with
  | none => exact ⟨nofun, nofun⟩
  | some e =>
    obtain ⟨f, -, n, -, rfl⟩ := Program.exists_node_of_fault? hp
    obtain ⟨hstack, hbalance⟩ := n.fault_ne f
    constructor
    · exact fun dst h => hstack dst (Except.error.inj h)
    · exact fun name depth expected h => hbalance name depth expected (Except.error.inj h)

/-- **The trees without code are those with a misfit.**  Emission fails exactly for a program one of
whose functions has a misfit, the message is about the first misfit of the first such function in
the order of emission, and the two faults of the bookkeeping do not occur. -/
theorem assemblyOf_fails_at_first_misfit (p : Program) :
    ((∃ refusal, (assemblyOf p).result = .error refusal) ↔
      ∃ f ∈ p.functions, ∃ n ∈ f.nodes, n.IsMisfit f) ∧
    (∀ before f after first n rest, p.functions = before ++ f :: after →
      f.nodes = first ++ n :: rest → (∀ g ∈ before, ∀ m ∈ g.nodes, ¬m.IsMisfit g) →
      (∀ m ∈ first, ¬m.IsMisfit f) → n.IsMisfit f →
        (assemblyOf p).result = .error (.internal (n.complaint f))) ∧
    (∀ dst, p.assemble.result ≠ .error (.emptyStack dst)) ∧
    ∀ name depth expected, p.assemble.result ≠ .error (.unbalanced name depth expected) := by
  refine ⟨assemblyOf_fails_iff, ?_, p.assemble_ne_bookkeeping⟩
  intro before f after first n rest hp hf hbefore hfirst hn
  have hfault := Program.fault?_of_first hp hf hbefore hfirst hn
  rw [assemblyOf_of_fault?_eq_some hfault, Node.message_fault]

/-- A function that fits stands before one with two misfits, a call with seven arguments in the body
of a loop and a variable in the statement between its rounds.  The body is met first. -/
theorem assemblyOf_fails_at_first_misfit_loop :
    (assemblyOf ⟨[⟨"f", [], [⟨"x", .int, 8⟩], [.assign 0 (.call "g" [.var 0])], 16⟩,
      ⟨"h", [], [], [.loop none (some (.num 1)) (some (.assign 3 (.num 0)))
        [.expr (.call "g" (List.replicate 7 (.var 5)))]], 0⟩]⟩).result =
      .error (.internal "call to g with 7 arguments reached code generation") := by
  refine (assemblyOf_fails_at_first_misfit _).2.1 [_] _ [] [] (.call "g" 7) _ rfl rfl ?_ ?_ ?_
  · decide
  · decide
  · decide

end MicroGo
