import MicroGo.Proofs.Grammar.Functions
import MicroGo.Proofs.Scope.Lexical

/-!
# The variables that a function declares

Which variables a function has can be seen from its lexemes, without reading it.  The parameters are
named between the parentheses, in front of each comma and of the closing parenthesis, and every
local variable is named behind the word that declares it, at whatever depth that word stands
(`parameterNames`, `localNames`).  A function begins with a word that stands nowhere else, so the
lexemes of a program fall apart into those of its functions (`functionParts`).

That these are the names that a function declares is shown for each construct of the grammar: the
names in what is written are those of its marks (`Lists`).  No expression declares anything.
-/

namespace MicroGo
namespace Grammar

/-- The word that local variables are declared with. -/
abbrev variableWord : Lexeme :=
  .reserved "var"

/-- **The names of the parameters**, in what is written behind an opening parenthesis: the first
lexemes between commas, up to the closing parenthesis. -/
def parameterNames (ls : List Lexeme) : List String :=
  ((ls.takeWhile (· ≠ .reserved ")")).splitOn (.reserved ",")).filterMap fun group =>
    group.head?.map Lexeme.text

/-- **The names of the local variables**: those behind the word that declares them. -/
def localNames : List Lexeme → List String
  | [] => []
  | l :: ls => (if l = variableWord then ls.head?.toList.map Lexeme.text else []) ++ localNames ls

/-- **The lexemes of each function**: from the word that a function begins with up to the next one.
-/
def functionParts : List Lexeme → List (List Lexeme)
  | [] => []
  | l :: ls =>
      if l = functionWord then (l :: ls.takeWhile (· ≠ functionWord)) :: functionParts ls
      else functionParts ls

/-! ## Parameters -/

/-- The parameters are written up to a closing parenthesis, which stands in none of them. -/
theorem parameterNames_params (t : Params) (rest : List Lexeme) :
    parameterNames (t.lexemes ++ rest) = t.names := by
  induction t with
  | close => rfl
  | last name =>
    have htake : ((Params.last name).lexemes ++ rest).takeWhile (· ≠ .reserved ")") =
        [⟨.ident, name⟩, typeLexeme] := by
      simp [Params.lexemes, typeLexeme]
    have hnotMem : Lexeme.reserved "," ∉ [⟨.ident, name⟩, typeLexeme] := by simp [typeLexeme]
    rw [parameterNames, htake, List.splitOn_eq_singleton hnotMem]
    rfl
  | next name more ih =>
    have htake : ((Params.next name more).lexemes ++ rest).takeWhile (· ≠ .reserved ")") =
        [⟨.ident, name⟩, typeLexeme] ++
          .reserved "," :: (more.lexemes ++ rest).takeWhile (· ≠ .reserved ")") := by
      simp [Params.lexemes, typeLexeme]
    have hnotMem : Lexeme.reserved "," ∉ [⟨.ident, name⟩, typeLexeme] := by simp [typeLexeme]
    rw [parameterNames, htake, List.splitOn_append_cons_self_of_not_mem hnotMem, Params.names, ← ih]
    rfl

/-! ## Local variables -/

/-- **The names that are declared in the lexemes are those of the marks**, whatever follows. -/
def Lists (ls : List Lexeme) (ms : List Mark) : Prop :=
  ∀ rest, localNames (ls ++ rest) = declaredNames ms ++ localNames rest

section

variable {ls ls' : List Lexeme} {ms ms' : List Mark}

theorem lists_nil : Lists [] [] :=
  fun _ => rfl

theorem Lists.append (h : Lists ls ms) (h' : Lists ls' ms') : Lists (ls ++ ls') (ms ++ ms') := by
  intro rest
  rw [List.append_assoc, h, h', declaredNames_append, List.append_assoc]

/-- A lexeme that declares nothing. -/
theorem Lists.cons (h : Lists ls ms) {l : Lexeme} (hl : l ≠ variableWord) : Lists (l :: ls) ms := by
  intro rest
  rw [List.cons_append, localNames, if_neg hl, List.nil_append, h]

theorem Lists.snoc (h : Lists ls ms) {l : Lexeme} (hl : l ≠ variableWord) :
    Lists (ls ++ [l]) ms := by
  have happend := h.append (lists_nil.cons hl)
  rwa [List.append_nil] at happend

/-- The bounds of a scope declare nothing. -/
theorem Lists.enclosed (h : Lists ls ms) : Lists ls (enclosed ms) := by
  intro rest
  have hsame : declaredNames (Grammar.enclosed ms) = declaredNames ms := by
    show declaredNames (ms ++ [.leave]) = _
    rw [declaredNames_append]
    exact List.append_nil _
  rw [h, hsame]

/-- Nothing is declared, neither in the lexemes nor in the marks. -/
structure ListsNothing (ls : List Lexeme) (ms : List Mark) : Prop where
  lists : Lists ls ms
  declares : declaredNames ms = []

theorem listsNothing_nil : ListsNothing [] [] :=
  ⟨lists_nil, rfl⟩

theorem ListsNothing.append (h : ListsNothing ls ms) (h' : ListsNothing ls' ms') :
    ListsNothing (ls ++ ls') (ms ++ ms') := by
  refine ⟨h.lists.append h'.lists, ?_⟩
  rw [declaredNames_append, h.declares, h'.declares]
  rfl

theorem ListsNothing.cons (h : ListsNothing ls ms) {l : Lexeme} (hl : l ≠ variableWord) :
    ListsNothing (l :: ls) ms :=
  ⟨h.lists.cons hl, h.declares⟩

theorem ListsNothing.snoc (h : ListsNothing ls ms) {l : Lexeme} (hl : l ≠ variableWord) :
    ListsNothing (ls ++ [l]) ms :=
  ⟨h.lists.snoc hl, h.declares⟩

theorem listsNothing_optional {α : Type} {spelled : α → List Lexeme} {marks : α → List Mark}
    (h : ∀ a, ListsNothing (spelled a) (marks a)) (o : Option α) :
    ListsNothing (o.elim [] spelled) (optMarks marks o) := by
  cases o with
  | none => exact listsNothing_nil
  | some a => exact h a

end

/-! ### Expressions -/

theorem Operator.lexeme_ne {level : Nat} (op : Operator level) : op.lexeme ≠ variableWord := by
  intro h
  have hmem := op.text_mem
  rw [show op.text = "var" from congrArg Lexeme.text h] at hmem
  match level with
  | 0 => exact absurd hmem (by decide)
  | 1 => exact absurd hmem (by decide)
  | 2 => exact absurd hmem (by decide)
  | _ + 3 => exact absurd hmem (by simp [operatorTexts, operators])

theorem listsNothing_signs (signs : List Sign) : ListsNothing (signs.map Sign.lexeme) [] := by
  induction signs with
  | nil => exact listsNothing_nil
  | cons sign signs ih =>
    cases sign with
    | plus => exact ih.cons (by decide)
    | minus => exact ih.cons (by decide)

mutual

/-- **No expression declares a variable.** -/
theorem listsNothing_operand : ∀ {level : Nat} (t : Operand level), ListsNothing t.lexemes t.marks
  | _, .unary signs operand => by
      rw [Operand.lexemes, Operand.marks]
      exact (listsNothing_signs signs).append (listsNothing_primary operand)
  | _, .chain first rest => by
      rw [Operand.lexemes, Operand.marks]
      exact (listsNothing_operand first).append (listsNothing_links rest)

theorem listsNothing_links : ∀ {level : Nat} (t : Links level), ListsNothing t.lexemes t.marks
  | _, .nil => by
      rw [Links.lexemes, Links.marks]
      exact listsNothing_nil
  | _, .cons op operand rest => by
      rw [Links.lexemes, Links.marks]
      exact ((listsNothing_operand operand).append (listsNothing_links rest)).cons op.lexeme_ne

theorem listsNothing_primary : ∀ t : Primary, ListsNothing t.lexemes t.marks
  | .num text => by
      rw [Primary.lexemes, Primary.marks]
      exact listsNothing_nil.cons (by simp)
  | .name text => by
      rw [Primary.lexemes, Primary.marks]
      have huse : ListsNothing [] [.use text] := ⟨fun _ => rfl, rfl⟩
      exact huse.cons (by simp)
  | .call callee args => by
      rw [Primary.lexemes, Primary.marks]
      exact ((listsNothing_args args).cons (by decide)).cons (by simp)
  | .paren inner => by
      rw [Primary.lexemes, Primary.marks]
      exact ((listsNothing_operand inner).snoc (by decide)).cons (by decide)

theorem listsNothing_args : ∀ t : Args, ListsNothing t.lexemes t.marks
  | .close => by
      rw [Args.lexemes, Args.marks]
      exact listsNothing_nil.cons (by decide)
  | .last arg => by
      rw [Args.lexemes, Args.marks]
      exact (listsNothing_operand arg).snoc (by decide)
  | .next arg rest => by
      rw [Args.lexemes, Args.marks]
      exact (listsNothing_operand arg).append ((listsNothing_args rest).cons (by decide))

end

/-! ### Statements -/

theorem listsNothing_value (value : Expression) : ListsNothing (valueLexemes value) value.marks :=
  (listsNothing_operand value).cons (by decide)

theorem listsNothing_simple (t : Simple) : ListsNothing t.lexemes t.marks :=
  (listsNothing_operand t.left).append (listsNothing_optional listsNothing_value t.right)

theorem listsNothing_init (init : Option Simple) :
    ListsNothing (initLexemes init) (optMarks Simple.marks init) :=
  listsNothing_optional (fun stmt => (listsNothing_simple stmt).snoc (by decide)) init

theorem listsNothing_loopHead (t : LoopHead) : ListsNothing t.lexemes t.marks := by
  cases t with
  | forever => exact listsNothing_nil
  | «while» cond => exact listsNothing_operand cond
  | clauses init cond post =>
    exact (listsNothing_optional listsNothing_simple init).append
      (((listsNothing_optional listsNothing_operand cond).append
        ((listsNothing_optional listsNothing_simple post).cons (by decide))).cons (by decide))

/-- A declaration lists its name, which stands in front of its value and is known only behind it. -/
theorem lists_declaration (name : String) {ls : List Lexeme} {ms : List Mark}
    (h : ListsNothing ls ms) :
    Lists (variableWord :: ⟨.ident, name⟩ :: ls) (ms ++ [.declare name]) := by
  intro rest
  have hname : declaredNames [.declare name] = [name] := rfl
  have hrest : localNames (⟨.ident, name⟩ :: (ls ++ rest)) = localNames rest := by
    rw [localNames, if_neg (by simp), h.lists, h.declares]
    rfl
  rw [List.cons_append, List.cons_append, localNames, if_pos rfl, hrest, declaredNames_append,
    h.declares, hname]
  rfl

theorem lists_local (t : Local) : Lists (variableWord :: t.lexemes) t.marks := by
  cases t with
  | typed name value =>
    exact lists_declaration name
      ((listsNothing_optional listsNothing_value value).cons (by decide))
  | inferred name value => exact lists_declaration name (listsNothing_value value)

mutual

theorem lists_statement : ∀ t : Statement, Lists t.lexemes t.marks
  | .ret value => by
      rw [Statement.lexemes, Statement.marks]
      exact (listsNothing_operand value).lists.cons (by decide)
  | .declare decl => by
      rw [Statement.lexemes, Statement.marks]
      exact lists_local decl
  | .branch cases => by
      rw [Statement.lexemes, Statement.marks]
      exact (lists_conditional cases).cons (by decide)
  | .loop head body => by
      rw [Statement.lexemes, Statement.marks]
      exact (((listsNothing_loopHead head).lists.append
        ((lists_body body).enclosed.cons (by decide))).enclosed).cons (by decide)
  | .block body => by
      rw [Statement.lexemes, Statement.marks]
      exact (lists_body body).enclosed.cons (by decide)
  | .simple stmt => by
      rw [Statement.lexemes, Statement.marks]
      exact (listsNothing_simple stmt).lists

theorem lists_conditional : ∀ t : Conditional, Lists t.lexemes t.marks
  | .mk init cond body other => by
      rw [Conditional.lexemes, Conditional.marks]
      exact ((listsNothing_init init).lists.append ((listsNothing_operand cond).lists.append
        (((lists_body body).enclosed.append (lists_otherwise other)).cons (by decide)))).enclosed

theorem lists_otherwise : ∀ t : Otherwise, Lists t.lexemes t.marks
  | .none => by
      rw [Otherwise.lexemes, Otherwise.marks]
      exact lists_nil
  | .elseIf cases => by
      rw [Otherwise.lexemes, Otherwise.marks]
      exact ((lists_conditional cases).cons (by decide)).cons (by decide)
  | .elseBlock body => by
      rw [Otherwise.lexemes, Otherwise.marks]
      exact ((lists_body body).enclosed.cons (by decide)).cons (by decide)

theorem lists_body : ∀ t : Body, Lists t.lexemes t.marks
  | .close => by
      rw [Body.lexemes, Body.marks]
      exact lists_nil.cons (by decide)
  | .skip rest => by
      rw [Body.lexemes, Body.marks]
      exact (lists_body rest).cons (by decide)
  | .last stmt => by
      rw [Body.lexemes, Body.marks]
      exact (lists_statement stmt).snoc (by decide)
  | .next stmt rest => by
      rw [Body.lexemes, Body.marks]
      exact (lists_statement stmt).append ((lists_body rest).cons (by decide))

end

/-! ## Functions -/

theorem lists_params (t : Params) : Lists t.lexemes [] := by
  induction t with
  | close => exact lists_nil.cons (by decide)
  | last name => exact ((lists_nil.cons (by decide)).cons (by decide)).cons (by simp)
  | next name rest ih => exact ((ih.cons (by decide)).cons (by decide)).cons (by simp)

/-- **The local variables of a function are named in its lexemes.** -/
theorem lists_function (t : Function) : Lists t.lexemes t.body.marks := by
  have htype : Lists (if t.typed then [typeLexeme] else []) [] := by
    split
    · exact lists_nil.cons (by decide)
    · exact lists_nil
  exact ((((lists_params t.params).append (htype.append
    ((lists_body t.body).cons (by decide)))).cons (by decide)).cons (by simp)).cons (by decide)

theorem localNames_function (t : Function) :
    localNames (t.lexemes ++ [.reserved ";"]) = declaredNames t.body.marks := by
  rw [lists_function t]
  exact List.append_nil _

theorem parameterNames_function (t : Function) :
    parameterNames (List.drop 3 (t.lexemes ++ [.reserved ";"])) = t.params.names := by
  show parameterNames (t.signature ++ [.reserved ";"]) = _
  rw [Function.signature, List.append_assoc, parameterNames_params]

/-! ## Programs -/

theorem functionParts_of_notMem {ls : List Lexeme} (h : functionWord ∉ ls) (rest : List Lexeme) :
    functionParts (ls ++ rest) = functionParts rest := by
  induction ls with
  | nil => rfl
  | cons l ls ih =>
    obtain ⟨hl, hls⟩ := not_or.1 fun hmem => h (List.mem_cons.2 hmem)
    rw [List.cons_append, functionParts, if_neg (Ne.symm hl), ih hls]

/-- **The lexemes of a program fall apart into those of its functions.** -/
theorem functionParts_functionLexemes (ts : List Function) :
    functionParts (functionLexemes ts) = ts.map fun t => t.lexemes ++ [.reserved ";"] := by
  induction ts with
  | nil => rfl
  | cons t ts ih =>
    have hword : t.lexemes = functionWord :: t.lexemes.tail := rfl
    have hnotMem : functionWord ∉ t.lexemes.tail ++ [.reserved ";"] := by
      rw [List.mem_append, not_or]
      exact ⟨functionWord_notMem_tail t, by decide⟩
    have hpos : ∀ l ∈ t.lexemes.tail ++ [.reserved ";"], decide (l ≠ functionWord) = true :=
      fun l hl => decide_eq_true fun heq => hnotMem (heq ▸ hl)
    have hnext : (functionLexemes ts).takeWhile (· ≠ functionWord) = [] := by
      cases ts with
      | nil => rfl
      | cons u ts =>
        rw [functionLexemes_cons]
        rfl
    have hsplit : functionLexemes (t :: ts) =
        functionWord :: ((t.lexemes.tail ++ [.reserved ";"]) ++ functionLexemes ts) := by
      rw [functionLexemes_cons, List.append_assoc]
      rfl
    rw [hsplit, functionParts, if_pos rfl, functionParts_of_notMem hnotMem, ih,
      List.takeWhile_append_of_pos hpos, hnext, List.append_nil, List.map_cons, hword]
    rfl

end Grammar
end MicroGo
