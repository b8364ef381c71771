import MicroGo.Program.Frame
import MicroGo.Proofs.Assembly.Paths

/-!
# Well-formed programs

What every program that was read from a text has, and what the later stages rely on.

## Variables are given a value before they are used

An expression is closed over a set of known variables if it uses no others, and if each of its
calls has registers for its arguments.  A statement is closed if each expression in it is closed
over the variables that are known where it stands: those known before, and those assigned by the
statements in front of it in its own block.  What an inner block assigns is not counted behind it,
so the notion follows the scopes of the text and not the paths of control.

A closed tree has no misfit node, so it has code (`faults?_of_closed`).

## Frames

The variables of a function lie at eight bytes, sixteen bytes and so on below the frame pointer, and
the frame is the least multiple of sixteen that holds them.
-/

namespace MicroGo

/-! ## Closed trees -/

mutual

/-- The expression uses known variables only, and no call in it has too many arguments. -/
def Expr.Closed (known : VarId → Prop) : Expr → Prop
  | .num _ => True
  | .var id => known id
  | .binary _ lhs rhs => Expr.Closed known lhs ∧ Expr.Closed known rhs
  | .call _ args => args.length ≤ maxArguments ∧ Expr.AllClosed known args

/-- The expressions use known variables only. -/
def Expr.AllClosed (known : VarId → Prop) : List Expr → Prop
  | [] => True
  | e :: es => Expr.Closed known e ∧ Expr.AllClosed known es

end

/-- The variable that a statement gives a value to, as far as its own block is concerned. -/
def Stmt.target? : Stmt → Option VarId
  | .assign target _ => some target
  | _ => none

/-- What is known when one more variable may have a value. -/
def knownWith (known : VarId → Prop) (new : Option VarId) : VarId → Prop :=
  fun id => known id ∨ new = some id

mutual

/-- The statement assigns to the first `n` variables only, and each expression in it is closed over
what is known where it stands. -/
def Stmt.Closed (n : Nat) (known : VarId → Prop) : Stmt → Prop
  | .expr value => value.Closed known
  | .assign target value => target < n ∧ value.Closed known
  | .ret value => value.Closed known
  | .block body => Stmt.AllClosed n known body
  | .branch init cond body other =>
      Stmt.OptClosed n known init ∧
        cond.Closed (knownWith known (init.bind Stmt.target?)) ∧
        Stmt.AllClosed n (knownWith known (init.bind Stmt.target?)) body ∧
        Stmt.OptClosed n (knownWith known (init.bind Stmt.target?)) other
  | .loop init cond post body =>
      Stmt.OptClosed n known init ∧
        (∀ e ∈ cond, e.Closed (knownWith known (init.bind Stmt.target?))) ∧
        Stmt.AllClosed n (knownWith known (init.bind Stmt.target?)) body ∧
        Stmt.OptClosed n (knownWith known (init.bind Stmt.target?)) post

/-- The statements are closed, each over what is known behind those in front of it. -/
def Stmt.AllClosed (n : Nat) (known : VarId → Prop) : List Stmt → Prop
  | [] => True
  | s :: ss => Stmt.Closed n known s ∧ Stmt.AllClosed n (knownWith known s.target?) ss

/-- The statement is missing or closed. -/
def Stmt.OptClosed (n : Nat) (known : VarId → Prop) : Option Stmt → Prop
  | none => True
  | some s => Stmt.Closed n known s

end

/-! ## Closed trees have code -/

section Faults

variable {f : Function}

theorem Function.fault?_of_lt {id : VarId} (h : id < f.vars.length) : f.fault? id = none :=
  if_pos h

mutual

theorem Expr.fault?_of_closed {known : VarId → Prop}
    (hknown : ∀ id, known id → id < f.vars.length) :
    ∀ e : Expr, e.Closed known → e.fault? f = none
  | .num _, _ => by rw [Expr.fault?]
  | .var id, h => by
      rw [Expr.Closed] at h
      rw [Expr.fault?, Function.fault?_of_lt (hknown id h)]
  | .binary op lhs rhs, h => by
      rw [Expr.Closed] at h
      rw [Expr.fault?, Expr.fault?_of_closed hknown lhs h.1, Expr.fault?_of_closed hknown rhs h.2]
      rfl
  | .call callee args, h => by
      rw [Expr.Closed] at h
      have hregs : args.length ≤ Assembly.argumentRegs.length := h.1
      rw [Expr.fault?, if_pos hregs, Expr.faults?_of_closed hknown args h.2]

theorem Expr.faults?_of_closed {known : VarId → Prop}
    (hknown : ∀ id, known id → id < f.vars.length) :
    ∀ es : List Expr, Expr.AllClosed known es → Expr.faults? f es = none
  | [], _ => by rw [Expr.faults?]
  | e :: es, h => by
      rw [Expr.AllClosed] at h
      rw [Expr.faults?, Expr.fault?_of_closed hknown e h.1, Expr.faults?_of_closed hknown es h.2]
      rfl

end

theorem Stmt.target?_lt {n : Nat} {known : VarId → Prop} {s : Stmt} (h : s.Closed n known)
    {id : VarId} (hid : s.target? = some id) : id < n := by
  cases s with
  | assign target value =>
      rw [Stmt.Closed] at h
      obtain rfl : target = id := Option.some.inj hid
      exact h.1
  | expr value => simp [Stmt.target?] at hid
  | ret value => simp [Stmt.target?] at hid
  | block body => simp [Stmt.target?] at hid
  | branch init cond body other => simp [Stmt.target?] at hid
  | loop init cond post body => simp [Stmt.target?] at hid

theorem knownWith_lt {n : Nat} {known : VarId → Prop} (hknown : ∀ id, known id → id < n)
    {s : Stmt} (h : s.Closed n known) : ∀ id, knownWith known s.target? id → id < n := by
  rintro id (hid | hid)
  · exact hknown id hid
  · exact Stmt.target?_lt h hid

theorem knownWith_opt_lt {n : Nat} {known : VarId → Prop} (hknown : ∀ id, known id → id < n)
    {s : Option Stmt} (h : Stmt.OptClosed n known s) :
    ∀ id, knownWith known (s.bind Stmt.target?) id → id < n := by
  cases s with
  | none =>
      rintro id (hid | hid)
      · exact hknown id hid
      · cases hid
  | some s =>
      rw [Stmt.OptClosed] at h
      exact knownWith_lt hknown h

mutual

theorem Stmt.fault?_of_closed : ∀ (s : Stmt) {known : VarId → Prop},
    (∀ id, known id → id < f.vars.length) → s.Closed f.vars.length known → s.fault? f = none
  | .expr value, known, hknown, h => by
      rw [Stmt.Closed] at h
      rw [Stmt.fault?, Expr.fault?_of_closed hknown value h]
  | .assign target value, known, hknown, h => by
      rw [Stmt.Closed] at h
      rw [Stmt.fault?, Function.fault?_of_lt h.1, Expr.fault?_of_closed hknown value h.2]
      rfl
  | .ret value, known, hknown, h => by
      rw [Stmt.Closed] at h
      rw [Stmt.fault?, Expr.fault?_of_closed hknown value h]
  | .block body, known, hknown, h => by
      rw [Stmt.Closed] at h
      rw [Stmt.fault?, Stmt.faults?_of_closed body hknown h]
  | .branch init cond body other, known, hknown, h => by
      rw [Stmt.Closed] at h
      obtain ⟨hinit, hcond, hbody, hother⟩ := h
      have hknown' := knownWith_opt_lt hknown hinit
      rw [Stmt.fault?, Stmt.optFault?_of_closed init hknown hinit,
        Expr.fault?_of_closed hknown' cond hcond, Stmt.faults?_of_closed body hknown' hbody,
        Stmt.optFault?_of_closed other hknown' hother]
      rfl
  | .loop init cond post body, known, hknown, h => by
      rw [Stmt.Closed] at h
      obtain ⟨hinit, hcond, hbody, hpost⟩ := h
      have hknown' := knownWith_opt_lt hknown hinit
      have hfault : cond.bind (Expr.fault? f) = none := by
        cases cond with
        | none => rfl
        | some e => exact Expr.fault?_of_closed hknown' e (hcond e rfl)
      rw [Stmt.fault?, Stmt.optFault?_of_closed init hknown hinit, hfault,
        Stmt.faults?_of_closed body hknown' hbody, Stmt.optFault?_of_closed post hknown' hpost]
      rfl

/-- **Closed statements have code.** -/
theorem Stmt.faults?_of_closed : ∀ (ss : List Stmt) {known : VarId → Prop},
    (∀ id, known id → id < f.vars.length) → Stmt.AllClosed f.vars.length known ss →
    Stmt.faults? f ss = none
  | [], _, _, _ => by rw [Stmt.faults?]
  | s :: ss, known, hknown, h => by
      rw [Stmt.AllClosed] at h
      rw [Stmt.faults?, Stmt.fault?_of_closed s hknown h.1,
        Stmt.faults?_of_closed ss (knownWith_lt hknown h.1) h.2]
      rfl

theorem Stmt.optFault?_of_closed : ∀ (s : Option Stmt) {known : VarId → Prop},
    (∀ id, known id → id < f.vars.length) → Stmt.OptClosed f.vars.length known s →
    Stmt.optFault? f s = none
  | none, _, _, _ => by rw [Stmt.optFault?]
  | some s, known, hknown, h => by
      rw [Stmt.OptClosed] at h
      rw [Stmt.optFault?, Stmt.fault?_of_closed s hknown h]

end

end Faults

/-! ## Frames -/

namespace Frame

theorem length_place (used : Int) (ds : List Declaration) : (place used ds).length = ds.length := by
  induction ds generalizing used with
  | nil => rfl
  | cons d ds ih => rw [place, List.length_cons, List.length_cons, ih]

/-- Every type has the same size. -/
theorem size_eq (type : Ty) : (type.size : Int) = 8 := by
  cases type
  rfl

/-- The variables lie one below the other, eight bytes each. -/
theorem getElem?_place (used : Int) (ds : List Declaration) (i : Nat) :
    (place used ds)[i]? = ds[i]?.map fun d => ⟨d.name, d.type, used + 8 * (i + 1)⟩ := by
  induction ds generalizing used i with
  | nil => rfl
  | cons d ds ih =>
      rw [place, size_eq]
      cases i with
      | zero => rfl
      | succ i =>
          rw [List.getElem?_cons_succ, List.getElem?_cons_succ, ih]
          congr 1
          funext d'
          congr 1
          push_cast
          omega

theorem bytes_eq (ds : List Declaration) : bytes ds = 8 * ds.length := by
  induction ds with
  | nil => rfl
  | cons d ds ih =>
      have hcons : bytes (d :: ds) = d.type.size + bytes ds := rfl
      rw [hcons, size_eq, ih, List.length_cons]
      push_cast
      omega

/-- A frame holds what it is made for, and is a multiple of sixteen. -/
theorem alignUp_spec {n : Int} (h : 0 ≤ n) :
    n ≤ alignUp n alignment ∧ 16 ∣ alignUp n alignment := by
  unfold alignUp alignment
  rw [Int.tdiv_eq_ediv_of_nonneg (by omega)]
  omega

end Frame

/-! ## Well-formed functions and programs -/

/-- **What every function that was read has**: registers for its parameters, a frame for its
variables, and a body that uses no variable before it has a value. -/
structure Function.WellFormed (f : Function) : Prop where
  params_le : f.params.length ≤ maxArguments
  offset_eq : ∀ id < f.vars.length, f.offset id = 8 * (id + 1)
  frameSize_eq : f.frameSize = Frame.alignUp (8 * f.vars.length) Frame.alignment
  closed : Stmt.AllClosed f.vars.length (· < f.params.length) f.body

/-- **What every program that was read has**: well-formed functions with different names. -/
structure Program.WellFormed (p : Program) : Prop where
  nodup : (p.functions.map Function.name).Nodup
  functions : ∀ f ∈ p.functions, f.WellFormed

theorem Function.vars_ofDeclarations (name : String) (count : Nat) (ds : List Declaration)
    (body : List Stmt) : (Function.ofDeclarations name count ds body).vars = Frame.place 0 ds :=
  List.take_append_drop count _

/-- The frame of a function is laid out from its declarations. -/
theorem Function.wellFormed_ofDeclarations {name : String} {count : Nat} {ds : List Declaration}
    {body : List Stmt} (hcount : count ≤ ds.length) (hmax : count ≤ maxArguments)
    (hbody : Stmt.AllClosed ds.length (· < count) body) :
    (Function.ofDeclarations name count ds body).WellFormed := by
  have hparams : (Function.ofDeclarations name count ds body).params.length = count := by
    show ((Frame.place 0 ds).take count).length = count
    rw [List.length_take, Frame.length_place]
    omega
  have hvars := Function.vars_ofDeclarations name count ds body
  have hlength : (Function.ofDeclarations name count ds body).vars.length = ds.length := by
    rw [hvars, Frame.length_place]
  constructor
  · rw [hparams]
    exact hmax
  · intro id hid
    rw [hlength] at hid
    rw [Function.offset, Function.find?_eq_getElem?, hvars, Frame.getElem?_place,
      List.getElem?_eq_getElem hid]
    simp
  · show Frame.alignUp (Frame.bytes ds) Frame.alignment = _
    rw [Frame.bytes_eq, hlength]
  · rw [hlength, hparams]
    exact hbody

namespace Function.WellFormed

variable {f : Function}

theorem params_le_vars (f : Function) : f.params.length ≤ f.vars.length := by
  rw [Function.vars, List.length_append]
  omega

theorem faults? (h : f.WellFormed) : Stmt.faults? f f.body = none :=
  Stmt.faults?_of_closed f.body (fun _ hid => Nat.lt_of_lt_of_le hid (params_le_vars f)) h.closed

theorem aligned (h : f.WellFormed) : f.Aligned := by
  have hspec := Frame.alignUp_spec (n := 8 * f.vars.length) (by omega)
  rw [← h.frameSize_eq] at hspec
  exact ⟨by omega, hspec.2⟩

end Function.WellFormed

namespace Program.WellFormed

variable {p : Program}

/-- **A well-formed program has code.** -/
theorem assemble (h : p.WellFormed) : p.assemble.result = .ok p.code := by
  have hnone : p.fault? = none := by
    rw [Program.fault?, List.findSome?_eq_none_iff]
    exact fun f hf => (h.functions f hf).faults?
  rw [Program.assemble_result, hnone]

/-- Each function stands in the code of a well-formed program, and all labels are different. -/
theorem exists_placed (h : p.WellFormed) {f : Function} (hf : f ∈ p.functions) :
    ∃ n before after, Assembly.Placed f n p.code before after := by
  obtain ⟨before, n, after, hsplit⟩ := Assembly.exists_code_split hf
  refine ⟨n, before ++ [.global f.name], after, ?_, Assembly.nodup_labels_code h.nodup⟩
  rw [hsplit, Function.code_eq]
  simp

end Program.WellFormed

end MicroGo
