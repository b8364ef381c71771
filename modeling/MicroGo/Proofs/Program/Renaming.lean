import MicroGo.Proofs.Assembly.Misfits

/-!
# Renaming

Names of functions and variables can be changed throughout a program.  A variable is a number in the
tree, so in statements and expressions only the callees change, and the names of variables change
where a function lists them.  Slots and frames stay as they are.

The code of a function does not mention the names of its variables.  So a renaming that changes no
function and no callee changes nothing in the code.
-/

namespace MicroGo

variable (r : String → String)

/-! ## Trees -/

mutual

/-- The expression with its callees renamed. -/
def Expr.rename : Expr → Expr
  | .num value => .num value
  | .var id => .var id
  | .binary op lhs rhs => .binary op (Expr.rename lhs) (Expr.rename rhs)
  | .call callee args => .call (r callee) (Expr.renameAll args)

/-- The expressions with their callees renamed. -/
def Expr.renameAll : List Expr → List Expr
  | [] => []
  | e :: es => Expr.rename e :: Expr.renameAll es

end

mutual

/-- The statement with its callees renamed. -/
def Stmt.rename : Stmt → Stmt
  | .expr value => .expr (value.rename r)
  | .assign target value => .assign target (value.rename r)
  | .ret value => .ret (value.rename r)
  | .block body => .block (Stmt.renameAll body)
  | .branch init cond body other =>
      .branch (Stmt.optRename init) (cond.rename r) (Stmt.renameAll body) (Stmt.optRename other)
  | .loop init cond post body =>
      .loop (Stmt.optRename init) (cond.map (Expr.rename r)) (Stmt.optRename post)
        (Stmt.renameAll body)

/-- The statements with their callees renamed. -/
def Stmt.renameAll : List Stmt → List Stmt
  | [] => []
  | s :: ss => Stmt.rename s :: Stmt.renameAll ss

/-- The statement with its callees renamed, if there is one. -/
def Stmt.optRename : Option Stmt → Option Stmt
  | none => none
  | some s => some (Stmt.rename s)

end

theorem Expr.renameAll_eq (es : List Expr) : Expr.renameAll r es = es.map (Expr.rename r) := by
  induction es with
  | nil => rw [Expr.renameAll, List.map_nil]
  | cons e es ih => rw [Expr.renameAll, List.map_cons, ih]

theorem Stmt.renameAll_eq (ss : List Stmt) : Stmt.renameAll r ss = ss.map (Stmt.rename r) := by
  induction ss with
  | nil => rw [Stmt.renameAll, List.map_nil]
  | cons s ss ih => rw [Stmt.renameAll, List.map_cons, ih]

theorem Stmt.optRename_eq (s : Option Stmt) : Stmt.optRename r s = s.map (Stmt.rename r) := by
  cases s with
  | none => rw [Stmt.optRename, Option.map_none]
  | some s => rw [Stmt.optRename, Option.map_some]

/-! ## Functions and programs -/

/-- The variable with its name renamed. -/
def Variable.rename (v : Variable) : Variable :=
  { v with name := r v.name }

/-- The declaration with its name renamed. -/
def Declaration.rename (d : Declaration) : Declaration :=
  { d with name := r d.name }

/-- The function with its name, its variables and its callees renamed. -/
def Function.rename (f : Function) : Function where
  name := r f.name
  params := f.params.map (Variable.rename r)
  locals := f.locals.map (Variable.rename r)
  body := f.body.map (Stmt.rename r)
  frameSize := f.frameSize

/-- **The program with all names renamed.** -/
def Program.rename (p : Program) : Program :=
  ⟨p.functions.map (Function.rename r)⟩

/-- Names have no part in the slots of variables. -/
theorem Frame.place_map_rename (used : Int) (ds : List Declaration) :
    place used (ds.map (Declaration.rename r)) = (place used ds).map (Variable.rename r) := by
  induction ds generalizing used with
  | nil => rfl
  | cons d ds ih =>
    rw [List.map_cons, place, place, List.map_cons, ← ih]
    rfl

theorem Frame.bytes_map_rename (ds : List Declaration) :
    bytes (ds.map (Declaration.rename r)) = bytes ds := by
  rw [bytes_eq, bytes_eq, List.length_map]

theorem Function.rename_ofDeclarations (name : String) (count : Nat) (ds : List Declaration)
    (body : List Stmt) :
    (Function.ofDeclarations name count ds body).rename r =
      Function.ofDeclarations (r name) count (ds.map (Declaration.rename r))
        (body.map (Stmt.rename r)) := by
  unfold Function.ofDeclarations Function.rename
  rw [Frame.place_map_rename, Frame.bytes_map_rename, List.map_take, List.map_drop]

/-! ## Renamings that keep callees -/

section Kept

variable {r}

/-- No callee among the nodes gets another name. -/
def KeepsCallees (r : String → String) (ns : List Node) : Prop :=
  ∀ callee count, Node.call callee count ∈ ns → r callee = callee

theorem keepsCallees_append {ns ms : List Node} :
    KeepsCallees r (ns ++ ms) ↔ KeepsCallees r ns ∧ KeepsCallees r ms := by
  simp only [KeepsCallees, List.mem_append, or_imp, forall_and]

theorem KeepsCallees.tail {n : Node} {ns : List Node} (h : KeepsCallees r (n :: ns)) :
    KeepsCallees r ns :=
  fun callee count hmem => h callee count (List.mem_cons_of_mem n hmem)

mutual

theorem Expr.rename_of_kept : ∀ e : Expr, KeepsCallees r e.nodes → e.rename r = e
  | .num _, _ => by rw [Expr.rename]
  | .var _, _ => by rw [Expr.rename]
  | .binary op lhs rhs, h => by
      rw [Expr.nodes, keepsCallees_append] at h
      rw [Expr.rename, Expr.rename_of_kept lhs h.1, Expr.rename_of_kept rhs h.2]
  | .call callee args, h => by
      rw [Expr.nodes] at h
      rw [Expr.rename, h callee args.length List.mem_cons_self, Expr.renameAll_of_kept args h.tail]

theorem Expr.renameAll_of_kept : ∀ es : List Expr, KeepsCallees r (Expr.allNodes es) →
    Expr.renameAll r es = es
  | [], _ => by rw [Expr.renameAll]
  | e :: es, h => by
      rw [Expr.allNodes, keepsCallees_append] at h
      rw [Expr.renameAll, Expr.rename_of_kept e h.1, Expr.renameAll_of_kept es h.2]

end

mutual

theorem Stmt.rename_of_kept : ∀ s : Stmt, KeepsCallees r s.nodes → s.rename r = s
  | .expr value, h => by
      rw [Stmt.nodes] at h
      rw [Stmt.rename, Expr.rename_of_kept value h]
  | .assign target value, h => by
      rw [Stmt.nodes] at h
      rw [Stmt.rename, Expr.rename_of_kept value h.tail]
  | .ret value, h => by
      rw [Stmt.nodes] at h
      rw [Stmt.rename, Expr.rename_of_kept value h]
  | .block body, h => by
      rw [Stmt.nodes] at h
      rw [Stmt.rename, Stmt.renameAll_of_kept body h]
  | .branch init cond body other, h => by
      simp only [Stmt.nodes, keepsCallees_append] at h
      obtain ⟨hinit, hcond, hbody, hother⟩ := h
      rw [Stmt.rename, Stmt.optRename_of_kept init hinit, Expr.rename_of_kept cond hcond,
        Stmt.renameAll_of_kept body hbody, Stmt.optRename_of_kept other hother]
  | .loop init cond post body, h => by
      simp only [Stmt.nodes, keepsCallees_append] at h
      obtain ⟨hinit, hcond, hbody, hpost⟩ := h
      have hsame : cond.map (Expr.rename r) = cond := by
        cases cond with
        | none => rfl
        | some e =>
          rw [Option.toList_some, List.flatMap_singleton] at hcond
          rw [Option.map_some, Expr.rename_of_kept e hcond]
      rw [Stmt.rename, Stmt.optRename_of_kept init hinit, hsame,
        Stmt.optRename_of_kept post hpost, Stmt.renameAll_of_kept body hbody]

theorem Stmt.renameAll_of_kept : ∀ ss : List Stmt, KeepsCallees r (Stmt.allNodes ss) →
    Stmt.renameAll r ss = ss
  | [], _ => by rw [Stmt.renameAll]
  | s :: ss, h => by
      rw [Stmt.allNodes, keepsCallees_append] at h
      rw [Stmt.renameAll, Stmt.rename_of_kept s h.1, Stmt.renameAll_of_kept ss h.2]

theorem Stmt.optRename_of_kept : ∀ s : Option Stmt, KeepsCallees r (Stmt.optNodes s) →
    Stmt.optRename r s = s
  | none, _ => by rw [Stmt.optRename]
  | some s, h => by
      rw [Stmt.optNodes] at h
      rw [Stmt.optRename, Stmt.rename_of_kept s h]

end

end Kept

/-! ## Code -/

section Code

open Assembly

variable {f g : Function}

mutual

theorem Expr.code_congr (h : f.offset = g.offset) : ∀ (e : Expr) (depth : Nat),
    e.code f depth = e.code g depth
  | .num _, _ => by rw [Expr.code, Expr.code]
  | .var _, _ => by rw [Expr.code, Expr.code, h]
  | .binary op lhs rhs, depth => by
      rw [Expr.code, Expr.code, Expr.code_congr h lhs, Expr.code_congr h rhs]
  | .call callee args, depth => by
      rw [Expr.code, Expr.code, Expr.codes_congr h args]

theorem Expr.codes_congr (h : f.offset = g.offset) : ∀ (es : List Expr) (depth : Nat),
    Expr.codes f depth es = Expr.codes g depth es
  | [], _ => by rw [Expr.codes, Expr.codes]
  | e :: es, depth => by
      rw [Expr.codes, Expr.codes, Expr.code_congr h e, Expr.codes_congr h es]

end

theorem jumpUnlessCode_congr (h : f.offset = g.offset) (cond : Expr) (target : Label) :
    jumpUnlessCode f cond target = jumpUnlessCode g cond target := by
  rw [jumpUnlessCode, jumpUnlessCode, Expr.code_congr h]

theorem leaveUnlessCode_congr (h : f.offset = g.offset) (cond : Option Expr) (target : Label) :
    leaveUnlessCode f cond target = leaveUnlessCode g cond target := by
  cases cond with
  | none => rfl
  | some cond => exact jumpUnlessCode_congr h cond target

mutual

theorem Stmt.code_congr (h : f.offset = g.offset) (hname : f.name = g.name) :
    ∀ (s : Stmt) (n : Nat), s.code f n = s.code g n
  | .expr value, n => by rw [Stmt.code, Stmt.code, Expr.code_congr h]
  | .assign target value, n => by rw [Stmt.code, Stmt.code, Expr.code_congr h, h]
  | .ret value, n => by rw [Stmt.code, Stmt.code, Expr.code_congr h, hname]
  | .block body, n => by rw [Stmt.code, Stmt.code, Stmt.codes_congr h hname]
  | .branch init cond body other, n => by
      rw [Stmt.code, Stmt.code, Stmt.optCode_congr h hname init, jumpUnlessCode_congr h,
        Stmt.codes_congr h hname body, Stmt.optCode_congr h hname other]
  | .loop init cond post body, n => by
      rw [Stmt.code, Stmt.code, Stmt.optCode_congr h hname init, leaveUnlessCode_congr h,
        Stmt.codes_congr h hname body, Stmt.optCode_congr h hname post]

/-- **The code of statements depends on the name of the function and on the slots alone.** -/
theorem Stmt.codes_congr (h : f.offset = g.offset) (hname : f.name = g.name) :
    ∀ (ss : List Stmt) (n : Nat), Stmt.codes f n ss = Stmt.codes g n ss
  | [], n => by rw [Stmt.codes, Stmt.codes]
  | s :: ss, n => by
      rw [Stmt.codes, Stmt.codes, Stmt.code_congr h hname s, Stmt.codes_congr h hname ss]

theorem Stmt.optCode_congr (h : f.offset = g.offset) (hname : f.name = g.name) :
    ∀ (s : Option Stmt) (n : Nat), Stmt.optCode f n s = Stmt.optCode g n s
  | none, n => by rw [Stmt.optCode, Stmt.optCode]
  | some s, n => by rw [Stmt.optCode, Stmt.optCode, Stmt.code_congr h hname s]

end

theorem Function.offset_rename (f : Function) : (f.rename r).offset = f.offset := by
  funext id
  rw [Function.offset, Function.offset, Function.find?_eq_getElem?, Function.find?_eq_getElem?]
  show Option.getD (Option.map _ (f.params.map (Variable.rename r) ++
    f.locals.map (Variable.rename r))[id]?) 0 = _
  rw [← List.map_append, List.getElem?_map, Option.map_map]
  rfl

variable {r}

/-- The renaming changes no function and no callee of the program. -/
def Program.Keeps (r : String → String) (p : Program) : Prop :=
  ∀ f ∈ p.functions, r f.name = f.name ∧
    ∀ callee count, Node.call callee count ∈ f.nodes → r callee = callee

theorem Function.body_rename (hcallees : KeepsCallees r f.nodes) : (f.rename r).body = f.body := by
  show f.body.map (Stmt.rename r) = f.body
  rw [← Stmt.renameAll_eq, Stmt.renameAll_of_kept f.body hcallees]

theorem Function.code_rename (hname : r f.name = f.name) (hcallees : KeepsCallees r f.nodes)
    (n : Nat) : (f.rename r).code n = f.code n := by
  have hsetup : (f.rename r).setup = f.setup := by
    unfold Function.setup
    show _ ++ ((f.params.map (Variable.rename r)).zip argumentRegs).map _ = _
    rw [List.zip_map_left, List.map_map]
    rfl
  have hname' : (f.rename r).name = f.name := hname
  rw [Function.code, Function.code, hsetup, Function.body_rename hcallees, hname',
    Stmt.codes_congr (f.offset_rename r) hname']

theorem Program.codes_rename {fs : List Function} (h : Program.Keeps r ⟨fs⟩) (n : Nat) :
    Program.codes n (fs.map (Function.rename r)) = Program.codes n fs := by
  induction fs generalizing n with
  | nil => rfl
  | cons f fs ih =>
    obtain ⟨hname, hcallees⟩ := h f List.mem_cons_self
    rw [List.map_cons, Program.codes, Program.codes, Function.code_rename hname hcallees,
      Function.body_rename hcallees, ih fun g hg => h g (List.mem_cons_of_mem f hg)]

/-- **Names of variables do not reach the code.** -/
theorem Program.code_rename {p : Program} (h : p.Keeps r) : (p.rename r).code = p.code := by
  rw [Program.code, Program.code]
  exact congrArg _ (Program.codes_rename h 0)

end Code

end MicroGo
