import MicroGo.Proofs.Assembly.Numbering

/-!
# Code with other numbers

The numbers of labels matter only up to where they start.  The code that starts with the number
`n + k` is the code that starts with `n`, each number increased by `k` (`Stmt.code_add`).  So in a
program the functions behind other ones have the code that they would have alone, with numbers that
start behind those of the other ones (`Program.code_append`).

Function names and the labels that are made of them have no number and stay.
-/

namespace MicroGo

namespace Assembly

/-- The label with its number increased by `k`. -/
def Label.renumber (k : Nat) : Label → Label
  | entry function => entry function
  | exit function => exit function
  | begin id => begin (id + k)
  | otherwise id => otherwise (id + k)
  | done id => done (id + k)

/-- The instruction with the number of its target increased by `k`. -/
def Instr.renumber (k : Nat) : Instr → Instr
  | jump target => jump (target.renumber k)
  | jumpEqual target => jumpEqual (target.renumber k)
  | i => i

/-- The line with all its numbers of labels increased by `k`. -/
def Line.renumber (k : Nat) : Line → Line
  | label l => label (l.renumber k)
  | instr i => instr (i.renumber k)
  | l => l

theorem Instr.renumber_of_target? {i : Instr} (h : i.target? = none) (k : Nat) :
    i.renumber k = i := by
  cases i with
  | jump target => cases h
  | jumpEqual target => cases h
  | _ => rfl

/-- Code that does not jump has no numbers. -/
theorem Straight.map_renumber {is : List Instr} (h : Straight is) (k : Nat) :
    (instrLines is).map (Line.renumber k) = instrLines is := by
  rw [List.map_map]
  refine List.map_congr_left fun i hi => ?_
  show Line.instr (i.renumber k) = .instr i
  rw [Instr.renumber_of_target? (h i hi)]

theorem map_renumber_jumpUnless (f : Function) (cond : Expr) (target : Label) (k : Nat) :
    (instrLines (jumpUnlessCode f cond target)).map (Line.renumber k) =
      instrLines (jumpUnlessCode f cond (target.renumber k)) := by
  have hcond := (straight_expr f cond 0).map_renumber k
  rw [jumpUnlessCode, jumpUnlessCode, instrLines, instrLines, List.map_append, List.map_append,
    List.map_append, hcond]
  rfl

theorem map_renumber_leaveUnless (f : Function) (cond : Option Expr) (target : Label) (k : Nat) :
    (instrLines (leaveUnlessCode f cond target)).map (Line.renumber k) =
      instrLines (leaveUnlessCode f cond (target.renumber k)) := by
  cases cond with
  | none => rfl
  | some cond => exact map_renumber_jumpUnless f cond target k

/-- The text of lines is the text of the first ones and then that of the others. -/
theorem render_append (a b : List Line) : render (a ++ b) = render a ++ render b := by
  rw [render, List.map_append, String.join_append]
  rfl

end Assembly

open Assembly

/-! ## Statements -/

mutual

/-- **Code that starts with a greater number is the same code with greater numbers.** -/
theorem Stmt.code_add (f : Function) (k : Nat) : ∀ (s : Stmt) (n : Nat),
    Stmt.code f (n + k) s = (Stmt.code f n s).map (Line.renumber k)
  | .expr value, n => by
      rw [Stmt.code, Stmt.code]
      refine (Straight.map_renumber ((straight_expr f value 0).append ?_) k).symm
      simp [Straight, Instr.target?]
  | .assign target value, n => by
      rw [Stmt.code, Stmt.code]
      refine (Straight.map_renumber (Straight.append (Straight.append ?_ (straight_expr f value 1))
        ?_) k).symm
      · simp [Straight, Instr.target?]
      · simp [Straight, Instr.target?]
  | .ret value, n => by
      have hvalue := (straight_expr f value 0).map_renumber k
      rw [Stmt.code, Stmt.code, instrLines, List.map_append, List.map_append, hvalue]
      rfl
  | .block body, n => by
      rw [Stmt.code, Stmt.code]
      exact Stmt.codes_add f k body n
  | .branch init cond body other, n => by
      have hinit := Stmt.optCode_add f k init (n + 1)
      have hbody := Stmt.codes_add f k body (n + 1 + Stmt.optLabelCount init)
      have hother := Stmt.optCode_add f k other
        (n + 1 + Stmt.optLabelCount init + Stmt.labelCounts body)
      rw [Stmt.code, Stmt.code]
      simp only [List.map_append, ← hinit, ← hbody, ← hother, map_renumber_jumpUnless,
        Nat.add_right_comm _ k]
      rfl
  | .loop init cond post body, n => by
      have hinit := Stmt.optCode_add f k init (n + 1)
      have hbody := Stmt.codes_add f k body (n + 1 + Stmt.optLabelCount init)
      have hpost := Stmt.optCode_add f k post
        (n + 1 + Stmt.optLabelCount init + Stmt.labelCounts body)
      rw [Stmt.code, Stmt.code]
      simp only [List.map_append, ← hinit, ← hbody, ← hpost, map_renumber_leaveUnless,
        Nat.add_right_comm _ k]
      rfl

theorem Stmt.codes_add (f : Function) (k : Nat) : ∀ (ss : List Stmt) (n : Nat),
    Stmt.codes f (n + k) ss = (Stmt.codes f n ss).map (Line.renumber k)
  | [], n => by
      rw [Stmt.codes, Stmt.codes]
      rfl
  | s :: ss, n => by
      rw [Stmt.codes, Stmt.codes, List.map_append, Stmt.code_add f k s n, Nat.add_right_comm,
        Stmt.codes_add f k ss (n + s.labelCount)]

theorem Stmt.optCode_add (f : Function) (k : Nat) : ∀ (s : Option Stmt) (n : Nat),
    Stmt.optCode f (n + k) s = (Stmt.optCode f n s).map (Line.renumber k)
  | none, n => by
      rw [Stmt.optCode, Stmt.optCode]
      rfl
  | some s, n => by
      rw [Stmt.optCode, Stmt.optCode]
      exact Stmt.code_add f k s n

end

/-! ## Functions and programs -/

theorem Function.code_add (f : Function) (n k : Nat) :
    f.code (n + k) = (f.code n).map (Line.renumber k) := by
  rw [Function.code, Function.code]
  simp only [List.map_append, Stmt.codes_add f k f.body n, (straight_setup f).map_renumber,
    straight_teardown.map_renumber]
  rfl

namespace Program

theorem codes_add (k : Nat) (fs : List Function) (n : Nat) :
    codes (n + k) fs = (codes n fs).map (Line.renumber k) := by
  induction fs generalizing n with
  | nil => rfl
  | cons f fs ih =>
      rw [codes, codes, List.map_append, f.code_add n k, Nat.add_right_comm, ih]

/-- Functions behind other ones take the numbers behind theirs. -/
theorem codes_append (fs gs : List Function) (n : Nat) :
    codes n (fs ++ gs) = codes n fs ++ codes (n + (Program.mk fs).controls.length) gs := by
  induction fs generalizing n with
  | nil => rfl
  | cons f fs ih =>
      have hlength : (Program.mk (f :: fs)).controls.length =
          Stmt.labelCounts f.body + (Program.mk fs).controls.length := by
        rw [controls, List.flatMap_cons, List.length_append, Stmt.length_allControls]
        rfl
      rw [List.cons_append, codes, codes, ih, hlength, List.append_assoc, Nat.add_assoc]

/-- **The code of a program behind another one** is its own code without the two lines at the head,
with numbers that start behind those of the other program. -/
theorem code_append (fs gs : List Function) :
    (Program.mk (fs ++ gs)).code =
      (Program.mk fs).code ++ (codes 0 gs).map (Line.renumber (Program.mk fs).controls.length) := by
  rw [code, codes_append, codes_add, ← List.append_assoc]
  rfl

end Program

end MicroGo
