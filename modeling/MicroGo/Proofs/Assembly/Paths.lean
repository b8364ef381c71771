import Mathlib.Tactic.Ring
import MicroGo.Proofs.Assembly.Walk

/-!
# The stack along every path of control

The walk of the previous file follows the text.  Control does not: it jumps back to the start of a
loop, over a branch, or to the end of the function.  A `Path` follows control through the lines of
a program, taking each conditional jump either way, and remembers the lines it went through.  From
these the height of the operand stack and the stack pointer are read off, without any reference to
the tree that the code came from.

The two agree (`stage_of_path`): wherever a path arrives in the body of a function, the lines it
went through have the effect of the text above that place.  The reason is that a jump and the label
it leads to are both at clear spots, so a path that jumps loses nothing and gains nothing.
-/

namespace MicroGo
namespace Assembly

/-! ## Paths -/

/-- The lines to which control may go from a line.  A return leaves the program. -/
def successors (code : List Line) (pc : Nat) : Line → List Nat
  | .instr (.jump target) => (resolve code target).toList
  | .instr (.jumpEqual target) => (pc + 1) :: (resolve code target).toList
  | .instr .ret => []
  | _ => [pc + 1]

/-- `Path code start ls pc`: control may go from line `start` through the lines `ls` to line
`pc`. -/
inductive Path (code : List Line) (start : Nat) : List Line → Nat → Prop where
  | here : Path code start [] start
  | step {ls : List Line} {l : Line} {pc next : Nat} :
      Path code start ls pc → code[pc]? = some l → next ∈ successors code pc l →
        Path code start (ls ++ [l]) next

/-! ## What the lines of a path do to the stack -/

/-- A push adds an operand and a pop takes one. -/
def Line.height : Line → Int
  | .instr (.push _) => 1
  | .instr (.pop _) => -1
  | _ => 0

/-- Pushes minus pops. -/
def height (ls : List Line) : Int :=
  (ls.map Line.height).sum

/-- Where an instruction moves the stack pointer.  One that sets it from something else than its
old value says nothing. -/
def Instr.moveStack (sp : Int) : Instr → Option Int
  | .push _ => some (sp - 8)
  | .pop dst => if dst = .rsp then none else some (sp + 8)
  | .addWord value dst => some (if dst = .rsp then sp + value else sp)
  | .subWord value dst => some (if dst = .rsp then sp - value else sp)
  | .ret => some (sp + 8)
  | i => if i.written? = some .rsp then none else some sp

/-- Where a line moves the stack pointer. -/
def Line.moveStack (sp : Int) : Line → Option Int
  | .instr i => i.moveStack sp
  | _ => some sp

/-- The stack pointer after lines, if they settle it. -/
def stackAfter : Int → List Line → Option Int
  | sp, [] => some sp
  | sp, l :: ls => (l.moveStack sp).bind fun sp' => stackAfter sp' ls

theorem height_append (a b : List Line) : height (a ++ b) = height a + height b := by
  unfold height
  rw [List.map_append, List.sum_append]

theorem height_singleton (l : Line) : height [l] = l.height := by
  simp [height]

theorem stackAfter_append (sp : Int) (a b : List Line) :
    stackAfter sp (a ++ b) = (stackAfter sp a).bind fun sp' => stackAfter sp' b := by
  induction a generalizing sp with
  | nil => rfl
  | cons l a ih =>
    rw [List.cons_append, stackAfter, stackAfter, Option.bind_assoc]
    exact Option.bind_congr fun sp' _ => ih sp'

theorem stackAfter_snoc {sp sp' : Int} {ls : List Line} (h : stackAfter sp ls = some sp')
    (l : Line) : stackAfter sp (ls ++ [l]) = l.moveStack sp' := by
  rw [stackAfter_append, h, Option.bind_some, stackAfter]
  cases l.moveStack sp' <;> rfl

/-- An instruction that is passed changes height and stack pointer as it changes the spot. -/
theorem Instr.effect_of_pass {i : Instr} {s t : Spot} (h : i.pass s = some t) :
    Line.height (.instr i) = t.operands - s.operands ∧
      ∀ sp, i.moveStack sp = some (sp + 8 * s.words - 8 * t.words) := by
  obtain ⟨d, padded⟩ := s
  cases i with
  | push src =>
    cases padded
    · obtain rfl := Option.some.inj h
      refine ⟨by simp [Line.height], fun sp => ?_⟩
      simp only [Instr.moveStack, Spot.words, Option.some_inj, Bool.false_eq_true, if_false]
      omega
    · exact absurd h (by simp [Instr.pass])
  | pop dst =>
    rw [Instr.pass] at h
    split at h
    · exact absurd h (by simp)
    · rename_i hne
      simp only [not_or, Bool.not_eq_true] at hne
      obtain ⟨rfl, hd, hdst⟩ := hne
      obtain rfl := Option.some.inj h
      refine ⟨?_, fun sp => ?_⟩
      · simp only [Line.height]
        omega
      · simp only [Instr.moveStack, hdst, Spot.words, Option.some_inj, Bool.false_eq_true, if_false]
        omega
  | subWord value dst =>
    rw [Instr.pass] at h
    split at h
    · rename_i heq
      obtain ⟨rfl, rfl, hpad⟩ := heq
      obtain rfl : padded = false := by simpa using hpad
      obtain rfl := Option.some.inj h
      refine ⟨by simp [Line.height], fun sp => ?_⟩
      simp only [Instr.moveStack, Spot.words, if_true, Bool.false_eq_true, if_false,
        Option.some_inj]
      omega
    · exact absurd h (by simp)
  | addWord value dst =>
    rw [Instr.pass] at h
    split at h
    · rename_i heq
      obtain ⟨rfl, rfl, hpad⟩ := heq
      obtain rfl : padded = true := hpad
      obtain rfl := Option.some.inj h
      refine ⟨by simp [Line.height], fun sp => ?_⟩
      simp only [Instr.moveStack, Spot.words, if_true, Bool.false_eq_true, if_false,
        Option.some_inj]
      omega
    · exact absurd h (by simp)
  | call callee =>
    rw [Instr.pass] at h
    split at h
    · obtain rfl := Option.some.inj h
      simp [Line.height, Instr.moveStack, Instr.written?]
    · exact absurd h (by simp)
  | jump target | jumpEqual target =>
    rw [Instr.pass] at h
    split at h
    · obtain rfl := Option.some.inj h
      simp [Line.height, Instr.moveStack, Instr.written?]
    · exact absurd h (by simp)
  | ret => exact absurd h (by simp [Instr.pass])
  | move src dst | moveWord value dst | load address dst | slotAddress offset dst | add src dst
  | sub src dst | mul src dst | store src address | storeSlot src offset | signExtend | div src
  | compare src dst | compareWord value dst | setByte condition | extendByte =>
    simp only [Instr.pass] at h
    split at h
    · exact absurd h (by simp)
    · rename_i hne
      obtain rfl := Option.some.inj h
      simp [Line.height, Instr.moveStack, hne]

/-- A line that is passed changes height and stack pointer as it changes the spot. -/
theorem Line.effect_of_pass {l : Line} {s t : Spot} (h : l.pass s = some t) :
    l.height = t.operands - s.operands ∧
      ∀ sp, l.moveStack sp = some (sp + 8 * s.words - 8 * t.words) := by
  cases l with
  | instr i => exact Instr.effect_of_pass h
  | label l =>
    rw [Line.pass] at h
    split at h
    · obtain rfl := Option.some.inj h
      simp [Line.height, Line.moveStack]
    · exact absurd h (by simp)
  | operandStyle | codeSection | global name => exact absurd h (by simp [Line.pass])

/-! ## The parts of a function -/

end Assembly

namespace Function

open Assembly

/-- The lines of a function before its body: its label, and the code that sets up its frame. -/
def front (f : Function) : List Line :=
  .label (.entry f.name) :: instrLines f.setup

/-- The body of a function, and the return value of one that runs off its end. -/
def middle (f : Function) (n : Nat) : List Line :=
  Stmt.codes f n f.body ++ [.instr (.moveWord 0 .rax)]

/-- The lines of a function behind its body: the label of its end, and the code that gives up its
frame. -/
def back (f : Function) : List Line :=
  .label (.exit f.name) :: instrLines teardown

theorem code_eq (f : Function) (n : Nat) :
    f.code n = .global f.name :: (f.front ++ (f.middle n ++ f.back)) := by
  simp [code, front, middle, back]

/-- The height of the operand stack at the end of a path from the label of the function: pushes
minus pops behind the code that sets up the frame. -/
def operandHeight (f : Function) (ls : List Line) : Int :=
  height (ls.drop f.front.length)

/-- The frame of the function is a frame: of no negative size, and aligned. -/
structure Aligned (f : Function) : Prop where
  nonneg : 0 ≤ f.frameSize
  dvd : 16 ∣ f.frameSize

theorem operandHeight_snoc {f : Function} {ls : List Line} (h : f.front.length ≤ ls.length)
    (l : Line) : f.operandHeight (ls ++ [l]) = f.operandHeight ls + l.height := by
  unfold operandHeight
  rw [List.drop_append_of_le_length h, height_append, height_singleton]

theorem operandHeight_of_length_le {f : Function} {ls : List Line}
    (h : ls.length ≤ f.front.length) : f.operandHeight ls = 0 := by
  unfold operandHeight
  rw [List.drop_eq_nil_of_le h]
  rfl

theorem stackAfter_storeSlots (sp : Int) (ps : List (Variable × Reg)) :
    stackAfter sp (instrLines (ps.map fun p => .storeSlot p.2 p.1.offset)) = some sp := by
  induction ps with
  | nil => rfl
  | cons p ps ih => exact ih

/-- Setting up a frame takes six words and the frame itself. -/
theorem stackAfter_front {f : Function} (hf : f.Aligned) (sp : Int) :
    stackAfter sp f.front = some (sp - 48 - f.frameSize) := by
  have hsave : stackAfter sp (.label (.entry f.name) ::
      instrLines (savedRegs.map .push ++ [.push .rbp, .move .rsp .rbp])) = some (sp - 48) := by
    simp [savedRegs, stackAfter, Line.moveStack, Instr.moveStack, Instr.written?]
    ring
  have hframe : stackAfter (sp - 48) (instrLines
      (if 0 < f.frameSize then [.subWord f.frameSize .rsp] else [])) =
        some (sp - 48 - f.frameSize) := by
    by_cases hsize : 0 < f.frameSize
    · rw [if_pos hsize]
      rfl
    · have hzero : f.frameSize = 0 := by have := hf.nonneg; omega
      rw [if_neg hsize, hzero, Int.sub_zero]
      rfl
  rw [front, setup, instrLines, List.map_append, List.map_append, ← List.cons_append,
    ← List.cons_append, stackAfter_append, stackAfter_append, hsave, Option.bind_some, hframe,
    Option.bind_some]
  exact stackAfter_storeSlots _ _

end Function

namespace Assembly

theorem getElem?_length_append (a : List Line) (x : Line) (b : List Line) :
    (a ++ x :: b)[a.length]? = some x := by
  simp

/-- Control goes on to the next line behind a line that neither jumps nor returns. -/
theorem successors_of_plain {code : List Line} {pc : Nat} {l : Line}
    (h : ∀ i, l = .instr i → i.target? = none ∧ i ≠ .ret) : successors code pc l = [pc + 1] := by
  cases l with
  | instr i =>
    obtain ⟨htarget, hret⟩ := h i rfl
    cases i with
    | jump target | jumpEqual target => exact absurd htarget (by simp [Instr.target?])
    | ret => exact absurd rfl hret
    | _ => rfl
  | operandStyle | codeSection | global name | label l => rfl

/-- The function `f` stands in `code` behind the lines `before`, and the labels of `code` are
different. -/
structure Placed (f : Function) (n : Nat) (code before after : List Line) : Prop where
  split : code = before ++ (f.front ++ (f.middle n ++ f.back)) ++ after
  nodup : (labels code).Nodup

namespace Placed

variable {f : Function} {n : Nat} {code before after : List Line}

/-- A line of the function, by its place in the function. -/
theorem getElem? (h : Placed f n code before after) {a b : List Line} {x : Line}
    (hsplit : f.front ++ (f.middle n ++ f.back) = a ++ x :: b) :
    code[before.length + a.length]? = some x := by
  have hcode : code = (before ++ a) ++ x :: (b ++ after) := by
    rw [h.split, hsplit]
    simp
  rw [hcode, ← List.length_append]
  exact getElem?_length_append _ _ _

/-- A label of the function resolves to its place in the function. -/
theorem resolve_eq (h : Placed f n code before after) {a b : List Line} {l : Label}
    (hsplit : f.front ++ (f.middle n ++ f.back) = a ++ .label l :: b) :
    resolve code l = some (before.length + a.length) := by
  have hcode : code = (before ++ a) ++ .label l :: (b ++ after) := by
    rw [h.split, hsplit]
    simp
  have hnodup := h.nodup
  rw [hcode] at hnodup ⊢
  rw [resolve_of_nodup hnodup, List.length_append]

theorem resolve_entry (h : Placed f n code before after) :
    resolve code (.entry f.name) = some before.length :=
  h.resolve_eq (a := []) rfl

theorem resolve_exit (h : Placed f n code before after) :
    resolve code (.exit f.name) =
      some (before.length + f.front.length + (f.middle n).length) := by
  have hexit := h.resolve_eq (a := f.front ++ f.middle n) (l := .exit f.name)
    (b := instrLines Function.teardown) (by simp [Function.back])
  rwa [List.length_append, ← Nat.add_assoc] at hexit

end Placed

/-- The body of a function without misfit nodes is walked through. -/
theorem walk_middle {f : Function} (h : Stmt.faults? f f.body = none) (n : Nat) :
    walk (f.middle n) .clear = some .clear := by
  rw [Function.middle, walk_append_of_eq (walk_stmts h n)]
  rfl

/-! ## Where a path is, and what it knows -/

/-- **The stages of a path through a function** that stands behind `start` lines.  In front of the
body the path has gone through the lines above; in the body it knows what a walk through the text
above knows; behind the body nothing is left to know. -/
inductive Stage (f : Function) (n start : Nat) : List Line → Nat → Prop where
  | front {a b : List Line} {x : Line} : f.front = a ++ x :: b →
      Stage f n start a (start + a.length)
  | middle {ls a b : List Line} {spot : Spot} : f.middle n = a ++ b → walk a .clear = some spot →
      f.front.length ≤ ls.length → f.operandHeight ls = spot.operands →
      (∀ sp, stackAfter sp ls = some (sp - 48 - f.frameSize - 8 * spot.words)) →
        Stage f n start ls (start + f.front.length + a.length)
  | back {ls : List Line} {a b : List Instr} {x : Instr} : Function.teardown = a ++ x :: b →
      Stage f n start ls (start + f.front.length + (f.middle n).length + 1 + a.length)

/-- The lines in front of a body go on to the next line. -/
theorem successors_front {f : Function} {code a b : List Line} {x : Line} {pc : Nat}
    (h : f.front = a ++ x :: b) : successors code pc x = [pc + 1] := by
  refine successors_of_plain fun i hi => ?_
  have hmem : x ∈ f.front := by
    rw [h]
    exact List.mem_append_right a (List.mem_cons_self ..)
  rw [hi, Function.front, List.mem_cons] at hmem
  have hset : i ∈ f.setup := by simpa using hmem
  simp only [Function.setup, savedRegs, List.map_cons, List.map_nil, List.cons_append,
    List.nil_append, List.mem_cons, List.mem_append, List.mem_map] at hset
  rcases hset with rfl | rfl | rfl | rfl | rfl | rfl | rfl | hset | ⟨p, -, rfl⟩
  all_goals try exact ⟨rfl, by simp⟩
  split at hset
  · rw [List.mem_singleton.mp hset]
    exact ⟨rfl, by simp⟩
  · exact absurd hset (by simp)

/-- The code behind a body goes on to the next line, up to the return. -/
theorem successors_back {code : List Line} {a b : List Instr} {x : Instr} {pc next : Nat}
    (h : Function.teardown = a ++ x :: b) (hnext : next ∈ successors code pc (.instr x)) :
    next = pc + 1 ∧ ∃ y c, b = y :: c := by
  cases b with
  | nil =>
    -- the last instruction is the return, which leads nowhere
    have hlast := congrArg List.getLast? h
    rw [List.getLast?_concat] at hlast
    have hx : x = .ret := (Option.some.inj hlast).symm
    rw [hx] at hnext
    exact absurd hnext (by simp [successors])
  | cons y c =>
    have hinit := congrArg List.dropLast h
    rw [List.dropLast_append_of_ne_nil (List.cons_ne_nil x _), List.dropLast_cons_cons] at hinit
    have hmem : x ∈ Function.teardown.dropLast := by
      rw [hinit]
      exact List.mem_append_right a (List.mem_cons_self ..)
    have hplain : x.target? = none ∧ x ≠ .ret := by
      simp only [Function.teardown, savedRegs, List.reverse_cons, List.reverse_nil,
        List.nil_append, List.cons_append, List.map_cons, List.map_nil, List.dropLast_cons_cons,
        List.dropLast_singleton, List.mem_cons, List.not_mem_nil, or_false] at hmem
      rcases hmem with rfl | rfl | rfl | rfl | rfl | rfl | rfl
      all_goals exact ⟨rfl, by simp⟩
    have hsucc : successors code pc (.instr x) = [pc + 1] := by
      refine successors_of_plain fun i hi => ?_
      injection hi with hi
      rwa [← hi]
    rw [hsucc, List.mem_singleton] at hnext
    exact ⟨hnext, y, c, rfl⟩

/-- A path that jumps from a clear spot of the body arrives at a clear spot of the body. -/
theorem stage_of_jump {f : Function} {n : Nat} {code before after ls : List Line} {t : Label}
    {next : Nat} (hplaced : Placed f n code before after)
    (hfault : Stmt.faults? f f.body = none) (hlen : f.front.length ≤ ls.length)
    (hheight : f.operandHeight ls = 0)
    (hstack : ∀ sp, stackAfter sp ls = some (sp - 48 - f.frameSize))
    (ht : t ∈ .exit f.name :: labels (Stmt.codes f n f.body)) (hnext : resolve code t = some next) :
    Stage f n before.length ls next := by
  rcases List.mem_cons.mp ht with rfl | ht
  · rw [hplaced.resolve_exit, Option.some_inj] at hnext
    rw [← hnext]
    exact .middle (b := []) (by simp) (walk_middle hfault n) hlen hheight (by simpa using hstack)
  · obtain ⟨a, b, hab⟩ := List.append_of_mem (mem_labels.mp ht)
    have hmiddle : f.middle n = a ++ .label t :: (b ++ [.instr (.moveWord 0 .rax)]) := by
      rw [Function.middle, hab]
      simp
    have hsplit : f.front ++ (f.middle n ++ f.back) =
        (f.front ++ a) ++ .label t :: (b ++ [.instr (.moveWord 0 .rax)] ++ f.back) := by
      rw [hmiddle]
      simp
    rw [hplaced.resolve_eq hsplit, Option.some_inj, List.length_append, ← Nat.add_assoc] at hnext
    -- the label is passed on the walk through the text, so it stands at a clear spot
    have hwalk := walk_middle hfault n
    rw [hmiddle, walk_append] at hwalk
    obtain ⟨spot, hspot, hrest⟩ := Option.bind_eq_some_iff.mp hwalk
    have hclear : spot = .clear := by
      by_contra hne
      rw [walk_cons, Line.pass, if_neg hne] at hrest
      exact absurd hrest (by simp)
    rw [← hnext]
    subst hclear
    exact .middle hmiddle hspot hlen hheight (by simpa using hstack)

/-- A jump is passed at a clear spot, and leaves it clear. -/
theorem Instr.pass_of_target {i : Instr} {t : Label} {s s' : Spot} (ht : i.target? = some t)
    (h : i.pass s = some s') : s' = .clear := by
  cases i with
  | jump l | jumpEqual l =>
    rw [Instr.pass] at h
    split at h
    · rename_i hclear
      rw [← Option.some.inj h, hclear]
    · exact absurd h (by simp)
  | _ => exact absurd ht (by simp [Instr.target?])

/-- A jump in the middle part of a function stands in its body. -/
theorem mem_codes_of_target {f : Function} {n : Nat} {i : Instr} {t : Label}
    (h : .instr i ∈ f.middle n) (ht : i.target? = some t) : .instr i ∈ Stmt.codes f n f.body := by
  rw [Function.middle, List.mem_append, List.mem_singleton] at h
  refine h.resolve_right fun hmove => ?_
  injection hmove with hmove
  rw [hmove] at ht
  exact absurd ht (by simp [Instr.target?])

namespace Placed

variable {f : Function} {n : Nat} {code before after ls : List Line} {l : Line} {next : Nat}

/-- A step in front of the body. -/
theorem step_front (h : Placed f n code before after) (hf : f.Aligned) {b : List Line} {x : Line}
    (hfront : f.front = ls ++ x :: b) (hl : code[before.length + ls.length]? = some l)
    (hnext : next ∈ successors code (before.length + ls.length) l) :
    Stage f n before.length (ls ++ [l]) next := by
  have hx := h.getElem? (a := ls) (x := x) (b := b ++ (f.middle n ++ f.back))
    (by rw [hfront]; simp)
  obtain rfl : x = l := Option.some.inj (hx.symm.trans hl)
  rw [successors_front hfront, List.mem_singleton] at hnext
  rw [hnext, Nat.add_assoc]
  cases b with
  | nil =>
    have hlen : f.front.length = ls.length + 1 := by
      rw [hfront]
      simp
    rw [← hlen, ← hfront]
    have hwalk : walk [] .clear = some .clear := rfl
    refine .middle (b := f.middle n) rfl hwalk (Nat.le_refl _)
      (Function.operandHeight_of_length_le (Nat.le_refl _)) fun sp => ?_
    rw [Function.stackAfter_front hf, Spot.words_clear]
    simp
  | cons y c =>
    have hsplit : f.front = (ls ++ [x]) ++ y :: c := by
      rw [hfront]
      simp
    have hstage : Stage f n before.length (ls ++ [x]) (before.length + (ls ++ [x]).length) :=
      .front hsplit
    simpa using hstage

/-- The line that a path meets in the body: one of the body, or the label behind it. -/
theorem getElem?_middle (h : Placed f n code before after) {a b : List Line}
    (hmiddle : f.middle n = a ++ b) :
    code[before.length + f.front.length + a.length]? = (b ++ f.back).head? := by
  cases hb : b ++ f.back with
  | nil => exact absurd hb (by simp [Function.back])
  | cons x c =>
    have hx := h.getElem? (a := f.front ++ a) (x := x) (b := c) (by simp [hmiddle, hb])
    rwa [List.length_append, ← Nat.add_assoc] at hx

/-- A step in the body.  The walk through the text passes the line at hand, and if the line jumps,
the walk is at a clear spot. -/
theorem step_middle (h : Placed f n code before after) (hfault : Stmt.faults? f f.body = none)
    {a c : List Line} {spot : Spot} (hmiddle : f.middle n = a ++ l :: c)
    (hspot : walk a .clear = some spot) (hlen : f.front.length ≤ ls.length)
    (hheight : f.operandHeight ls = spot.operands)
    (hstack : ∀ sp, stackAfter sp ls = some (sp - 48 - f.frameSize - 8 * spot.words))
    (hnext : next ∈ successors code (before.length + f.front.length + a.length) l) :
    Stage f n before.length (ls ++ [l]) next := by
  have hwalk := walk_middle hfault n
  rw [hmiddle, walk_append_of_eq hspot, walk_cons] at hwalk
  obtain ⟨spot', hpass, -⟩ := Option.bind_eq_some_iff.mp hwalk
  obtain ⟨hdelta, hmove⟩ := Line.effect_of_pass hpass
  have hlen' : f.front.length ≤ (ls ++ [l]).length := by
    rw [List.length_append]
    omega
  have hheight' : f.operandHeight (ls ++ [l]) = spot'.operands := by
    rw [Function.operandHeight_snoc hlen, hheight, hdelta]
    omega
  have hstack' : ∀ sp, stackAfter sp (ls ++ [l]) =
      some (sp - 48 - f.frameSize - 8 * spot'.words) := by
    intro sp
    rw [stackAfter_snoc (hstack sp), hmove]
    congr 1
    ring
  have hon : next = before.length + f.front.length + a.length + 1 →
      Stage f n before.length (ls ++ [l]) next := by
    intro heq
    have hwalk' : walk (a ++ [l]) .clear = some spot' := by
      rw [walk_append_of_eq hspot, walk_cons, hpass]
      rfl
    have hstage : Stage f n before.length (ls ++ [l])
        (before.length + f.front.length + (a ++ [l]).length) :=
      .middle (b := c) (by rw [hmiddle]; simp) hwalk' hlen' hheight' hstack'
    rwa [List.length_append, List.length_singleton, ← Nat.add_assoc, ← heq] at hstage
  have hjump : ∀ i t, l = .instr i → i.target? = some t → resolve code t = some next →
      Stage f n before.length (ls ++ [l]) next := by
    rintro i t rfl ht hres
    have hclear : spot' = .clear := Instr.pass_of_target ht hpass
    have hbody : .instr i ∈ Stmt.codes f n f.body := by
      refine mem_codes_of_target ?_ ht
      rw [hmiddle]
      exact List.mem_append_right a (List.mem_cons_self ..)
    refine stage_of_jump h hfault hlen' ?_ ?_ (leadTo_stmts f f.body n i hbody t ht) hres
    · rw [hheight', hclear]
      rfl
    · intro sp
      rw [hstack', hclear, Spot.words_clear]
      simp
  cases l with
  | instr i =>
    cases i with
    | jump t =>
      rw [successors, Option.mem_toList] at hnext
      exact hjump _ t rfl rfl hnext
    | jumpEqual t =>
      rw [successors, List.mem_cons, Option.mem_toList] at hnext
      exact hnext.elim hon (hjump _ t rfl rfl)
    | ret => exact absurd hnext (by simp [successors])
    | _ => exact hon (List.mem_singleton.mp hnext)
  | operandStyle | codeSection | global name | label l =>
    exact hon (List.mem_singleton.mp hnext)

/-- The line that a path meets behind the body. -/
theorem getElem?_back (h : Placed f n code before after) {a b : List Instr} {x : Instr}
    (hback : Function.teardown = a ++ x :: b) :
    code[before.length + f.front.length + (f.middle n).length + 1 + a.length]? =
      some (.instr x) := by
  have hx := h.getElem? (a := f.front ++ (f.middle n ++ (.label (.exit f.name) ::
    instrLines a))) (x := .instr x) (b := instrLines b) (by simp [Function.back, hback])
  rw [← hx]
  congr 1
  simp only [List.length_append, List.length_cons, List.length_map]
  omega

/-- A step behind the body. -/
theorem step_back (h : Placed f n code before after) {a b : List Instr} {x : Instr}
    (hback : Function.teardown = a ++ x :: b)
    (hl : code[before.length + f.front.length + (f.middle n).length + 1 + a.length]? = some l)
    (hnext : next ∈
      successors code (before.length + f.front.length + (f.middle n).length + 1 + a.length) l) :
    Stage f n before.length (ls ++ [l]) next := by
  obtain rfl : .instr x = l := Option.some.inj ((h.getElem?_back hback).symm.trans hl)
  obtain ⟨hnext, y, c, rfl⟩ := successors_back hback hnext
  have hsplit : Function.teardown = (a ++ [x]) ++ y :: c := by
    rw [hback]
    simp
  have hstage : Stage f n before.length (ls ++ [.instr x])
      (before.length + f.front.length + (f.middle n).length + 1 + (a ++ [x]).length) :=
    .back hsplit
  rwa [List.length_append, List.length_singleton, ← Nat.add_assoc, ← hnext] at hstage

/-- One step of control keeps the stage. -/
theorem step (h : Placed f n code before after) (hf : f.Aligned)
    (hfault : Stmt.faults? f f.body = none) {pc : Nat} (hstage : Stage f n before.length ls pc)
    (hl : code[pc]? = some l) (hnext : next ∈ successors code pc l) :
    Stage f n before.length (ls ++ [l]) next := by
  cases hstage with
  | front hfront => exact h.step_front hf hfront hl hnext
  | @middle a b spot hmiddle hspot hlen hheight hstack =>
    rw [h.getElem?_middle hmiddle] at hl
    cases b with
    | cons x c =>
      obtain rfl : x = l := Option.some.inj hl
      exact h.step_middle hfault hmiddle hspot hlen hheight hstack hnext
    | nil =>
      -- behind the last line of the body stands the label of the end
      obtain rfl : .label (.exit f.name) = l := Option.some.inj hl
      have hnext : next = _ := List.mem_singleton.mp hnext
      rw [hnext, ← List.append_nil a, ← hmiddle]
      exact .back (a := []) (x := .move .rbp .rsp) rfl
  | back hback => exact h.step_back hback hl hnext

/-- **Every path from the label of a function is at some stage of the function.** -/
theorem stage_of_path (h : Placed f n code before after) (hf : f.Aligned)
    (hfault : Stmt.faults? f f.body = none) {pc : Nat} (hpath : Path code before.length ls pc) :
    Stage f n before.length ls pc := by
  induction hpath with
  | here => exact .front (a := []) (x := .label (.entry f.name)) (b := instrLines f.setup) rfl
  | step _ hl hnext ih => exact h.step hf hfault ih hl hnext

end Placed

/-! ## The discipline -/

/-- A label or a jump: a line at which different paths may meet or part. -/
def Line.isJoint : Line → Bool
  | .label _ => true
  | .instr (.jump _) => true
  | .instr (.jumpEqual _) => true
  | _ => false

/-- Joints stand at clear spots. -/
theorem Line.clear_of_pass {l : Line} {s t : Spot} (hl : l.isJoint) (h : l.pass s = some t) :
    s = .clear := by
  by_contra hne
  cases l with
  | instr i =>
    cases i with
    | jump target | jumpEqual target =>
      rw [Line.pass, Instr.pass, if_neg hne] at h
      exact absurd h (by simp)
    | _ => exact absurd hl (by simp [Line.isJoint])
  | label l =>
    rw [Line.pass, if_neg hne] at h
    exact absurd h (by simp)
  | operandStyle | codeSection | global name => exact absurd hl (by simp [Line.isJoint])

namespace Placed

variable {f : Function} {n : Nat} {code before after ls : List Line} {l : Line} {pc : Nat}

/-- **The operand stack is never deeper than empty.**  Up to the end of the body there are at least
as many pushes as pops. -/
theorem operandHeight_nonneg (h : Placed f n code before after) (hf : f.Aligned)
    (hfault : Stmt.faults? f f.body = none) (hpath : Path code before.length ls pc)
    (hpc : pc ≤ before.length + f.front.length + (f.middle n).length) :
    0 ≤ f.operandHeight ls := by
  cases h.stage_of_path hf hfault hpath with
  | front hfront =>
    have hlen : ls.length ≤ f.front.length := by
      rw [hfront, List.length_append]
      omega
    rw [Function.operandHeight_of_length_le hlen]
  | middle _ _ _ hheight _ =>
    rw [hheight]
    exact Int.natCast_nonneg _
  | back hback => omega

/-- **The operand stack is empty where paths meet and part.** -/
theorem operandHeight_eq_zero (h : Placed f n code before after) (hf : f.Aligned)
    (hfault : Stmt.faults? f f.body = none) (hpath : Path code before.length ls pc)
    (hl : code[pc]? = some l) (hjoint : l.isJoint) : f.operandHeight ls = 0 := by
  cases h.stage_of_path hf hfault hpath with
  | front hfront =>
    refine Function.operandHeight_of_length_le ?_
    rw [hfront, List.length_append]
    omega
  | @middle a b spot hmiddle hspot _ hheight _ =>
    have hwalk := walk_middle hfault n
    rw [hmiddle, walk_append_of_eq hspot] at hwalk
    rw [h.getElem?_middle hmiddle] at hl
    have hclear : spot = .clear := by
      cases b with
      | nil => exact Option.some.inj hwalk
      | cons x c =>
        obtain rfl : x = l := Option.some.inj hl
        rw [walk_cons] at hwalk
        obtain ⟨spot', hpass, -⟩ := Option.bind_eq_some_iff.mp hwalk
        exact Line.clear_of_pass hjoint hpass
    rw [hheight, hclear]
    rfl
  | back hback =>
    rw [h.getElem?_back hback] at hl
    obtain rfl := Option.some.inj hl
    -- nothing behind the body is a joint
    have hmem : ∀ i ∈ Function.teardown, Line.isJoint (.instr i) = false := by decide
    rw [hmem _ (by rw [hback]; simp)] at hjoint
    exact absurd hjoint (by simp)

/-- **The stack pointer is a multiple of sixteen at every call**, if it is eight more than one
where the function is entered. -/
theorem stackAfter_at_call (h : Placed f n code before after) (hf : f.Aligned)
    (hfault : Stmt.faults? f f.body = none) (hpath : Path code before.length ls pc)
    {callee : String} (hl : code[pc]? = some (.instr (.call callee))) {entry : Int}
    (hentry : entry % 16 = 8) : ∃ sp, stackAfter entry ls = some sp ∧ sp % 16 = 0 := by
  cases h.stage_of_path hf hfault hpath with
  | @front b x hfront =>
    have hx := h.getElem? (a := ls) (x := x) (b := b ++ (f.middle n ++ f.back))
      (by rw [hfront]; simp)
    obtain rfl : x = .instr (.call callee) := Option.some.inj (hx.symm.trans hl)
    have hmem : .instr (.call callee) ∈ f.front := by
      rw [hfront]
      exact List.mem_append_right ls (List.mem_cons_self ..)
    refine absurd hmem ?_
    unfold Function.front Function.setup
    split <;> simp [savedRegs]
  | @middle a b spot hmiddle hspot _ _ hstack =>
    have hwalk := walk_middle hfault n
    rw [hmiddle, walk_append_of_eq hspot] at hwalk
    rw [h.getElem?_middle hmiddle] at hl
    cases b with
    | nil => exact absurd hl (by simp [Function.back])
    | cons x c =>
      obtain rfl : x = .instr (.call callee) := Option.some.inj hl
      have halign : spot.aligned := by
        by_contra hne
        rw [walk_cons, Line.pass, Instr.pass, if_neg hne] at hwalk
        exact absurd hwalk (by simp)
      have hodd : spot.words % 2 = 1 := by
        have heven : (1 + savedRegs.length + 1 + spot.words) % 2 = 0 := of_decide_eq_true halign
        rw [savedRegs, List.length_cons, List.length_cons, List.length_cons, List.length_cons,
          List.length_singleton] at heven
        omega
      obtain ⟨k, hk⟩ := hf.dvd
      refine ⟨_, hstack entry, ?_⟩
      rw [hk]
      omega
  | back hback =>
    rw [h.getElem?_back hback] at hl
    obtain rfl := Line.instr.inj (Option.some.inj hl)
    have hmem : Instr.call callee ∈ Function.teardown := by
      rw [hback]
      simp
    exact absurd hmem (by simp [Function.teardown, savedRegs])

end Placed

end Assembly
end MicroGo
