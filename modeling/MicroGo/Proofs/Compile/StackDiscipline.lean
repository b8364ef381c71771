import MicroGo.Proofs.Assembly.Padding
import MicroGo.Proofs.Compile.Legibility

/-!
# The stack in compiled code

Compiled code keeps a discipline on the stack that can be seen from its lines alone.  On every path
of control through a function, whichever way its conditional jumps go, the operands pushed and not
yet popped are never fewer than none, and there are none where paths meet or part.  The eight bytes
of padding in front of a call are given back right behind it, and nowhere else.  Where a call is
made, the stack pointer is a multiple of sixteen, as long as the function itself was called that
way: it is entered eight bytes below such a multiple, since its return address lies there.
-/

namespace MicroGo

open Assembly

/-- Room for padding is taken right in front of a call and given back right behind it. -/
structure Assembly.PadsCalls (code : List Line) : Prop where
  undone : ∀ i, code[i]? = some padLine →
    ∃ callee, code[i + 1]? = some (.instr (.moveWord 0 .rax)) ∧
      code[i + 2]? = some (.instr (.call callee)) ∧ code[i + 3]? = some unpadLine
  taken : ∀ i, code[i]? = some unpadLine →
    ∃ j callee, i = j + 3 ∧ code[j]? = some padLine ∧ code[j + 2]? = some (.instr (.call callee))

/-- What holds of the stack on every path that starts at the label of a function. -/
structure Function.KeepsStack (f : Function) (code : List Line) (start exit : Nat) : Prop where
  /-- Up to the label behind the body there are at least as many pushes as pops. -/
  nonneg : ∀ ls pc, Path code start ls pc → pc ≤ exit → 0 ≤ f.operandHeight ls
  /-- There are as many pushes as pops at every label and at every jump. -/
  joint : ∀ ls pc l, Path code start ls pc → code[pc]? = some l → l.isJoint →
    f.operandHeight ls = 0
  /-- There are as many pushes as pops where the body ends or is left by a return. -/
  exit : ∀ ls, Path code start ls exit → f.operandHeight ls = 0
  /-- The stack pointer is a multiple of sixteen at every call. -/
  aligned : ∀ ls pc callee entry, Path code start ls pc →
    code[pc]? = some (.instr (.call callee)) → entry % 16 = 8 →
      ∃ sp, stackAfter entry ls = some sp ∧ sp % 16 = 0

/-- The stack discipline of a whole program in the given listing. -/
structure Program.KeepsStack (p : Program) (code : List Line) : Prop where
  padding : PadsCalls code
  functions : ∀ f ∈ p.functions, ∃ start exit, resolve code (.entry f.name) = some start ∧
    resolve code (.exit f.name) = some exit ∧ f.KeepsStack code start exit

namespace Program.WellFormed

variable {p : Program}

theorem padsCalls (h : p.WellFormed) : PadsCalls p.code := by
  have hpadded := padded_code fun f hf => (h.functions f hf).aligned
  exact ⟨fun _ => hpadded.getElem?_of_pad, fun _ => hpadded.getElem?_of_unpad⟩

theorem keepsStack (h : p.WellFormed) : p.KeepsStack p.code := by
  refine ⟨h.padsCalls, fun f hf => ?_⟩
  obtain ⟨n, before, after, hplaced⟩ := h.exists_placed hf
  have hframe := (h.functions f hf).aligned
  have hfault := (h.functions f hf).faults?
  have hexit := hplaced.resolve_exit
  refine ⟨_, _, hplaced.resolve_entry, hexit, ?_, ?_, ?_, ?_⟩
  · intro ls pc hpath hpc
    exact hplaced.operandHeight_nonneg hframe hfault hpath hpc
  · intro ls pc l hpath hl hjoint
    exact hplaced.operandHeight_eq_zero hframe hfault hpath hl hjoint
  · intro ls hpath
    exact hplaced.operandHeight_eq_zero hframe hfault hpath (getElem?_of_resolve hexit) rfl
  · intro ls pc callee entry hpath hcall hentry
    exact hplaced.stackAfter_at_call hframe hfault hpath hcall hentry

end Program.WellFormed

/-- **Compiled code keeps the stack discipline**: in the listing that is read from a compiled text,
for every function and on every path of control through it. -/
theorem compile_keepsStack {source text : String} (h : (compile source).result = .ok text) :
    ∃ p code, (parse (withLineEnd source)).result = .ok p ∧ read? text = some code ∧
      text = render code ∧ p.KeepsStack code := by
  obtain ⟨p, hp, htext, hread⟩ := exists_listing h
  exact ⟨p, p.code, hp, hread, htext, (wellFormed_of_parse_text hp).keepsStack⟩

/-- A text with a loop, a return inside it and calls nested in the operands of another call. -/
theorem compile_keepsStack_nested :
    ∃ text code, ∃ p : Program,
      (compile "func f(n int) \x7b for n < 9 \x7b return g(n, h(2 - h(n))) \x7d \x7d").result =
        .ok text ∧ read? text = some code ∧ p.KeepsStack code := by
  have hread : Except.isOk
      (compile "func f(n int) \x7b for n < 9 \x7b return g(n, h(2 - h(n))) \x7d \x7d").result := by
    decide +kernel
  obtain ⟨text, htext⟩ := exists_of_isOk hread
  obtain ⟨p, code, -, hcode, -, hp⟩ := compile_keepsStack htext
  exact ⟨text, code, p, htext, hcode, hp⟩

end MicroGo
