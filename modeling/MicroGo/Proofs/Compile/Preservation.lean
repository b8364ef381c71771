import MicroGo.Proofs.Compile.Legibility
import MicroGo.Proofs.Semantics.Independence
import MicroGo.Proofs.Simulation.Function

/-!
# Compiled functions do what they mean

The reference semantics says what a function does to the world and which value it gives.  The
machine does the same when it enters the code of the function with the arguments in their registers
and enough room on the stack.  This holds in all three cases that the reference semantics knows:

* where the function returns a value, every run of the machine leaves the code for the return
  address, with the value in `rax`, the world as it should be, and everything else that the caller
  relies on untouched;
* where the function faults, every run of the machine traps;
* where some loop is still going on after a number of rounds, no run of the machine ends before it
  has taken that many steps.  So a function that never ends is never left.

## The locals

The simulation knows the locals of a function as what happens to lie in their slots when it is
entered.  The reference semantics may start with any other locals, since a run of a well-formed
function depends on its arguments only.
-/

namespace MicroGo

open Assembly

variable {σ : Type} {callee : Callee σ} {code : List Line} {m : Machine σ} {f : Function}
  {args : List Int64}

/-- The machine, started at a line in state `m`, does what a run of the reference semantics does
that is bounded to the given number of rounds. -/
def Assembly.Follows (callee : Callee σ) (code : List Line) (start : Nat) (m : Machine σ)
    (rounds : Nat) : EStateM.Result Break (Store σ) Int64 → Prop
  | .ok value s => Eventually callee code
      (fun c => ∃ m', c = .left (m.memory (m.regs .rsp).toNat) m' ∧ Returned m value s.world m')
      (.at start m)
  | .error (.fault _) s => Eventually callee code
      (fun c => ∃ m', c = .trapped m' ∧ m'.world = s.world) (.at start m)
  | .error .unfinished _ => Survives callee code rounds (.at start m)

namespace Function.WellFormed

/-- The variables of a well-formed function have words of the frame to themselves. -/
theorem separate (h : f.WellFormed) : f.Separate := by
  have hspec := Frame.alignUp_spec (n := 8 * f.vars.length) (by omega)
  rw [← h.frameSize_eq] at hspec
  refine ⟨⟨fun id hid => ?_⟩, h.aligned.nonneg, fun i hi j hj hij => ?_⟩
  · have hid' : (id : Int) < f.vars.length := Int.ofNat_lt.2 hid
    rw [h.offset_eq id hid]
    refine ⟨Int.dvd_mul_right 8 _, ?_, ?_⟩ <;> omega
  · rw [h.offset_eq i hi, h.offset_eq j hj] at hij
    have hcast : (i : Int) = (j : Int) := by omega
    exact Int.ofNat.inj hcast

/-- **The code of a well-formed function does what the function does.** -/
theorem follows {n : Nat} {before after : List Line} (h : f.WellFormed)
    (hplaced : Placed f n code before after) (hargs : args.length = f.params.length)
    (hm : Called f args m) (locals : Env) (rounds : Nat) :
    Follows callee code before.length m rounds
      (f.run callee rounds ⟨Function.bind args locals, m.world⟩) := by
  -- the machine runs with what it finds in the slots of the locals
  rcases (h.run_alike callee hargs rounds (residue f m) locals m.world).cases with
    ⟨value, s, t, hs, ht, halike⟩ | ⟨reason, s, t, hs, ht, hworld⟩
  · rw [ht]
    refine run_function (backward_eventually callee code _) hplaced h.separate h.aligned h.faults?
      hargs hm (Nat.zero_le rounds) ?_
    rw [hs]
    intro m' hm'
    rw [halike.world] at hm'
    exact .now ⟨m', rfl, hm'⟩
  · rw [ht]
    cases reason with
    | fault division =>
      refine run_function (backward_eventually callee code _) hplaced h.separate h.aligned h.faults?
        hargs hm (Nat.zero_le rounds) ?_
      rw [hs]
      intro m' hm'
      exact .now ⟨m', rfl, hm'.trans hworld⟩
    | unfinished =>
      refine run_function (backward_survives callee code) hplaced h.separate h.aligned h.faults?
        hargs hm (Nat.le_refl rounds) ?_
      rw [hs]
      exact fun _ => trivial

end Function.WellFormed

/-- **Compilation preserves meaning.**  From every text that compilation gives, a listing is read.
In this listing every function of the program has its code at its label, and the machine that enters
this code with any arguments does what the function does with them, whatever calls do and whatever
the locals are at the start. -/
theorem compile_follows {source text : String} (h : (compile source).result = .ok text) :
    ∃ p code, (parse (withLineEnd source)).result = .ok p ∧ read? text = some code ∧
      text = render code ∧
      ∀ f ∈ p.functions, ∃ start, resolve code (.entry f.name) = some start ∧
        ∀ (σ : Type) (callee : Callee σ) (args : List Int64) (m : Machine σ) (locals : Env)
          (rounds : Nat), args.length = f.params.length → Called f args m →
            Follows callee code start m rounds
              (f.run callee rounds ⟨Function.bind args locals, m.world⟩) := by
  obtain ⟨p, hp, htext, hread⟩ := exists_listing h
  have hwf := wellFormed_of_parse_text hp
  refine ⟨p, p.code, hp, hread, htext, fun f hf => ?_⟩
  obtain ⟨n, before, after, hplaced⟩ := hwf.exists_placed hf
  refine ⟨_, hplaced.resolve_entry, fun σ callee args m locals rounds hargs hm => ?_⟩
  exact (hwf.functions f hf).follows hplaced hargs hm locals rounds

/-- A loop with a call in each round is entered with the argument three and the return address 64.
The callee gives back its argument, so the loop goes on from three to six and to twelve. -/
theorem compile_follows_doubling :
    ∃ text code start,
      (compile "func f(n int) \x7b for n < 9 \x7b n = n + g(n) \x7d; return n \x7d").result =
        .ok text ∧
      read? text = some code ∧ resolve code (.entry "f") = some start ∧
      Eventually (.ofOracle fun _ args => args.sum) code
        (fun c => ∃ m', c = .left 64 m' ∧ m'.regs .rax = 12)
        (.at start ⟨fun r => if r = .rdi then 3 else 4096, none, fun _ => 64, ()⟩) := by
  have hread : Except.isOk
      (compile "func f(n int) \x7b for n < 9 \x7b n = n + g(n) \x7d; return n \x7d").result := by
    decide +kernel
  have hrun : (parse (withLineEnd
      "func f(n int) \x7b for n < 9 \x7b n = n + g(n) \x7d; return n \x7d")).result.toOption.map
        (fun p => p.functions.map fun f => (f.name, f.params.length, f.stackNeed,
          decide (Outcome (fun value _ => value = 12) (fun _ _ => False)
            (f.run (.ofOracle fun _ args => args.sum) 9 ⟨Function.bind [3] 0, ()⟩)))) =
      some [("f", 1, 88, true)] := by
    decide +kernel
  obtain ⟨text, htext⟩ := exists_of_isOk hread
  obtain ⟨p, code, hp, hcode, -, hfunctions⟩ := compile_follows htext
  rw [hp] at hrun
  obtain ⟨f, hf, hfacts⟩ := List.map_eq_singleton_iff.1 (Option.some.inj hrun)
  simp only [Prod.mk.injEq] at hfacts
  obtain ⟨hname, hparams, hneed, hvalue⟩ := hfacts
  obtain ⟨start, hstart, hfollows⟩ := hfunctions f (hf ▸ List.mem_singleton_self f)
  refine ⟨text, code, start, htext, hcode, hname ▸ hstart, ?_⟩
  have h := hfollows Unit (.ofOracle fun _ args => args.sum) [3]
    ⟨fun r => if r = .rdi then 3 else 4096, none, fun _ => 64, ()⟩ 0 9 hparams.symm
    ⟨by decide, by decide, by rw [hneed]; decide⟩
  have houtcome := of_decide_eq_true hvalue
  cases hresult : f.run (.ofOracle fun _ args => args.sum) 9 ⟨Function.bind [3] 0, ()⟩ with
  | error reason s =>
    rw [hresult] at houtcome
    exact houtcome.elim
  | ok value s =>
    rw [hresult] at h houtcome
    obtain rfl : value = 12 := houtcome
    refine Eventually.imp h ?_
    rintro c ⟨m', hc, hm'⟩
    exact ⟨m', hc, hm'.value⟩

end MicroGo
