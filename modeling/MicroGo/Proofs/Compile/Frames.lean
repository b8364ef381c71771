import Mathlib
import MicroGo.Proofs.Compile.Stages
import MicroGo.Proofs.Scope.Declarations

/-!
# Frames of the functions that were read

The variables of a function are those that its own lexemes declare, whatever stands in front of the
function: its parameters, and then its local variables in the order of the text, with one variable
for each declaration even where two have the same name.  They lie one below the other in a frame
that is as small as its alignment allows.
-/

namespace MicroGo

/-- The places of the bytes of a variable, counted from the frame pointer. -/
def Variable.slot (v : Variable) : Set Int :=
  Set.Ico (-v.offset) (-v.offset + v.type.size)

/-- **The frame of a function that is written with the given lexemes.** -/
structure Function.LaidOut (ls : List Lexeme) (f : Function) : Prop where
  name : ls[1]? = some ⟨.ident, f.name⟩
  params_le : f.params.length ≤ 6
  params : f.params.map Variable.name = Grammar.parameterNames (ls.drop 3)
  locals : f.locals.map Variable.name = Grammar.localNames ls
  offset : ∀ (i : Nat) (v : Variable), f.vars[i]? = some v → v.offset = 8 * (i + 1)
  frameSize : IsLeast {n : Int | 16 ∣ n ∧ 8 * f.vars.length ≤ n} f.frameSize
  disjoint : f.vars.Pairwise fun v w => Disjoint v.slot w.slot
  inside : ∀ v ∈ f.vars, v.slot ⊆ Set.Ico (-f.frameSize) 0
  find : ∀ i, f.find? i = f.vars[i]?
  find_none : ∀ i, f.vars.length ≤ i → f.find? i = none

/-- Rounding up gives the least multiple of sixteen that is large enough. -/
theorem Frame.isLeast_alignUp {n : Int} (h : 0 ≤ n) :
    IsLeast {m : Int | 16 ∣ m ∧ n ≤ m} (alignUp n alignment) := by
  obtain ⟨hle, hdvd⟩ := alignUp_spec h
  refine ⟨⟨hdvd, hle⟩, ?_⟩
  rintro m ⟨hm, hnm⟩
  unfold alignUp alignment
  rw [Int.tdiv_eq_ediv_of_nonneg (by omega)]
  omega

theorem Variable.slot_eq (v : Variable) : v.slot = Set.Ico (-v.offset) (-v.offset + 8) := by
  rw [Variable.slot, Frame.size_eq]

namespace Function.WellFormed

variable {f : Function}

theorem offset_of_getElem? (h : f.WellFormed) {i : Nat} {v : Variable}
    (hv : f.vars[i]? = some v) : v.offset = 8 * (i + 1) := by
  obtain ⟨hi, -⟩ := List.getElem?_eq_some_iff.1 hv
  rw [← h.offset_eq i hi, Function.offset, Function.find?_eq_getElem?, hv]
  rfl

theorem isLeast_frameSize (h : f.WellFormed) :
    IsLeast {n : Int | 16 ∣ n ∧ 8 * f.vars.length ≤ n} f.frameSize := by
  rw [h.frameSize_eq]
  exact Frame.isLeast_alignUp (by omega)

theorem pairwise_disjoint_slot (h : f.WellFormed) :
    f.vars.Pairwise fun v w => Disjoint v.slot w.slot := by
  rw [List.pairwise_iff_getElem]
  intro i j hi hj hij
  have hv := h.offset_of_getElem? (List.getElem?_eq_getElem hi)
  have hw := h.offset_of_getElem? (List.getElem?_eq_getElem hj)
  -- the later variable lies below the earlier one
  rw [Variable.slot_eq, Variable.slot_eq, disjoint_comm, Set.Ico_disjoint_Ico, hv, hw]
  omega

theorem slot_subset (h : f.WellFormed) {v : Variable} (hv : v ∈ f.vars) :
    v.slot ⊆ Set.Ico (-f.frameSize) 0 := by
  obtain ⟨i, hi⟩ := List.mem_iff_getElem?.1 hv
  obtain ⟨hlt, -⟩ := List.getElem?_eq_some_iff.1 hi
  have hoffset := h.offset_of_getElem? hi
  have hframe := h.isLeast_frameSize.1.2
  rw [Variable.slot_eq]
  exact Set.Ico_subset_Ico (by omega) (by omega)

end Function.WellFormed

open Grammar in
/-- **A function is laid out as its own lexemes tell.** -/
theorem laidOut_of_means {t : Grammar.Function} {f : Function} (hmeans : t.Means f)
    (hf : f.WellFormed) : f.LaidOut (t.lexemes ++ [.reserved ";"]) := by
  obtain ⟨after, hafter⟩ := hmeans
  obtain ⟨-, -, hdenotes⟩ := function_eq_ok hafter rfl
  have hlocals : f.locals.map Variable.name = declaredNames t.body.marks := by
    have hvars := hdenotes.vars
    rw [Function.vars, List.map_append, hdenotes.params, declaredNames_marks] at hvars
    exact List.append_cancel_left hvars
  exact
    { name := by rw [hdenotes.name]; rfl
      params_le := hf.params_le
      params := hdenotes.params.trans (parameterNames_function t).symm
      locals := hlocals.trans (localNames_function t).symm
      offset := fun i v hv => hf.offset_of_getElem? hv
      frameSize := hf.isLeast_frameSize
      disjoint := hf.pairwise_disjoint_slot
      inside := fun v hv => hf.slot_subset hv
      find := f.find?_eq_getElem?
      find_none := fun i hi => (f.find?_eq_getElem? i).trans (List.getElem?_eq_none hi) }

open Grammar in
/-- **The frames of a program.**  The functions of a program that was read are those of its tokens,
one by one, and each has the variables that its own tokens declare, in a frame of its own. -/
theorem programOf_laidOut {source : String} {tokens : List Token} {p : Program}
    (h : (programOf source tokens).result = .ok p) :
    List.Forall₂ Function.LaidOut (functionParts (lexemesOf tokens)) p.functions := by
  have hp := programOf_eq_ok.1 h
  obtain ⟨ts, hlexemes, -, hmeans⟩ := exists_means_of_parse hp
  rw [hlexemes, functionParts_functionLexemes, List.forall₂_map_left_iff]
  have hboth :=
    (List.forall₂_and_left p.functions ts).2 ⟨(wellFormed_of_parse hp).functions, hmeans.flip⟩
  exact hboth.flip.imp fun _ _ hf => laidOut_of_means hf.2 hf.1

open Grammar in
/-- A parameter with a comma behind it, two local variables of the same name, one of them in an
inner block, and a function that has no variables. -/
theorem programOf_laidOut_nested : ∃ source tokens p,
    source = "func f(a int,) \x7bvar b=a;if b \x7bvar b int\x7d\x7d\nfunc g() \x7b\x7d\n" ∧
    (tokensOf source).result = .ok tokens ∧ (programOf source tokens).result = .ok p ∧
    p.functions.map (fun f => (f.vars.map Variable.name, f.frameSize)) =
      [(["a", "b", "b"], 32), ([], 0)] ∧
    List.Forall₂ Function.LaidOut (functionParts (lexemesOf tokens)) p.functions := by
  have hread : ((tokensOf
      "func f(a int,) \x7bvar b=a;if b \x7bvar b int\x7d\x7d\nfunc g() \x7b\x7d\n"
        ).result.toOption.bind fun tokens => (Program.parse tokens).result.toOption).map
          (fun p => p.functions.map fun f => (f.vars.map Variable.name, f.frameSize)) =
      some [(["a", "b", "b"], 32), ([], 0)] := by
    decide +kernel
  obtain ⟨p, hp, hvars⟩ := Option.map_eq_some_iff.1 hread
  obtain ⟨tokens, htokens, hparse⟩ := Option.bind_eq_some_iff.1 hp
  have hprogram (source : String) : (programOf source tokens).result = .ok p :=
    programOf_eq_ok.2 (eq_ok_of_toOption hparse)
  exact ⟨_, tokens, p, rfl, eq_ok_of_toOption htokens, hprogram _, hvars,
    programOf_laidOut (hprogram "")⟩

end MicroGo
