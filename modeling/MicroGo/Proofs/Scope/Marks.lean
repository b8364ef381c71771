import Mathlib.Data.List.Induction
import MicroGo.Proofs.Grammar.Elaboration

/-!
# Declarations and uses of names

What matters for names is a list of marks, in the order of the text: where a scope begins and ends,
where a name is declared and where it is used.  Lexical scoping can be said on this list alone.  A
name that is used stands for the variable of its last declaration before that place whose scope is
still open there (`Binds`).  Variables are numbered in the order of their declarations.

A compiler does not look back like this.  It carries along a stack of open scopes, and changes it at
each mark (`Names.after`).  The results of this module say that both ways agree: a name is found in
the open scopes exactly if a declaration of it holds (`find?_after`), and is known to the innermost
scope exactly if it has been declared there (`knows_after`).

## Looking from further out

Neither fact can be shown by going through the marks one by one, since the end of a scope brings
back what held outside of it.  So both are shown for all scopes at once, that is, for what is seen
after `d` more scopes have been closed.
-/

namespace MicroGo
namespace Grammar

/-! ## Marks -/

/-- A place of the text that matters for names. -/
inductive Mark where
  /-- A scope begins. -/
  | enter
  /-- The innermost scope ends. -/
  | leave
  /-- A variable of this name is known from here on. -/
  | declare (name : String)
  /-- The name stands for a variable. -/
  | use (name : String)
deriving DecidableEq

/-- The name that is declared by a mark. -/
def Mark.declared? : Mark → Option String
  | declare name => some name
  | _ => none

/-- The names that are declared, in the order of their declarations. -/
def declaredNames (marks : List Mark) : List String :=
  marks.filterMap Mark.declared?

/-! ## Scopes in a list of marks -/

/-- How deep a place is inside a scope, one mark after a place of the given depth.  It is not inside
the scope any more if the mark closes it. -/
def Mark.nest (depth : Nat) : Mark → Option Nat
  | enter => some (depth + 1)
  | leave => if depth = 0 then none else some (depth - 1)
  | _ => some depth

/-- **How deep the end of the marks is inside the scope of their beginning**, unless that scope has
been closed in between. -/
def depthAfter (marks : List Mark) : Option Nat :=
  marks.foldlM Mark.nest 0

/-- The scope of the beginning of the marks encloses their end. -/
def StillOpen (marks : List Mark) : Prop :=
  (depthAfter marks).isSome

/-- **The declaration that a name refers to** behind the marks: the last one of this name whose
scope is still open.  It declares the variable with the given number. -/
def Binds (past : List Mark) (name : String) (id : VarId) : Prop :=
  ∃ before between, past = before ++ .declare name :: between ∧ StillOpen between ∧
    (∀ before' between', between = before' ++ .declare name :: between' → ¬ StillOpen between') ∧
      id = (declaredNames before).length

/-- The scope of the end of the marks has a declaration of the name. -/
def DeclaredHere (past : List Mark) (name : String) : Prop :=
  ∃ before between, past = before ++ .declare name :: between ∧ depthAfter between = some 0

/-- Some use of a name has no declaration to refer to. -/
def LacksDeclaration (marks : List Mark) : Prop :=
  ∃ past name rest, marks = past ++ .use name :: rest ∧ ∀ id, ¬ Binds past name id

/-- Some scope declares one name twice. -/
def DeclaresTwice (marks : List Mark) : Prop :=
  ∃ past name rest, marks = past ++ .declare name :: rest ∧ DeclaredHere past name

/-! ## Legal marks -/

/-- The mark may stand behind the marks `past`. -/
def Mark.Admitted (past : List Mark) : Mark → Prop
  | enter => True
  | leave => True
  | declare name => ¬ DeclaredHere past name
  | use name => ∃ id, Binds past name id

/-- Each of the marks may stand where it stands, behind the marks `past`. -/
def Legal (past : List Mark) : List Mark → Prop
  | [] => True
  | m :: ms => m.Admitted past ∧ Legal (past ++ [m]) ms

theorem legal_append {past ms ms' : List Mark} :
    Legal past (ms ++ ms') ↔ Legal past ms ∧ Legal (past ++ ms) ms' := by
  induction ms generalizing past with
  | nil =>
      rw [List.nil_append, List.append_nil]
      exact ⟨fun h => ⟨trivial, h⟩, fun h => h.2⟩
  | cons m ms ih =>
      rw [List.cons_append, Legal, Legal, ih, List.append_assoc, List.singleton_append, and_assoc]

theorem legal_iff_forall {past ms : List Mark} :
    Legal past ms ↔ ∀ before m rest, ms = before ++ m :: rest → m.Admitted (past ++ before) := by
  constructor
  · rintro h before m rest rfl
    exact (legal_append.1 h).2.1
  · induction ms generalizing past with
    | nil => exact fun _ => trivial
    | cons m ms ih =>
        intro h
        refine ⟨?_, ih fun before m' rest hsplit => ?_⟩
        · simpa using h [] m ms rfl
        · have hadmitted := h (m :: before) m' rest (by rw [hsplit, List.cons_append])
          rwa [List.append_assoc, List.singleton_append]

/-- **Marks are not legal** if a use lacks a declaration or a scope declares a name twice, and for
no other reason. -/
theorem not_legal_iff {ms : List Mark} :
    ¬ Legal [] ms ↔ LacksDeclaration ms ∨ DeclaresTwice ms := by
  rw [legal_iff_forall]
  constructor
  · intro h
    by_contra hnone
    rw [not_or] at hnone
    refine h fun before m rest hsplit => ?_
    rw [List.nil_append]
    cases m with
    | enter => trivial
    | leave => trivial
    | use name =>
        by_contra hunbound
        exact hnone.1 ⟨before, name, rest, hsplit, fun id hid => hunbound ⟨id, hid⟩⟩
    | declare name => exact fun hhere => hnone.2 ⟨before, name, rest, hsplit, hhere⟩
  · rintro (⟨past, name, rest, hsplit, hunbound⟩ | ⟨past, name, rest, hsplit, hhere⟩) h
    · obtain ⟨id, hid⟩ := h past _ rest hsplit
      exact hunbound id hid
    · exact h past _ rest hsplit hhere

/-! ## The open scopes -/

/-- What is known of names one mark later. -/
def Names.step (names : Names) : Mark → Names
  | .enter => names.enter
  | .leave => names.leave
  | .declare name =>
      { scopes := ((name, names.declared.length) :: names.scopes.headD []) :: names.scopes.tail
        declared := names.declared ++ [⟨name, .int⟩] }
  | .use _ => names

/-- **What is known of names behind the marks.** -/
def Names.after (past : List Mark) : Names :=
  past.foldl Names.step {}

theorem after_append (past ms : List Mark) :
    Names.after (past ++ ms) = ms.foldl Names.step (Names.after past) :=
  List.foldl_append

theorem after_snoc (past : List Mark) (m : Mark) :
    Names.after (past ++ [m]) = (Names.after past).step m :=
  after_append past [m]

theorem after_enter (past : List Mark) :
    Names.after (past ++ [.enter]) = (Names.after past).enter :=
  after_snoc past .enter

theorem declared_after (past : List Mark) :
    (Names.after past).declared = (declaredNames past).map (⟨·, .int⟩) := by
  induction past using List.reverseRecOn with
  | nil => rfl
  | append_singleton past m ih =>
      rw [after_snoc, declaredNames, List.filterMap_append, List.map_append, ← declaredNames, ← ih]
      cases m with
      | declare name => rfl
      | enter => exact (List.append_nil _).symm
      | leave => exact (List.append_nil _).symm
      | use name => exact (List.append_nil _).symm

theorem length_declared_after (past : List Mark) :
    (Names.after past).declared.length = (declaredNames past).length := by
  rw [declared_after, List.length_map]

/-! ## Looking for a name -/

/-- What is `d` scopes further out at the end of a mark is that far out at its beginning. -/
def Mark.outward (d : Nat) : Mark → Nat
  | enter => d - 1
  | leave => d + 1
  | _ => d

/-- The scope of the beginning encloses the end, also when `d` more scopes have been closed. -/
def OpenBeyond (d : Nat) (marks : List Mark) : Prop :=
  ∃ depth, depthAfter marks = some depth ∧ d ≤ depth

theorem depthAfter_snoc (ms : List Mark) (m : Mark) :
    depthAfter (ms ++ [m]) = (depthAfter ms).bind fun depth => m.nest depth := by
  unfold depthAfter
  rw [List.foldlM_append]
  show Option.bind _ _ = _
  congr 1
  funext depth
  exact List.foldlM_cons.trans (bind_pure _)

theorem openBeyond_nil {d : Nat} : OpenBeyond d [] ↔ d = 0 := by
  constructor
  · rintro ⟨depth, ⟨⟩, hd⟩
    exact Nat.le_zero.1 hd
  · rintro rfl
    exact ⟨0, rfl, Nat.le_refl 0⟩

theorem openBeyond_snoc {d : Nat} {ms : List Mark} {m : Mark} :
    OpenBeyond d (ms ++ [m]) ↔ OpenBeyond (m.outward d) ms := by
  unfold OpenBeyond
  rw [depthAfter_snoc]
  cases depthAfter ms with
  | none => simp
  | some depth =>
      cases m with
      | enter => simp [Mark.nest, Mark.outward]
      | leave =>
          simp [Mark.nest, Mark.outward]
          omega
      | declare name => simp [Mark.nest, Mark.outward]
      | use name => simp [Mark.nest, Mark.outward]

theorem openBeyond_zero {ms : List Mark} : OpenBeyond 0 ms ↔ StillOpen ms := by
  unfold OpenBeyond StillOpen
  rw [Option.isSome_iff_exists]
  exact exists_congr fun depth => and_iff_left (Nat.zero_le depth)

/-- The declaration that a name refers to when `d` more scopes have been closed. -/
def BindsBeyond (d : Nat) (past : List Mark) (name : String) (id : VarId) : Prop :=
  ∃ before between, past = before ++ .declare name :: between ∧ OpenBeyond d between ∧
    (∀ before' between', between = before' ++ .declare name :: between' →
      ¬ OpenBeyond d between') ∧ id = (declaredNames before).length

theorem bindsBeyond_zero {past : List Mark} {name : String} {id : VarId} :
    BindsBeyond 0 past name id ↔ Binds past name id := by
  unfold BindsBeyond Binds
  simp only [openBeyond_zero]

/-- A mark in a list with one more mark at its end is this one or an earlier one. -/
theorem snoc_eq_append_cons {α : Type} {past before between : List α} {m m' : α} :
    past ++ [m] = before ++ m' :: between ↔
      (past = before ∧ m = m' ∧ between = []) ∨
        ∃ between', between = between' ++ [m] ∧ past = before ++ m' :: between' := by
  constructor
  · intro h
    rcases List.eq_nil_or_concat between with rfl | ⟨between, m'', rfl⟩
    · obtain ⟨hpast, hm⟩ := List.append_inj' h rfl
      exact .inl ⟨hpast, List.singleton_inj.1 hm, rfl⟩
    · rw [List.concat_eq_append, ← List.cons_append, ← List.append_assoc] at h
      obtain ⟨hpast, hm⟩ := List.append_inj' h rfl
      obtain rfl := List.singleton_inj.1 hm
      exact .inr ⟨between, List.concat_eq_append, hpast⟩
  · rintro (⟨rfl, rfl, rfl⟩ | ⟨between', rfl, rfl⟩)
    · rfl
    · rw [List.append_assoc, List.cons_append]

/-- A declaration that is still open holds at once. -/
theorem bindsBeyond_declare {past : List Mark} {name : String} {id : VarId} :
    BindsBeyond 0 (past ++ [.declare name]) name id ↔ id = (declaredNames past).length := by
  constructor
  · rintro ⟨before, between, hsplit, -, hlast, rfl⟩
    rcases snoc_eq_append_cons.1 hsplit with ⟨rfl, -, -⟩ | ⟨between, rfl, -⟩
    · rfl
    · -- an earlier declaration is not the last one that is open
      exact absurd (openBeyond_nil.2 rfl) (hlast between [] rfl)
  · rintro rfl
    exact ⟨past, [], rfl, openBeyond_nil.2 rfl, fun _ _ h => absurd h (by simp), rfl⟩

/-- Any other mark only changes how far out the declaration has to be. -/
theorem bindsBeyond_snoc {d : Nat} {past : List Mark} {m : Mark} {name : String} {id : VarId}
    (hm : ¬ (m = .declare name ∧ d = 0)) :
    BindsBeyond d (past ++ [m]) name id ↔ BindsBeyond (m.outward d) past name id := by
  constructor
  · rintro ⟨before, between, hsplit, hopen, hlast, rfl⟩
    rcases snoc_eq_append_cons.1 hsplit with ⟨-, hdeclare, rfl⟩ | ⟨between, rfl, hpast⟩
    · exact absurd ⟨hdeclare, openBeyond_nil.1 hopen⟩ hm
    · refine ⟨before, between, hpast, openBeyond_snoc.1 hopen, ?_, rfl⟩
      rintro before' between' rfl hopen'
      exact hlast before' (between' ++ [m]) (by simp) (openBeyond_snoc.2 hopen')
  · rintro ⟨before, between, rfl, hopen, hlast, rfl⟩
    refine ⟨before, between ++ [m], by simp, openBeyond_snoc.2 hopen, ?_, rfl⟩
    intro before' between' hsplit
    rcases snoc_eq_append_cons.1 hsplit with ⟨-, hdeclare, rfl⟩ | ⟨between', rfl, hbetween⟩
    · rw [openBeyond_nil]
      exact fun hd => hm ⟨hdeclare, hd⟩
    · rw [openBeyond_snoc]
      exact hlast before' between' hbetween

theorem find?_cons (scope : Scope) (outer : Scopes) (name : String) :
    Scopes.find? (scope :: outer) name = (scope.lookup name).or (outer.find? name) := by
  show List.findSome? _ (scope :: outer) = _
  rw [List.findSome?_cons]
  cases scope.lookup name <;> rfl

theorem find?_headD_tail (scopes : Scopes) (name : String) :
    Scopes.find? (scopes.headD [] :: scopes.tail) name = scopes.find? name := by
  cases scopes with
  | nil => rfl
  | cons scope outer => rfl

/-- The scopes that are left when the innermost `d` are closed, before and after a mark. -/
theorem find?_step (names : Names) (m : Mark) (d : Nat) (name : String) :
    Scopes.find? ((names.step m).scopes.drop d) name =
      if m = .declare name ∧ d = 0 then some names.declared.length
      else Scopes.find? (names.scopes.drop (m.outward d)) name := by
  cases m with
  | enter =>
      cases d with
      | zero => simp [Names.step, Names.enter, Mark.outward, find?_cons]
      | succ d => simp [Names.step, Names.enter, Mark.outward]
  | leave => simp [Names.step, Names.leave, Mark.outward]
  | use name' => simp [Names.step, Mark.outward]
  | declare name' =>
      cases d with
      | succ d => simp [Names.step, Mark.outward]
      | zero =>
          rw [List.drop_zero, Names.step, find?_cons, List.lookup_cons]
          by_cases hname : name' = name
          · simp [hname]
          · have hne : (name == name') = false := beq_false_of_ne (Ne.symm hname)
            rw [if_neg (by simp [hname]), hne]
            show _ = names.scopes.find? name
            rw [← find?_headD_tail names.scopes, find?_cons]

/-- **The open scopes find what the marks bind**, also when `d` more scopes have been closed. -/
theorem find?_after_drop (past : List Mark) (d : Nat) (name : String) (id : VarId) :
    Scopes.find? ((Names.after past).scopes.drop d) name = some id ↔
      BindsBeyond d past name id := by
  -- the last mark is taken off; the end of a scope is why this has to hold for every `d`
  induction past using List.reverseRecOn generalizing d with
  | nil =>
      constructor
      · intro h
        simp [Names.after, Scopes.find?] at h
      · rintro ⟨before, between, hsplit, -⟩
        exact absurd hsplit (by simp)
  | append_singleton past m ih =>
      rw [after_snoc, find?_step]
      split
      next h =>
        obtain ⟨rfl, rfl⟩ := h
        rw [bindsBeyond_declare, length_declared_after, Option.some_inj]
        exact eq_comm
      next h => rw [bindsBeyond_snoc h, ih]

/-- **A name is found exactly if a declaration of it holds**, and stands for its variable. -/
theorem find?_after (past : List Mark) (name : String) (id : VarId) :
    (Names.after past).scopes.find? name = some id ↔ Binds past name id := by
  rw [← bindsBeyond_zero, ← find?_after_drop, List.drop_zero]

/-! ## Looking in one scope -/

/-- Behind the marks, the scope that is `d` scopes further out has a declaration of the name. -/
def DeclaredAt (d : Nat) (past : List Mark) (name : String) : Prop :=
  ∃ before between, past = before ++ .declare name :: between ∧ depthAfter between = some d

theorem depthAfter_snoc_eq_some {d : Nat} {ms : List Mark} {m : Mark} :
    depthAfter (ms ++ [m]) = some d ↔
      (m = .enter → d ≠ 0) ∧ depthAfter ms = some (m.outward d) := by
  rw [depthAfter_snoc]
  cases depthAfter ms with
  | none => simp
  | some depth =>
      cases m with
      | enter =>
          simp [Mark.nest, Mark.outward]
          omega
      | leave =>
          simp [Mark.nest, Mark.outward]
          omega
      | declare name => simp [Mark.nest, Mark.outward]
      | use name => simp [Mark.nest, Mark.outward]

theorem declaredAt_snoc {d : Nat} {past : List Mark} {m : Mark} {name : String} :
    DeclaredAt d (past ++ [m]) name ↔
      (m = .declare name ∧ d = 0) ∨ (m = .enter → d ≠ 0) ∧ DeclaredAt (m.outward d) past name := by
  constructor
  · rintro ⟨before, between, hsplit, hdepth⟩
    rcases snoc_eq_append_cons.1 hsplit with ⟨-, hdeclare, rfl⟩ | ⟨between, rfl, hpast⟩
    · exact .inl ⟨hdeclare, (Option.some.inj hdepth).symm⟩
    · obtain ⟨hinner, hdepth'⟩ := depthAfter_snoc_eq_some.1 hdepth
      exact .inr ⟨hinner, before, between, hpast, hdepth'⟩
  · rintro (⟨rfl, rfl⟩ | ⟨hinner, before, between, rfl, hdepth⟩)
    · exact ⟨past, [], rfl, rfl⟩
    · exact ⟨before, between ++ [m], by simp, depthAfter_snoc_eq_some.2 ⟨hinner, hdepth⟩⟩

theorem knows_step (names : Names) (m : Mark) (d : Nat) (name : String) :
    Scope.knows ((names.step m).scopes.getD d []) name ↔
      (m = .declare name ∧ d = 0) ∨
        (m = .enter → d ≠ 0) ∧ Scope.knows (names.scopes.getD (m.outward d) []) name := by
  cases m with
  | enter =>
      cases d with
      | zero => simp [Names.step, Names.enter, Scope.knows]
      | succ d => simp [Names.step, Names.enter, Mark.outward]
  | leave => simp [Names.step, Names.leave, Mark.outward]
  | use name' => simp [Names.step, Mark.outward]
  | declare name' =>
      cases d with
      | succ d => simp [Names.step, Mark.outward]
      | zero =>
          by_cases hname : name' = name
          · simp [Names.step, Scope.knows, hname]
          · have hne : (name == name') = false := beq_false_of_ne (Ne.symm hname)
            simp [Names.step, Mark.outward, Scope.knows, List.lookup_cons, List.head?_eq_getElem?,
              hname, hne]

/-- **A scope knows the names that it declares.** -/
theorem knows_after_getD (past : List Mark) (d : Nat) (name : String) :
    Scope.knows ((Names.after past).scopes.getD d []) name ↔ DeclaredAt d past name := by
  induction past using List.reverseRecOn generalizing d with
  | nil =>
      constructor
      · intro h
        simp [Names.after, Scope.knows] at h
      · rintro ⟨before, between, hsplit, -⟩
        exact absurd hsplit (by simp)
  | append_singleton past m ih => rw [after_snoc, knows_step, declaredAt_snoc, ih]

/-- **The innermost scope knows a name exactly if it has been declared there.** -/
theorem knows_after (past : List Mark) (name : String) :
    Scope.knows ((Names.after past).scopes.headD []) name ↔ DeclaredHere past name := by
  rw [List.headD_eq_head?_getD, List.head?_eq_getElem?]
  exact knows_after_getD past 0 name

end Grammar
end MicroGo
