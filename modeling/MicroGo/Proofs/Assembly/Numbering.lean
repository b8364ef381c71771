import MicroGo.Proofs.Assembly.Walk

/-!
# The numbers of labels

Each conditional and each loop takes a number for its labels.  Here it is said which one: the
statements that take a number are listed in the order of the text, a statement before those inside
it (`Program.controls`), and the place in this list is the number.

One structure says how the code of some statements follows their list, from the first free number on
(`Numbers`): the labels of the code are those of the listed statements and no others, and the code
of each of them is found inside, with its own number.  It is built up along the tree.

The order of emission is that of the text but for the last part of the head of a loop, which stands
behind the rounds.  So nothing that takes a number may stand there (`Stmt.PlainPosts`).

## Names

Labels that are different have different names, if the names of functions have no dot
(`Label.name_inj`).
-/

namespace MicroGo

open Assembly

/-! ## The statements that take a number -/

mutual

/-- The conditionals and loops of a statement in the order of the text. -/
def Stmt.controls : Stmt → List Stmt
  | .expr _ => []
  | .assign _ _ => []
  | .ret _ => []
  | .block body => Stmt.allControls body
  | .branch init cond body other =>
      .branch init cond body other ::
        (Stmt.optControls init ++ (Stmt.allControls body ++ Stmt.optControls other))
  | .loop init cond post body =>
      .loop init cond post body ::
        (Stmt.optControls init ++ (Stmt.optControls post ++ Stmt.allControls body))

/-- The conditionals and loops of statements. -/
def Stmt.allControls : List Stmt → List Stmt
  | [] => []
  | s :: ss => Stmt.controls s ++ Stmt.allControls ss

/-- The conditionals and loops of a statement that may be missing. -/
def Stmt.optControls : Option Stmt → List Stmt
  | none => []
  | some s => Stmt.controls s

end

/-- The conditionals and loops of a program in the order of the text. -/
def Program.controls (p : Program) : List Stmt :=
  p.functions.flatMap fun f => Stmt.allControls f.body

/-- Functions, each with its first free number, if `n` is that of the first one. -/
def Program.sections (n : Nat) : List Function → List (Function × Nat)
  | [] => []
  | f :: fs => (f, n) :: Program.sections (n + Stmt.labelCounts f.body) fs

/-- The labels that a statement with the number `n` defines itself. -/
def Stmt.ownLabels (n : Nat) : Stmt → List Label
  | .branch .. => [.otherwise n, .done n]
  | .loop .. => [.begin n, .done n]
  | _ => []

mutual

/-- Nothing that takes a number stands behind the rounds of a loop. -/
def Stmt.PlainPosts : Stmt → Prop
  | .expr _ => True
  | .assign _ _ => True
  | .ret _ => True
  | .block body => Stmt.AllPlainPosts body
  | .branch init _ body other =>
      Stmt.OptPlainPosts init ∧ Stmt.AllPlainPosts body ∧ Stmt.OptPlainPosts other
  | .loop init _ post body =>
      Stmt.OptPlainPosts init ∧ Stmt.AllPlainPosts body ∧ Stmt.OptPlainPosts post ∧
        Stmt.optControls post = []

def Stmt.AllPlainPosts : List Stmt → Prop
  | [] => True
  | s :: ss => Stmt.PlainPosts s ∧ Stmt.AllPlainPosts ss

def Stmt.OptPlainPosts : Option Stmt → Prop
  | none => True
  | some s => Stmt.PlainPosts s

end

mutual

theorem Stmt.length_controls : ∀ s : Stmt, s.controls.length = s.labelCount
  | .expr _ => by rw [Stmt.controls, Stmt.labelCount]; rfl
  | .assign _ _ => by rw [Stmt.controls, Stmt.labelCount]; rfl
  | .ret _ => by rw [Stmt.controls, Stmt.labelCount]; rfl
  | .block body => by rw [Stmt.controls, Stmt.labelCount, Stmt.length_allControls body]
  | .branch init cond body other => by
      rw [Stmt.controls, Stmt.labelCount, List.length_cons, List.length_append, List.length_append,
        Stmt.length_optControls init, Stmt.length_allControls body, Stmt.length_optControls other]
      omega
  | .loop init cond post body => by
      rw [Stmt.controls, Stmt.labelCount, List.length_cons, List.length_append, List.length_append,
        Stmt.length_optControls init, Stmt.length_allControls body, Stmt.length_optControls post]
      omega

/-- As many numbers are taken as there are conditionals and loops. -/
theorem Stmt.length_allControls : ∀ ss : List Stmt,
    (Stmt.allControls ss).length = Stmt.labelCounts ss
  | [] => by rw [Stmt.allControls, Stmt.labelCounts]; rfl
  | s :: ss => by
      rw [Stmt.allControls, Stmt.labelCounts, List.length_append, Stmt.length_controls s,
        Stmt.length_allControls ss]

theorem Stmt.length_optControls : ∀ s : Option Stmt,
    (Stmt.optControls s).length = Stmt.optLabelCount s
  | none => by rw [Stmt.optControls, Stmt.optLabelCount]; rfl
  | some s => by rw [Stmt.optControls, Stmt.optLabelCount, Stmt.length_controls s]

end

mutual

theorem Stmt.done_mem_of_mem_controls {c : Stmt} (n : Nat) :
    ∀ {s : Stmt}, c ∈ s.controls → .done n ∈ c.ownLabels n
  | .expr _, h => by
      rw [Stmt.controls] at h
      exact absurd h List.not_mem_nil
  | .assign _ _, h => by
      rw [Stmt.controls] at h
      exact absurd h List.not_mem_nil
  | .ret _, h => by
      rw [Stmt.controls] at h
      exact absurd h List.not_mem_nil
  | .block body, h => by
      rw [Stmt.controls] at h
      exact Stmt.done_mem_of_mem_allControls n h
  | .branch init cond body other, h => by
      rw [Stmt.controls, List.mem_cons, List.mem_append, List.mem_append] at h
      rcases h with rfl | h | h | h
      · exact List.mem_cons_of_mem _ List.mem_cons_self
      · exact Stmt.done_mem_of_mem_optControls n h
      · exact Stmt.done_mem_of_mem_allControls n h
      · exact Stmt.done_mem_of_mem_optControls n h
  | .loop init cond post body, h => by
      rw [Stmt.controls, List.mem_cons, List.mem_append, List.mem_append] at h
      rcases h with rfl | h | h | h
      · exact List.mem_cons_of_mem _ List.mem_cons_self
      · exact Stmt.done_mem_of_mem_optControls n h
      · exact Stmt.done_mem_of_mem_optControls n h
      · exact Stmt.done_mem_of_mem_allControls n h

/-- Each of the listed statements defines a label for its end. -/
theorem Stmt.done_mem_of_mem_allControls {c : Stmt} (n : Nat) :
    ∀ {ss : List Stmt}, c ∈ Stmt.allControls ss → .done n ∈ c.ownLabels n
  | [], h => by
      rw [Stmt.allControls] at h
      exact absurd h List.not_mem_nil
  | s :: ss, h => by
      rw [Stmt.allControls, List.mem_append] at h
      exact h.elim (Stmt.done_mem_of_mem_controls n) (Stmt.done_mem_of_mem_allControls n)

theorem Stmt.done_mem_of_mem_optControls {c : Stmt} (n : Nat) :
    ∀ {s : Option Stmt}, c ∈ Stmt.optControls s → .done n ∈ c.ownLabels n
  | none, h => by
      rw [Stmt.optControls] at h
      exact absurd h List.not_mem_nil
  | some s, h => by
      rw [Stmt.optControls] at h
      exact Stmt.done_mem_of_mem_controls n h

end

namespace Assembly

/-! ## The code of numbered statements -/

/-- The labels of statements that are numbered from `n` on. -/
def labelsFrom (n : Nat) (cs : List Stmt) : List Label :=
  (cs.zipIdx n).flatMap fun c => c.1.ownLabels c.2

theorem labelsFrom_cons (n : Nat) (c : Stmt) (cs : List Stmt) :
    labelsFrom n (c :: cs) = c.ownLabels n ++ labelsFrom (n + 1) cs := by
  rw [labelsFrom, List.zipIdx_cons, List.flatMap_cons]
  rfl

theorem labelsFrom_append (n : Nat) (cs ds : List Stmt) :
    labelsFrom n (cs ++ ds) = labelsFrom n cs ++ labelsFrom (n + cs.length) ds := by
  rw [labelsFrom, List.zipIdx_append, List.flatMap_append]
  rfl

theorem Stmt.number?_of_mem_ownLabels {c : Stmt} {n : Nat} {l : Label} (h : l ∈ c.ownLabels n) :
    l.number? = some n := by
  cases c with
  | branch init cond body other =>
      rcases List.mem_cons.1 h with rfl | h
      · rfl
      · rw [List.mem_singleton.1 h]
        rfl
  | loop init cond post body =>
      rcases List.mem_cons.1 h with rfl | h
      · rfl
      · rw [List.mem_singleton.1 h]
        rfl
  | expr value => exact absurd h List.not_mem_nil
  | assign target value => exact absurd h List.not_mem_nil
  | ret value => exact absurd h List.not_mem_nil
  | block body => exact absurd h List.not_mem_nil

/-- The numbers are those of the places in the list. -/
theorem exists_number_of_mem_labelsFrom {cs : List Stmt} {n : Nat} {l : Label}
    (h : l ∈ labelsFrom n cs) : ∃ k < cs.length, l.number? = some (n + k) := by
  induction cs generalizing n with
  | nil => exact absurd h List.not_mem_nil
  | cons c cs ih =>
      rw [labelsFrom_cons, List.mem_append] at h
      rcases h with h | h
      · exact ⟨0, Nat.succ_pos _, Stmt.number?_of_mem_ownLabels h⟩
      · obtain ⟨k, hk, hl⟩ := ih h
        exact ⟨k + 1, Nat.succ_lt_succ hk, by rw [hl, Nat.add_assoc, Nat.add_comm 1]⟩

theorem ownLabels_subset_labelsFrom {cs : List Stmt} {n k : Nat} {c : Stmt}
    (h : cs[k]? = some c) : c.ownLabels (n + k) ⊆ labelsFrom n cs := by
  intro l hl
  refine List.mem_flatMap.2 ⟨(c, n + k), ?_, hl⟩
  rw [List.mk_add_mem_zipIdx_iff_getElem?]
  exact h

/-- **How code follows the statements with a number.**  They are numbered from `n` on; `ls` are
their labels, and the code of each is found in `code` and has just its own labels of its own
number. -/
structure Numbers (f : Function) (n : Nat) (cs : List Stmt) (ls : List Label) (code : List Line) :
    Prop where
  perm : ls.Perm (labelsFrom n cs)
  inside : ∀ (k : Nat) (c : Stmt), cs[k]? = some c → c.code f (n + k) <:+: code
  own : ∀ (k : Nat) (c : Stmt), cs[k]? = some c →
    ((labels (c.code f (n + k))).filter fun l => l.number? = some (n + k)).Perm
      (c.ownLabels (n + k))

namespace Numbers

variable {f : Function} {n : Nat} {cs ds es : List Stmt} {ls ms : List Label}
  {code code' : List Line}

theorem nil (f : Function) (n : Nat) (code : List Line) : Numbers f n [] [] code :=
  ⟨.nil, by simp, by simp⟩

theorem mono (h : Numbers f n cs ls code) (hcode : code <:+: code') : Numbers f n cs ls code' :=
  ⟨h.perm, fun k c hc => (h.inside k c hc).trans hcode, h.own⟩

theorem append (h : Numbers f n cs ls code) (h' : Numbers f (n + cs.length) ds ms code) :
    Numbers f n (cs ++ ds) (ls ++ ms) code := by
  have hlater : ∀ k, cs.length ≤ k → n + cs.length + (k - cs.length) = n + k := by
    intro k hk
    omega
  refine ⟨?_, fun k c hc => ?_, fun k c hc => ?_⟩
  · rw [labelsFrom_append]
    exact h.perm.append h'.perm
  · rcases Nat.lt_or_ge k cs.length with hk | hk
    · rw [List.getElem?_append_left hk] at hc
      exact h.inside k c hc
    · rw [List.getElem?_append_right hk] at hc
      rw [← hlater k hk]
      exact h'.inside _ c hc
  · rcases Nat.lt_or_ge k cs.length with hk | hk
    · rw [List.getElem?_append_left hk] at hc
      exact h.own k c hc
    · rw [List.getElem?_append_right hk] at hc
      rw [← hlater k hk]
      exact h'.own _ c hc

/-- Statements inside a numbered one have higher numbers. -/
theorem filter_eq_nil (h : Numbers f (n + 1) cs ls code) :
    (ls.filter fun l => l.number? = some n) = [] := by
  rw [List.filter_eq_nil_iff]
  intro l hl
  obtain ⟨k, -, hk⟩ := exists_number_of_mem_labelsFrom (h.perm.mem_iff.1 hl)
  rw [hk, decide_eq_true_eq, Option.some_inj]
  omega

/-- A statement stands before those inside it. -/
theorem cons {s : Stmt} (h : Numbers f (n + 1) cs ls (s.code f n))
    (hperm : (labels (s.code f n)).Perm (s.ownLabels n ++ ls)) :
    Numbers f n (s :: cs) (labels (s.code f n)) (s.code f n) := by
  have hown : ((labels (s.code f n)).filter fun l => l.number? = some n).Perm (s.ownLabels n) := by
    refine (hperm.filter _).trans ?_
    rw [List.filter_append, h.filter_eq_nil, List.append_nil, List.filter_eq_self.2]
    exact fun l hl => decide_eq_true (Stmt.number?_of_mem_ownLabels hl)
  refine ⟨?_, fun k c hc => ?_, fun k c hc => ?_⟩
  · rw [labelsFrom_cons]
    exact hperm.trans (h.perm.append_left _)
  · cases k with
    | zero =>
        obtain rfl : s = c := Option.some.inj hc
        exact List.infix_refl _
    | succ k =>
        rw [Nat.add_comm k 1, ← Nat.add_assoc]
        exact h.inside k c hc
  · cases k with
    | zero =>
        obtain rfl : s = c := Option.some.inj hc
        exact hown
    | succ k =>
        rw [Nat.add_comm k 1, ← Nat.add_assoc]
        exact h.own k c hc

/-- A statement with three parts inside it that take numbers one after the other. -/
theorem control {s : Stmt} {a b c : List Line} (ha : Numbers f (n + 1) cs (labels a) a)
    (hb : Numbers f (n + 1 + cs.length) ds (labels b) b)
    (hc : Numbers f (n + 1 + cs.length + ds.length) es (labels c) c)
    (hcode : ∃ x y z w, s.code f n = x ++ (a ++ (y ++ (b ++ (z ++ (c ++ w))))) ∧
      (labels x ++ labels y ++ labels z ++ labels w).Perm (s.ownLabels n)) :
    Numbers f n (s :: (cs ++ (ds ++ es))) (labels (s.code f n)) (s.code f n) := by
  obtain ⟨x, y, z, w, hcode, hown⟩ := hcode
  have ha' : Numbers f _ cs (labels a) (s.code f n) := ha.mono
    ⟨x, y ++ (b ++ (z ++ (c ++ w))), by simp [hcode]⟩
  have hb' : Numbers f _ ds (labels b) (s.code f n) := hb.mono
    ⟨x ++ a ++ y, z ++ (c ++ w), by simp [hcode]⟩
  have hc' : Numbers f _ es (labels c) (s.code f n) := hc.mono
    ⟨x ++ a ++ y ++ b ++ z, w, by simp [hcode]⟩
  refine (ha'.append (hb'.append hc')).cons (List.Perm.trans ?_ (hown.append_right _))
  rw [hcode]
  simp only [labels_append]
  grind

end Numbers

mutual

theorem numbers_stmt (f : Function) : ∀ (s : Stmt) (n : Nat), s.PlainPosts →
    Numbers f n s.controls (labels (s.code f n)) (s.code f n)
  | .expr value, n, _ => by
      rw [Stmt.controls, Stmt.code, labels_instrLines]
      exact .nil f n _
  | .assign target value, n, _ => by
      rw [Stmt.controls, Stmt.code, labels_instrLines]
      exact .nil f n _
  | .ret value, n, _ => by
      rw [Stmt.controls, Stmt.code, labels_instrLines]
      exact .nil f n _
  | .block body, n, h => by
      rw [Stmt.PlainPosts] at h
      rw [Stmt.controls, Stmt.code]
      exact numbers_stmts f body n h
  | .branch init cond body other, n, h => by
      rw [Stmt.PlainPosts] at h
      have hinit := numbers_optStmt f init (n + 1) h.1
      have hbody := numbers_stmts f body (n + 1 + (Stmt.optControls init).length) h.2.1
      have hother := numbers_optStmt f other
        (n + 1 + (Stmt.optControls init).length + (Stmt.allControls body).length) h.2.2
      rw [Stmt.controls]
      refine Numbers.control hinit hbody hother ⟨[],
        instrLines (jumpUnlessCode f cond (.otherwise n)),
        [.instr (.jump (.done n)), .label (.otherwise n)], [.label (.done n)], ?_, ?_⟩
      · rw [Stmt.code, Stmt.length_optControls, Stmt.length_allControls, List.nil_append]
      · rw [labels_instrLines]
        exact .refl _
  | .loop init cond post body, n, h => by
      rw [Stmt.PlainPosts] at h
      have hinit := numbers_optStmt f init (n + 1) h.1
      have hbody := numbers_stmts f body (n + 1 + (Stmt.optControls init).length) h.2.1
      have hpost := numbers_optStmt f post
        (n + 1 + (Stmt.optControls init).length + (Stmt.allControls body).length) h.2.2.1
      -- the text has the last part of the head before the body, and the code behind it
      have horder : Stmt.optControls post ++ Stmt.allControls body =
          Stmt.allControls body ++ Stmt.optControls post := by
        rw [h.2.2.2, List.nil_append, List.append_nil]
      rw [Stmt.controls, horder]
      refine Numbers.control hinit hbody hpost ⟨[],
        [.label (.begin n)] ++ instrLines (leaveUnlessCode f cond (.done n)), [],
        [.instr (.jump (.begin n)), .label (.done n)], ?_, ?_⟩
      · rw [Stmt.code, Stmt.length_optControls, Stmt.length_allControls]
        simp
      · rw [labels_append, labels_instrLines]
        exact .refl _

/-- **The code of statements follows the statements with a number.** -/
theorem numbers_stmts (f : Function) : ∀ (ss : List Stmt) (n : Nat), Stmt.AllPlainPosts ss →
    Numbers f n (Stmt.allControls ss) (labels (Stmt.codes f n ss)) (Stmt.codes f n ss)
  | [], n, _ => by
      rw [Stmt.allControls, Stmt.codes]
      exact .nil f n _
  | s :: ss, n, h => by
      rw [Stmt.AllPlainPosts] at h
      have hs := numbers_stmt f s n h.1
      have hss := numbers_stmts f ss (n + s.controls.length) h.2
      rw [Stmt.allControls, Stmt.codes, labels_append, ← Stmt.length_controls]
      exact (hs.mono (List.prefix_append _ _).isInfix).append
        (hss.mono (List.suffix_append _ _).isInfix)

theorem numbers_optStmt (f : Function) : ∀ (s : Option Stmt) (n : Nat), Stmt.OptPlainPosts s →
    Numbers f n (Stmt.optControls s) (labels (Stmt.optCode f n s)) (Stmt.optCode f n s)
  | none, n, _ => by
      rw [Stmt.optControls, Stmt.optCode]
      exact .nil f n _
  | some s, n, h => by
      rw [Stmt.OptPlainPosts] at h
      rw [Stmt.optControls, Stmt.optCode]
      exact numbers_stmt f s n h

end

/-! ## Functions and programs -/

theorem codes_eq_flatMap (n : Nat) (fs : List Function) :
    Program.codes n fs = (Program.sections n fs).flatMap fun part => part.1.code part.2 := by
  induction fs generalizing n with
  | nil => rfl
  | cons f fs ih => rw [Program.codes, Program.sections, List.flatMap_cons, ih]

theorem infix_function (f : Function) (n : Nat) : Stmt.codes f n f.body <:+: f.code n := by
  rw [Function.code, List.append_assoc _ [_, _] _]
  exact List.infix_append _ _ _

/-- The labels of functions are those of the functions themselves and those with numbers. -/
theorem perm_labels_codes {fs : List Function} (h : ∀ f ∈ fs, Stmt.AllPlainPosts f.body) (n : Nat) :
    (labels (Program.codes n fs)).Perm
      (fs.flatMap (fun f => [.entry f.name, .exit f.name]) ++
        labelsFrom n (fs.flatMap fun f => Stmt.allControls f.body)) := by
  induction fs generalizing n with
  | nil => exact .nil
  | cons f fs ih =>
      have hf := (numbers_stmts f f.body n (h f List.mem_cons_self)).perm
      have hfs := ih (fun g hg => h g (List.mem_cons_of_mem f hg)) (n + Stmt.labelCounts f.body)
      rw [Program.codes, labels_append, labels_function, List.flatMap_cons, List.flatMap_cons,
        labelsFrom_append, Stmt.length_allControls]
      grind

/-- The code of each statement with a number is found in that of its function. -/
theorem exists_section {fs : List Function} (h : ∀ f ∈ fs, Stmt.AllPlainPosts f.body) {n k : Nat}
    {c : Stmt} (hc : (fs.flatMap fun f => Stmt.allControls f.body)[k]? = some c) :
    ∃ part ∈ Program.sections n fs, c.code part.1 (n + k) <:+: part.1.code part.2 ∧
      ((labels (c.code part.1 (n + k))).filter fun l => l.number? = some (n + k)).Perm
        (c.ownLabels (n + k)) := by
  induction fs generalizing n k with
  | nil => exact absurd hc (by simp)
  | cons f fs ih =>
      rw [List.flatMap_cons] at hc
      rcases Nat.lt_or_ge k (Stmt.allControls f.body).length with hk | hk
      · rw [List.getElem?_append_left hk] at hc
        have hf := numbers_stmts f f.body n (h f List.mem_cons_self)
        exact ⟨(f, n), List.mem_cons_self, (hf.inside k c hc).trans (infix_function f n),
          hf.own k c hc⟩
      · rw [List.getElem?_append_right hk] at hc
        obtain ⟨part, hpart, hcode⟩ := ih (fun g hg => h g (List.mem_cons_of_mem f hg)) hc
          (n := n + Stmt.labelCounts f.body)
        have hnumber : n + Stmt.labelCounts f.body + (k - (Stmt.allControls f.body).length) =
            n + k := by
          rw [← Stmt.length_allControls]
          omega
        rw [hnumber] at hcode
        exact ⟨part, List.mem_cons_of_mem _ hpart, hcode⟩

theorem straight_setup (f : Function) : Straight f.setup := by
  rw [Function.setup]
  refine (Straight.append (Straight.append ?_ ?_) ?_).append ?_
  · simp [Straight, savedRegs, Instr.target?]
  · simp [Straight, Instr.target?]
  · by_cases hsize : 0 < f.frameSize
    · simp [hsize, Straight, Instr.target?]
    · simp [hsize, Straight]
  · intro i hi
    obtain ⟨slot, -, rfl⟩ := List.mem_map.1 hi
    rfl

theorem straight_teardown : Straight Function.teardown := by
  simp [Straight, Function.teardown, savedRegs, Instr.target?]

/-- **Every jump of a function stays inside it.** -/
theorem leadTo_function (f : Function) (n : Nat) : LeadTo (labels (f.code n)) (f.code n) := by
  have hbody : LeadTo (labels (f.code n)) (Stmt.codes f n f.body) := by
    refine (leadTo_stmts f f.body n).mono ?_
    rw [labels_function]
    intro l hl
    rcases List.mem_cons.1 hl with rfl | hl
    · exact List.mem_cons_of_mem _ (List.mem_append_right _ (List.mem_singleton_self _))
    · exact List.mem_cons_of_mem _ (List.mem_append_left _ hl)
  have hstart : LeadTo (labels (f.code n)) [.global f.name, .label (.entry f.name)] :=
    fun i hi => absurd hi (by simp)
  have hzero : Straight [.moveWord 0 .rax] := by simp [Straight, Instr.target?]
  have hend : LeadTo (labels (f.code n)) [.instr (.moveWord 0 .rax), .label (.exit f.name)] :=
    LeadTo.append (.of_straight hzero) (leadTo_label _ _)
  rw [Function.code]
  exact (((hstart.append (.of_straight (straight_setup f))).append hbody).append hend).append
    (.of_straight straight_teardown)

/-! ## Names -/

/-- The characters of a name: a word that says what the label is for, and then the function or the
number. -/
def Label.chars : Label → List Char
  | .entry function => function.toList
  | .exit function => ['.', 'L', '.', 'r', 'e', 't', 'u', 'r', 'n', '.'] ++ function.toList
  | .begin id => ['.', 'L', '.', 'b', 'e', 'g', 'i', 'n', '.'] ++ Nat.toDigits 10 id
  | .otherwise id => ['.', 'L', '.', 'e', 'l', 's', 'e', '.'] ++ Nat.toDigits 10 id
  | .done id => ['.', 'L', '.', 'e', 'n', 'd', '.'] ++ Nat.toDigits 10 id

theorem Label.toList_name (l : Label) : l.name.toList = l.chars := by
  cases l <;> simp [Label.name, Label.chars, toString, Nat.repr_eq_ofList_toDigits]

theorem toDigits_inj {m n : Nat} (h : Nat.toDigits 10 m = Nat.toDigits 10 n) : m = n := by
  have hread := congrArg (fun digits => Nat.ofDigitChars 10 digits 0) h
  rwa [Nat.ofDigitChars_ten_toDigits, Nat.ofDigitChars_ten_toDigits] at hread

/-- If the label is the start of a function, then its name has no dot. -/
def Label.Dotless : Label → Prop
  | .entry function => '.' ∉ function.toList
  | _ => True

theorem Label.Dotless.ne_cons {f : String} (h : (Label.entry f).Dotless) (cs : List Char) :
    f.toList ≠ '.' :: cs :=
  fun heq => h (heq ▸ List.mem_cons_self)

/-- **Different labels have different names.**  A dot tells the labels inside functions from the
functions, the word behind it tells what they are for, and numbers have different decimals. -/
theorem Label.name_inj {a b : Label} (ha : a.Dotless) (hb : b.Dotless) (h : a.name = b.name) :
    a = b := by
  rw [← String.toList_inj, Label.toList_name, Label.toList_name] at h
  cases a with
  | entry f =>
      cases b with
      | entry g => rw [String.toList_inj.1 h]
      | exit _ | begin _ | otherwise _ | done _ =>
          exact absurd h (ha.ne_cons _)
  | exit f =>
      cases b with
      | entry g => exact absurd h.symm (hb.ne_cons _)
      | exit g => rw [String.toList_inj.1 (List.append_cancel_left h)]
      | begin _ | otherwise _ | done _ => simp [Label.chars] at h
  | begin m =>
      cases b with
      | entry g => exact absurd h.symm (hb.ne_cons _)
      | begin n => rw [toDigits_inj (List.append_cancel_left h)]
      | exit _ | otherwise _ | done _ => simp [Label.chars] at h
  | otherwise m =>
      cases b with
      | entry g => exact absurd h.symm (hb.ne_cons _)
      | otherwise n => rw [toDigits_inj (List.append_cancel_left h)]
      | exit _ | begin _ | done _ => simp [Label.chars] at h
  | done m =>
      cases b with
      | entry g => exact absurd h.symm (hb.ne_cons _)
      | done n => rw [toDigits_inj (List.append_cancel_left h)]
      | exit _ | begin _ | otherwise _ => simp [Label.chars] at h

end Assembly
end MicroGo
