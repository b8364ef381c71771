import Mathlib.Data.List.Nodup
import MicroGo.Proofs.Assembly.Listing

/-!
# The labels of a listing

A jump names a label, and the machine goes to the line that defines it.  For that to be one line,
the labels of a program have to be pairwise different.  They are, for two reasons that have nothing
to do with each other: each conditional and each loop takes a number that nothing else takes, and
each function has a name of its own.

* `Numbered lo hi ls` says that `ls` are different labels with numbers from `lo` up to `hi`; it is
  what the code of statements satisfies (`numbered_stmt`).
* `nodup_labels_code`: the labels of a program whose functions have different names are different.
* `resolve_of_nodup`: a label then resolves to the line that defines it.
-/

namespace MicroGo
namespace Assembly

/-! ## Labels and where they are -/

/-- The label that a line defines. -/
def Line.label? : Line → Option Label
  | .label l => some l
  | _ => none

/-- The labels that lines define, in order. -/
def labels (code : List Line) : List Label :=
  code.filterMap Line.label?

/-- The line that defines a label. -/
def resolve (code : List Line) (l : Label) : Option Nat :=
  code.findIdx? fun line => line.label? = some l

@[simp] theorem labels_append (a b : List Line) : labels (a ++ b) = labels a ++ labels b :=
  List.filterMap_append

@[simp] theorem labels_nil : labels [] = [] := rfl

@[simp] theorem labels_cons_label (l : Label) (code : List Line) :
    labels (.label l :: code) = l :: labels code := rfl

@[simp] theorem labels_cons_instr (i : Instr) (code : List Line) :
    labels (.instr i :: code) = labels code := rfl

@[simp] theorem labels_cons_global (name : String) (code : List Line) :
    labels (.global name :: code) = labels code := rfl

/-- Instructions define no labels. -/
@[simp] theorem labels_instrLines (is : List Instr) : labels (instrLines is) = [] := by
  induction is with
  | nil => rfl
  | cons i is ih => rw [instrLines, List.map_cons, labels_cons_instr, ih]

theorem mem_labels {code : List Line} {l : Label} : l ∈ labels code ↔ .label l ∈ code := by
  unfold labels
  rw [List.mem_filterMap]
  constructor
  · rintro ⟨line, hmem, hline⟩
    cases line with
    | label l' =>
      rw [Line.label?, Option.some_inj] at hline
      rwa [← hline]
    | operandStyle => exact absurd hline (by simp [Line.label?])
    | codeSection => exact absurd hline (by simp [Line.label?])
    | global name => exact absurd hline (by simp [Line.label?])
    | instr i => exact absurd hline (by simp [Line.label?])
  · exact fun h => ⟨_, h, rfl⟩

/-- **Different labels resolve to the lines that define them.** -/
theorem resolve_of_nodup {pre post : List Line} {l : Label}
    (h : (labels (pre ++ .label l :: post)).Nodup) :
    resolve (pre ++ .label l :: post) l = some pre.length := by
  rw [labels_append, labels_cons_label, List.nodup_append] at h
  have hpre : ∀ line ∈ pre, ¬ line.label? = some l := by
    intro line hmem hline
    have hl : l ∈ labels pre := List.mem_filterMap.mpr ⟨line, hmem, hline⟩
    exact h.2.2 l hl l (List.mem_cons_self ..) rfl
  have hnone : List.findIdx? (fun line : Line => decide (line.label? = some l)) pre = none := by
    rw [List.findIdx?_eq_none_iff]
    exact fun line hmem => decide_eq_false (hpre line hmem)
  rw [resolve, List.findIdx?_append, hnone, List.findIdx?_cons]
  simp [Line.label?]

/-- A label resolves to a line that defines it. -/
theorem getElem?_of_resolve {code : List Line} {l : Label} {i : Nat}
    (h : resolve code l = some i) : code[i]? = some (.label l) := by
  obtain ⟨hi, hline, -⟩ := List.findIdx?_eq_some_iff_getElem.mp h
  rw [List.getElem?_eq_getElem hi]
  have hlab : code[i].label? = some l := of_decide_eq_true hline
  cases hcode : code[i] with
  | label l' =>
    rw [hcode, Line.label?, Option.some_inj] at hlab
    rw [hlab]
  | operandStyle => rw [hcode] at hlab; exact absurd hlab (by simp [Line.label?])
  | codeSection => rw [hcode] at hlab; exact absurd hlab (by simp [Line.label?])
  | global name => rw [hcode] at hlab; exact absurd hlab (by simp [Line.label?])
  | instr i => rw [hcode] at hlab; exact absurd hlab (by simp [Line.label?])

/-! ## Numbered labels -/

/-- The number of a label; the labels of a function itself have none. -/
def Label.number? : Label → Option Nat
  | .entry _ => none
  | .exit _ => none
  | .begin id => some id
  | .otherwise id => some id
  | .done id => some id

/-- Different labels whose numbers lie from `lo` up to and without `hi`. -/
structure Numbered (lo hi : Nat) (ls : List Label) : Prop where
  nodup : ls.Nodup
  number : ∀ l ∈ ls, ∃ id, l.number? = some id ∧ lo ≤ id ∧ id < hi

namespace Numbered

variable {lo mid hi : Nat} {a b : List Label}

theorem nil (lo hi : Nat) : Numbered lo hi [] :=
  ⟨List.nodup_nil, fun _ h => absurd h (by simp)⟩

/-- Labels with numbers below and above a bound are different. -/
theorem append (ha : Numbered lo mid a) (hb : Numbered mid hi b) (hlo : lo ≤ mid) (hhi : mid ≤ hi) :
    Numbered lo hi (a ++ b) := by
  refine ⟨List.nodup_append.mpr ⟨ha.nodup, hb.nodup, fun x hx y hy hxy => ?_⟩, fun l hl => ?_⟩
  · obtain ⟨id, hid, -, hlt⟩ := ha.number x hx
    obtain ⟨id', hid', hge, -⟩ := hb.number y hy
    rw [hxy, hid', Option.some_inj] at hid
    omega
  · rcases List.mem_append.mp hl with h | h
    · obtain ⟨id, hid, hge, hlt⟩ := ha.number l h
      exact ⟨id, hid, hge, by omega⟩
    · obtain ⟨id, hid, hge, hlt⟩ := hb.number l h
      exact ⟨id, hid, by omega, hlt⟩

/-- Two labels with a number of their own, anywhere among labels with higher numbers. -/
theorem insert {x y : Label} {ls : List Label} (ha : Numbered (lo + 1) hi a) (hhi : lo < hi)
    (hx : x.number? = some lo) (hy : y.number? = some lo) (hxy : x ≠ y)
    (hperm : ls.Perm (x :: y :: a)) : Numbered lo hi ls := by
  have hnew : ∀ z : Label, z.number? = some lo → z ∉ a := by
    intro z hz hmem
    obtain ⟨id, hid, hge, -⟩ := ha.number z hmem
    rw [hz, Option.some_inj] at hid
    omega
  refine ⟨hperm.nodup_iff.mpr (List.nodup_cons.mpr ⟨?_, List.nodup_cons.mpr
    ⟨hnew y hy, ha.nodup⟩⟩), fun l hl => ?_⟩
  · rw [List.mem_cons, not_or]
    exact ⟨hxy, hnew x hx⟩
  · rcases List.mem_cons.mp (hperm.mem_iff.mp hl) with rfl | hl
    · exact ⟨lo, hx, Nat.le_refl lo, hhi⟩
    · rcases List.mem_cons.mp hl with rfl | hl
      · exact ⟨lo, hy, Nat.le_refl lo, hhi⟩
      · obtain ⟨id, hid, hge, hlt⟩ := ha.number l hl
        exact ⟨id, hid, by omega, hlt⟩

end Numbered

@[simp] theorem labels_leaveUnless (f : Function) (cond : Option Expr) (target : Label) :
    labels (instrLines (leaveUnlessCode f cond target)) = [] :=
  labels_instrLines _

mutual

/-- The labels of a statement's code have exactly the numbers that the statement takes. -/
theorem numbered_stmt (f : Function) : ∀ (s : Stmt) (n : Nat),
    Numbered n (n + s.labelCount) (labels (s.code f n))
  | .expr value, n => by
    rw [Stmt.code, labels_instrLines]
    exact .nil _ _
  | .assign target value, n => by
    rw [Stmt.code, labels_instrLines]
    exact .nil _ _
  | .ret value, n => by
    rw [Stmt.code, labels_instrLines]
    exact .nil _ _
  | .block body, n => by
    rw [Stmt.code, Stmt.labelCount]
    exact numbered_stmts f body n
  | .branch init cond body other, n => by
    have hinit := numbered_optStmt f init (n + 1)
    have hbody := numbered_stmts f body (n + 1 + Stmt.optLabelCount init)
    have hother := numbered_optStmt f other
      (n + 1 + Stmt.optLabelCount init + Stmt.labelCounts body)
    have hinner := (hinit.append hbody (by omega) (by omega)).append hother (by omega) (by omega)
    rw [Stmt.code, Stmt.labelCount, ← Nat.add_assoc, ← Nat.add_assoc, ← Nat.add_assoc]
    refine hinner.insert (x := .otherwise n) (y := .done n) (by omega) rfl rfl (by simp) ?_
    simp only [labels_append, labels_instrLines, labels_cons_instr, labels_cons_label, labels_nil,
      List.nil_append, List.cons_append]
    grind
  | .loop init cond post body, n => by
    have hinit := numbered_optStmt f init (n + 1)
    have hbody := numbered_stmts f body (n + 1 + Stmt.optLabelCount init)
    have hpost := numbered_optStmt f post
      (n + 1 + Stmt.optLabelCount init + Stmt.labelCounts body)
    have hinner := (hinit.append hbody (by omega) (by omega)).append hpost (by omega) (by omega)
    rw [Stmt.code, Stmt.labelCount, ← Nat.add_assoc, ← Nat.add_assoc, ← Nat.add_assoc]
    refine hinner.insert (x := .begin n) (y := .done n) (by omega) rfl rfl (by simp) ?_
    simp only [labels_append, labels_instrLines, labels_cons_instr, labels_cons_label, labels_nil,
      List.nil_append, List.cons_append]
    grind

theorem numbered_stmts (f : Function) : ∀ (ss : List Stmt) (n : Nat),
    Numbered n (n + Stmt.labelCounts ss) (labels (Stmt.codes f n ss))
  | [], n => .nil _ _
  | s :: ss, n => by
    rw [Stmt.codes, Stmt.labelCounts, labels_append, ← Nat.add_assoc]
    exact (numbered_stmt f s n).append (numbered_stmts f ss (n + s.labelCount)) (by omega)
      (by omega)

theorem numbered_optStmt (f : Function) : ∀ (s : Option Stmt) (n : Nat),
    Numbered n (n + Stmt.optLabelCount s) (labels (Stmt.optCode f n s))
  | none, n => .nil _ _
  | some s, n => by
    rw [Stmt.optCode, Stmt.optLabelCount]
    exact numbered_stmt f s n

end

/-! ## The labels of a program -/

/-- The labels of a function, besides those of its statements. -/
theorem labels_function (f : Function) (n : Nat) :
    labels (f.code n) = .entry f.name :: (labels (Stmt.codes f n f.body) ++ [.exit f.name]) := by
  simp [Function.code]

/-- Where a label of functions comes from: a statement, or one of the functions itself. -/
theorem mem_labels_codes {l : Label} : ∀ {fs : List Function} {n : Nat},
    l ∈ labels (Program.codes n fs) →
      (∃ id, l.number? = some id ∧ n ≤ id) ∨ ∃ f ∈ fs, l = .entry f.name ∨ l = .exit f.name
  | [], n, h => absurd h (by simp [Program.codes])
  | f :: fs, n, h => by
    rw [Program.codes, labels_append, List.mem_append, labels_function, List.mem_cons,
      List.mem_append, List.mem_singleton] at h
    rcases h with (h | h | h) | h
    · exact .inr ⟨f, List.mem_cons_self .., .inl h⟩
    · obtain ⟨id, hid, hge, -⟩ := (numbered_stmts f f.body n).number l h
      exact .inl ⟨id, hid, hge⟩
    · exact .inr ⟨f, List.mem_cons_self .., .inr h⟩
    · rcases mem_labels_codes h with ⟨id, hid, hge⟩ | ⟨g, hg, hl⟩
      · exact .inl ⟨id, hid, by omega⟩
      · exact .inr ⟨g, List.mem_cons_of_mem f hg, hl⟩

/-- The labels of one function are different. -/
theorem nodup_labels_function (f : Function) (n : Nat) : (labels (f.code n)).Nodup := by
  have hbody := numbered_stmts f f.body n
  have hnone : ∀ l : Label, l.number? = none → l ∉ labels (Stmt.codes f n f.body) := by
    intro l hl hmem
    obtain ⟨id, hid, -⟩ := hbody.number l hmem
    rw [hl] at hid
    exact absurd hid (by simp)
  rw [labels_function, List.nodup_cons, List.mem_append, List.mem_singleton, not_or]
  refine ⟨⟨hnone _ rfl, by simp⟩, List.nodup_append.mpr ⟨hbody.nodup, List.nodup_singleton _, ?_⟩⟩
  intro x hx y hy hxy
  rw [List.mem_singleton.mp hy] at hxy
  exact hnone _ rfl (hxy ▸ hx)

theorem nodup_labels_codes : ∀ {fs : List Function} (n : Nat),
    (fs.map Function.name).Nodup → (labels (Program.codes n fs)).Nodup
  | [], _, _ => List.nodup_nil
  | f :: fs, n, h => by
    rw [List.map_cons, List.nodup_cons] at h
    rw [Program.codes, labels_append, List.nodup_append]
    refine ⟨nodup_labels_function f n, nodup_labels_codes _ h.2, fun x hx y hy hxy => ?_⟩
    subst hxy
    have hname : ∀ g ∈ fs, g.name ≠ f.name := fun g hg heq =>
      h.1 (heq ▸ List.mem_map_of_mem hg)
    rw [labels_function, List.mem_cons, List.mem_append, List.mem_singleton] at hx
    -- a number was taken by one side only, and a name belongs to one function only
    rcases mem_labels_codes hy with ⟨id, hid, hge⟩ | ⟨g, hg, hl⟩
    · rcases hx with rfl | hx | rfl
      · exact absurd hid (by simp [Label.number?])
      · obtain ⟨id', hid', -, hlt⟩ := (numbered_stmts f f.body n).number x hx
        rw [hid, Option.some_inj] at hid'
        omega
      · exact absurd hid (by simp [Label.number?])
    · have hnum : x.number? = none := by rcases hl with rfl | rfl <;> rfl
      rcases hx with rfl | hx | rfl
      · rcases hl with hl | hl
        · exact hname g hg (by injection hl with hl; exact hl.symm)
        · exact absurd hl (by simp)
      · obtain ⟨id, hid, -⟩ := (numbered_stmts f f.body n).number x hx
        rw [hnum] at hid
        exact absurd hid (by simp)
      · rcases hl with hl | hl
        · exact absurd hl (by simp)
        · exact hname g hg (by injection hl with hl; exact hl.symm)

/-- **The labels of a program are different**, if its functions have different names. -/
theorem nodup_labels_code {p : Program} (h : (p.functions.map Function.name).Nodup) :
    (labels p.code).Nodup :=
  nodup_labels_codes 0 h

/-- The code of each function stands in one piece in the code of a program. -/
theorem exists_code_split {p : Program} {f : Function} (hf : f ∈ p.functions) :
    ∃ pre n post, p.code = pre ++ f.code n ++ post := by
  have hcodes : ∀ (fs : List Function) (n : Nat), f ∈ fs →
      ∃ pre n' post, Program.codes n fs = pre ++ f.code n' ++ post := by
    intro fs
    induction fs with
    | nil => exact fun n h => absurd h (by simp)
    | cons g fs ih =>
      intro n h
      rcases List.mem_cons.mp h with rfl | h
      · exact ⟨[], n, Program.codes (n + Stmt.labelCounts f.body) fs, rfl⟩
      · obtain ⟨pre, n', post, heq⟩ := ih (n + Stmt.labelCounts g.body) h
        exact ⟨g.code n ++ pre, n', post, by simp [Program.codes, heq]⟩
  obtain ⟨pre, n, post, heq⟩ := hcodes p.functions 0 hf
  exact ⟨[.operandStyle, .codeSection] ++ pre, n, post, by simp [Program.code, heq]⟩

end Assembly
end MicroGo
