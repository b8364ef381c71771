import MicroGo.Proofs.Scope.Denotation

/-!
# The calls of a text

The tokens of a text are numbered.  A call stands between the token that names the function and its
closing parenthesis, and the calls of an expression are listed in the order of these parentheses: a
call comes behind the calls in its arguments.  A call is told from all others by where it stands, so
that two calls of one function with the same arguments are two calls.

This is also the order of their code, with one exception.  A greater-than is read as the less-than
with its operands exchanged, so the code of its right operand comes first.  `emitted` lists the
calls in the order of their code; `Arranged` says how the two orders are related, by the signs that
a call stands in front of or behind.

## Occurrences

An expression may occur at several points of a text, so an occurrence is an expression together with
the number of its first token and the marks in front of it.  The *roots* of a statement are the
occurrences that are part of no other expression.  They are listed in the order of their code, which
is that of the text but for a loop: its last clause comes behind its body.  `Program.expressions`
lists all occurrences, also those within others: in parentheses and as arguments.
-/

namespace MicroGo
namespace Grammar

/-- A call in a text: the function that is called, the arguments behind the opening parenthesis, the
number of the token that names the function, and the marks in front of it. -/
structure Call where
  callee : String
  args : Args
  name : Nat
  past : List Mark

/-- The number of the closing parenthesis. -/
def Call.close (c : Call) : Nat :=
  c.name + 1 + c.args.lexemes.length

/-- A sign whose operands are exchanged: the number of the first token of the left operand, the
number of the sign, and the number of the first token behind the right operand. -/
structure Exchange where
  start : Nat
  sign : Nat
  stop : Nat
deriving DecidableEq

/-- The first call stands in the left operand of the sign, and the second one in the right one. -/
def Exchange.Parts (x : Exchange) (c d : Call) : Prop :=
  (x.start ≤ c.close ∧ c.close < x.sign) ∧ x.sign < d.close ∧ d.close < x.stop

instance (x : Exchange) (c d : Call) : Decidable (x.Parts c d) :=
  inferInstanceAs (Decidable ((_ ∧ _) ∧ _ ∧ _))

/-- The signs that are read with their operands exchanged. -/
def Operator.exchanges {level : Nat} (op : Operator level) : Bool :=
  op.text = ">" || op.text = ">="

/-! ## Calls -/

mutual

/-- The calls of an operand from the token with the number `i` on and behind the marks `past`, in
the order of their closing parentheses. -/
def Operand.calls : {level : Nat} → Operand level → (i : Nat) → (past : List Mark) → List Call
  | _, .unary signs operand, i, past => operand.calls (i + signs.length) past
  | _, .chain first rest, i, past =>
      first.calls i past ++ rest.calls (i + first.lexemes.length) (past ++ first.marks)

def Links.calls : {level : Nat} → Links level → (i : Nat) → (past : List Mark) → List Call
  | _, .nil, _, _ => []
  | _, .cons _ operand rest, i, past =>
      operand.calls (i + 1) past ++
        rest.calls (i + 1 + operand.lexemes.length) (past ++ operand.marks)

def Primary.calls : Primary → (i : Nat) → (past : List Mark) → List Call
  | .num _, _, _ => []
  | .name _, _, _ => []
  | .call callee args, i, past => args.calls (i + 2) past ++ [⟨callee, args, i, past⟩]
  | .paren inner, i, past => inner.calls (i + 1) past

def Args.calls : Args → (i : Nat) → (past : List Mark) → List Call
  | .close, _, _ => []
  | .last arg, i, past => arg.calls i past
  | .next arg rest, i, past =>
      arg.calls i past ++ rest.calls (i + arg.lexemes.length + 1) (past ++ arg.marks)

end

mutual

/-- The calls of an operand in the order of their code. -/
def Operand.emitted : {level : Nat} → Operand level → (i : Nat) → (past : List Mark) → List Call
  | _, .unary signs operand, i, past => operand.emitted (i + signs.length) past
  | _, .chain first rest, i, past =>
      rest.emitted (i + first.lexemes.length) (past ++ first.marks) (first.emitted i past)

/-- The calls of a chain in the order of their code, if `left` are those of the part of it that
comes before. -/
def Links.emitted : {level : Nat} → Links level → (i : Nat) → (past : List Mark) →
    (left : List Call) → List Call
  | _, .nil, _, _, left => left
  | _, .cons op operand rest, i, past, left =>
      rest.emitted (i + 1 + operand.lexemes.length) (past ++ operand.marks)
        (if op.exchanges then operand.emitted (i + 1) past ++ left
          else left ++ operand.emitted (i + 1) past)

def Primary.emitted : Primary → (i : Nat) → (past : List Mark) → List Call
  | .num _, _, _ => []
  | .name _, _, _ => []
  | .call callee args, i, past => args.emitted (i + 2) past ++ [⟨callee, args, i, past⟩]
  | .paren inner, i, past => inner.emitted (i + 1) past

def Args.emitted : Args → (i : Nat) → (past : List Mark) → List Call
  | .close, _, _ => []
  | .last arg, i, past => arg.emitted i past
  | .next arg rest, i, past =>
      arg.emitted i past ++ rest.emitted (i + arg.lexemes.length + 1) (past ++ arg.marks)

end

mutual

/-- The signs of an operand whose operands are exchanged. -/
def Operand.exchanges : {level : Nat} → Operand level → (i : Nat) → List Exchange
  | _, .unary signs operand, i => operand.exchanges (i + signs.length)
  | _, .chain first rest, i => first.exchanges i ++ rest.exchanges i (i + first.lexemes.length)

/-- The signs of a chain that begins at the token with the number `start`, from its token with the
number `i` on. -/
def Links.exchanges : {level : Nat} → Links level → (start i : Nat) → List Exchange
  | _, .nil, _, _ => []
  | _, .cons op operand rest, start, i =>
      (if op.exchanges then [⟨start, i, i + 1 + operand.lexemes.length⟩] else []) ++
        operand.exchanges (i + 1) ++ rest.exchanges start (i + 1 + operand.lexemes.length)

def Primary.exchanges : Primary → (i : Nat) → List Exchange
  | .num _, _ => []
  | .name _, _ => []
  | .call _ args, i => args.exchanges (i + 2)
  | .paren inner, i => inner.exchanges (i + 1)

def Args.exchanges : Args → (i : Nat) → List Exchange
  | .close, _ => []
  | .last arg, i => arg.exchanges i
  | .next arg rest, i => arg.exchanges i ++ rest.exchanges (i + arg.lexemes.length + 1)

end

/-! ## The two orders -/

/-- **The code of the first call comes before that of the second one.**  It stands in front of it in
the text, and no sign exchanges them; or a sign exchanges them. -/
def InOrder (exchanges : List Exchange) (c d : Call) : Prop :=
  c.close < d.close ∧ (∀ x ∈ exchanges, ¬x.Parts c d) ∨ ∃ x ∈ exchanges, x.Parts d c

/-- Signs that do not part the calls do not matter. -/
theorem InOrder.of_subset {exchanges exchanges' : List Exchange} {c d : Call}
    (h : InOrder exchanges c d) (hsub : ∀ x ∈ exchanges, x ∈ exchanges')
    (hnew : ∀ x ∈ exchanges', x ∈ exchanges ∨ ¬x.Parts c d) : InOrder exchanges' c d := by
  rcases h with ⟨hlt, hnone⟩ | ⟨x, hx, hparts⟩
  · exact .inl ⟨hlt, fun x hx => (hnew x hx).elim (hnone x) id⟩
  · exact .inr ⟨x, hsub x hx, hparts⟩

/-- **How the order of the code is related to that of the text**, for the tokens from the number `i`
up to the number `j`.  The calls are ordered by their closing parentheses, and the code has the same
calls in the order that the exchanges make of this. -/
structure Arranged (i j : Nat) (calls emitted : List Call) (exchanges : List Exchange) : Prop where
  le : i ≤ j
  inside : ∀ c ∈ calls, i ≤ c.close ∧ c.close < j
  ordered : calls.Pairwise fun c d => c.close < d.close
  signs : ∀ x ∈ exchanges, i ≤ x.start ∧ x.stop ≤ j
  perm : emitted.Perm calls
  order : emitted.Pairwise (InOrder exchanges)

namespace Arranged

variable {i j k m n : Nat} {cs ds es fs : List Call} {xs ys zs : List Exchange}

theorem nil (h : i ≤ j) : Arranged i j [] [] [] where
  le := h
  inside := List.forall_mem_nil _
  ordered := .nil
  signs := List.forall_mem_nil _
  perm := .refl _
  order := .nil

theorem single (c : Call) : Arranged c.close (c.close + 1) [c] [c] [] where
  le := Nat.le_succ _
  inside d hd := by
    rw [List.mem_singleton.1 hd]
    omega
  ordered := List.pairwise_singleton _ _
  signs := List.forall_mem_nil _
  perm := .refl _
  order := List.pairwise_singleton _ _

theorem widen (h : Arranged i j cs es xs) (hi : m ≤ i) (hj : j ≤ n) : Arranged m n cs es xs where
  le := Nat.le_trans hi (Nat.le_trans h.le hj)
  inside c hc := by
    have := h.inside c hc
    omega
  ordered := h.ordered
  signs x hx := by
    have := h.signs x hx
    omega
  perm := h.perm
  order := h.order

theorem inside_emitted (h : Arranged i j cs es xs) : ∀ c ∈ es, i ≤ c.close ∧ c.close < j :=
  fun c hc => h.inside c (h.perm.subset hc)

/-- The order stays the same with signs around that do not stand between two of the calls. -/
theorem order_within (h : Arranged i j cs es xs) (hsub : ∀ x ∈ xs, x ∈ zs)
    (hnew : ∀ x ∈ zs, x ∈ xs ∨ j ≤ x.start ∨ x.stop ≤ i ∨ j ≤ x.sign ∨ x.sign ≤ i) :
    es.Pairwise (InOrder zs) := by
  refine h.order.imp_of_mem fun hc hd horder => horder.of_subset hsub fun x hx => ?_
  refine (hnew x hx).imp_right fun haway hparts => ?_
  have hc := h.inside_emitted _ hc
  have hd := h.inside_emitted _ hd
  unfold Exchange.Parts at hparts
  omega

/-- The calls of two parts that stand one behind the other. -/
theorem inside_append (h : Arranged i j cs es xs) (h' : Arranged k m ds fs ys) (hjk : j ≤ k) :
    (∀ c ∈ cs ++ ds, i ≤ c.close ∧ c.close < m) ∧
      (cs ++ ds).Pairwise fun c d => c.close < d.close := by
  have hle := h.le
  have hle' := h'.le
  refine ⟨fun c hc => ?_, List.pairwise_append.2 ⟨h.ordered, h'.ordered, fun c hc d hd => ?_⟩⟩
  · rcases List.mem_append.1 hc with hc | hc
    · have := h.inside c hc
      omega
    · have := h'.inside c hc
      omega
  · have := h.inside c hc
    have := h'.inside d hd
    omega

theorem signs_append (h : Arranged i j cs es xs) (h' : Arranged k m ds fs ys) (hjk : j ≤ k) :
    ∀ x ∈ xs ++ ys, i ≤ x.start ∧ x.stop ≤ m := by
  have hle := h.le
  have hle' := h'.le
  intro x hx
  rcases List.mem_append.1 hx with hx | hx
  · have := h.signs x hx
    omega
  · have := h'.signs x hx
    omega

/-- Two parts that stand one behind the other, and whose code does so too. -/
theorem append (h : Arranged i j cs es xs) (h' : Arranged k m ds fs ys) (hjk : j ≤ k) :
    Arranged i m (cs ++ ds) (es ++ fs) (xs ++ ys) where
  le := Nat.le_trans h.le (Nat.le_trans hjk h'.le)
  inside := (h.inside_append h' hjk).1
  ordered := (h.inside_append h' hjk).2
  signs := h.signs_append h' hjk
  perm := h.perm.append h'.perm
  order := by
    refine List.pairwise_append.2 ⟨?_, ?_, fun c hc d hd => .inl ?_⟩
    · refine h.order_within (fun x hx => List.mem_append_left _ hx) fun x hx => ?_
      rcases List.mem_append.1 hx with hx | hx
      · exact .inl hx
      · have := h'.signs x hx
        omega
    · refine h'.order_within (fun x hx => List.mem_append_right _ hx) fun x hx => ?_
      rcases List.mem_append.1 hx with hx | hx
      · have := h.signs x hx
        omega
      · exact .inl hx
    · have hc := h.inside_emitted c hc
      have hd := h'.inside_emitted d hd
      refine ⟨by omega, fun x hx hparts => ?_⟩
      unfold Exchange.Parts at hparts
      rcases List.mem_append.1 hx with hx | hx
      · have := h.signs x hx
        omega
      · have := h'.signs x hx
        omega

/-- Two parts with a sign between them that exchanges their code. -/
theorem exchange (h : Arranged i j cs es xs) (h' : Arranged (j + 1) m ds fs ys) :
    Arranged i m (cs ++ ds) (fs ++ es) (xs ++ (⟨i, j, m⟩ :: ys)) where
  le := Nat.le_trans h.le (Nat.le_trans j.le_succ h'.le)
  inside := (h.inside_append h' j.le_succ).1
  ordered := (h.inside_append h' j.le_succ).2
  signs x hx := by
    rw [List.mem_append, List.mem_cons, or_left_comm] at hx
    rcases hx with rfl | hx
    · exact ⟨Nat.le_refl i, Nat.le_refl m⟩
    · exact h.signs_append h' j.le_succ x (List.mem_append.2 hx)
  perm := List.perm_append_comm.trans (h.perm.append h'.perm)
  order := by
    refine List.pairwise_append.2 ⟨?_, ?_, fun c hc d hd => .inr ?_⟩
    · refine h'.order_within (fun x hx => List.mem_append_right _ (.tail _ hx)) fun x hx => ?_
      rw [List.mem_append, List.mem_cons] at hx
      rcases hx with hx | rfl | hx
      · have := h.signs x hx
        omega
      · dsimp only
        omega
      · exact .inl hx
    · refine h.order_within (fun x hx => List.mem_append_left _ hx) fun x hx => ?_
      rw [List.mem_append, List.mem_cons] at hx
      rcases hx with hx | rfl | hx
      · exact .inl hx
      · dsimp only
        omega
      · have := h'.signs x hx
        omega
    · have hc := h'.inside_emitted c hc
      have hd := h.inside_emitted d hd
      refine ⟨⟨i, j, m⟩, List.mem_append_right _ List.mem_cons_self, ?_⟩
      unfold Exchange.Parts
      dsimp only
      omega

/-- Without such signs the two orders are the same. -/
theorem eq_of_nil (h : Arranged i j cs es []) : es = cs := by
  have horder : es.Pairwise fun c d => c.close < d.close := by
    refine h.order.imp fun hcd => ?_
    rcases hcd with ⟨hlt, -⟩ | ⟨x, hx, -⟩
    · exact hlt
    · exact absurd hx List.not_mem_nil
  exact h.perm.eq_of_pairwise (fun c d _ _ hcd hdc => by omega) horder h.ordered

end Arranged

mutual

/-- **The calls of an operand are arranged.** -/
theorem Operand.arranged : ∀ {level : Nat} (t : Operand level) (i : Nat) (past : List Mark),
    Arranged i (i + t.lexemes.length) (t.calls i past) (t.emitted i past) (t.exchanges i)
  | _, .unary signs operand, i, past => by
      rw [Operand.calls, Operand.emitted, Operand.exchanges, Operand.lexemes, List.length_append,
        List.length_map]
      exact (operand.arranged (i + signs.length) past).widen (by omega) (by omega)
  | _, .chain first rest, i, past => by
      rw [Operand.calls, Operand.emitted, Operand.exchanges, Operand.lexemes, List.length_append,
        ← Nat.add_assoc]
      exact rest.arranged (past ++ first.marks) (first.arranged i past)

/-- The rest of a chain behind a part of it that is arranged. -/
theorem Links.arranged : ∀ {level : Nat} (t : Links level) (past : List Mark) {start i : Nat}
    {cs es : List Call} {xs : List Exchange}, Arranged start i cs es xs →
    Arranged start (i + t.lexemes.length) (cs ++ t.calls i past) (t.emitted i past es)
      (xs ++ t.exchanges start i)
  | _, .nil, past, start, i, cs, es, xs, h => by
      rw [Links.calls, Links.emitted, Links.exchanges, List.append_nil, List.append_nil]
      exact h
  | _, .cons op operand rest, past, start, i, cs, es, xs, h => by
      have hnext := operand.arranged (i + 1) past
      rw [Links.calls, Links.emitted, Links.exchanges, Links.lexemes, List.length_cons,
        List.length_append, ← List.append_assoc cs, ← List.append_assoc xs]
      have hlength : i + (operand.lexemes.length + rest.lexemes.length + 1) =
          i + 1 + operand.lexemes.length + rest.lexemes.length := by omega
      rw [hlength]
      by_cases hop : op.exchanges
      · rw [if_pos hop, if_pos hop]
        exact rest.arranged _ (h.exchange hnext)
      · rw [if_neg hop, if_neg hop]
        exact rest.arranged _ (h.append hnext i.le_succ)

theorem Primary.arranged : ∀ (t : Primary) (i : Nat) (past : List Mark),
    Arranged i (i + t.lexemes.length) (t.calls i past) (t.emitted i past) (t.exchanges i)
  | .num _, i, _ => .nil (Nat.le_add_right i _)
  | .name _, i, _ => .nil (Nat.le_add_right i _)
  | .call callee args, i, past => by
      have hclose : (⟨callee, args, i, past⟩ : Call).close = i + 1 + args.lexemes.length := rfl
      have hcall := Arranged.single ⟨callee, args, i, past⟩
      rw [hclose] at hcall
      have hargs := (args.arranged (i + 2) past).append hcall (by omega)
      rw [List.append_nil] at hargs
      exact hargs.widen (by omega) (by rw [Primary.lexemes]; simp only [List.length_cons]; omega)
  | .paren inner, i, past => by
      refine (inner.arranged (i + 1) past).widen (by omega) ?_
      rw [Primary.lexemes, List.length_cons, List.length_append]
      omega

theorem Args.arranged : ∀ (t : Args) (i : Nat) (past : List Mark),
    Arranged i (i + t.lexemes.length - 1) (t.calls i past) (t.emitted i past) (t.exchanges i)
  | .close, i, _ => .nil (Nat.le_refl i)
  | .last arg, i, past => by
      refine (arg.arranged i past).widen (Nat.le_refl i) ?_
      rw [Args.lexemes, List.length_append]
      exact Nat.le_refl _
  | .next arg rest, i, past => by
      refine ((arg.arranged i past).append (rest.arranged _ (past ++ arg.marks))
        (Nat.le_succ _)).widen (Nat.le_refl i) ?_
      rw [Args.lexemes, List.length_append, List.length_cons]
      omega

end

/-! ## Places in a list -/

/-- The part stands in the list from the member with the number `i` on. -/
def SitsAt (ls : List Lexeme) (i : Nat) (part : List Lexeme) : Prop :=
  ∃ front back, front.length = i ∧ ls = front ++ (part ++ back)

namespace SitsAt

variable {ls xs ys : List Lexeme} {l : Lexeme} {i : Nat}

theorem left (h : SitsAt ls i (xs ++ ys)) : SitsAt ls i xs := by
  obtain ⟨front, back, hlength, rfl⟩ := h
  exact ⟨front, ys ++ back, hlength, by rw [List.append_assoc]⟩

theorem right (h : SitsAt ls i (xs ++ ys)) : SitsAt ls (i + xs.length) ys := by
  obtain ⟨front, back, rfl, rfl⟩ := h
  exact ⟨front ++ xs, back, List.length_append, by rw [List.append_assoc, List.append_assoc]⟩

theorem tail (h : SitsAt ls i (l :: xs)) : SitsAt ls (i + 1) xs := by
  have hright : SitsAt ls (i + [l].length) xs := right h
  exact hright

theorem getElem? (h : SitsAt ls i (l :: xs)) : ls[i]? = some l := by
  obtain ⟨front, back, rfl, rfl⟩ := h
  rw [List.getElem?_append_right (Nat.le_refl _), Nat.sub_self]
  rfl

end SitsAt

/-- **The call stands in the list**: the name, an opening parenthesis and the arguments behind it,
of which the closing parenthesis is the last. -/
def Call.StandsIn (ls : List Lexeme) (c : Call) : Prop :=
  SitsAt ls c.name (⟨.ident, c.callee⟩ :: .reserved "(" :: c.args.lexemes) ∧
    ls[c.close]? = some (.reserved ")")

/-- The sign is one that exchanges its operands. -/
def Exchange.StandsIn (ls : List Lexeme) (x : Exchange) : Prop :=
  ls[x.sign]? = some (.reserved ">") ∨ ls[x.sign]? = some (.reserved ">=")

/-- The calls and the signs stand in the list. -/
def Placed (ls : List Lexeme) (calls : List Call) (exchanges : List Exchange) : Prop :=
  (∀ c ∈ calls, c.StandsIn ls) ∧ ∀ x ∈ exchanges, x.StandsIn ls

theorem placed_nil (ls : List Lexeme) : Placed ls [] [] :=
  ⟨List.forall_mem_nil _, List.forall_mem_nil _⟩

theorem Placed.append {ls : List Lexeme} {cs ds : List Call} {xs ys : List Exchange}
    (h : Placed ls cs xs) (h' : Placed ls ds ys) : Placed ls (cs ++ ds) (xs ++ ys) :=
  ⟨List.forall_mem_append.2 ⟨h.1, h'.1⟩, List.forall_mem_append.2 ⟨h.2, h'.2⟩⟩

/-- Arguments end in a closing parenthesis. -/
theorem Args.exists_lexemes (t : Args) : ∃ ls, t.lexemes = ls ++ [.reserved ")"] := by
  cases t with
  | close => exact ⟨[], rfl⟩
  | last arg => exact ⟨arg.lexemes, rfl⟩
  | next arg rest =>
    obtain ⟨ls, hls⟩ := rest.exists_lexemes
    refine ⟨arg.lexemes ++ .reserved "," :: ls, ?_⟩
    rw [Args.lexemes, hls, List.append_assoc, List.cons_append]

section

variable {ls : List Lexeme}

theorem Args.close_of_sitsAt (t : Args) {i : Nat} (h : SitsAt ls (i + 1 + 1) t.lexemes) :
    ls[i + 1 + t.lexemes.length]? = some (.reserved ")") := by
  obtain ⟨inner, hinner⟩ := t.exists_lexemes
  rw [hinner] at h ⊢
  have hlast := h.right.getElem?
  rw [List.length_append, List.length_singleton, ← hlast]
  congr 1
  omega

theorem placed_sign {level i : Nat} {op : Operator level} {part : List Lexeme} (start stop : Nat)
    (h : SitsAt ls i (op.lexeme :: part)) :
    Placed ls [] (if op.exchanges then [⟨start, i, stop⟩] else []) := by
  refine ⟨List.forall_mem_nil _, fun x hx => ?_⟩
  by_cases hop : op.exchanges
  · rw [if_pos hop, List.mem_singleton] at hx
    have hsign : ls[x.sign]? = some (.reserved op.text) := by
      rw [hx]
      exact h.getElem?
    rw [Operator.exchanges, Bool.or_eq_true, decide_eq_true_eq, decide_eq_true_eq] at hop
    rcases hop with htext | htext
    · exact .inl (htext ▸ hsign)
    · exact .inr (htext ▸ hsign)
  · rw [if_neg hop] at hx
    exact absurd hx List.not_mem_nil

mutual

/-- **The calls of an operand stand where they are said to.** -/
theorem Operand.placed : ∀ {level : Nat} (t : Operand level) (past : List Mark) {i : Nat},
    SitsAt ls i t.lexemes → Placed ls (t.calls i past) (t.exchanges i)
  | _, .unary signs operand, past, i, h => by
      have hoperand := h.right
      rw [List.length_map] at hoperand
      exact operand.placed past hoperand
  | _, .chain first rest, past, i, h =>
      (first.placed past h.left).append (rest.placed _ i h.right)

theorem Links.placed : ∀ {level : Nat} (t : Links level) (past : List Mark) (start : Nat) {i : Nat},
    SitsAt ls i t.lexemes → Placed ls (t.calls i past) (t.exchanges start i)
  | _, .nil, _, _, _, _ => placed_nil ls
  | _, .cons op operand rest, past, start, i, h => by
      have hsign := placed_sign start (i + 1 + operand.lexemes.length) h
      exact (hsign.append (operand.placed past h.tail.left)).append
        (rest.placed _ start h.tail.right)

theorem Primary.placed : ∀ (t : Primary) (past : List Mark) {i : Nat}, SitsAt ls i t.lexemes →
    Placed ls (t.calls i past) (t.exchanges i)
  | .num _, _, _, _ => placed_nil ls
  | .name _, _, _, _ => placed_nil ls
  | .call callee args, past, i, h => by
      have hcall : Placed ls [⟨callee, args, i, past⟩] [] := by
        refine ⟨fun c hc => ?_, List.forall_mem_nil _⟩
        rw [List.mem_singleton.1 hc]
        exact ⟨h, args.close_of_sitsAt h.tail.tail⟩
      have hargs := (args.placed past h.tail.tail).append hcall
      rw [List.append_nil] at hargs
      exact hargs
  | .paren inner, past, _, h => inner.placed past h.tail.left

theorem Args.placed : ∀ (t : Args) (past : List Mark) {i : Nat}, SitsAt ls i t.lexemes →
    Placed ls (t.calls i past) (t.exchanges i)
  | .close, _, _, _ => placed_nil ls
  | .last arg, past, _, h => arg.placed past h.left
  | .next arg rest, past, _, h => (arg.placed past h.left).append (rest.placed _ h.right.tail)

end

end

/-! ## Occurrences -/

/-- An expression, the number of its first token, and the marks in front of it. -/
structure Occurrence where
  expression : Expression
  number : Nat
  past : List Mark

mutual

/-- The expressions within an operand, in parentheses and as arguments. -/
def Operand.inner : {level : Nat} → Operand level → (i : Nat) → (past : List Mark) →
    List Occurrence
  | _, .unary signs operand, i, past => operand.inner (i + signs.length) past
  | _, .chain first rest, i, past =>
      first.inner i past ++ rest.inner (i + first.lexemes.length) (past ++ first.marks)

def Links.inner : {level : Nat} → Links level → (i : Nat) → (past : List Mark) → List Occurrence
  | _, .nil, _, _ => []
  | _, .cons _ operand rest, i, past =>
      operand.inner (i + 1) past ++
        rest.inner (i + 1 + operand.lexemes.length) (past ++ operand.marks)

def Primary.inner : Primary → (i : Nat) → (past : List Mark) → List Occurrence
  | .num _, _, _ => []
  | .name _, _, _ => []
  | .call _ args, i, past => args.inner (i + 2) past
  | .paren inner, i, past => ⟨inner, i + 1, past⟩ :: inner.inner (i + 1) past

def Args.inner : Args → (i : Nat) → (past : List Mark) → List Occurrence
  | .close, _, _ => []
  | .last arg, i, past => ⟨arg, i, past⟩ :: arg.inner i past
  | .next arg rest, i, past =>
      ⟨arg, i, past⟩ ::
        (arg.inner i past ++ rest.inner (i + arg.lexemes.length + 1) (past ++ arg.marks))

end

namespace Occurrence

/-- The number of the first token behind the expression. -/
def stop (o : Occurrence) : Nat :=
  o.number + o.expression.lexemes.length

/-- The calls of the expression in the order of their closing parentheses. -/
def calls (o : Occurrence) : List Call :=
  o.expression.calls o.number o.past

/-- The calls of the expression in the order of their code. -/
def emitted (o : Occurrence) : List Call :=
  o.expression.emitted o.number o.past

/-- The signs of the expression whose operands are exchanged. -/
def exchanges (o : Occurrence) : List Exchange :=
  o.expression.exchanges o.number

/-- The expression, and the expressions within it. -/
def within (o : Occurrence) : List Occurrence :=
  o :: o.expression.inner o.number o.past

/-- **How the order of the code of an expression is related to that of the text.** -/
theorem arranged (o : Occurrence) : Arranged o.number o.stop o.calls o.emitted o.exchanges :=
  o.expression.arranged o.number o.past

end Occurrence

section

variable {ls : List Lexeme}

mutual

/-- The expressions within an operand stand where they are said to. -/
theorem Operand.sits_inner : ∀ {level : Nat} (t : Operand level) (past : List Mark) {i : Nat},
    SitsAt ls i t.lexemes → ∀ o ∈ t.inner i past, SitsAt ls o.number o.expression.lexemes
  | _, .unary signs operand, past, i, h => by
      have hoperand := h.right
      rw [List.length_map] at hoperand
      exact operand.sits_inner past hoperand
  | _, .chain first rest, past, i, h =>
      List.forall_mem_append.2 ⟨first.sits_inner past h.left, rest.sits_inner _ h.right⟩

theorem Links.sits_inner : ∀ {level : Nat} (t : Links level) (past : List Mark) {i : Nat},
    SitsAt ls i t.lexemes → ∀ o ∈ t.inner i past, SitsAt ls o.number o.expression.lexemes
  | _, .nil, _, _, _ => List.forall_mem_nil _
  | _, .cons _ operand rest, past, _, h =>
      List.forall_mem_append.2
        ⟨operand.sits_inner past h.tail.left, rest.sits_inner _ h.tail.right⟩

theorem Primary.sits_inner : ∀ (t : Primary) (past : List Mark) {i : Nat},
    SitsAt ls i t.lexemes → ∀ o ∈ t.inner i past, SitsAt ls o.number o.expression.lexemes
  | .num _, _, _, _ => List.forall_mem_nil _
  | .name _, _, _, _ => List.forall_mem_nil _
  | .call _ args, past, _, h => args.sits_inner past h.tail.tail
  | .paren inner, past, _, h =>
      List.forall_mem_cons.2 ⟨h.tail.left, inner.sits_inner past h.tail.left⟩

theorem Args.sits_inner : ∀ (t : Args) (past : List Mark) {i : Nat},
    SitsAt ls i t.lexemes → ∀ o ∈ t.inner i past, SitsAt ls o.number o.expression.lexemes
  | .close, _, _, _ => List.forall_mem_nil _
  | .last arg, past, _, h => List.forall_mem_cons.2 ⟨h.left, arg.sits_inner past h.left⟩
  | .next arg rest, past, _, h =>
      List.forall_mem_cons.2 ⟨h.left, List.forall_mem_append.2
        ⟨arg.sits_inner past h.left, rest.sits_inner _ h.right.tail⟩⟩

end

end

/-! ## Roots -/

/-- An expression that is part of no other one. -/
def root (e : Expression) (i : Nat) (past : List Mark) : List Occurrence :=
  [⟨e, i, past⟩]

/-- The roots of a part that may be missing. -/
def optRoots {α : Type} (roots : α → Nat → List Mark → List Occurrence) :
    Option α → (i : Nat) → (past : List Mark) → List Occurrence
  | none, _, _ => []
  | some part, i, past => roots part i past

def Simple.roots (stmt : Simple) (i : Nat) (past : List Mark) : List Occurrence :=
  root stmt.left i past ++
    optRoots root stmt.right (i + stmt.left.lexemes.length + 1) (past ++ stmt.left.marks)

def Local.roots : Local → (i : Nat) → (past : List Mark) → List Occurrence
  | typed _ value, i, past => optRoots root value (i + 3) past
  | inferred _ value, i, past => root value (i + 2) past

/-- The roots in the head of a loop whose code comes before that of the body. -/
def LoopHead.roots : LoopHead → (i : Nat) → (past : List Mark) → List Occurrence
  | forever, _, _ => []
  | .while cond, i, past => root cond i past
  | clauses init cond _, i, past =>
      optRoots Simple.roots init i past ++
        optRoots root cond (i + (init.elim [] Simple.lexemes).length + 1)
          (past ++ optMarks Simple.marks init)

/-- The roots in the head of a loop whose code comes behind that of the body. -/
def LoopHead.postRoots : LoopHead → (i : Nat) → (past : List Mark) → List Occurrence
  | forever, _, _ => []
  | .while _, _, _ => []
  | clauses init cond post, i, past =>
      optRoots Simple.roots post
        (i + (init.elim [] Simple.lexemes).length + 1 + (cond.elim [] Operand.lexemes).length + 1)
        (past ++ optMarks Simple.marks init ++ optMarks Operand.marks cond)

mutual

/-- The roots of a statement in the order of their code. -/
def Statement.roots : Statement → (i : Nat) → (past : List Mark) → List Occurrence
  | .ret value, i, past => root value (i + 1) past
  | .declare decl, i, past => decl.roots (i + 1) past
  | .branch cases, i, past => cases.roots (i + 1) past
  | .loop head body, i, past =>
      head.roots (i + 1) (past ++ [.enter]) ++
        (body.roots (i + 1 + head.lexemes.length + 1)
          (past ++ [.enter] ++ head.marks ++ [.enter]) ++
        head.postRoots (i + 1) (past ++ [.enter]))
  | .block body, i, past => body.roots (i + 1) (past ++ [.enter])
  | .simple stmt, i, past => stmt.roots i past

def Conditional.roots : Conditional → (i : Nat) → (past : List Mark) → List Occurrence
  | .mk init cond body other, i, past =>
      optRoots Simple.roots init i (past ++ [.enter]) ++
        (root cond (i + (initLexemes init).length)
          (past ++ [.enter] ++ optMarks Simple.marks init) ++
        (body.roots (i + (initLexemes init).length + cond.lexemes.length + 1)
          (past ++ [.enter] ++ optMarks Simple.marks init ++ cond.marks ++ [.enter]) ++
        other.roots
          (i + (initLexemes init).length + cond.lexemes.length + 1 + body.lexemes.length)
          (past ++ [.enter] ++ optMarks Simple.marks init ++ cond.marks ++ enclosed body.marks)))

def Otherwise.roots : Otherwise → (i : Nat) → (past : List Mark) → List Occurrence
  | .none, _, _ => []
  | .elseIf cases, i, past => cases.roots (i + 2) past
  | .elseBlock body, i, past => body.roots (i + 2) (past ++ [.enter])

def Body.roots : Body → (i : Nat) → (past : List Mark) → List Occurrence
  | .close, _, _ => []
  | .skip rest, i, past => rest.roots (i + 1) past
  | .last stmt, i, past => stmt.roots i past
  | .next stmt rest, i, past =>
      stmt.roots i past ++ rest.roots (i + stmt.lexemes.length + 1) (past ++ stmt.marks)

end

/-- The roots of a function whose first token has the number `i`. -/
def Function.roots (f : Function) (i : Nat) : List Occurrence :=
  f.body.roots
    (i + 3 + f.params.lexemes.length + (if f.typed then [typeLexeme] else []).length + 1)
    (.enter :: f.params.marks)

/-- The roots of functions, each of which stands before a semicolon. -/
def functionRoots : List Function → (i : Nat) → List Occurrence
  | [], _ => []
  | f :: fs, i => f.roots i ++ functionRoots fs (i + f.lexemes.length + 1)

/-- **The expressions of a program**, with the numbers of their first tokens and the marks in front
of them. -/
def Program.expressions (p : Program) : List Occurrence :=
  (functionRoots p.functions 0).flatMap Occurrence.within

/-- **Where roots stand.**  They stand in the list between the members with the numbers `i` and `j`,
and no two of them overlap. -/
structure Spread (ls : List Lexeme) (i j : Nat) (os : List Occurrence) : Prop where
  le : i ≤ j
  sits : ∀ o ∈ os, SitsAt ls o.number o.expression.lexemes
  inside : ∀ o ∈ os, i ≤ o.number ∧ o.stop ≤ j
  apart : os.Pairwise fun o o' => o.stop ≤ o'.number ∨ o'.stop ≤ o.number

namespace Spread

variable {ls : List Lexeme} {i j k m : Nat} {os os' : List Occurrence}

theorem nil (h : i ≤ j) : Spread ls i j [] where
  le := h
  sits := List.forall_mem_nil _
  inside := List.forall_mem_nil _
  apart := .nil

theorem single (e : Expression) (past : List Mark) {i : Nat} (h : SitsAt ls i e.lexemes) :
    Spread ls i (i + e.lexemes.length) (root e i past) where
  le := Nat.le_add_right _ _
  sits := List.forall_mem_singleton.2 h
  inside := List.forall_mem_singleton.2 ⟨Nat.le_refl _, Nat.le_refl _⟩
  apart := List.pairwise_singleton _ _

theorem widen (h : Spread ls i j os) (hi : k ≤ i) (hj : j ≤ m) : Spread ls k m os where
  le := Nat.le_trans hi (Nat.le_trans h.le hj)
  sits := h.sits
  inside o ho := by
    have := h.inside o ho
    omega
  apart := h.apart

theorem append (h : Spread ls i j os) (h' : Spread ls k m os') (hjk : j ≤ k) :
    Spread ls i m (os ++ os') where
  le := Nat.le_trans h.le (Nat.le_trans hjk h'.le)
  sits := List.forall_mem_append.2 ⟨h.sits, h'.sits⟩
  inside := by
    have hle := h.le
    have hle' := h'.le
    refine List.forall_mem_append.2 ⟨fun o ho => ?_, fun o ho => ?_⟩
    · have := h.inside o ho
      omega
    · have := h'.inside o ho
      omega
  apart := by
    refine List.pairwise_append.2 ⟨h.apart, h'.apart, fun o ho o' ho' => .inl ?_⟩
    have := h.inside o ho
    have := h'.inside o' ho'
    omega

/-- The order of the roots does not matter. -/
theorem of_perm (h : Spread ls i j os) (hperm : os.Perm os') : Spread ls i j os' where
  le := h.le
  sits o ho := h.sits o (hperm.mem_iff.2 ho)
  inside o ho := h.inside o (hperm.mem_iff.2 ho)
  apart := (hperm.pairwise_iff Or.symm).1 h.apart

/-- All expressions stand where they are said to. -/
theorem sits_within (h : Spread ls i j os) :
    ∀ o ∈ os.flatMap Occurrence.within, SitsAt ls o.number o.expression.lexemes := by
  intro o ho
  obtain ⟨r, hr, ho⟩ := List.mem_flatMap.1 ho
  rcases List.mem_cons.1 ho with rfl | ho
  · exact h.sits o hr
  · exact r.expression.sits_inner r.past (h.sits r hr) o ho

/-- No two calls end in the same parenthesis. -/
theorem close_ne (h : Spread ls i j os) :
    (os.flatMap Occurrence.emitted).Pairwise fun c d => c.close ≠ d.close := by
  refine List.pairwise_flatMap.2 ⟨fun o ho => ?_, h.apart.imp fun {o o'} hapart c hc d hd => ?_⟩
  · have hne : o.calls.Pairwise fun c d => c.close ≠ d.close :=
      o.arranged.ordered.imp Nat.ne_of_lt
    exact (o.arranged.perm.pairwise_iff Ne.symm).2 hne
  · have := o.arranged.inside_emitted c hc
    have := o'.arranged.inside_emitted d hd
    omega

end Spread

section

variable {ls : List Lexeme}

/-- The parts that may be missing are spread if they are there. -/
theorem spread_opt {α : Type} {roots : α → Nat → List Mark → List Occurrence}
    {lexemes : α → List Lexeme}
    (hpart : ∀ (part : α) (past : List Mark) {i : Nat}, SitsAt ls i (lexemes part) →
      Spread ls i (i + (lexemes part).length) (roots part i past))
    {part : Option α} (past : List Mark) {i : Nat} (h : SitsAt ls i (part.elim [] lexemes)) :
    Spread ls i (i + (part.elim [] lexemes).length) (optRoots roots part i past) := by
  cases part with
  | none => exact .nil (Nat.le_refl _)
  | some part => exact hpart part past h

theorem Simple.spread (t : Simple) (past : List Mark) {i : Nat} (h : SitsAt ls i t.lexemes) :
    Spread ls i (i + t.lexemes.length) (t.roots i past) := by
  obtain ⟨left, right⟩ := t
  have hlength : (Simple.mk left right).lexemes.length =
      left.lexemes.length + (right.elim [] valueLexemes).length := List.length_append
  have hleft : Spread ls i (i + left.lexemes.length) (root left i past) := .single left past h.left
  cases right with
  | none =>
    have hnil : Spread ls (i + left.lexemes.length) (i + left.lexemes.length) [] :=
      .nil (Nat.le_refl _)
    exact (hleft.append hnil (Nat.le_refl _)).widen (Nat.le_refl _) (by omega)
  | some right =>
    have hright : SitsAt ls (i + left.lexemes.length + 1) right.lexemes := h.right.tail
    refine (hleft.append (.single right _ hright) (Nat.le_succ _)).widen (Nat.le_refl _) ?_
    have hvalue : ((some right).elim [] valueLexemes).length = right.lexemes.length + 1 := rfl
    omega

theorem Local.spread (t : Local) (past : List Mark) {i : Nat} (h : SitsAt ls i t.lexemes) :
    Spread ls i (i + t.lexemes.length) (t.roots i past) := by
  cases t with
  | typed name value =>
    cases value with
    | none => exact .nil (Nat.le_add_right _ _)
    | some value =>
      refine (Spread.single value past h.tail.tail.tail).widen (by omega) ?_
      have hlength : (Local.typed name (some value)).lexemes.length =
          value.lexemes.length + 3 := rfl
      omega
  | inferred name value =>
    refine (Spread.single value past h.tail.tail).widen (by omega) ?_
    have hlength : (Local.inferred name value).lexemes.length = value.lexemes.length + 2 := rfl
    omega

/-- The last clause of a loop stands behind the others. -/
theorem LoopHead.spread (t : LoopHead) (past : List Mark) {i : Nat} (h : SitsAt ls i t.lexemes) :
    ∃ j, Spread ls i j (t.roots i past) ∧
      Spread ls j (i + t.lexemes.length) (t.postRoots i past) := by
  cases t with
  | forever => exact ⟨i, .nil (Nat.le_refl _), .nil (Nat.le_refl _)⟩
  | «while» cond => exact ⟨_, .single cond past h, .nil (Nat.le_refl _)⟩
  | clauses init cond post =>
    have hinit := spread_opt Simple.spread past h.left
    have hcond := spread_opt Spread.single (past ++ optMarks Simple.marks init) h.right.tail.left
    have hpost := spread_opt Simple.spread (past ++ optMarks Simple.marks init ++
      optMarks Operand.marks cond) h.right.tail.right.tail
    refine ⟨_, hinit.append hcond (Nat.le_succ _), hpost.widen (Nat.le_succ _) ?_⟩
    simp only [LoopHead.lexemes, List.length_append, List.length_cons]
    omega

mutual

/-- **The roots of a statement stand apart in it.** -/
theorem Statement.spread : ∀ (t : Statement) (past : List Mark) {i : Nat}, SitsAt ls i t.lexemes →
    Spread ls i (i + t.lexemes.length) (t.roots i past)
  | .ret value, past, i, h => by
      refine (Spread.single value past h.tail).widen (Nat.le_succ _) ?_
      rw [Statement.lexemes, List.length_cons]
      omega
  | .declare decl, past, i, h => by
      refine (decl.spread past h.tail).widen (Nat.le_succ _) ?_
      rw [Statement.lexemes, List.length_cons]
      omega
  | .branch cases, past, i, h => by
      refine (cases.spread past h.tail).widen (Nat.le_succ _) ?_
      rw [Statement.lexemes, List.length_cons]
      omega
  | .loop head body, past, i, h => by
      obtain ⟨j, hfront, hpost⟩ := head.spread (past ++ [.enter]) h.tail.left
      have hbody := body.spread (past ++ [.enter] ++ head.marks ++ [.enter]) h.tail.right.tail
      have hall := hfront.append (hpost.append hbody (Nat.le_succ _)) (Nat.le_refl _)
      refine (hall.of_perm (List.perm_append_comm.append_left _)).widen (Nat.le_succ _) ?_
      simp only [Statement.lexemes, List.length_append, List.length_cons]
      omega
  | .block body, past, i, h => by
      refine (body.spread (past ++ [.enter]) h.tail).widen (Nat.le_succ _) ?_
      rw [Statement.lexemes, List.length_cons]
      omega
  | .simple stmt, past, i, h => stmt.spread past h

theorem Conditional.spread : ∀ (t : Conditional) (past : List Mark) {i : Nat},
    SitsAt ls i t.lexemes → Spread ls i (i + t.lexemes.length) (t.roots i past)
  | .mk init cond body other, past, i, h => by
      have hinit : Spread ls i (i + (initLexemes init).length)
          (optRoots Simple.roots init i (past ++ [.enter])) := by
        cases init with
        | none => exact .nil (Nat.le_add_right _ _)
        | some init =>
          refine (init.spread (past ++ [.enter]) h.left.left).widen (Nat.le_refl _) ?_
          have hlength : (initLexemes (some init)).length = init.lexemes.length + 1 :=
            List.length_append
          omega
      have hbehind := h.right.right.tail
      have hother := other.spread (past ++ [.enter] ++ optMarks Simple.marks init ++ cond.marks ++
        enclosed body.marks) hbehind.right
      have hbody := body.spread (past ++ [.enter] ++ optMarks Simple.marks init ++ cond.marks ++
        [.enter]) hbehind.left
      have hcond :=
        Spread.single cond (past ++ [.enter] ++ optMarks Simple.marks init) h.right.left
      refine (hinit.append (hcond.append (hbody.append hother (Nat.le_refl _)) (Nat.le_succ _))
        (Nat.le_refl _)).widen (Nat.le_refl _) ?_
      simp only [Conditional.lexemes, List.length_append, List.length_cons]
      omega

theorem Otherwise.spread : ∀ (t : Otherwise) (past : List Mark) {i : Nat},
    SitsAt ls i t.lexemes → Spread ls i (i + t.lexemes.length) (t.roots i past)
  | .none, _, _, _ => .nil (Nat.le_refl _)
  | .elseIf cases, past, i, h => by
      have hcases := cases.spread past h.tail.tail
      refine hcases.widen (by omega) ?_
      simp only [Otherwise.lexemes, List.length_cons]
      omega
  | .elseBlock body, past, i, h => by
      have hbody := body.spread (past ++ [.enter]) h.tail.tail
      refine hbody.widen (by omega) ?_
      simp only [Otherwise.lexemes, List.length_cons]
      omega

theorem Body.spread : ∀ (t : Body) (past : List Mark) {i : Nat}, SitsAt ls i t.lexemes →
    Spread ls i (i + t.lexemes.length) (t.roots i past)
  | .close, _, _, _ => .nil (Nat.le_add_right _ _)
  | .skip rest, past, i, h => by
      refine (rest.spread past h.tail).widen (Nat.le_succ _) ?_
      simp only [Body.lexemes, List.length_cons]
      omega
  | .last stmt, past, i, h => by
      refine (stmt.spread past h.left).widen (Nat.le_refl _) ?_
      simp only [Body.lexemes, List.length_append]
      omega
  | .next stmt rest, past, i, h => by
      refine ((stmt.spread past h.left).append (rest.spread (past ++ stmt.marks) h.right.tail)
        (Nat.le_succ _)).widen (Nat.le_refl _) ?_
      simp only [Body.lexemes, List.length_append, List.length_cons]
      omega

end

theorem Function.spread (t : Function) {i : Nat} (h : SitsAt ls i t.lexemes) :
    Spread ls i (i + t.lexemes.length) (t.roots i) := by
  refine (t.body.spread _ h.tail.tail.tail.right.right.tail).widen (by omega) ?_
  simp only [Function.lexemes, Function.signature, List.length_append, List.length_cons]
  omega

/-- **The roots of functions stand apart in the text.** -/
theorem spread_functions (ts : List Function) {i : Nat} (h : SitsAt ls i (functionLexemes ts)) :
    Spread ls i (i + (functionLexemes ts).length) (functionRoots ts i) := by
  induction ts generalizing i with
  | nil => exact .nil (Nat.le_refl _)
  | cons t ts ih =>
    rw [functionLexemes, List.flatMap_cons] at h ⊢
    have hlater := h.right
    rw [List.length_append, List.length_singleton, ← Nat.add_assoc] at hlater
    refine ((Function.spread t h.left.left).append (ih hlater) (Nat.le_succ _)).widen
      (Nat.le_refl _) ?_
    simp only [List.length_append, List.length_singleton, functionLexemes]
    omega

end

end Grammar
end MicroGo
