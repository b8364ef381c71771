import MicroGo.Program.Basic

/-!
# Equality of programs

Two programs are equal when their trees are.  Expressions hold lists of expressions, and statements
hold lists of statements and statements that may be missing, so equality is decided on all of these
together.
-/

namespace MicroGo

namespace Expr

mutual

/-- Decides whether two expressions are equal. -/
def decEq : (a b : Expr) → Decidable (a = b)
  | num v, num w => if h : v = w then isTrue (by rw [h]) else isFalse (by simpa using h)
  | var i, var j => if h : i = j then isTrue (by rw [h]) else isFalse (by simpa using h)
  | binary o l r, binary o' l' r' =>
      if ho : o = o' then
        match decEq l l', decEq r r' with
        | isTrue hl, isTrue hr => isTrue (by rw [ho, hl, hr])
        | isFalse hl, _ => isFalse (by simp [hl])
        | _, isFalse hr => isFalse (by simp [hr])
      else isFalse (by simp [ho])
  | call f as, call f' as' =>
      if hf : f = f' then
        match decEqList as as' with
        | isTrue h => isTrue (by rw [hf, h])
        | isFalse h => isFalse (by simp [h])
      else isFalse (by simp [hf])
  | num _, var _ | num _, binary .. | num _, call .. => isFalse (by simp)
  | var _, num _ | var _, binary .. | var _, call .. => isFalse (by simp)
  | binary .., num _ | binary .., var _ | binary .., call .. => isFalse (by simp)
  | call .., num _ | call .., var _ | call .., binary .. => isFalse (by simp)

/-- Decides whether two lists of expressions are equal. -/
def decEqList : (as bs : List Expr) → Decidable (as = bs)
  | [], [] => isTrue rfl
  | [], _ :: _ => isFalse (by simp)
  | _ :: _, [] => isFalse (by simp)
  | a :: as, b :: bs =>
      match decEq a b, decEqList as bs with
      | isTrue h, isTrue hs => isTrue (by rw [h, hs])
      | isFalse h, _ => isFalse (by simp [h])
      | _, isFalse hs => isFalse (by simp [hs])

end

instance : DecidableEq Expr :=
  decEq

end Expr

namespace Stmt

mutual

/-- Decides whether two statements are equal. -/
def decEq : (a b : Stmt) → Decidable (a = b)
  | expr v, expr w => if h : v = w then isTrue (by rw [h]) else isFalse (by simpa using h)
  | assign t v, assign t' v' =>
      if h : t = t' ∧ v = v' then isTrue (by rw [h.1, h.2]) else isFalse (by simpa using h)
  | ret v, ret w => if h : v = w then isTrue (by rw [h]) else isFalse (by simpa using h)
  | block b, block b' =>
      match decEqList b b' with
      | isTrue h => isTrue (by rw [h])
      | isFalse h => isFalse (by simp [h])
  | branch i c b o, branch i' c' b' o' =>
      if hc : c = c' then
        match decEqOption i i', decEqList b b', decEqOption o o' with
        | isTrue hi, isTrue hb, isTrue ho => isTrue (by rw [hc, hi, hb, ho])
        | isFalse hi, _, _ => isFalse (by simp [hi])
        | _, isFalse hb, _ => isFalse (by simp [hb])
        | _, _, isFalse ho => isFalse (by simp [ho])
      else isFalse (by simp [hc])
  | loop i c p b, loop i' c' p' b' =>
      if hc : c = c' then
        match decEqOption i i', decEqOption p p', decEqList b b' with
        | isTrue hi, isTrue hp, isTrue hb => isTrue (by rw [hc, hi, hp, hb])
        | isFalse hi, _, _ => isFalse (by simp [hi])
        | _, isFalse hp, _ => isFalse (by simp [hp])
        | _, _, isFalse hb => isFalse (by simp [hb])
      else isFalse (by simp [hc])
  | expr _, assign .. | expr _, ret _ | expr _, block _ | expr _, branch .. | expr _, loop .. =>
      isFalse (by simp)
  | assign .., expr _ | assign .., ret _ | assign .., block _ | assign .., branch ..
  | assign .., loop .. => isFalse (by simp)
  | ret _, expr _ | ret _, assign .. | ret _, block _ | ret _, branch .. | ret _, loop .. =>
      isFalse (by simp)
  | block _, expr _ | block _, assign .. | block _, ret _ | block _, branch .. | block _, loop .. =>
      isFalse (by simp)
  | branch .., expr _ | branch .., assign .. | branch .., ret _ | branch .., block _
  | branch .., loop .. => isFalse (by simp)
  | loop .., expr _ | loop .., assign .. | loop .., ret _ | loop .., block _ | loop .., branch .. =>
      isFalse (by simp)

/-- Decides whether two lists of statements are equal. -/
def decEqList : (as bs : List Stmt) → Decidable (as = bs)
  | [], [] => isTrue rfl
  | [], _ :: _ => isFalse (by simp)
  | _ :: _, [] => isFalse (by simp)
  | a :: as, b :: bs =>
      match decEq a b, decEqList as bs with
      | isTrue h, isTrue hs => isTrue (by rw [h, hs])
      | isFalse h, _ => isFalse (by simp [h])
      | _, isFalse hs => isFalse (by simp [hs])

/-- Decides whether two statements that may be missing are equal. -/
def decEqOption : (a b : Option Stmt) → Decidable (a = b)
  | none, none => isTrue rfl
  | none, some _ => isFalse (by simp)
  | some _, none => isFalse (by simp)
  | some a, some b =>
      match decEq a b with
      | isTrue h => isTrue (by rw [h])
      | isFalse h => isFalse (by simp [h])

end

instance : DecidableEq Stmt :=
  decEq

end Stmt

deriving instance DecidableEq for Function
deriving instance DecidableEq for Program

end MicroGo
