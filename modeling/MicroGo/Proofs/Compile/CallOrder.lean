import MicroGo.Proofs.Compile.Legibility
import MicroGo.Proofs.Token.Partition

/-!
# The order of calls

Every call instruction of a compiled text makes a call of the source text, and the code of every
expression is a stretch of the code of its function.  The calls in this stretch are those of the
expression.  Their order is that of their closing parentheses in the text, so that a left operand's
calls come before those of the right operand, and those of an argument before those of a later one
and before the call itself.

The exception are the two signs that are read with their operands exchanged.  Of `f() > g()` the
code calls `g` first, and what these functions do can tell the difference.
-/

namespace MicroGo

open Assembly Grammar

/-- **The calls of a program are emitted**, those of each expression in the given order.  The lines
behind the two at the head of the listing are marked with the calls that they make.  The marks are
all the calls of the text, and no call is made by two lines. -/
structure EmitsCalls (order : Occurrence → List Call) (tokens : List Token) (t : Grammar.Program)
    (p : Program) (code : List Line) : Prop where
  /-- The expressions, their calls and the signs in them stand where they are said to. -/
  stands : ∀ o ∈ t.expressions, SitsAt (tokens.map Token.toLexeme) o.number o.expression.lexemes ∧
    Placed (tokens.map Token.toLexeme) o.calls o.exchanges
  /-- Each line is marked with the call that it makes, and each function has lines of its own. -/
  marked : ∃ ms, code = [.operandStyle, .codeSection] ++ ms.map Prod.fst ∧
    MarkedFunctions order t.functions p.functions 0 0 ms ∧
    ((madeCalls ms).Pairwise fun c d => c.close ≠ d.close) ∧
    ∀ c, c ∈ madeCalls ms ↔ ∃ o ∈ t.expressions, c ∈ o.calls

/-- **The calls of every expression of a text are emitted in the given order.** -/
def EmitsInOrder (order : Occurrence → List Call) (source : String) : Prop :=
  ∀ tokens t, (tokensOf (withLineEnd source)).result = .ok tokens → Spells tokens t →
    (tokens.Pairwise fun t t' => t.pos.Before t'.pos) ∧
    ∃ p text code, (Program.parse tokens).result = .ok p ∧ (compile source).result = .ok text ∧
      read? text = some code ∧ EmitsCalls order tokens t p code

/-- The marks of functions are the calls of their expressions. -/
theorem mem_madeCalls_iff {ts : List Grammar.Function} {fs : List Function} {i n : Nat}
    {ms : List MarkedLine} (h : MarkedFunctions Occurrence.emitted ts fs i n ms) (c : Call) :
    c ∈ madeCalls ms ↔ ∃ o ∈ (functionRoots ts i).flatMap Occurrence.within, c ∈ o.calls := by
  constructor
  · intro hc
    rw [h.marks] at hc
    obtain ⟨o, ho, hc⟩ := List.mem_flatMap.1 hc
    exact ⟨o, List.mem_flatMap.2 ⟨o, ho, List.mem_cons_self⟩, o.arranged.perm.subset hc⟩
  · rintro ⟨o, ho, hc⟩
    obtain ⟨front, stretch, back, rfl, hstretch⟩ := h.exists_stretch o ho
    rw [madeCalls_append, madeCalls_append, hstretch, List.mem_append, List.mem_append]
    exact .inr (.inl (o.arranged.perm.mem_iff.2 hc))

/-- **The order of calls.**  Every accepted text spells a program.  For every expression in it, the
calls are emitted in the order of `emitted`: this is the order of their closing parentheses, except
that the calls on the right of a sign that exchanges its operands come before those on its left.  So
without such a sign it is the order of the closing parentheses. -/
theorem compile_emits_calls {source text : String} (h : (compile source).result = .ok text) :
    (∃ tokens t, (tokensOf (withLineEnd source)).result = .ok tokens ∧ Spells tokens t) ∧
      EmitsInOrder Occurrence.emitted source ∧
      ∀ o : Occurrence, Arranged o.number o.stop o.calls o.emitted o.exchanges ∧
        (o.exchanges = [] → o.emitted = o.calls) := by
  refine ⟨?_, fun tokens t htokens ht => ⟨?_, ?_⟩, fun o => ⟨o.arranged, fun hnone => ?_⟩⟩
  · obtain ⟨tokens, p, htokens, hp, -⟩ := exists_program h
    obtain ⟨t, ht⟩ := exists_spells hp
    exact ⟨tokens, t, htokens, ht⟩
  · exact (cut_of_scan (Traced.result_mapError_eq_ok.1 htokens)).pairwise_before
  · obtain ⟨tokens', p, htokens', hp, rfl⟩ := exists_program h
    obtain rfl : tokens' = tokens := Except.ok.inj (htokens'.symm.trans htokens)
    refine ⟨p, _, p.code, hp, h, read?_of_parse htokens hp, ?_⟩
    have hsits : SitsAt (tokens'.map Token.toLexeme) 0 (functionLexemes t.functions) :=
      ⟨[], [⟨.eof, ""⟩], rfl, by
        rw [map_toLexeme_of_scan (Traced.result_mapError_eq_ok.1 htokens), ht, List.nil_append]⟩
    have hspread := spread_functions t.functions hsits
    obtain ⟨ms, hms⟩ := exists_markedFunctions (program_eq_ok (elaborate_of_spells ht hp)).2 0 0
    refine ⟨fun o ho => ?_, ms, ?_, hms, ?_, mem_madeCalls_iff hms⟩
    · have hsits := hspread.sits_within o ho
      exact ⟨hsits, o.expression.placed o.past hsits⟩
    · rw [hms.lines]
      rfl
    · rw [hms.marks]
      exact hspread.close_ne
  · exact (hnone ▸ o.arranged).eq_of_nil

/-- Calls in arguments and on both sides of a sign that exchanges its operands. -/
theorem compile_emits_calls_nested :
    ∃ text, (compile "func m(a int) int \x7b return f(g(), a) - h() > (k() >= 2) \x7d").result =
        .ok text ∧
      EmitsInOrder Occurrence.emitted
        "func m(a int) int \x7b return f(g(), a) - h() > (k() >= 2) \x7d" := by
  obtain ⟨text, htext⟩ := exists_of_isOk (x := (compile
    "func m(a int) int \x7b return f(g(), a) - h() > (k() >= 2) \x7d").result) (by decide +kernel)
  exact ⟨text, htext, (compile_emits_calls htext).2.1⟩

/-- The call of a function without arguments, as an operand of a comparison. -/
def plainCall (callee : String) : Operand 2 :=
  .chain (.chain (.unary [] (.call callee .close)) .nil) .nil

theorem lookup_greater :
    (operators 2).lookup ">" = some fun l r => .binary .lt r l :=
  rfl

/-- The sentence that `f() > g()` spells. -/
def greaterCalls : Expression :=
  .chain (plainCall "f") (.cons ⟨">", _, lookup_greater⟩ (plainCall "g") .nil)

/-- **The order is not always that of the text.**  Of `f() > g()` the code calls `g` first. -/
theorem not_emitsInOrder_greater :
    (∃ text, (compile "func m() int \x7b return f() > g() \x7d").result = .ok text) ∧
      ¬EmitsInOrder Occurrence.calls "func m() int \x7b return f() > g() \x7d" := by
  refine ⟨exists_of_isOk (by decide +kernel), fun h => ?_⟩
  have hspells : (tokensOf (withLineEnd
      "func m() int \x7b return f() > g() \x7d")).result.toOption.map lexemesOf =
      some (functionLexemes [⟨"m", .close, true, .last (.ret greaterCalls)⟩]) := by
    decide +kernel
  obtain ⟨tokens, htokens, hlexemes⟩ := Option.map_eq_some_iff.1 hspells
  obtain ⟨-, p, text, code, -, -, -, hemits⟩ := h tokens
    ⟨⟨"m", .close, true, .last (.ret greaterCalls)⟩, []⟩ (eq_ok_of_toOption htokens) hlexemes
  obtain ⟨ms, -, hms, -⟩ := hemits.marked
  generalize p.functions = fs at hms
  cases hms with
  | cons _ marking _ =>
    -- the comparison begins with the token that has the number 7
    obtain ⟨front, stretch, back, rfl, hmade, e, is, he, his, hlines⟩ :=
      marking.emitted ⟨greaterCalls, 7, [.enter]⟩ List.mem_cons_self
    obtain ⟨ms', hms'⟩ := greaterCalls.isMarked 7 he is his
    have hagrees : ∀ m ∈ stretch, m.1.callee? = m.2.map Call.callee :=
      fun m hm => marking.agrees m (List.mem_append_right _ (List.mem_append_left _ hm))
    -- the lines of the stretch call `g` first, whatever they are marked with
    have hcallees := map_callee_madeCalls hagrees
    rw [hmade, hlines, ← hms'.lines, ← map_callee_madeCalls hms'.agrees, hms'.marks] at hcallees
    exact absurd hcallees (by decide)

end MicroGo
