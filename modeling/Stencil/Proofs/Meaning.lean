import Stencil.Proofs.Dominance
import Stencil.Proofs.Simulation

/-!
# Optimising keeps the meaning and adds no work

What a function writes and what it leaves in its variables is the same before and after optimising,
and the optimised form looks up nothing and filters nothing that its source would not have, as long
as no name of the function is named like one of the aliases that are introduced. Such a name can
occur: a variable that the function only reads is not among the names that an alias has to avoid.
`optimize_captures_read_variable` shows one.

Main statements: `optimize_keeps_output_and_variables` and `optimize_adds_no_work`.
-/

namespace Stencil

/-- A function in which no identifier or placeholder is named like an introduced alias writes the
same values when it is optimised, and ends with the same variables, the aliases apart. Neither form
gets stuck. -/
theorem optimize_keeps_output_and_variables (V : Type) (options : Options) (root : Node)
    (o : Optimization) (source : root.isSource) (h : root.optimize options = .ok o) :
    List.Forall₂ (fun f g => (∀ name ∈ f.mentions, name ∉ f.introduced g) →
      ∀ (rt : Runtime V) (locals : Locals V),
        (∀ name, (locals name).isSome ↔ name ∈ f.scope.locals) →
        ∃ r r', f.run rt locals = some r ∧ g.run rt locals = some r' ∧ r'.output = r.output ∧
          ∀ name, name ∉ f.introduced g → r'.locals name = r.locals name)
      root.functions o.tree.functions := by
  refine (optimize_functions source h).imp ?_
  rintro f g ⟨table, after, optimizes⟩ clear rt locals start
  obtain ⟨r, r', sourceRun, outRun, output, same, -⟩ :=
    optimizes.run clear rt locals fun name given => (start name).2 given
  exact ⟨r, r', sourceRun, outRun, output, same⟩

/-- Numbers as values: what is not zero is true, and a filter adds a hundred. -/
def Runtime.numbers : Runtime Nat where
  literal _ := 0
  truth v := v ≠ 0
  operate _ a b := a + b
  settle _ a := if a = 0 then some 0 else none
  filter _ v := v + 100
  call f vs := vs.foldl (· + ·) f
  list vs := vs.foldl (· + ·) 0
  environment _ := 1
  context name := name.length

/-- The variables of `notice` when it is called. -/
def noticeLocals : Locals Nat := fun name => if name = "user" then some 1 else none

theorem noticeLocals_isSome (name : String) :
    (noticeLocals name).isSome ↔ name ∈ notice.scope.locals := by
  have one : name ∈ notice.scope.locals ↔ name = "user" := List.mem_singleton
  rw [one, noticeLocals]
  split <;> simp [*]

theorem notice_keeps_output :
    ∃ o g, noticePage.isSource = true ∧ noticePage.optimize .caching = .ok o ∧
      o.tree.functions = [g] ∧ (∀ name ∈ notice.mentions, name ∉ notice.introduced g) ∧
      ∃ r r', notice.run .numbers noticeLocals = some r ∧ g.run .numbers noticeLocals = some r' ∧
        r'.output = r.output ∧
        ∀ name, name ∉ notice.introduced g → r'.locals name = r.locals name := by
  obtain ⟨o, g, optimized, functions, clear, -⟩ := noticePage_optimize
  have all := optimize_keeps_output_and_variables Nat .caching noticePage o (by decide) optimized
  rw [functions] at all
  exact ⟨o, g, by decide, optimized, functions, clear,
    (List.forall₂_cons.1 all).1 clear .numbers noticeLocals noticeLocals_isSome⟩

/-- A function that reads a placeholder, and a variable that is named like its alias. -/
def mention : Block Node :=
  .plain [.write .generated (.placeholder .generated "foo" none),
    .write .generated (.identifier .generated "_rph_foo")]

/-- The alias takes the place of the variable: the source writes the value of the placeholder and
that of the variable, and the optimised function writes the value of the placeholder twice. -/
theorem optimize_captures_read_variable :
    ∃ o g, (Node.function .generated "mention" mention).isSource = true ∧
      (Node.function .generated "mention" mention).optimize .caching = .ok o ∧
      o.tree.functions = [g] ∧
      (mention.run .numbers fun _ => none).map Outcome.output = some [3, 1] ∧
      (g.run .numbers fun _ => none).map Outcome.output = some [3, 3] :=
  ⟨_, _, by decide, rfl, rfl, by decide, by decide +kernel⟩

/-- In the same case the optimised function does at most as many look-ups and applies at most as
many filters as its source, and it looks up a name only if its source does. -/
theorem optimize_adds_no_work (V : Type) (options : Options) (root : Node) (o : Optimization)
    (source : root.isSource) (h : root.optimize options = .ok o) :
    List.Forall₂ (fun f g => (∀ name ∈ f.mentions, name ∉ f.introduced g) →
      ∀ (rt : Runtime V) (locals : Locals V),
        (∀ name, (locals name).isSome ↔ name ∈ f.scope.locals) →
        ∃ r r', f.run rt locals = some r ∧ g.run rt locals = some r' ∧
          r'.log.countP Step.isLookup ≤ r.log.countP Step.isLookup ∧
          r'.log.countP Step.isFilter ≤ r.log.countP Step.isFilter ∧
          ∀ name, .lookup name ∈ r'.log → .lookup name ∈ r.log)
      root.functions o.tree.functions := by
  refine (optimize_functions source h).imp ?_
  rintro f g ⟨table, after, optimizes⟩ clear rt locals start
  obtain ⟨r, r', sourceRun, outRun, -, -, work⟩ :=
    optimizes.run clear rt locals fun name given => (start name).2 given
  refine ⟨r, r', sourceRun, outRun, work _, work _, fun name looked => ?_⟩
  have often := work (· = .lookup name)
  have once : 0 < r'.log.countP (· = .lookup name) :=
    List.countP_pos_iff.2 ⟨_, looked, decide_eq_true rfl⟩
  obtain ⟨step, member, same⟩ := List.countP_pos_iff.1 (Nat.lt_of_lt_of_le once often)
  exact of_decide_eq_true same ▸ member

theorem notice_adds_no_work :
    ∃ o g, noticePage.isSource = true ∧ noticePage.optimize .caching = .ok o ∧
      o.tree.functions = [g] ∧ (∀ name ∈ notice.mentions, name ∉ notice.introduced g) ∧
      ∃ r r', notice.run .numbers noticeLocals = some r ∧ g.run .numbers noticeLocals = some r' ∧
        r'.log.countP Step.isLookup ≤ r.log.countP Step.isLookup ∧
        r'.log.countP Step.isFilter ≤ r.log.countP Step.isFilter ∧
        ∀ name, .lookup name ∈ r'.log → .lookup name ∈ r.log := by
  obtain ⟨o, g, optimized, functions, clear, -⟩ := noticePage_optimize
  have all := optimize_adds_no_work Nat .caching noticePage o (by decide) optimized
  rw [functions] at all
  exact ⟨o, g, by decide, optimized, functions, clear,
    (List.forall₂_cons.1 all).1 clear .numbers noticeLocals noticeLocals_isSome⟩

end Stencil
