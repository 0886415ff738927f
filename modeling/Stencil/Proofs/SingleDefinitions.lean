import Stencil.Proofs.Coherence
import Mathlib.Data.List.Nodup

/-!
# Aliases that are defined once

The analysis defines an alias at most once in a block, and registers it there. Moves can break this:
the analysis forgets what both branches of a conditional have defined, so that the block around it
may define the same alias again, and then the definition that leaves the branches comes on top.
`repeated_defined_twice` is such a function.

What matters is how many statements of one block supply an alias. A move leaves that number as it
is, so that a block in which each alias has one supplier ends up with one definition of it.

* `single_kept`: moves keep single suppliers, and with them registered aliases.
* `optimize_defines_aliases_once`: where each alias has a single supplier after the analysis, the
  optimised function defines it once in a block and where it is registered.
-/

namespace Stencil

namespace Node

theorem suppliesAny_eq_any (name : String) (body : List Node) :
    suppliesAny name body = body.any (·.supplies name) := by
  induction body with
  | nil => rfl
  | cons n rest ih => rw [suppliesAny, List.any_cons, ih]

theorem count_targets_le (name : String) (body : List Node) :
    (targets body).count name ≤ body.countP (·.supplies name) := by
  induction body with
  | nil => exact Nat.le_refl 0
  | cons n rest ih =>
    cases target : n.target? with
    | none =>
      rw [targets_cons_of_none target, List.countP_cons]
      omega
    | some other =>
      have supplies : n.supplies name = decide (other = name) := by
        cases n with
        | assign => cases target; rw [Node.supplies]
        | template | function | conditional | identifier | placeholder | literal | binary | filter
        | call | list | write => cases target
      rw [targets, List.filterMap_cons_some target, List.count_cons, List.countP_cons, supplies]
      simp only [beq_iff_eq, decide_eq_true_eq]
      exact Nat.add_le_add_right ih _

end Node

/-- Each of the given names has at most one supplier in a block, and is registered where it is
set. -/
structure Block.Single (P : String → Prop) (block : Block Node) : Prop where
  registered : ∀ name, P name → name ∈ Node.targets block.body →
    ∃ c, block.scope.aliases.get? c = some name
  once : ∀ name, P name → block.body.countP (·.supplies name) ≤ 1

section Single

variable {table : AliasTable} {P : String → Prop} {a b : Block Node} {c : Computation}
  {name : String} {definition : Node}

/-- The only supplier has left. -/
theorem Leaves.suppliesAny_of_once (h : Leaves c name a definition b)
    (once : a.body.countP (·.supplies name) ≤ 1) : Node.suppliesAny name b.body = false := by
  cases h with
  | mk front back place scope flat =>
    rw [List.countP_append, List.countP_cons_of_pos (by simp [Node.supplies])] at once
    have none : (front ++ back).countP (·.supplies name) = 0 := by
      rw [List.countP_append]
      omega
    rw [Node.suppliesAny_eq_any, List.any_eq_false]
    exact List.countP_eq_zero.1 none

theorem Leaves.not_mem_targets (h : Leaves c name a definition b)
    (once : a.body.countP (·.supplies name) ≤ 1) : name ∉ Node.targets b.body := by
  have none := h.suppliesAny_of_once once
  rw [Node.suppliesAny_eq_any, List.any_eq_false] at none
  have few := Node.count_targets_le name b.body
  rw [List.countP_eq_zero.2 none] at few
  exact List.count_eq_zero.1 (Nat.le_zero.1 few)

theorem Leaves.single (h : Leaves c name a definition b) (held : table name = some c)
    (injective : table.Injective) (lists : a.scope.Lists table) (single : a.Single P) :
    b.Single P := by
  constructor
  · intro other given member
    have different : other ≠ name := by
      rintro rfl
      exact h.not_mem_targets (single.once other given) member
    have before : other ∈ Node.targets a.body := by
      cases h with
      | mk => exact Node.mem_targets_around.2 (.inr member)
    obtain ⟨c', found⟩ := single.registered other given before
    refine ⟨c', h.get?_of_ne found ?_⟩
    rintro rfl
    exact different (injective other name c (lists.get found) held)
  · intro other given
    refine Nat.le_trans ?_ (single.once other given)
    cases h with
    | mk front back => exact ((List.sublist_cons_self _ back).append_left front).countP_le

/-- Moves keep single suppliers and registered aliases. -/
theorem single_kept (injective : table.Injective) (P : String → Prop) :
    Kept table fun block => block.Coherent table ∧ block.Single P where
  out := by
    intro c name before behind scope condition definition other thenBranch thenBranch' elseBranch
      elseBranch' span held fromThen fromElse outer inThen inElse
    obtain ⟨coherent, coherentThen, coherentElse⟩ :=
      (coherent_kept injective).out span held fromThen fromElse outer.1 inThen.1 inElse.1
    refine ⟨⟨coherent, ?_, ?_⟩,
      ⟨coherentThen, fromThen.single held injective inThen.1.lists inThen.2⟩,
      ⟨coherentElse, fromElse.single held injective inElse.1.lists inElse.2⟩⟩
    · intro target given member
      have found := outer.1.lists.get?_register injective held
      rcases (fromThen.mem_targets_out rfl).1 member with rfl | old
      · exact ⟨c, (found c).trans (if_pos rfl)⟩
      · obtain ⟨c', listed⟩ := outer.2.registered target given (by
          rw [Node.targets_around before behind rfl]
          exact old)
        by_cases same : c = c'
        · subst same
          refine ⟨c, (found c).trans ?_⟩
          rw [if_pos rfl, injective name target c held (outer.1.lists.get listed)]
        · exact ⟨c', (found c').trans ((if_neg same).trans listed)⟩
    · intro target given
      have once := outer.2.once target given
      rw [List.countP_append, List.countP_cons, Node.supplies_branches] at once
      rw [List.countP_append, List.countP_cons, List.countP_cons, Node.supplies_branches,
        fromThen.supplies_eq]
      -- the conditional supplies the alias before the move, and the definition in front of it after
      by_cases here : name = target
      · subst here
        rw [fromThen.suppliesAny, fromElse.suppliesAny] at once
        rw [fromThen.suppliesAny_of_once (inThen.2.once name given)]
        simp only [Bool.and_self, Bool.false_and, Bool.false_eq_true, decide_true, if_true,
          if_false] at once ⊢
        omega
      · rw [fromThen.suppliesAny_of_ne here, fromElse.suppliesAny_of_ne here]
        simp only [here, decide_false, Bool.false_eq_true, if_false]
        omega
  around := by
    intro n n' before behind scope unset unset' same h
    refine ⟨(coherent_kept injective).around before behind scope unset unset' same h.1, ?_, ?_⟩
    · intro name given member
      rw [Node.targets_around before behind unset'] at member
      apply h.2.registered name given
      rw [Node.targets_around before behind unset]
      exact member
    · intro name given
      have once := h.2.once name given
      rw [List.countP_append, List.countP_cons] at once ⊢
      rw [same name]
      exact once

end Single

section Tidy

variable {table : AliasTable}

/-- The analysis defines an alias once in a block. -/
theorem Block.Tidy.count_le_one {block : Block Node} (h : block.Tidy table) {name : String}
    (held : (table name).isSome) : (Node.targets block.body).count name ≤ 1 := by
  have distinct := h.lists.nodup_values
  rw [h.values, Node.aliasTargets] at distinct
  rw [← List.count_filter (p := fun name => (table name).isSome) held]
  exact List.nodup_iff_count_le_one.1 distinct name

end Tidy

section Finished

variable {options : Options} {globals : OrderedSet String} {table : AliasTable}
  {after : Assigned String} {f a : Block Node}

/-- Single suppliers in the analysed function give single definitions in the finished one. -/
theorem Registers.single_finished (h : Registers globals table f a)
    (optimizes : Optimizes table after f a)
    (once : options.hoistAliases = true → ∀ block ∈ a.blocks, ∀ name ∈ a.aliasNames,
      block.body.countP (·.supplies name) ≤ 1)
    {block : Block Node} (member : block ∈ (a.finished options).blocks) {name : String}
    (held : (table name).isSome) (target : name ∈ Node.targets block.body) :
    name ∈ block.scope.aliases.values ∧ name ∈ block.scope.locals ∧
      (Node.targets block.body).count name ≤ 1 := by
  have listed := h.listed_finished optimizes member target held
  cases hoists : options.hoistAliases with
  | true =>
    have start : ∀ inner ∈ a.blocks, inner.Coherent table ∧ inner.Single (· ∈ a.aliasNames) := by
      intro inner among
      refine ⟨(h.tidy inner among).coherent, fun other given there => ?_, once hoists inner among⟩
      obtain ⟨block, there', c, found⟩ := Block.mem_aliasNames_iff.1 given
      have known := (h.tidy block there').lists.get found
      exact OrderedMap.mem_values_iff.1
        ((h.tidy inner among).registered (by rw [known]; rfl) there)
    obtain ⟨coherent, single⟩ := (single_kept h.injective (· ∈ a.aliasNames)).forall_blocks
      (optimizes.finished_moves options) start block member
    obtain ⟨c, found⟩ := single.registered name listed target
    exact ⟨OrderedMap.mem_values_iff.2 ⟨c, found⟩, coherent.declared c name found,
      Nat.le_trans (Node.count_targets_le name block.body) (single.once name listed)⟩
  | false =>
    rw [Block.finished, hoists] at member
    have tidy := h.tidy block member
    have registered := tidy.registered held target
    exact ⟨registered, tidy.declared name registered, tidy.count_le_one held⟩

end Finished

/-- In an optimised function that after the analysis has no block with two suppliers of one alias,
or out of which nothing is moved, every block defines an introduced alias at most once, and has it
registered and declared where it defines it. -/
theorem optimize_defines_aliases_once (options : Options) (root : Node) (analysis : Analysis)
    (o : Optimization) (source : root.isSource) (analyzed : root.analyze options = .ok analysis)
    (h : root.optimize options = .ok o) (i : Nat) (f a g : Block Node)
    (hf : root.functions[i]? = some f) (ha : analysis.tree.functions[i]? = some a)
    (hg : o.tree.functions[i]? = some g)
    (once : options.hoistAliases = true → ∀ block ∈ a.blocks, ∀ name ∈ a.aliasNames,
      block.body.countP (·.supplies name) ≤ 1) :
    ∀ block ∈ g.blocks, ∀ name ∈ f.introduced g, name ∈ Node.targets block.body →
      name ∈ block.scope.aliases.values ∧ name ∈ block.scope.locals ∧
      (Node.targets block.body).count name ≤ 1 := by
  obtain ⟨analysis', again, functions, finished⟩ := optimize_finished source h
  rw [analyzed] at again
  cases again
  rw [finished, List.getElem?_map, ha] at hg
  cases hg
  obtain ⟨bound, rfl⟩ := List.getElem?_eq_some_iff.1 hf
  obtain ⟨bound', rfl⟩ := List.getElem?_eq_some_iff.1 ha
  obtain ⟨table, after, optimizes, registers⟩ := functions.get bound bound'
  intro block member name introduced target
  have held := ((optimizes.finished options).expanded.mem_introduced.1 introduced).2
  exact registers.single_finished optimizes once member held target

/-- A function that reads one placeholder in nested branches, the last of them with the filter of
the template. -/
def relayed : Block Node :=
  let foo := Node.placeholder .generated "foo" none
  let inner := Node.conditional .generated (.identifier .generated "hello")
    (.plain [.write .generated foo]) (some (.plain [.write .generated foo]))
  .plain
    [.conditional .generated (.identifier .generated "hello") (.plain [inner])
      (some (.plain [.write .generated (.filter .generated foo none none)]))]

/-- All three branches supply the alias, no block twice, and after the moves one definition in front
of both conditionals is left. -/
theorem relayed_optimize :
    ∃ analysis o a g, (Node.function .generated "relayed" relayed).analyze .caching = .ok analysis ∧
      (Node.function .generated "relayed" relayed).optimize .caching = .ok o ∧
      analysis.tree.functions = [a] ∧ o.tree.functions = [g] ∧
      (∀ block ∈ a.blocks, ∀ name ∈ a.aliasNames, block.body.countP (·.supplies name) ≤ 1) ∧
      g.blocks.map (fun block => Node.targets block.body) =
        [["_rph_foo"], [], [], [], ["_fph3B928884"]] :=
  ⟨_, _, _, _, rfl, rfl, rfl, rfl, by decide +kernel, by decide +kernel⟩

theorem relayed_defined_once :
    ∃ o g, (Node.function .generated "relayed" relayed).isSource = true ∧
      (Node.function .generated "relayed" relayed).optimize .caching = .ok o ∧
      o.tree.functions = [g] ∧
      g.blocks.map (fun block => Node.targets block.body) =
        [["_rph_foo"], [], [], [], ["_fph3B928884"]] ∧
      ∀ block ∈ g.blocks, ∀ name ∈ relayed.introduced g, name ∈ Node.targets block.body →
        name ∈ block.scope.aliases.values ∧ name ∈ block.scope.locals ∧
        (Node.targets block.body).count name ≤ 1 := by
  obtain ⟨analysis, o, a, g, analyzed, optimized, before, functions, once, moved⟩ :=
    relayed_optimize
  have all := optimize_defines_aliases_once .caching (.function .generated "relayed" relayed)
    analysis o (by decide) analyzed optimized 0 relayed a g rfl (by rw [before]; rfl)
    (by rw [functions]; rfl) fun _ => once
  exact ⟨o, g, by decide, optimized, functions, moved, all⟩

/-- A function that reads one placeholder in nested branches, and once more behind each of the two
conditionals. -/
def repeated : Block Node :=
  let foo := Node.placeholder .generated "foo" none
  let inner := Node.conditional .generated (.identifier .generated "hello")
    (.plain [.write .generated foo]) (some (.plain [.write .generated foo]))
  .plain
    [.conditional .generated (.identifier .generated "hello")
      (.plain [inner, .write .generated foo]) (some (.plain [.write .generated foo])),
      .write .generated foo]

/-- The definition that has left the outer conditional comes on top of the one behind it, and the
first branch keeps a definition that its scope has forgotten. -/
theorem repeated_defined_twice :
    ∃ o g block, (Node.function .generated "repeated" repeated).isSource = true ∧
      (Node.function .generated "repeated" repeated).optimize .caching = .ok o ∧
      o.tree.functions = [g] ∧ repeated.introduced g = ["_rph_foo", "_rph_foo", "_rph_foo"] ∧
      Node.targets g.body = ["_rph_foo", "_rph_foo"] ∧ g.blocks[1]? = some block ∧
      Node.targets block.body = ["_rph_foo"] ∧ block.scope.aliases.values = [] :=
  ⟨_, _, _, by decide, rfl, rfl, by decide +kernel, by decide +kernel, rfl, by decide +kernel,
    by decide +kernel⟩

end Stencil
