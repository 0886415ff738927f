import Stencil.Proofs.Expansion

/-!
# An optimised body runs like its source

Two runs are compared, one of the source and one of its optimised form. Outside the aliases they see
the same variables, and an alias that is defined holds the value of its computation. Such values
never change during a run, because an alias stands for a placeholder that the function does not
assign, or for a filter of another alias.

Main statement: `Optimizes.run`, that both runs end with the same output and that the optimised form
does no more work of any kind.
-/

namespace Stencil

section Values

variable {V : Type} (rt : Runtime V) (table : AliasTable) (aliases : List String)
  (base : String → V)

/-- The value of the computation behind an alias, where the placeholders have the given values. -/
inductive Worth : String → V → Prop
  | lookup {alternative name : String} (held : table alternative = some (.placeholder name)) :
      Worth alternative (base name)
  | filter {alternative source : String} {name : Option String} {v : V}
      (held : table alternative = some (.filter name (.identifier source)))
      (introduced : source ∈ aliases) (inner : Worth source v) :
      Worth alternative (rt.filter name v)

/-- What the variables of the two runs have to do with each other where the given names are assigned
and the given aliases defined. -/
structure Agrees (assigned : Assigned String) (defined : List String) (locals locals' : Locals V) :
    Prop where
  same : ∀ name, name ∉ aliases → locals' name = locals name
  constant : ∀ alternative name, table alternative = some (.placeholder name) →
    name ∉ aliases ∧ (locals name).getD (rt.context name) = base name
  assigned : ∀ name ∈ assigned, (locals name).isSome
  holds : ∀ alternative ∈ defined, (table alternative).isSome → alternative ∈ aliases ∧
    ∃ v, locals' alternative = some v ∧ Worth rt table aliases base alternative v

end Values

section Expressions

variable {V : Type} {rt : Runtime V} {table : AliasTable} {aliases : List String}
  {base : String → V} {assigned : Assigned String} {defined : List String}
  {locals locals' : Locals V}

theorem Worth.eq_of_placeholder {alternative name : String} {v : V}
    (h : Worth rt table aliases base alternative v)
    (held : table alternative = some (.placeholder name)) : v = base name := by
  cases h with
  | lookup held' =>
    rw [held] at held'
    cases held'
    rfl
  | filter held' =>
    rw [held] at held'
    cases held'

theorem Worth.exists_of_filter {alternative source : String} {name : Option String} {v : V}
    (h : Worth rt table aliases base alternative v)
    (held : table alternative = some (.filter name (.identifier source))) :
    source ∈ aliases ∧ ∃ w, v = rt.filter name w ∧ Worth rt table aliases base source w := by
  cases h with
  | lookup held' =>
    rw [held] at held'
    cases held'
  | filter held' introduced inner =>
    rw [held] at held'
    cases held'
    exact ⟨introduced, _, rfl, inner⟩

theorem Agrees.mono {assigned' : Assigned String} {defined' : List String}
    (h : Agrees rt table aliases base assigned defined locals locals')
    (fewer : ∀ name ∈ assigned', name ∈ assigned) (less : defined' ⊆ defined) :
    Agrees rt table aliases base assigned' defined' locals locals' := by
  refine ⟨h.same, h.constant, ?_, ?_⟩
  · intro name member
    exact h.assigned name (fewer name member)
  · intro alternative member
    exact h.holds alternative (less member)

theorem countP_singleton (p : Step → Bool) (step : Step) : [step].countP p = step.price p := by
  cases h : p step <;> simp [h, Step.price]

/-- A placeholder has the same value in both runs, however it is read. -/
theorem eval_placeholder (agrees : Agrees rt table aliases base assigned defined locals locals')
    (span : Span) {name : String} {resolution : Option Resolution}
    (h : (Node.placeholder span name resolution).Resolved table assigned defined)
    (clear : name ∉ aliases) :
    ∃ work, (Node.placeholder span name resolution).eval rt locals' =
        some ((locals name).getD (rt.context name), work) ∧
      ∀ p, work.countP p + (Node.placeholder span name resolution).credit p ≤
        (Step.lookup name).price p := by
  have same := agrees.same name clear
  cases resolution with
  | none =>
    refine ⟨[.lookup name], ?_, fun p => ?_⟩
    · simp only [Node.eval, Resolution.source?, Option.bind_none, same]
    · rw [countP_singleton]
      exact Nat.le_refl _
  | some r =>
    obtain ⟨eligible, access⟩ := r
    have sound := h _ rfl
    cases access with
    | dynamic =>
      refine ⟨[.lookup name], ?_, fun p => ?_⟩
      · simp only [Node.eval, Resolution.source?, Option.bind_some, Access.identifier?, same]
      · rw [countP_singleton]
        exact Nat.le_refl _
    | direct source =>
      obtain ⟨rfl, there⟩ := sound
      obtain ⟨v, set⟩ := Option.isSome_iff_exists.1 (agrees.assigned _ there)
      refine ⟨[], ?_, fun p => ?_⟩
      · simp only [Node.eval, Resolution.source?, Option.bind_some, Access.identifier?, same, set,
          Option.map_some, Option.getD_some]
      · simp [Node.credit]
    | cached source =>
      obtain ⟨there, held⟩ := sound
      obtain ⟨-, v, set, worth⟩ := agrees.holds source there (by rw [held]; rfl)
      have value := (agrees.constant source name held).2
      refine ⟨[], ?_, fun p => ?_⟩
      · simp only [Node.eval, Resolution.source?, Option.bind_some, Access.identifier?, set,
          Option.map_some, value, worth.eq_of_placeholder held]
      · simp [Node.credit]

/-- The alias that keeps a filter holds what the filter makes of its operand. -/
theorem kept_value (agrees : Agrees rt table aliases base assigned defined locals locals')
    {span : Span} {operand : Node} {name : Option String} {kept : String} {v : V} {work : List Step}
    (h : (Node.filter span operand name (some kept)).Resolved table assigned defined)
    (run : operand.eval rt locals' = some (v, work)) (clear : ∀ n ∈ operand.mentions, n ∉ aliases) :
    locals' kept = some (rt.filter name v) := by
  obtain ⟨resolved, sound⟩ := h
  obtain ⟨there, source, held, stands⟩ := sound kept rfl
  obtain ⟨-, w, set, worth⟩ := agrees.holds kept there (by rw [held]; rfl)
  obtain ⟨introduced, u, rfl, inner⟩ := worth.exists_of_filter held
  cases operand with
  | identifier place other =>
    cases stands
    exact absurd introduced (clear _ List.mem_cons_self)
  | placeholder place other resolution =>
    obtain ⟨eligible, rfl⟩ := stands
    obtain ⟨ready, stood⟩ := resolved _ rfl
    obtain ⟨-, u', set', worth'⟩ := agrees.holds source ready (by rw [stood]; rfl)
    simp only [Node.eval, Resolution.source?, Option.bind_some, Access.identifier?, set',
      Option.map_some, Option.some.injEq, Prod.mk.injEq] at run
    rw [set, ← run.1, worth'.eq_of_placeholder stood, inner.eq_of_placeholder stood]
  | template | function | conditional | assign | literal | binary | filter | call | list | write =>
    exact stands.elim

mutual

/-- An expression has the same value in both runs, and its notes save what they promise. -/
theorem eval_agrees (agrees : Agrees rt table aliases base assigned defined locals locals')
    (e : Node) (h : e.Resolved table assigned defined)
    (clear : ∀ name ∈ e.mentions, name ∉ aliases) :
    ∃ v work work', e.bare.eval rt locals = some (v, work) ∧ e.eval rt locals' = some (v, work') ∧
      ∀ p, work'.countP p + e.credit p ≤ work.countP p := by
  cases e with
  | identifier span name =>
    have same := agrees.same name (clear name List.mem_cons_self)
    refine ⟨_, [], [], rfl, ?_, fun p => Nat.le_refl _⟩
    rw [Node.eval, same]
  | literal span value => exact ⟨_, [], [], rfl, rfl, fun p => Nat.le_refl _⟩
  | placeholder span name resolution =>
    obtain ⟨work, run, saved⟩ := eval_placeholder agrees span h (clear name List.mem_cons_self)
    refine ⟨_, [.lookup name], work, rfl, run, fun p => ?_⟩
    rw [countP_singleton]
    exact saved p
  | binary span op left right =>
    simp only [Node.mentions, List.mem_append] at clear
    obtain ⟨a, workLeft, workLeft', sourceLeft, runLeft, savedLeft⟩ :=
      eval_agrees agrees left h.1 fun name member => clear name (.inl member)
    obtain ⟨b, workRight, workRight', sourceRight, runRight, savedRight⟩ :=
      eval_agrees agrees right h.2 fun name member => clear name (.inr member)
    simp only [Node.bare, Node.eval, sourceLeft, runLeft, Option.bind_eq_bind, Option.bind_some,
      sourceRight, runRight, Option.pure_def]
    cases decided : if op = .and ∨ op = .or then rt.settle op a else none with
    | some v =>
      refine ⟨v, workLeft, workLeft', rfl, rfl, fun p => ?_⟩
      have skipped : op = .and ∨ op = .or := by
        by_contra both
        simp [both] at decided
      have left := savedLeft p
      simp only [Node.credit, if_pos skipped]
      omega
    | none =>
      refine ⟨_, workLeft ++ workRight, workLeft' ++ workRight', rfl, rfl, fun p => ?_⟩
      have left := savedLeft p
      have right := savedRight p
      simp only [Node.credit, List.countP_append]
      split <;> omega
  | filter span operand name cachedAs =>
    obtain ⟨v, work, work', source, run, saved⟩ := eval_agrees agrees operand h.1 clear
    cases cachedAs with
    | none =>
      refine ⟨rt.filter name v, work ++ [.filter name], work' ++ [.filter name], ?_, ?_,
        fun p => ?_⟩
      · simp only [Node.bare, Node.eval, source, Option.bind_eq_bind, Option.bind_some,
          Option.pure_def]
      · simp only [Node.eval, run, Option.bind_eq_bind, Option.bind_some, Option.pure_def]
      · have inner := saved p
        simp only [Node.credit, List.countP_append]
        omega
    | some kept =>
      have value := kept_value agrees h run clear
      refine ⟨rt.filter name v, work ++ [.filter name], [], ?_, ?_, fun p => ?_⟩
      · simp only [Node.bare, Node.eval, source, Option.bind_eq_bind, Option.bind_some,
          Option.pure_def]
      · simp only [Node.eval, value, Option.map_some]
      · have inner := saved p
        simp only [Node.credit, List.countP_append, countP_singleton, List.countP_nil]
        omega
  | call span callee arguments =>
    simp only [Node.mentions, List.mem_append] at clear
    obtain ⟨f, work₁, work₁', source₁, run₁, saved₁⟩ :=
      eval_agrees agrees callee h.1 fun name member => clear name (.inl member)
    obtain ⟨vs, work₂, work₂', source₂, run₂, saved₂⟩ :=
      evalEach_agrees agrees arguments h.2 fun name member => clear name (.inr member)
    refine ⟨rt.call f vs, work₁ ++ work₂, work₁' ++ work₂', ?_, ?_, fun p => ?_⟩
    · simp only [Node.bare, Node.eval, source₁, source₂, Option.bind_eq_bind, Option.bind_some,
        Option.pure_def]
    · simp only [Node.eval, run₁, run₂, Option.bind_eq_bind, Option.bind_some, Option.pure_def]
    · have first := saved₁ p
      have second := saved₂ p
      simp only [Node.credit, List.countP_append]
      omega
  | list span items =>
    obtain ⟨vs, work, work', source, run, saved⟩ := evalEach_agrees agrees items h clear
    refine ⟨rt.list vs, work, work', ?_, ?_, saved⟩
    · simp only [Node.bare, Node.eval, source, Option.bind_eq_bind, Option.bind_some,
        Option.pure_def]
    · simp only [Node.eval, run, Option.bind_eq_bind, Option.bind_some, Option.pure_def]
  | template | function | conditional | assign | write => exact h.elim
termination_by structural e

theorem evalEach_agrees (agrees : Agrees rt table aliases base assigned defined locals locals')
    (es : List Node) (h : Node.ResolvedEach table assigned defined es)
    (clear : ∀ name ∈ Node.mentionsOf es, name ∉ aliases) :
    ∃ vs work work', Node.evalEach rt locals (Node.bareEach es) = some (vs, work) ∧
      Node.evalEach rt locals' es = some (vs, work') ∧
      ∀ p, work'.countP p + Node.creditEach p es ≤ work.countP p := by
  cases es with
  | nil => exact ⟨[], [], [], rfl, rfl, fun p => Nat.le_refl _⟩
  | cons e rest =>
    simp only [Node.mentionsOf, List.mem_append] at clear
    obtain ⟨v, work₁, work₁', source₁, run₁, saved₁⟩ :=
      eval_agrees agrees e h.1 fun name member => clear name (.inl member)
    obtain ⟨vs, work₂, work₂', source₂, run₂, saved₂⟩ :=
      evalEach_agrees agrees rest h.2 fun name member => clear name (.inr member)
    refine ⟨v :: vs, work₁ ++ work₂, work₁' ++ work₂', ?_, ?_, fun p => ?_⟩
    · simp only [Node.bareEach, Node.evalEach, source₁, source₂, Option.bind_eq_bind,
        Option.bind_some, Option.pure_def]
    · simp only [Node.evalEach, run₁, run₂, Option.bind_eq_bind, Option.bind_some, Option.pure_def]
    · have first := saved₁ p
      have second := saved₂ p
      simp only [Node.creditEach, List.countP_append]
      omega
termination_by structural es

end

/-- An expression and its optimised form, as for the form alone. -/
theorem Annotated.eval {e e' : Node} (noted : Annotated table assigned defined e e')
    (agrees : Agrees rt table aliases base assigned defined locals locals')
    (clear : ∀ name ∈ e.mentions, name ∉ aliases) :
    ∃ v work work', e.eval rt locals = some (v, work) ∧ e'.eval rt locals' = some (v, work') ∧
      ∀ p, (work'.countP p : Int) + e'.credit p ≤ work.countP p := by
  rw [noted.mentions_eq] at clear
  obtain ⟨v, work, work', source, run, saved⟩ := eval_agrees agrees e' noted.resolved clear
  refine ⟨v, work, work', noted.bare ▸ source, run, fun p => ?_⟩
  have less := saved p
  omega

theorem Node.Resolved.exec_eq {e : Node} (h : e.Resolved table assigned defined) {v : V}
    {work : List Step} (run : e.eval rt locals = some (v, work)) :
    e.exec rt locals = some ⟨locals, [], work⟩ := by
  cases e with
  | identifier | literal | placeholder | binary | filter | call | list =>
    rw [Node.exec, run]
    rfl
  | template | function | conditional | assign | write => exact h.elim

end Expressions

section Statements

variable {V : Type} {rt : Runtime V} {table : AliasTable} {aliases : List String}
  {base : String → V} {assigned after : Assigned String} {defined : List String}
  {locals locals' : Locals V} {source out : List Node}

/-- The definition of an alias computes what the alias is to hold. -/
theorem definition_value (agrees : Agrees rt table aliases base assigned defined locals locals')
    {alternative : String} {c : Computation} {value : Node} (held : table alternative = some c)
    (definition : Definition table defined c value) :
    ∃ v work, value.eval rt locals' = some (v, work) ∧
      Worth rt table aliases base alternative v ∧ ∀ p, work.countP p = c.price p := by
  cases definition with
  | lookup span name =>
    obtain ⟨clear, constant⟩ := agrees.constant alternative name held
    refine ⟨base name, [.lookup name], ?_, .lookup held, fun p => countP_singleton p _⟩
    rw [← constant, ← agrees.same name clear]
    rfl
  | @filter origin span place name ready aliased =>
    obtain ⟨introduced, v, set, worth⟩ := agrees.holds origin ready aliased
    refine ⟨rt.filter name v, [.filter name], ?_, .filter held introduced worth,
      fun p => countP_singleton p _⟩
    simp only [Node.eval, set, Option.getD_some, Option.bind_eq_bind, Option.bind_some,
      Option.pure_def, List.nil_append]

/-- Defining an alias changes nothing for the source. -/
theorem Agrees.define (agrees : Agrees rt table aliases base assigned defined locals locals')
    {alternative : String} {v : V} (introduced : alternative ∈ aliases)
    (worth : Worth rt table aliases base alternative v) :
    Agrees rt table aliases base assigned (defined ++ [alternative]) locals
      (locals'.set alternative v) := by
  refine ⟨?_, agrees.constant, agrees.assigned, ?_⟩
  · intro name clear
    have other : name ≠ alternative := fun same => clear (same ▸ introduced)
    rw [Locals.set_of_ne _ _ other, agrees.same name clear]
  · intro name member aliased
    by_cases same : name = alternative
    · subst same
      exact ⟨introduced, v, Locals.set_self _ _ _, worth⟩
    · have earlier : name ∈ defined := by simpa [same] using member
      rw [Locals.set_of_ne _ _ same]
      exact agrees.holds name earlier aliased

/-- Both runs assign a variable of the source. -/
theorem Agrees.assign (agrees : Agrees rt table aliases base assigned defined locals locals')
    {target : String} (v : V) (free : table target = none) (clear : target ∉ aliases)
    (varying : ∀ alternative, table alternative ≠ some (.placeholder target)) :
    Agrees rt table aliases base (assigned.insert target) (defined ++ [target])
      (locals.set target v) (locals'.set target v) := by
  refine ⟨?_, ?_, ?_, ?_⟩
  · intro name outside
    by_cases same : name = target
    · rw [same, Locals.set_self, Locals.set_self]
    · rw [Locals.set_of_ne _ _ same, Locals.set_of_ne _ _ same, agrees.same name outside]
  · intro alternative name held
    have other : name ≠ target := fun same => varying alternative (same ▸ held)
    rw [Locals.set_of_ne _ _ other]
    exact agrees.constant alternative name held
  · intro name member
    by_cases same : name = target
    · rw [same, Locals.set_self]
      rfl
    · rw [Locals.set_of_ne _ _ same]
      have earlier : name ∈ assigned := by simpa [same] using member
      exact agrees.assigned name earlier
  · intro name member aliased
    have other : name ≠ target := by
      rintro rfl
      rw [free] at aliased
      cases aliased
    rw [Locals.set_of_ne _ _ other]
    have earlier : name ∈ defined := by simpa [other] using member
    exact agrees.holds name earlier aliased

/-- The outcomes of the two runs: the same output, variables that agree, and at least so much less
work of any kind. -/
structure Matches (rt : Runtime V) (table : AliasTable) (aliases : List String) (base : String → V)
    (assigned : Assigned String) (defined : List String) (saved : (Step → Bool) → Int)
    (r r' : Outcome V) : Prop where
  output : r'.output = r.output
  locals : Agrees rt table aliases base assigned defined r.locals r'.locals
  work : ∀ p, r'.log.countP p + saved p ≤ r.log.countP p

/-- One piece of code after another, in both runs. -/
theorem Matches.andThen {later later' : Outcome V} {defined' : List String}
    {saved saved' : (Step → Bool) → Int}
    (h : Matches rt table aliases base assigned defined' saved' later later')
    (first first' : Outcome V) (output : first'.output = first.output)
    (work : ∀ p, first'.log.countP p + saved p ≤ first.log.countP p)
    (less : defined ⊆ defined') :
    Matches rt table aliases base assigned defined (fun p => saved p + saved' p)
      (first.andThen later) (first'.andThen later') := by
  refine ⟨?_, h.locals.mono (fun _ member => member) less, fun p => ?_⟩
  · simp only [Outcome.andThen, output, h.output]
  · have one := work p
    have two := h.work p
    simp only [Outcome.andThen, List.countP_append]
    omega

/-- Both bodies run to an end from the given variables, and their outcomes match. -/
def Simulates (rt : Runtime V) (table : AliasTable) (aliases : List String) (base : String → V)
    (source out : List Node) (locals locals' : Locals V) (after : Assigned String)
    (defined : List String) (saved : (Step → Bool) → Int) : Prop :=
  ∃ r r', Node.execEach rt source locals = some r ∧ Node.execEach rt out locals' = some r' ∧
    Matches rt table aliases base after defined saved r r'

theorem Simulates.nil (agrees : Agrees rt table aliases base assigned defined locals locals') :
    Simulates rt table aliases base [] [] locals locals' assigned defined fun _ => 0 :=
  ⟨_, _, rfl, rfl, rfl, agrees, fun p => by simp⟩

/-- A statement of the source and its optimised form, in front of two bodies. -/
theorem Simulates.cons {n n' : Node} {first first' : Outcome V} {defined' : List String}
    {saved saved' : (Step → Bool) → Int} (sourceRun : n.exec rt locals = some first)
    (outRun : n'.exec rt locals' = some first') (output : first'.output = first.output)
    (work : ∀ p, first'.log.countP p + saved p ≤ first.log.countP p)
    (later : Simulates rt table aliases base source out first.locals first'.locals after defined'
      saved')
    (less : defined ⊆ defined') :
    Simulates rt table aliases base (n :: source) (n' :: out) locals locals' after defined
      fun p => saved p + saved' p := by
  obtain ⟨r, r', sourceRest, outRest, matched⟩ := later
  exact ⟨first.andThen r, first'.andThen r', Node.execEach_cons rt sourceRun sourceRest,
    Node.execEach_cons rt outRun outRest, matched.andThen first first' output work less⟩

/-- The branch that is taken. What is assigned afterwards is so on both ways, and no more is saved
than either branch saves. -/
theorem Simulates.either {thenBody thenBody' elseBody elseBody' : List Node}
    {inThen inElse : Assigned String} {thenSaved elseSaved : (Step → Bool) → Int}
    (thenSide : Simulates rt table aliases base thenBody thenBody' locals locals' inThen defined
      thenSaved)
    (elseSide : Simulates rt table aliases base elseBody elseBody' locals locals' inElse defined
      elseSaved)
    (both : ∀ name ∈ assigned, name ∈ inThen ∧ name ∈ inElse) (condition : Bool) :
    Simulates rt table aliases base (if condition then thenBody else elseBody)
      (if condition then thenBody' else elseBody') locals locals' assigned defined
      fun p => min (thenSaved p) (elseSaved p) := by
  cases condition with
  | true =>
    obtain ⟨r, r', sourceRun, outRun, matched⟩ := thenSide
    refine ⟨r, r', sourceRun, outRun, matched.output, ?_, fun p => ?_⟩
    · exact matched.locals.mono (fun name member => (both name member).1) (List.Subset.refl _)
    · have work := matched.work p
      omega
  | false =>
    obtain ⟨r, r', sourceRun, outRun, matched⟩ := elseSide
    refine ⟨r, r', sourceRun, outRun, matched.output, ?_, fun p => ?_⟩
    · exact matched.locals.mono (fun name member => (both name member).2) (List.Subset.refl _)
    · have work := matched.work p
      omega

/-- What is assigned behind two branches is assigned in both. -/
theorem Assigned.mem_of_mem_join {inThen inElse : Assigned String} {name : String}
    (thenGrows : name ∈ assigned → name ∈ inThen) (elseGrows : name ∈ assigned → name ∈ inElse)
    (h : name ∈ assigned.join [inThen, inElse]) : name ∈ inThen ∧ name ∈ inElse := by
  rcases Assigned.mem_join.1 h with earlier | ⟨-, both⟩
  · exact ⟨thenGrows earlier, elseGrows earlier⟩
  · exact ⟨both inThen (by simp), both inElse (by simp)⟩

/-- A conditional in front of two bodies: the condition, the branch that is taken, and the rest. -/
theorem Simulates.conditional {condition condition' : Node} {thenBranch thenBranch' : Block Node}
    {elseBranch elseBranch' : Option (Block Node)} {v : V} {work work' : List Step}
    {joined : Assigned String} {credit : (Step → Bool) → Nat}
    {saved saved' : (Step → Bool) → Int} (span : Span)
    (sourceRun : condition.eval rt locals = some (v, work))
    (outRun : condition'.eval rt locals' = some (v, work'))
    (tested : ∀ p, (work'.countP p : Int) + credit p ≤ work.countP p)
    (branch : Simulates rt table aliases base
      (if rt.truth v then thenBranch.body else elseBranch.elim [] Block.body)
      (if rt.truth v then thenBranch'.body else elseBranch'.elim [] Block.body) locals locals'
      joined defined saved)
    (later : ∀ {locals locals'}, Agrees rt table aliases base joined defined locals locals' →
      Simulates rt table aliases base source out locals locals' after defined saved') :
    Simulates rt table aliases base (.conditional span condition thenBranch elseBranch :: source)
      (.conditional span condition' thenBranch' elseBranch' :: out) locals locals' after defined
      fun p => credit p + saved p + saved' p := by
  obtain ⟨b, b', sourceBranch, outBranch, matched⟩ := branch
  have first : (Node.conditional span condition thenBranch elseBranch).exec rt locals =
      some ((Outcome.mk locals [] work).andThen b) := by
    rw [Node.exec_conditional rt span _ _ sourceRun, sourceBranch]
    rfl
  have first' : (Node.conditional span condition' thenBranch' elseBranch').exec rt locals' =
      some ((Outcome.mk locals' [] work').andThen b') := by
    rw [Node.exec_conditional rt span _ _ outRun, outBranch]
    rfl
  refine Simulates.cons first first' ?_ (fun p => ?_) (later matched.locals) (List.Subset.refl _)
  · simp only [Outcome.andThen, List.nil_append, matched.output]
  · have inCondition := tested p
    have inBranch := matched.work p
    simp only [Outcome.andThen, List.countP_append]
    omega

/-- No name of the source is one of the aliases, no placeholder behind an alias is assigned, and all
definitions are of these aliases. -/
structure Apart (table : AliasTable) (aliases : List String) (source out : List Node) : Prop where
  mentions : ∀ name ∈ Node.mentionsOf source, name ∉ aliases
  targets : ∀ name ∈ Node.assignmentsOf source, name ∉ aliases ∧
    ∀ alternative, table alternative ≠ some (.placeholder name)
  definitions : ∀ name ∈ Node.assignmentsOf out, (table name).isSome → name ∈ aliases

theorem Apart.part {source' out' : List Node} (h : Apart table aliases source out)
    (mentions : Node.mentionsOf source' ⊆ Node.mentionsOf source)
    (targets : Node.assignmentsOf source' ⊆ Node.assignmentsOf source)
    (definitions : Node.assignmentsOf out' ⊆ Node.assignmentsOf out) :
    Apart table aliases source' out' := by
  constructor
  · intro name member
    exact h.mentions name (mentions member)
  · intro name member
    exact h.targets name (targets member)
  · intro name member
    exact h.definitions name (definitions member)

theorem Apart.tail {n n' : Node} (h : Apart table aliases (n :: source) (n' :: out)) :
    Apart table aliases source out := by
  apply h.part
  · intro name member
    exact List.mem_append_right _ member
  · intro name member
    exact List.mem_append_right _ member
  · intro name member
    exact List.mem_append_right _ member

theorem Apart.thenOnly {span : Span} {condition condition' : Node} {thenBody thenBody' : List Node}
    {thenScope thenScope' : Scope} {elseBranch elseBranch' : Option (Block Node)}
    (h : Apart table aliases
      (.conditional span condition ⟨thenBody, thenScope⟩ elseBranch :: source)
      (.conditional span condition' ⟨thenBody', thenScope'⟩ elseBranch' :: out)) :
    Apart table aliases thenBody thenBody' := by
  cases elseBranch <;> cases elseBranch' <;> apply h.part <;> intro name member <;>
    simp [Node.mentionsOf, Node.mentions, Node.assignmentsOf, Node.assignments, member]

theorem Apart.elseOnly {span : Span} {condition condition' : Node}
    {thenBranch thenBranch' : Block Node} {elseBody elseBody' : List Node}
    {elseScope elseScope' : Scope}
    (h : Apart table aliases
      (.conditional span condition thenBranch (some ⟨elseBody, elseScope⟩) :: source)
      (.conditional span condition' thenBranch' (some ⟨elseBody', elseScope'⟩) :: out)) :
    Apart table aliases elseBody elseBody' := by
  apply h.part <;> intro name member <;>
    simp [Node.mentionsOf, Node.mentions, Node.assignmentsOf, Node.assignments, member]

/-- The source and its optimised form run alike. -/
theorem exec_agrees (h : Expanded table assigned defined source out after)
    (apart : Apart table aliases source out)
    (agrees : Agrees rt table aliases base assigned defined locals locals') :
    Simulates rt table aliases base source out locals locals' after defined
      fun p => Node.savingsOf p table out := by
  induction h generalizing locals locals' with
  | nil => exact .nil agrees
  | @define table assigned after defined source out alternative c value span held definition later
      ih =>
    have introduced : alternative ∈ aliases := by
      apply apart.definitions
      · exact List.mem_append_left _ List.mem_cons_self
      · rw [held]
        rfl
    obtain ⟨v, work, run, worth, cost⟩ := definition_value agrees held definition
    have behind : Apart table aliases source out := by
      apply apart.part
      · exact List.Subset.refl _
      · exact List.Subset.refl _
      · exact List.subset_append_right _ _
    obtain ⟨r, r', sourceRun, outRun, matched⟩ := ih behind (agrees.define introduced worth)
    refine ⟨r, _, sourceRun, Node.execEach_cons rt (Node.exec_assign rt span _ run) outRun, ?_⟩
    have paid : ∀ p, (work.countP p : Int) + -(c.price p : Int) ≤ 0 := by
      intro p
      rw [cost p]
      omega
    simp only [Node.savingsOf, Node.savings, held]
    exact matched.andThen ⟨locals, [], []⟩ _ rfl paid (List.subset_append_left _ _)
  | @assign table assigned after defined source out target value value' span free noted later ih =>
    obtain ⟨clear, varying⟩ := apart.targets target (List.mem_append_left _ List.mem_cons_self)
    obtain ⟨v, work, work', sourceValue, outValue, saved⟩ := noted.eval agrees fun name member =>
      apart.mentions name (List.mem_append_left _ member)
    simp only [Node.savingsOf, Node.savings, free]
    exact .cons (Node.exec_assign rt span target sourceValue)
      (Node.exec_assign rt span target outValue) rfl saved
      (ih apart.tail (agrees.assign v free clear varying)) (List.subset_append_left _ _)
  | @write table assigned after defined source out operand operand' span noted later ih =>
    obtain ⟨v, work, work', sourceValue, outValue, saved⟩ := noted.eval agrees fun name member =>
      apart.mentions name (List.mem_append_left _ member)
    exact .cons (Node.exec_write rt span sourceValue) (Node.exec_write rt span outValue) rfl saved
      (ih apart.tail agrees) (List.Subset.refl _)
  | @expression table assigned after defined source out e e' noted later ih =>
    obtain ⟨v, work, work', sourceValue, outValue, saved⟩ := noted.eval agrees fun name member =>
      apart.mentions name (List.mem_append_left _ member)
    have plain : e.Resolved table assigned defined := by
      rw [← noted.bare]
      exact Node.Resolved.bare e' noted.resolved
    simp only [Node.savingsOf, noted.resolved.savings_eq]
    exact .cons (plain.exec_eq sourceValue) (noted.resolved.exec_eq outValue) rfl saved
      (ih apart.tail agrees) (List.Subset.refl _)
  | @branch table assigned inThen after defined source out thenBody thenBody' condition condition'
      thenScope thenScope' span noted lists thenSide later thenIH ih =>
    obtain ⟨v, work, work', sourceValue, outValue, saved⟩ := noted.eval agrees fun name member =>
      apart.mentions name (by simp [Node.mentionsOf, Node.mentions, member])
    -- A missing branch is an empty one, which saves nothing.
    have taken := (thenIH apart.thenOnly agrees).either (.nil agrees)
      (fun _ member => Assigned.mem_of_mem_join thenSide.assigned_subset id member) (rt.truth v)
    exact taken.conditional span sourceValue outValue saved (ih apart.tail)
  | @branches table assigned inThen inElse after defined source out thenBody thenBody' elseBody
      elseBody' condition condition' thenScope thenScope' elseScope elseScope' span noted thenLists
      elseLists thenSide elseSide later thenIH elseIH ih =>
    obtain ⟨v, work, work', sourceValue, outValue, saved⟩ := noted.eval agrees fun name member =>
      apart.mentions name (by simp [Node.mentionsOf, Node.mentions, member])
    have taken := (thenIH apart.thenOnly agrees).either (elseIH apart.elseOnly agrees)
      (fun _ member =>
        Assigned.mem_of_mem_join thenSide.assigned_subset elseSide.assigned_subset member)
      (rt.truth v)
    exact taken.conditional span sourceValue outValue saved (ih apart.tail)
  | @function table inner assigned inside after defined source out body body' scope scope' span name
      constant lists affordable within later _ ih =>
    exact .cons rfl rfl rfl (fun p => Int.le_refl _) (ih apart.tail agrees) (List.Subset.refl _)

end Statements

/-- Where no name of a function is named like an introduced alias, its optimised form ends with the
same output and the same variables, the aliases apart, and does no more work of any kind. -/
theorem Optimizes.run {V : Type} {table : AliasTable} {after : Assigned String} {f g : Block Node}
    (h : Optimizes table after f g) (clear : ∀ name ∈ f.mentions, name ∉ f.introduced g)
    (rt : Runtime V) (locals : Locals V) (given : ∀ name ∈ f.scope.locals, (locals name).isSome) :
    ∃ r r', f.run rt locals = some r ∧ g.run rt locals = some r' ∧ r'.output = r.output ∧
      (∀ name, name ∉ f.introduced g → r'.locals name = r.locals name) ∧
      ∀ p, r'.log.countP p ≤ r.log.countP p := by
  have apart : Apart table (f.introduced g) f.body g.body := by
    refine ⟨clear, ?_, ?_⟩
    · intro name target
      constructor
      · intro introduced
        simp only [Block.introduced, List.mem_filter, decide_eq_true_eq] at introduced
        exact introduced.2 target
      · intro alternative held
        exact (h.constant alternative name held).2 target
    · intro name assigned held
      simp only [Block.introduced, List.mem_filter, decide_eq_true_eq]
      refine ⟨assigned, fun target => ?_⟩
      rw [h.expanded.target_free target] at held
      cases held
  have agrees : Agrees rt table (f.introduced g) (fun name => (locals name).getD (rt.context name))
      (.ofList f.scope.locals.toList) [] locals locals := by
    refine ⟨fun _ _ => rfl, ?_, ?_, fun _ member => by cases member⟩
    · intro alternative name held
      exact ⟨clear name (h.constant alternative name held).1, rfl⟩
    · intro name member
      exact given name (Assigned.mem_ofList.1 member)
  obtain ⟨r, r', sourceRun, outRun, matched⟩ := exec_agrees h.expanded apart agrees
  refine ⟨r, r', sourceRun, outRun, matched.output, matched.locals.same, fun p => ?_⟩
  have saved := matched.work p
  have affordable := h.affordable p
  omega

end Stencil
