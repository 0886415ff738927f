import Stencil.Proofs.FixedPoint

/-!
# What the hoisting pass conserves

The pass takes definitions of aliases out of branches, and accounts for each of them by an event. It
runs on every tree, also on one that no analysis has made: the scopes of its blocks may hold two
computations under one name, or aliases that nothing defines. All that it does to the statements of
a conditional is a run of trades (`Trade`), each of which takes an assignment out of both branches
and leaves one of the two in front. So three things hold of every tree.

* `Paired`: the events come in pairs, one for each branch.
* `settings`: the assignments to a name that stand in blocks become fewer by one for each pair.
* `Node.residue`: what is left when the assignments to the names of the events are disregarded is
  the same tree.
* `hoisting_conserves_statements`: the three together.
-/

namespace Stencil

namespace OrderedSet

variable {α : Type} [DecidableEq α] {s : OrderedSet α} {gone : List α} {a : α}

/-- The set without some members. -/
def without (s : OrderedSet α) (gone : List α) : OrderedSet α :=
  ⟨s.toList.filter (· ∉ gone), s.nodup.filter _⟩

theorem toList_without : (s.without gone).toList = s.toList.filter (· ∉ gone) := rfl

theorem without_insert (member : a ∈ gone) : (s.insert a).without gone = s.without gone := by
  by_cases there : a ∈ s
  · rw [insert_of_mem there]
  · apply OrderedSet.ext
    rw [toList_without, toList_insert_of_not_mem there, List.filter_append, toList_without]
    simp [member]

theorem without_erase (member : a ∈ gone) : (s.erase a).without gone = s.without gone := by
  apply OrderedSet.ext
  have erased : (s.erase a).toList = s.toList.filter (· ≠ a) := rfl
  rw [toList_without, toList_without, erased, List.filter_filter]
  apply List.filter_congr
  intro b _
  by_cases same : b = a
  · simp [same, member]
  · simp [same]

end OrderedSet

namespace OrderedMap

variable {κ ν : Type} [DecidableEq κ] {m : OrderedMap κ ν} {gone : List κ} {k : κ}

/-- The map without the entries of some keys. -/
def without (m : OrderedMap κ ν) (gone : List κ) : OrderedMap κ ν :=
  ⟨m.toList.filter (·.1 ∉ gone), m.nodup.sublist (List.filter_sublist.map Prod.fst)⟩

theorem toList_without : (m.without gone).toList = m.toList.filter (·.1 ∉ gone) := rfl

theorem without_insertIfNew (v : ν) (member : k ∈ gone) :
    (m.insertIfNew k v).without gone = m.without gone := by
  cases found : m.get? k with
  | some old => rw [insertIfNew, found]; rfl
  | none =>
    apply OrderedMap.ext
    rw [toList_without, insertIfNew_of_get? v found, toList_insert_of_get? v found,
      List.filter_append, toList_without]
    simp [member]

theorem without_erase (member : k ∈ gone) : (m.erase k).without gone = m.without gone := by
  apply OrderedMap.ext
  have erased : (m.erase k).toList = m.toList.filter (·.1 ≠ k) := rfl
  rw [toList_without, toList_without, erased, List.filter_filter]
  apply List.filter_congr
  rintro ⟨k', v⟩ _
  by_cases same : k' = k
  · simp [same, member]
  · simp [same]

end OrderedMap

/-- The scope without what some events have moved. -/
def Scope.without (scope : Scope) (moved : List Hoisting.Event) : Scope where
  locals := scope.locals.without (moved.map Hoisting.Event.name)
  aliases := scope.aliases.without (moved.map Hoisting.Event.computation)
  aliasNames := scope.aliasNames.without (moved.map Hoisting.Event.name)

section Scopes

variable {scope : Scope} {moved : List Hoisting.Event} {event : Hoisting.Event}

theorem Scope.without_register (member : event ∈ moved) :
    (scope.register event.computation event.name).without moved = scope.without moved := by
  have name := List.mem_map_of_mem (f := Hoisting.Event.name) member
  have key := List.mem_map_of_mem (f := Hoisting.Event.computation) member
  unfold Scope.without Scope.register
  rw [OrderedSet.without_insert name, OrderedMap.without_insertIfNew _ key,
    OrderedSet.without_insert name]

theorem Scope.without_forget (member : event ∈ moved)
    (held : ∀ name, scope.aliases.get? event.computation = some name → name = event.name) :
    (scope.forget event.computation).without moved = scope.without moved := by
  have name := List.mem_map_of_mem (f := Hoisting.Event.name) member
  have key := List.mem_map_of_mem (f := Hoisting.Event.computation) member
  unfold Scope.forget Scope.aliasFor?
  cases found : scope.aliases.get? event.computation with
  | none => rfl
  | some old =>
    rw [held old found]
    unfold Scope.without
    simp only [OrderedSet.without_erase name, OrderedMap.without_erase key]

end Scopes

namespace Hoisting

/-- Events for the two branches of a conditional by turns, each pair about the same move. -/
inductive Paired : List Event → Prop
  | nil : Paired []
  | cons (name : String) (c : Computation) (span : Span) {rest : List Event} (later : Paired rest) :
      Paired (⟨name, c, .thenBranch, span⟩ :: ⟨name, c, .elseBranch, span⟩ :: rest)

theorem Paired.append {first second : List Event} (h : Paired first) (h' : Paired second) :
    Paired (first ++ second) := by
  induction h with
  | nil => exact h'
  | cons name c span later ih => exact .cons name c span ih

end Hoisting

/-- How many assignments to a variable stand in some blocks. -/
def settings (name : String) (blocks : List (Block Node)) : Nat :=
  (blocks.flatMap Block.body).countP (·.target? = some name)

namespace Node

/-- The blocks below a list of nodes. -/
def blocksOf (ns : List Node) : List (Block Node) :=
  branchesOf ns ++ (functionsOf ns).flatMap Block.blocks

/-- How many assignments to a variable stand in a list of statements and in the blocks below it. -/
def settingsWithin (name : String) (body : List Node) : Nat :=
  body.countP (·.target? = some name) + settings name (blocksOf body)

section Settings

variable (name : String)

theorem settings_append (first second : List (Block Node)) :
    settings name (first ++ second) = settings name first + settings name second := by
  rw [settings, List.flatMap_append, List.countP_append]
  rfl

theorem settings_cons (block : Block Node) (rest : List (Block Node)) :
    settings name (block :: rest) =
      block.body.countP (·.target? = some name) + settings name rest := by
  rw [settings, List.flatMap_cons, List.countP_append]
  rfl

theorem settings_function (span : Span) (label : String) (block : Block Node) :
    settings name (function span label block).blocks = settingsWithin name block.body := by
  obtain ⟨body, scope⟩ := block
  rw [blocks, branches, functions_function, List.flatMap_cons, Block.blocks, settingsWithin,
    blocksOf]
  simp only [settings_append, settings_cons, List.nil_append, List.cons_append]

theorem settings_branch (span : Span) (condition : Node) (branch : Block Node) :
    settings name (conditional span condition branch none).blocks =
      settings name condition.blocks + settingsWithin name branch.body := by
  obtain ⟨body, scope⟩ := branch
  rw [blocks, blocks, branches, functions_branch, List.flatMap_append, settingsWithin, blocksOf]
  simp only [settings_append, settings_cons]
  omega

theorem settings_branches (span : Span) (condition : Node) (thenBranch elseBranch : Block Node) :
    settings name (conditional span condition thenBranch (some elseBranch)).blocks =
      settings name condition.blocks + settingsWithin name thenBranch.body +
        settingsWithin name elseBranch.body := by
  obtain ⟨thenBody, thenScope⟩ := thenBranch
  obtain ⟨elseBody, elseScope⟩ := elseBranch
  rw [blocks, blocks, branches, functions_branches, List.flatMap_append, List.flatMap_append,
    settingsWithin, settingsWithin, blocksOf, blocksOf]
  simp only [settings_append, settings_cons]
  omega

theorem settings_binary (span : Span) (op : Operator) (left right : Node) :
    settings name (binary span op left right).blocks =
      settings name left.blocks + settings name right.blocks := by
  rw [blocks, blocks, blocks, branches, functions_binary, List.flatMap_append]
  simp only [settings_append]
  omega

theorem settings_call (span : Span) (callee : Node) (arguments : List Node) :
    settings name (call span callee arguments).blocks =
      settings name callee.blocks + settings name (blocksOf arguments) := by
  rw [blocks, blocks, blocksOf, branches, functions_call, List.flatMap_append]
  simp only [settings_append]
  omega

theorem settings_blocksOf_append (first second : List Node) :
    settings name (blocksOf (first ++ second)) =
      settings name (blocksOf first) + settings name (blocksOf second) := by
  rw [blocksOf, blocksOf, blocksOf, branchesOf_append, functionsOf_append, List.flatMap_append]
  simp only [settings_append]
  omega

theorem settings_blocksOf_cons (n : Node) (rest : List Node) :
    settings name (blocksOf (n :: rest)) =
      settings name n.blocks + settings name (blocksOf rest) := by
  rw [blocksOf, blocks, blocksOf, branchesOf, functionsOf_cons, List.flatMap_append]
  simp only [settings_append]
  omega

theorem settings_of_flat {ns : List Node} (flat : Flat ns) : settings name (blocksOf ns) = 0 := by
  rw [blocksOf, flat.branches, flat.functions]
  rfl

theorem settingsWithin_append (first second : List Node) :
    settingsWithin name (first ++ second) =
      settingsWithin name first + settingsWithin name second := by
  rw [settingsWithin, settingsWithin, settingsWithin, List.countP_append, settings_blocksOf_append]
  omega

theorem settingsWithin_cons (n : Node) (rest : List Node) :
    settingsWithin name (n :: rest) = settingsWithin name [n] + settingsWithin name rest :=
  settingsWithin_append name [n] rest

theorem settingsWithin_assign {value : Node} (known : value.computation?.isSome) (place : Span)
    (target : String) :
    settingsWithin name [.assign place target value] = if target = name then 1 else 0 := by
  obtain ⟨c, found⟩ := Option.isSome_iff_exists.1 known
  have flat : Flat [.assign place target value] :=
    .cons (flat_of_computation value found).head.1 (flat_of_computation value found).head.2 .nil
  rw [settingsWithin, settings_of_flat name flat]
  simp [target?, List.countP_cons]

/-- An assignment of an expression among other statements counts once. -/
theorem settingsWithin_around {value : Node} (known : value.computation?.isSome) (place : Span)
    (target : String) (front back : List Node) :
    settingsWithin name (front ++ .assign place target value :: back) =
      settingsWithin name (front ++ back) + if target = name then 1 else 0 := by
  rw [settingsWithin_append, settingsWithin_cons, settingsWithin_assign name known,
    settingsWithin_append]
  omega

theorem settingsWithin_branches (span : Span) (condition : Node)
    (thenBranch elseBranch : Block Node) :
    settingsWithin name [.conditional span condition thenBranch (some elseBranch)] =
      settings name condition.blocks + settingsWithin name thenBranch.body +
        settingsWithin name elseBranch.body := by
  rw [settingsWithin, settings_blocksOf_cons, settings_branches]
  exact Nat.zero_add _

end Settings

/-- Whether a statement assigns an expression to one of the names of some events. -/
def isMoved (moved : List Hoisting.Event) : Node → Bool
  | .assign _ target value => target ∈ moved.map Hoisting.Event.name && value.computation?.isSome
  | _ => false

mutual

/-- What is left of a tree when its blocks are without the statements that some events can have
moved, and their scopes say nothing of the moved aliases. All other statements stay in their blocks.
-/
def residue (moved : List Hoisting.Event) : Node → Node
  | .template span name globals body => .template span name globals (residueEach moved body)
  | .function span name ⟨body, scope⟩ =>
    .function span name ⟨residueBody moved body, scope.without moved⟩
  | .conditional span condition ⟨thenBody, thenScope⟩ none =>
    .conditional span (condition.residue moved)
      ⟨residueBody moved thenBody, thenScope.without moved⟩ none
  | .conditional span condition ⟨thenBody, thenScope⟩ (some ⟨elseBody, elseScope⟩) =>
    .conditional span (condition.residue moved)
      ⟨residueBody moved thenBody, thenScope.without moved⟩
      (some ⟨residueBody moved elseBody, elseScope.without moved⟩)
  | .assign span target value => .assign span target (value.residue moved)
  | .identifier span name => .identifier span name
  | .placeholder span name resolution => .placeholder span name resolution
  | .literal span value => .literal span value
  | .binary span op left right => .binary span op (left.residue moved) (right.residue moved)
  | .filter span operand name cachedAs => .filter span (operand.residue moved) name cachedAs
  | .call span callee arguments => .call span (callee.residue moved) (residueEach moved arguments)
  | .list span items => .list span (residueEach moved items)
  | .write span operand => .write span (operand.residue moved)
termination_by structural n => n

/-- What is left of a list of trees that is no block. -/
def residueEach (moved : List Hoisting.Event) : List Node → List Node
  | [] => []
  | n :: rest => n.residue moved :: residueEach moved rest
termination_by structural ns => ns

/-- What is left of the statements of a block. -/
def residueBody (moved : List Hoisting.Event) : List Node → List Node
  | [] => []
  | n :: rest =>
    if n.isMoved moved then residueBody moved rest else n.residue moved :: residueBody moved rest
termination_by structural ns => ns

end

section Residue

variable {moved : List Hoisting.Event}

theorem isMoved_assign {event : Hoisting.Event} {value : Node} (member : event ∈ moved)
    (known : value.computation?.isSome) (place : Span) :
    (assign place event.name value).isMoved moved = true := by
  simp only [isMoved, known, Bool.and_true, decide_eq_true_eq]
  exact List.mem_map_of_mem member

theorem residueBody_append (first second : List Node) :
    residueBody moved (first ++ second) = residueBody moved first ++ residueBody moved second := by
  induction first with
  | nil => rfl
  | cons n rest ih =>
    rw [List.cons_append, residueBody, residueBody, ih]
    split
    · rfl
    · rfl

theorem residueBody_of_isMoved {n : Node} (gone : n.isMoved moved = true) (rest : List Node) :
    residueBody moved (n :: rest) = residueBody moved rest := by
  rw [residueBody, if_pos gone]

theorem residueBody_eq_nil {ns : List Node} (gone : ∀ n ∈ ns, n.isMoved moved = true) :
    residueBody moved ns = [] := by
  induction ns with
  | nil => rfl
  | cons n rest ih =>
    rw [List.forall_mem_cons] at gone
    rw [residueBody_of_isMoved gone.1, ih gone.2]

/-- Statements at the same place leave the same, if the first of them and the others do. -/
theorem residueBody_congr {n n' : Node} {rest rest' : List Node}
    (gone : n'.isMoved moved = n.isMoved moved) (own : n'.residue moved = n.residue moved)
    (later : residueBody moved rest' = residueBody moved rest) :
    residueBody moved (n' :: rest') = residueBody moved (n :: rest) := by
  rw [residueBody, residueBody, gone, own, later]

end Residue

end Node

/-- What is left of a block. -/
def Block.residue (moved : List Hoisting.Event) (block : Block Node) : Block Node :=
  ⟨Node.residueBody moved block.body, block.scope.without moved⟩

section Residue

variable (moved : List Hoisting.Event) (span : Span)

theorem Node.residue_function (name : String) (block : Block Node) :
    (function span name block).residue moved = function span name (block.residue moved) := by
  cases block
  rfl

theorem Node.residue_branch (condition : Node) (branch : Block Node) :
    (conditional span condition branch none).residue moved =
      conditional span (condition.residue moved) (branch.residue moved) none := by
  cases branch
  rfl

theorem Node.residue_branches (condition : Node) (thenBranch elseBranch : Block Node) :
    (conditional span condition thenBranch (some elseBranch)).residue moved =
      conditional span (condition.residue moved) (thenBranch.residue moved)
        (some (elseBranch.residue moved)) := by
  cases thenBranch
  cases elseBranch
  rfl

end Residue

namespace Hoisting

/-- One trade: both branches lose an assignment of an expression to the alias of a computation, and
forget the alias. The assignment of the first branch moves out. -/
inductive Trade (span : Span) (c : Computation) (name : String) : Exchange → Exchange → Prop
  | mk {place place' : Span} {value value' : Node} {thenScope elseScope enclosing : Scope}
      (front back front' back' : List Node) (moved : List Node) (events : List Event)
      (known : value.computation?.isSome) (known' : value'.computation?.isSome) :
      Trade span c name
        { thenBranch := ⟨front ++ .assign place name value :: back, thenScope⟩
          elseBranch := ⟨front' ++ .assign place' name value' :: back', elseScope⟩
          enclosing, moved, events }
        { thenBranch := ⟨front ++ back, thenScope.forget c⟩
          elseBranch := ⟨front' ++ back', elseScope.forget c⟩
          enclosing := enclosing.register c name
          moved := moved ++ [.assign place name value]
          events := events ++ [⟨name, c, .thenBranch, span⟩, ⟨name, c, .elseBranch, span⟩] }

/-- An exchange is a run of trades, of aliases that both branches held at first. -/
theorem exchange_trades {P : Exchange → Prop} (span : Span) (thenBranch elseBranch : Block Node)
    (enclosing : Scope) (start : P ⟨thenBranch, elseBranch, enclosing, [], []⟩)
    (step : ∀ x x' c name, thenBranch.scope.aliases.get? c = some name →
      elseBranch.scope.aliases.get? c = some name → Trade span c name x x' → P x → P x') :
    P (exchange span thenBranch elseBranch enclosing) := by
  refine List.foldlRecOn _ _ start fun x before entry member => ?_
  obtain ⟨c, name⟩ := entry
  obtain ⟨inThen, inElse⟩ := mem_shared.1 member
  rcases x.move_cases span c name with ⟨same, -⟩ | ⟨_, _, _, _, leavesThen, leavesElse, moved⟩
  · rw [same]
    exact before
  · obtain ⟨front, back, place, value, rfl, known, body, rfl⟩ := definition?_computed leavesThen
    obtain ⟨front', back', place', value', rfl, known', body', rfl⟩ :=
      definition?_computed leavesElse
    rw [moved]
    refine step x _ c name inThen inElse ?_ before
    obtain ⟨⟨_, _⟩, ⟨_, _⟩, _, _, _⟩ := x
    cases body
    cases body'
    exact .mk front back front' back' _ _ known known'

/-- A block that has lost no more than what some events have moved. -/
structure Sheds (moved : List Event) (before after : Block Node) : Prop where
  aliases : ∀ c name, after.scope.aliases.get? c = some name →
    before.scope.aliases.get? c = some name
  body : Node.residueBody moved after.body = Node.residueBody moved before.body
  scope : after.scope.without moved = before.scope.without moved

theorem Sheds.refl (moved : List Event) (block : Block Node) : Sheds moved block block :=
  ⟨fun _ _ found => found, rfl, rfl⟩

theorem Sheds.residue {moved : List Event} {before after : Block Node}
    (h : Sheds moved before after) : after.residue moved = before.residue moved := by
  rw [Block.residue, Block.residue, h.body, h.scope]

/-- A block loses an assignment to the alias of an event. -/
theorem Sheds.lose {moved : List Event} {event : Event} {before : Block Node} {place : Span}
    {value : Node} {front back : List Node} {scope : Scope}
    (sheds : Sheds moved before ⟨front ++ .assign place event.name value :: back, scope⟩)
    (member : event ∈ moved) (known : value.computation?.isSome)
    (held : before.scope.aliases.get? event.computation = some event.name) :
    Sheds moved before ⟨front ++ back, scope.forget event.computation⟩ where
  aliases c name found := by
    apply sheds.aliases c name
    rw [Scope.get?_forget] at found
    split at found
    · cases found
    · exact found
  body := by
    rw [← sheds.body, Node.residueBody_append, Node.residueBody_append,
      Node.residueBody_of_isMoved (Node.isMoved_assign member known place)]
  scope := by
    refine (Scope.without_forget member fun name found => ?_).trans sheds.scope
    rw [sheds.aliases _ name found] at held
    exact Option.some.inj held

/-- An exchange that has moved no more than what some events tell. -/
structure Exchange.Keeps (moved : List Event) (thenBranch elseBranch : Block Node)
    (enclosing : Scope) (x : Exchange) : Prop where
  inThen : Sheds moved thenBranch x.thenBranch
  inElse : Sheds moved elseBranch x.elseBranch
  scope : x.enclosing.without moved = enclosing.without moved
  definitions : ∀ n ∈ x.moved, n.isMoved moved = true

section Exchanges

variable (span : Span) (thenBranch elseBranch : Block Node) (enclosing : Scope)

theorem exchange_paired : Paired (exchange span thenBranch elseBranch enclosing).events := by
  refine exchange_trades (P := fun x => Paired x.events) span thenBranch elseBranch enclosing
    .nil ?_
  rintro _ _ c name - - ⟨_, _, _, _, _, events, -, -⟩ before
  exact before.append (.cons name c span .nil)

/-- What the branches lose is twice what has moved. -/
theorem exchange_settings (name : String) {x : Exchange}
    (h : exchange span thenBranch elseBranch enclosing = x) :
    2 * (Node.settingsWithin name x.moved + Node.settingsWithin name x.thenBranch.body +
        Node.settingsWithin name x.elseBranch.body) + x.events.countP (·.name = name) =
      2 * (Node.settingsWithin name thenBranch.body +
        Node.settingsWithin name elseBranch.body) := by
  subst h
  refine exchange_trades (P := fun x =>
    2 * (Node.settingsWithin name x.moved + Node.settingsWithin name x.thenBranch.body +
        Node.settingsWithin name x.elseBranch.body) + x.events.countP (·.name = name) =
      2 * (Node.settingsWithin name thenBranch.body + Node.settingsWithin name elseBranch.body))
    span thenBranch elseBranch enclosing ?_ ?_
  · have none : Node.settingsWithin name [] = 0 := rfl
    simp only [none, List.countP_nil]
    omega
  · rintro _ _ c target - - ⟨front, back, front', back', moved, events, known, known'⟩ before
    rw [Node.settingsWithin_around name known, Node.settingsWithin_around name known'] at before
    rw [Node.settingsWithin_append, Node.settingsWithin_assign name known, List.countP_append]
    by_cases same : target = name
    · simp only [same, List.countP_cons, List.countP_nil, decide_true, if_true] at before ⊢
      omega
    · simp only [same, List.countP_cons, List.countP_nil, decide_false, Bool.false_eq_true,
        if_false] at before ⊢
      omega

theorem exchange_keeps (moved : List Event) :
    (exchange span thenBranch elseBranch enclosing).events ⊆ moved →
      (exchange span thenBranch elseBranch enclosing).Keeps moved thenBranch elseBranch
        enclosing := by
  refine exchange_trades (P := fun x => x.events ⊆ moved →
    x.Keeps moved thenBranch elseBranch enclosing) span thenBranch elseBranch enclosing ?_ ?_
  · exact fun _ => ⟨.refl _ _, .refl _ _, rfl, fun n member => by cases member⟩
  · rintro _ _ c name inThen inElse ⟨front, back, front', back', _, events, known, known'⟩ before
      all
    obtain ⟨earlier, pair⟩ := List.append_subset.1 all
    have member : ⟨name, c, .thenBranch, span⟩ ∈ moved := pair List.mem_cons_self
    have kept := before earlier
    refine ⟨kept.inThen.lose member known inThen, kept.inElse.lose member known' inElse,
      (Scope.without_register member).trans kept.scope, fun n among => ?_⟩
    rcases List.mem_append.1 among with old | now
    · exact kept.definitions n old
    · rw [List.mem_singleton.1 now]
      exact Node.isMoved_assign member known _

end Exchanges

theorem lift_paired (body : List Node) (scope : Scope) : Paired (lift body scope).2.2 := by
  fun_induction lift body scope with
  | case1 => exact .nil
  | case2 span condition thenBranch elseBranch rest scope x lifted after events same ih =>
    rw [same] at ih
    exact (exchange_paired span thenBranch elseBranch scope).append ih
  | case3 n rest scope other lifted after events same ih =>
    rw [same] at ih
    exact ih

theorem lift_settings (name : String) (body : List Node) (scope : Scope) :
    2 * Node.settingsWithin name (lift body scope).1 +
        (lift body scope).2.2.countP (·.name = name) = 2 * Node.settingsWithin name body := by
  fun_induction lift body scope with
  | case1 => rfl
  | case2 span condition thenBranch elseBranch rest scope x lifted after events same ih =>
    have traded := exchange_settings span thenBranch elseBranch scope name (x := x) rfl
    rw [same] at ih
    simp only [Node.settingsWithin_append, List.countP_append] at ih ⊢
    rw [Node.settingsWithin_cons, Node.settingsWithin_cons name _ rest,
      Node.settingsWithin_branches, Node.settingsWithin_branches]
    omega
  | case3 n rest scope other lifted after events same ih =>
    rw [same] at ih
    simp only at ih ⊢
    rw [Node.settingsWithin_cons, Node.settingsWithin_cons name n rest]
    omega

theorem lift_residue {moved : List Event} (body : List Node) (scope : Scope)
    (all : (lift body scope).2.2 ⊆ moved) :
    Node.residueBody moved (lift body scope).1 = Node.residueBody moved body ∧
      (lift body scope).2.1.without moved = scope.without moved := by
  fun_induction lift body scope with
  | case1 => exact ⟨rfl, rfl⟩
  | case2 span condition thenBranch elseBranch rest scope x lifted after events same ih =>
    rw [same] at ih
    obtain ⟨here, later⟩ := List.append_subset.1 all
    have kept := exchange_keeps span thenBranch elseBranch scope moved here
    obtain ⟨body, outer⟩ := ih later
    refine ⟨?_, outer.trans kept.scope⟩
    rw [Node.residueBody_append, Node.residueBody_eq_nil kept.definitions, List.nil_append]
    refine Node.residueBody_congr rfl ?_ body
    rw [Node.residue_branches, Node.residue_branches, kept.inThen.residue, kept.inElse.residue]
  | case3 n rest scope other lifted after events same ih =>
    rw [same] at ih
    obtain ⟨body, outer⟩ := ih all
    exact ⟨Node.residueBody_congr rfl rfl body, outer⟩

end Hoisting

open Hoisting

/-- The events of the pass over a block: those of the moves below it, and those of the moves into
it. -/
def Block.hoistEvents (block : Block Node) : List Event :=
  (hoistEach block.body).2 ++ (lift (hoistEach block.body).1 block.scope).2.2

namespace Hoisting

theorem hoist_function (span : Span) (name : String) (block : Block Node) :
    hoist (.function span name block) = (.function span name block.hoisted, block.hoistEvents) := by
  cases block
  rfl

theorem hoist_branch (span : Span) (condition : Node) (branch : Block Node) :
    hoist (.conditional span condition branch none) =
      (.conditional span (hoist condition).1 branch.hoisted none,
        (hoist condition).2 ++ branch.hoistEvents) := by
  cases branch
  rw [Block.hoistEvents, ← List.append_assoc]
  rfl

theorem hoist_branches (span : Span) (condition : Node) (thenBranch elseBranch : Block Node) :
    hoist (.conditional span condition thenBranch (some elseBranch)) =
      (.conditional span (hoist condition).1 thenBranch.hoisted (some elseBranch.hoisted),
        (hoist condition).2 ++ thenBranch.hoistEvents ++ elseBranch.hoistEvents) := by
  cases thenBranch
  cases elseBranch
  simp only [Block.hoistEvents, ← List.append_assoc]
  rfl

theorem hoistEvents_paired {block : Block Node} (below : Paired (hoistEach block.body).2) :
    Paired block.hoistEvents :=
  below.append (lift_paired _ block.scope)

/-- The assignments in a block and below it, if the account of those below it is settled. -/
theorem settings_hoisted (block : Block Node) {name : String}
    (below : 2 * settings name (Node.blocksOf (hoistEach block.body).1) +
        (hoistEach block.body).2.countP (·.name = name) =
      2 * settings name (Node.blocksOf block.body)) :
    2 * Node.settingsWithin name block.hoisted.body + block.hoistEvents.countP (·.name = name) =
      2 * Node.settingsWithin name block.body := by
  have own : (hoistEach block.body).1.countP (·.target? = some name) =
      block.body.countP (·.target? = some name) := by
    rw [hoistEach_eq_map, List.countP_map]
    apply List.countP_congr
    intro n _
    rw [Function.comp_apply, target_hoist]
  have lifted : 2 * Node.settingsWithin name block.hoisted.body + _ = _ :=
    lift_settings name (hoistEach block.body).1 block.scope
  rw [Block.hoistEvents, List.countP_append]
  unfold Node.settingsWithin at lifted ⊢
  omega

mutual

theorem hoist_paired (n : Node) : Paired (hoist n).2 := by
  cases n with
  | template span name globals body => exact hoistEach_paired body
  | function span name block =>
    obtain ⟨body, scope⟩ := block
    rw [hoist_function]
    exact hoistEvents_paired (hoistEach_paired body)
  | conditional span condition thenBranch elseBranch =>
    obtain ⟨thenBody, thenScope⟩ := thenBranch
    have test := hoist_paired condition
    have inThen := hoistEach_paired thenBody
    cases elseBranch with
    | none =>
      rw [hoist_branch]
      exact test.append (hoistEvents_paired inThen)
    | some elseBranch =>
      obtain ⟨elseBody, elseScope⟩ := elseBranch
      rw [hoist_branches]
      exact (test.append (hoistEvents_paired inThen)).append
        (hoistEvents_paired (hoistEach_paired elseBody))
  | assign span target value => exact hoist_paired value
  | identifier | placeholder | literal => exact .nil
  | binary span op left right => exact (hoist_paired left).append (hoist_paired right)
  | filter span operand name cachedAs => exact hoist_paired operand
  | call span callee arguments => exact (hoist_paired callee).append (hoistEach_paired arguments)
  | list span items => exact hoistEach_paired items
  | write span operand => exact hoist_paired operand
termination_by structural n

theorem hoistEach_paired (ns : List Node) : Paired (hoistEach ns).2 := by
  cases ns with
  | nil => exact .nil
  | cons n rest => exact (hoist_paired n).append (hoistEach_paired rest)
termination_by structural ns

end

mutual

theorem hoist_settings (name : String) (n : Node) :
    2 * settings name (hoist n).1.blocks + (hoist n).2.countP (·.name = name) =
      2 * settings name n.blocks := by
  cases n with
  | template span label globals body => exact hoistEach_settings name body
  | function span label block =>
    obtain ⟨body, scope⟩ := block
    rw [hoist_function, Node.settings_function, Node.settings_function]
    exact settings_hoisted _ (hoistEach_settings name body)
  | conditional span condition thenBranch elseBranch =>
    obtain ⟨thenBody, thenScope⟩ := thenBranch
    have test := hoist_settings name condition
    have inThen := settings_hoisted ⟨thenBody, thenScope⟩ (hoistEach_settings name thenBody)
    cases elseBranch with
    | none =>
      rw [hoist_branch, Node.settings_branch, Node.settings_branch, List.countP_append]
      omega
    | some elseBranch =>
      obtain ⟨elseBody, elseScope⟩ := elseBranch
      have inElse := settings_hoisted ⟨elseBody, elseScope⟩ (hoistEach_settings name elseBody)
      rw [hoist_branches, Node.settings_branches, Node.settings_branches, List.countP_append,
        List.countP_append]
      omega
  | assign span target value => exact hoist_settings name value
  | identifier | placeholder | literal => rfl
  | binary span op left right =>
    have first := hoist_settings name left
    have second := hoist_settings name right
    rw [hoist, Node.settings_binary, Node.settings_binary, List.countP_append]
    omega
  | filter span operand label cachedAs => exact hoist_settings name operand
  | call span callee arguments =>
    have first := hoist_settings name callee
    have second := hoistEach_settings name arguments
    rw [hoist, Node.settings_call, Node.settings_call, List.countP_append]
    omega
  | list span items => exact hoistEach_settings name items
  | write span operand => exact hoist_settings name operand
termination_by structural n

theorem hoistEach_settings (name : String) (ns : List Node) :
    2 * settings name (Node.blocksOf (hoistEach ns).1) + (hoistEach ns).2.countP (·.name = name) =
      2 * settings name (Node.blocksOf ns) := by
  cases ns with
  | nil => rfl
  | cons n rest =>
    have first := hoist_settings name n
    have second := hoistEach_settings name rest
    rw [hoistEach, Node.settings_blocksOf_cons, Node.settings_blocksOf_cons, List.countP_append]
    omega
termination_by structural ns

end

mutual

/-- The pass changes no computation: what has one has no block inside. -/
theorem computation_hoist (n : Node) : (hoist n).1.computation? = n.computation? := by
  cases n with
  | template | function | assign | write | identifier | placeholder | literal => rfl
  | conditional span condition thenBranch elseBranch =>
    cases elseBranch with
    | none => rw [hoist_branch]; rfl
    | some elseBranch => rw [hoist_branches]; rfl
  | binary span op left right =>
    rw [hoist, Node.computation?, Node.computation?, computation_hoist left,
      computation_hoist right]
  | filter span operand name cachedAs =>
    rw [hoist, Node.computation?, Node.computation?, computation_hoist operand]
  | call span callee arguments =>
    rw [hoist, Node.computation?, Node.computation?, computation_hoist callee,
      computations_hoistEach arguments]
  | list span items =>
    rw [hoist, Node.computation?, Node.computation?, computations_hoistEach items]
termination_by structural n

theorem computations_hoistEach (ns : List Node) :
    Node.computationsOf? (hoistEach ns).1 = Node.computationsOf? ns := by
  cases ns with
  | nil => rfl
  | cons n rest =>
    rw [hoistEach, Node.computationsOf?, Node.computationsOf?, computation_hoist n,
      computations_hoistEach rest]
termination_by structural ns

end

theorem isMoved_hoist (moved : List Event) (n : Node) :
    (hoist n).1.isMoved moved = n.isMoved moved := by
  cases n with
  | assign span target value => rw [hoist, Node.isMoved, Node.isMoved, computation_hoist]
  | conditional span condition thenBranch elseBranch =>
    cases elseBranch with
    | none => rw [hoist_branch]; rfl
    | some elseBranch => rw [hoist_branches]; rfl
  | template | function | identifier | placeholder | literal | binary | filter | call | list
  | write => rfl

theorem residue_hoisted {moved : List Event} {block : Block Node} (all : block.hoistEvents ⊆ moved)
    (below : (hoistEach block.body).2 ⊆ moved →
      Node.residueBody moved (hoistEach block.body).1 = Node.residueBody moved block.body) :
    block.hoisted.residue moved = block.residue moved := by
  obtain ⟨inner, outer⟩ := List.append_subset.1 all
  obtain ⟨body, scope⟩ := lift_residue (hoistEach block.body).1 block.scope outer
  rw [Block.residue, Block.residue, ← below inner, ← body, ← scope]
  rfl

mutual

theorem hoist_residue {moved : List Event} (n : Node) (all : (hoist n).2 ⊆ moved) :
    (hoist n).1.residue moved = n.residue moved := by
  cases n with
  | template span name globals body =>
    rw [hoist, Node.residue, Node.residue, (hoistEach_residue body all).1]
  | function span name block =>
    obtain ⟨body, scope⟩ := block
    rw [hoist_function] at all ⊢
    rw [Node.residue_function, Node.residue_function,
      residue_hoisted all fun inner => (hoistEach_residue body inner).2]
  | conditional span condition thenBranch elseBranch =>
    obtain ⟨thenBody, thenScope⟩ := thenBranch
    cases elseBranch with
    | none =>
      rw [hoist_branch] at all ⊢
      obtain ⟨test, inThen⟩ := List.append_subset.1 all
      rw [Node.residue_branch, Node.residue_branch, hoist_residue condition test,
        residue_hoisted inThen fun inner => (hoistEach_residue thenBody inner).2]
    | some elseBranch =>
      obtain ⟨elseBody, elseScope⟩ := elseBranch
      rw [hoist_branches] at all ⊢
      obtain ⟨front, inElse⟩ := List.append_subset.1 all
      obtain ⟨test, inThen⟩ := List.append_subset.1 front
      rw [Node.residue_branches, Node.residue_branches, hoist_residue condition test,
        residue_hoisted inThen fun inner => (hoistEach_residue thenBody inner).2,
        residue_hoisted inElse fun inner => (hoistEach_residue elseBody inner).2]
  | assign span target value => rw [hoist, Node.residue, Node.residue, hoist_residue value all]
  | identifier | placeholder | literal => rfl
  | binary span op left right =>
    obtain ⟨first, second⟩ := List.append_subset.1 all
    rw [hoist, Node.residue, Node.residue, hoist_residue left first, hoist_residue right second]
  | filter span operand name cachedAs =>
    rw [hoist, Node.residue, Node.residue, hoist_residue operand all]
  | call span callee arguments =>
    obtain ⟨first, second⟩ := List.append_subset.1 all
    rw [hoist, Node.residue, Node.residue, hoist_residue callee first,
      (hoistEach_residue arguments second).1]
  | list span items => rw [hoist, Node.residue, Node.residue, (hoistEach_residue items all).1]
  | write span operand => rw [hoist, Node.residue, Node.residue, hoist_residue operand all]
termination_by structural n

/-- A list of trees is left the same, as operands and as statements of a block. -/
theorem hoistEach_residue {moved : List Event} (ns : List Node) (all : (hoistEach ns).2 ⊆ moved) :
    Node.residueEach moved (hoistEach ns).1 = Node.residueEach moved ns ∧
      Node.residueBody moved (hoistEach ns).1 = Node.residueBody moved ns := by
  cases ns with
  | nil => exact ⟨rfl, rfl⟩
  | cons n rest =>
    obtain ⟨first, second⟩ := List.append_subset.1 all
    have own := hoist_residue n first
    obtain ⟨each, body⟩ := hoistEach_residue rest second
    rw [hoistEach]
    refine ⟨?_, Node.residueBody_congr (isMoved_hoist moved n) own body⟩
    rw [Node.residueEach, Node.residueEach, own, each]
termination_by structural ns

end

end Hoisting

/-- The hoisting pass accounts for every move, whatever the scopes of the tree. Its events come in
pairs, one for each branch and about the same alias, computation and conditional. For each pair
there is one assignment to the alias less in the blocks of the tree. And disregarding the
assignments of expressions to the aliases of the events, and what the scopes say of these aliases,
the tree is the same: every other statement stands in its block, in the same order. -/
theorem hoisting_conserves_statements (options : Options) (root : Node) :
    let hoisted := root.hoistAliases { options with hoistAliases := true }
    Paired hoisted.2 ∧
      (∀ name, 2 * settings name hoisted.1.blocks + hoisted.2.countP (·.name = name) =
        2 * settings name root.blocks) ∧
      hoisted.1.residue hoisted.2 = root.residue hoisted.2 :=
  ⟨hoist_paired root, fun name => hoist_settings name root, hoist_residue root (List.Subset.refl _)⟩

/-- A function with scopes that no analysis makes: its branches hold two computations under one
name, and a third under a name that nothing defines. -/
def forged : Node :=
  let value (name : String) := Node.placeholder .generated name none
  let branch (last : String) : Block Node :=
    ⟨[.assign .generated "a" (value "foo"), .assign .generated "a" (value "bar"),
        .write .generated (value last)],
      ⟨.ofList ["a"],
        .ofList [(.placeholder "foo", "a"), (.placeholder "bar", "a"), (.placeholder "baz", "b")],
        .ofList ["a", "b"]⟩⟩
  .function .generated "forged" (.plain
    [.conditional .generated (.identifier .generated "hello") (branch "then")
      (some (branch "else"))])

/-- Both assignments move under the one name. -/
theorem forged_conserved :
    let hoisted := forged.hoistAliases { hoistAliases := true }
    hoisted.2.countP (·.name = "a") = 4 ∧ settings "a" forged.blocks = 4 ∧
      settings "a" hoisted.1.blocks = 2 := by
  intro hoisted
  have events : hoisted.2.countP (·.name = "a") = 4 := by decide
  have before : settings "a" forged.blocks = 4 := by decide
  have conserved := (hoisting_conserves_statements {} forged).2.1 "a"
  refine ⟨events, before, ?_⟩
  change 2 * settings "a" hoisted.1.blocks + hoisted.2.countP (·.name = "a") = _ at conserved
  omega

end Stencil
