import Stencil.Proofs.Joins
import Stencil.Proofs.Numbering
import Stencil.Proofs.StaleFilters

/-!
# What an analysis knows, by number

The analysis asks its sets about names. A table that numbers the names can stand between: the sets
then hold numbers, and a question about a name is one about its number. The answers are the same, as
long as different names have different numbers.

* `Node.learned`: what a walk of code adds to the knowledge about names, with names written in any
  way. The analysis of source code learns just this (`Analysis.Statements.knowledge_eq`).
* `Knowledge.Represents`: knowledge about names, written in another way. What is learned keeps this
  true (`Node.learnedOf_represents`).
* `Analysis.known_by_number`: so a function can be walked with numbers in place of names.
* `Analysis.isUserName_by_number`: the other question about names that an analysis asks.
* `Assigned.Keyed.promoted`: the numbers that a join promotes are those of the names, sorted anew.
-/

namespace Stencil

/-- What is known about names at a point of a function: which are assigned on every path, and how
they were filtered. -/
@[ext]
structure Knowledge (α : Type) [Ord α] where
  assigned : Assigned α
  ledger : FilterLedger α

section Learning

variable {α : Type} [Ord α] [DecidableEq α] [Std.LawfulEqOrd α] [Std.TransOrd α]

namespace Knowledge

/-- Behind an assignment. The ledger is kept only if placeholders are cached. -/
def assign (known : Knowledge α) (caching : Bool) (name : α) : Knowledge α :=
  ⟨known.assigned.insert name, if caching then known.ledger.assign name else known.ledger⟩

/-- Behind a filter of a variable. -/
def filter (known : Knowledge α) (caching : Bool) : Option α → Knowledge α
  | none => known
  | some name =>
    { known with ledger := if caching then (known.ledger.filter name).1 else known.ledger }

/-- In front of the second branch: the ledger has passed over the first one. -/
def afterBranch (known inThen : Knowledge α) : Knowledge α := { known with ledger := inThen.ledger }

/-- Behind two branches. -/
def join (known inThen inElse : Knowledge α) : Knowledge α :=
  ⟨known.assigned.join [inThen.assigned, inElse.assigned], inElse.ledger⟩

end Knowledge

namespace Node

/-- The variable whose present value an operand has, where names are written by a key. -/
def keyedVariable? (key : String → α) (anywhere : List α) : Node → Option α
  | .identifier _ name => some (key name)
  | .placeholder _ name _ => if key name ∈ anywhere then some (key name) else none
  | _ => none

variable (key : String → α) (caching : Bool) (anywhere : List α)

mutual

/-- What is known behind a node, the functions defined there left out. A missing branch is one in
which nothing is learned. -/
def learned : Node → Knowledge α → Knowledge α
  | .template _ _ _ body, known => learnedOf body known
  | .function .., known | .identifier .., known | .placeholder .., known | .literal .., known =>
    known
  | .conditional _ condition ⟨thenBody, _⟩ none, known =>
    let known := condition.learned known
    let inThen := learnedOf thenBody known
    known.join inThen (known.afterBranch inThen)
  | .conditional _ condition ⟨thenBody, _⟩ (some ⟨elseBody, _⟩), known =>
    let known := condition.learned known
    let inThen := learnedOf thenBody known
    known.join inThen (learnedOf elseBody (known.afterBranch inThen))
  | .assign _ target value, known => (value.learned known).assign caching (key target)
  | .binary _ _ left right, known => right.learned (left.learned known)
  | .filter _ operand _ _, known =>
    (operand.learned known).filter caching (operand.keyedVariable? key anywhere)
  | .call _ callee arguments, known => learnedOf arguments (callee.learned known)
  | .list _ items, known => learnedOf items known
  | .write _ operand, known => operand.learned known
termination_by structural n => n

/-- What is known behind a list of nodes. -/
def learnedOf : List Node → Knowledge α → Knowledge α
  | [], known => known
  | n :: rest, known => learnedOf rest (n.learned known)
termination_by structural ns => ns

end

end Node

end Learning

/-! ### Names in another writing -/

section Keys

variable {α : Type} {key : String → α} {names : List String} {name : String}

/-- A key writes different names differently. -/
def Distinguishes (key : String → α) (names : List String) : Prop :=
  ∀ a ∈ names, ∀ b ∈ names, key a = key b → a = b

theorem Distinguishes.eq_iff (distinct : Distinguishes key names) {other : String}
    (member : name ∈ names) (other_member : other ∈ names) : key name = key other ↔ name = other :=
  ⟨distinct name member other other_member, congrArg key⟩

theorem Distinguishes.mem_map_iff (distinct : Distinguishes key names) {some : List String}
    (within : some ⊆ names) (member : name ∈ names) : key name ∈ some.map key ↔ name ∈ some := by
  rw [List.mem_map]
  constructor
  · rintro ⟨other, there, same⟩
    exact distinct other (within there) name member same ▸ there
  · exact fun there => ⟨name, there, rfl⟩

variable [Ord α]

/-- A set of names, and the same set with its names written by a key. -/
structure Assigned.Keyed (key : String → α) (names : List String) (s : Assigned String)
    (s' : Assigned α) : Prop where
  within : ∀ name ∈ s, name ∈ names
  mem : ∀ a, a ∈ s' ↔ ∃ name ∈ s, key name = a

variable (distinct : Distinguishes key names)

namespace Assigned.Keyed

variable {s : Assigned String} {s' : Assigned α} {outcomes : List (Assigned String)}
  {outcomes' : List (Assigned α)}

include distinct in
theorem mem_iff (keyed : Keyed key names s s') (member : name ∈ names) :
    key name ∈ s' ↔ name ∈ s := by
  rw [keyed.mem]
  constructor
  · rintro ⟨other, there, same⟩
    exact distinct other (keyed.within other there) name member same ▸ there
  · exact fun there => ⟨name, there, rfl⟩

include distinct in
/-- A name is in every outcome, in either writing. -/
theorem forall_mem_iff (branches : List.Forall₂ (Keyed key names) outcomes outcomes')
    (member : name ∈ names) :
    (∀ outcome ∈ outcomes', key name ∈ outcome) ↔ ∀ outcome ∈ outcomes, name ∈ outcome := by
  induction branches with
  | nil => simp
  | cons here _ ih =>
    rw [List.forall_mem_cons, List.forall_mem_cons, here.mem_iff distinct member, ih]

variable [Std.LawfulEqOrd α] [Std.TransOrd α]

theorem insert (keyed : Keyed key names s s') (member : name ∈ names) :
    Keyed key names (s.insert name) (s'.insert (key name)) := by
  constructor
  · intro other inserted
    rcases mem_insert.1 inserted with before | rfl
    · exact keyed.within other before
    · exact member
  · intro a
    rw [mem_insert, keyed.mem]
    simp only [mem_insert, or_and_right, exists_or, exists_eq_left, eq_comm (a := a)]

theorem ofList {some : List String} (within : some ⊆ names) :
    Keyed key names (.ofList some) (.ofList (some.map key)) := by
  constructor
  · intro name member
    exact within (mem_ofList.1 member)
  · simp

variable [DecidableEq α]

include distinct in
theorem join (base : Keyed key names s s')
    (branches : List.Forall₂ (Keyed key names) outcomes outcomes') :
    Keyed key names (s.join outcomes) (s'.join outcomes') := by
  cases branches with
  | nil => exact base
  | cons first rest =>
    have every {name : String} (member : name ∈ names) :=
      forall_mem_iff distinct (.cons first rest) member
    constructor
    · intro name joined
      rcases mem_join.1 joined with before | ⟨-, all⟩
      · exact base.within name before
      · exact first.within name (all _ List.mem_cons_self)
    · intro a
      rw [mem_join]
      constructor
      · rintro (before | ⟨-, all⟩)
        · obtain ⟨name, member, rfl⟩ := (base.mem a).1 before
          exact ⟨name, mem_join.2 (.inl member), rfl⟩
        · -- the first outcome says which name it is
          obtain ⟨name, member, rfl⟩ := (first.mem a).1 (all _ List.mem_cons_self)
          have everywhere := (every (first.within name member)).1 all
          exact ⟨name, mem_join.2 (.inr ⟨List.cons_ne_nil _ _, everywhere⟩), rfl⟩
      · rintro ⟨name, joined, rfl⟩
        rcases mem_join.1 joined with before | ⟨-, all⟩
        · exact .inl ((base.mem _).2 ⟨name, before, rfl⟩)
        · have member := first.within name (all _ List.mem_cons_self)
          exact .inr ⟨List.cons_ne_nil _ _, (every member).2 all⟩

include distinct in
/-- The promoted names, written by the key, come in another order; sorted anew they are what is
promoted there. -/
theorem promoted (base : Keyed key names s s')
    (branches : List.Forall₂ (Keyed key names) outcomes outcomes') :
    ((s.promoted outcomes).map key).mergeSort (fun a b => (compare a b).isLE) =
      s'.promoted outcomes' := by
  have joined := base.join distinct branches
  apply mergeSort_eq_promoted
  have once := nodup_of_increasing (pairwise_promoted s outcomes)
  have within {name : String} (member : name ∈ s.promoted outcomes) : name ∈ names :=
    joined.within name (mem_promoted_iff_joined.1 member).1
  refine (List.perm_ext_iff_of_nodup (once.map_on ?_)
    (nodup_of_increasing (pairwise_promoted s' outcomes'))).2 fun a => ?_
  · intro a member b member' same
    exact distinct a (within member) b (within member') same
  · rw [List.mem_map, mem_promoted_iff_joined, joined.mem]
    constructor
    · rintro ⟨name, member, rfl⟩
      obtain ⟨there, new⟩ := mem_promoted_iff_joined.1 member
      exact ⟨⟨name, there, rfl⟩, mt (base.mem_iff distinct (within member)).1 new⟩
    · rintro ⟨⟨name, there, rfl⟩, new⟩
      have old := mt (base.mem_iff distinct (joined.within name there)).2 new
      exact ⟨name, mem_promoted_iff_joined.2 ⟨there, old⟩, rfl⟩

end Assigned.Keyed

/-- Knowledge about names, and the same knowledge with names written by a key. -/
structure Knowledge.Represents [DecidableEq α] (key : String → α) (names : List String)
    (known : Knowledge String) (keyed : Knowledge α) : Prop where
  assigned : Assigned.Keyed key names known.assigned keyed.assigned
  history : ∀ name ∈ names, keyed.ledger.history (key name) = known.ledger.history name

variable [DecidableEq α]

namespace Knowledge.Represents

variable {known inThen inElse : Knowledge String} {keyed inThen' inElse' : Knowledge α}
  {caching : Bool}

/-- What a filter finds does not depend on how its variable is written. -/
theorem use_eq (h : Represents key names known keyed) (member : name ∈ names) :
    (keyed.ledger.filter (key name)).2 = (known.ledger.filter name).2 := by
  change (keyed.ledger.history (key name)).filter.2 = (known.ledger.history name).filter.2
  rw [h.history name member]

include distinct in
theorem filter (h : Represents key names known keyed) (member : name ∈ names) :
    Represents key names (known.filter caching (some name))
      (keyed.filter caching (some (key name))) := by
  refine ⟨h.assigned, fun other there => ?_⟩
  cases caching with
  | false => exact h.history other there
  | true =>
    change (keyed.ledger.filter (key name)).1.history (key other) =
      (known.ledger.filter name).1.history other
    simp only [FilterLedger.history_filter, distinct.eq_iff member there, h.history name member,
      h.history other there]

theorem afterBranch (h : Represents key names known keyed)
    (inside : Represents key names inThen inThen') :
    Represents key names (known.afterBranch inThen) (keyed.afterBranch inThen') :=
  ⟨h.assigned, inside.history⟩

variable [Std.LawfulEqOrd α] [Std.TransOrd α]

include distinct in
theorem assign (h : Represents key names known keyed) (member : name ∈ names) :
    Represents key names (known.assign caching name) (keyed.assign caching (key name)) := by
  refine ⟨h.assigned.insert member, fun other there => ?_⟩
  cases caching with
  | false => exact h.history other there
  | true =>
    change (keyed.ledger.assign (key name)).history (key other) =
      (known.ledger.assign name).history other
    simp only [FilterLedger.history_assign, distinct.eq_iff member there, h.history name member,
      h.history other there]

include distinct in
theorem join (h : Represents key names known keyed)
    (first : Represents key names inThen inThen') (second : Represents key names inElse inElse') :
    Represents key names (known.join inThen inElse) (keyed.join inThen' inElse') :=
  ⟨h.assigned.join distinct (.cons first.assigned (.cons second.assigned .nil)), second.history⟩

end Knowledge.Represents

namespace Node

variable {anywhere : List String}

omit [Ord α] in
/-- An operand that has the value of a variable has it in either writing. -/
theorem keyedVariable?_cases (distinct : Distinguishes key names) (within : anywhere ⊆ names)
    (e : Node) (mentioned : e.mentions ⊆ names) :
    (e.keyedVariable? id anywhere = none ∧ e.keyedVariable? key (anywhere.map key) = none) ∨
      ∃ name ∈ names, e.keyedVariable? id anywhere = some name ∧
        e.keyedVariable? key (anywhere.map key) = some (key name) := by
  cases e with
  | identifier span name => exact .inr ⟨name, mentioned List.mem_cons_self, rfl, rfl⟩
  | placeholder span name resolution =>
    have member : name ∈ names := mentioned List.mem_cons_self
    simp only [keyedVariable?, distinct.mem_map_iff within member, id]
    split
    · exact .inr ⟨name, member, rfl, rfl⟩
    · exact .inl ⟨rfl, rfl⟩
  | template | function | conditional | assign | write | literal | binary | filter | call | list =>
    exact .inl ⟨rfl, rfl⟩

variable [Std.LawfulEqOrd α] [Std.TransOrd α] {caching : Bool} (within : anywhere ⊆ names)

include distinct within

set_option linter.unusedSectionVars false in
mutual

/-- Code teaches the same in every writing that tells its names apart. -/
theorem learned_represents (n : Node) (mentioned : n.mentions ⊆ names)
    (assigned : n.assignments ⊆ names) {known : Knowledge String} {keyed : Knowledge α}
    (h : known.Represents key names keyed) :
    (n.learned id caching anywhere known).Represents key names
      (n.learned key caching (anywhere.map key) keyed) := by
  cases n with
  | function | identifier | placeholder | literal => exact h
  | template span name globals body => exact learnedOf_represents body mentioned assigned h
  | conditional span condition thenBranch elseBranch =>
    obtain ⟨thenBody, thenScope⟩ := thenBranch
    cases elseBranch with
    | none =>
      rw [mentions, List.append_subset] at mentioned
      rw [assignments, List.append_subset] at assigned
      have tested := learned_represents condition mentioned.1 assigned.1 h
      have first := learnedOf_represents thenBody mentioned.2 assigned.2 tested
      exact tested.join distinct first (tested.afterBranch first)
    | some elseBranch =>
      obtain ⟨elseBody, elseScope⟩ := elseBranch
      rw [mentions, List.append_subset, List.append_subset] at mentioned
      rw [assignments, List.append_subset, List.append_subset] at assigned
      have tested := learned_represents condition mentioned.1.1 assigned.1.1 h
      have first := learnedOf_represents thenBody mentioned.1.2 assigned.1.2 tested
      have second := learnedOf_represents elseBody mentioned.2 assigned.2 (tested.afterBranch first)
      exact tested.join distinct first second
  | assign span target value =>
    rw [assignments, List.cons_subset] at assigned
    exact (learned_represents value mentioned assigned.2 h).assign distinct assigned.1
  | binary span op left right =>
    rw [mentions, List.append_subset] at mentioned
    rw [assignments, List.append_subset] at assigned
    exact learned_represents right mentioned.2 assigned.2
      (learned_represents left mentioned.1 assigned.1 h)
  | filter span operand name cachedAs =>
    have inner := learned_represents operand mentioned assigned h
    rw [learned, learned]
    rcases keyedVariable?_cases distinct within operand mentioned with
      ⟨none, none'⟩ | ⟨variableName, member, some, some'⟩
    · rw [none, none']
      exact inner
    · rw [some, some']
      exact inner.filter distinct member
  | call span callee arguments =>
    rw [mentions, List.append_subset] at mentioned
    rw [assignments, List.append_subset] at assigned
    exact learnedOf_represents arguments mentioned.2 assigned.2
      (learned_represents callee mentioned.1 assigned.1 h)
  | list span items => exact learnedOf_represents items mentioned assigned h
  | write span operand => exact learned_represents operand mentioned assigned h
termination_by structural n

theorem learnedOf_represents (ns : List Node) (mentioned : mentionsOf ns ⊆ names)
    (assigned : assignmentsOf ns ⊆ names) {known : Knowledge String} {keyed : Knowledge α}
    (h : known.Represents key names keyed) :
    (learnedOf id caching anywhere ns known).Represents key names
      (learnedOf key caching (anywhere.map key) ns keyed) := by
  cases ns with
  | nil => exact h
  | cons n rest =>
    rw [mentionsOf, List.append_subset] at mentioned
    rw [assignmentsOf, List.append_subset] at assigned
    exact learnedOf_represents rest mentioned.2 assigned.2
      (learned_represents n mentioned.1 assigned.1 h)
termination_by structural ns

end

end Node

end Keys

/-! ### The analysis -/

namespace Analysis

/-- What a state knows about names. -/
def State.knowledge (st : State) : Knowledge String := ⟨st.frame.assigned, st.ledger⟩

section Expressions

variable {ctx : Context} {st next last : State} {es es' : List Node}

theorem aliasFor_knowledge {c : Computation} {value : Node} {name : String}
    (made : st.aliasFor ctx c value = (name, next)) : next.knowledge = st.knowledge := by
  rcases aliasFor_cases made with ⟨rfl, -⟩ | ⟨rfl, -⟩ <;> rfl

theorem read_knowledge {span : Span} {name : String} {resolution : Resolution}
    (read : st.read ctx span name = .ok (resolution, next)) : next.knowledge = st.knowledge := by
  have ledger := (read_unrecorded read).1
  have assigned : next.frame.assigned = st.frame.assigned := by
    rcases read_cases read with ⟨-, -, alike⟩ | ⟨-, alike⟩ | ⟨_, middle, -, -, -, -, made, alike⟩
    · rw [alike.frame]
    · rw [alike.frame]
    · rw [alike.frame]
      exact congrArg Knowledge.assigned (aliasFor_knowledge made)
  rw [State.knowledge, ledger, assigned, State.knowledge]

theorem cacheFilter_knowledge {span : Span} {operand : Node} {filter cached : Option String}
    (cache : st.cacheFilter ctx span operand filter = (cached, next)) :
    next.knowledge = st.knowledge := by
  rcases cacheFilter_cases cache with ⟨-, rfl⟩ | ⟨_, _, -, -, -, -, made⟩
  · rfl
  · exact aliasFor_knowledge made

theorem recordFilter_ledger {span : Span} {name : String}
    (recorded : st.recordFilter ctx span name = .ok next) :
    next.ledger = (st.ledger.filter name).1 := by
  unfold State.recordFilter State.warn at recorded
  simp only at recorded
  split at recorded
  · split at recorded
    · cases recorded
    · split at recorded <;> cases recorded <;> rfl
  · cases recorded
    rfl
  · cases recorded
    rfl

theorem checkFilter_knowledge {span : Span} {operand : Node}
    (check : st.checkFilter ctx span operand = .ok next) :
    next.knowledge = st.knowledge.filter ctx.options.cachePlaceholders
      (operand.variableOf? ctx.assignedAnywhere) := by
  have frame := (checkFilter_alike check).frame
  unfold State.checkFilter at check
  rw [filteredVariable?_eq] at check
  cases direct : operand.variableOf? ctx.assignedAnywhere with
  | none =>
    rw [direct] at check
    cases caching : ctx.options.cachePlaceholders <;> rw [caching] at check <;> cases check <;> rfl
  | some name =>
    rw [direct] at check
    cases caching : ctx.options.cachePlaceholders with
    | false =>
      rw [caching] at check
      cases check
      rfl
    | true =>
      rw [caching] at check
      rw [State.knowledge, recordFilter_ledger check, frame]
      rfl

theorem keyedVariable?_id (anywhere : List String) (e : Node) :
    e.keyedVariable? id anywhere = e.variableOf? anywhere := by
  cases e <;> rfl

/-- Expressions teach what they teach by name. -/
theorem Operands.knowledge_eq (h : Operands ctx st es es' last) :
    last.knowledge =
      Node.learnedOf id ctx.options.cachePlaceholders ctx.assignedAnywhere es st.knowledge := by
  induction h with
  | nil => rfl
  | identifier _ _ _ ih | literal _ _ _ ih => exact ih
  | placeholder read _ ih => rw [ih, read_knowledge read]; rfl
  | binary _ _ _ _ _ first second later =>
    rw [later]
    simp only [Node.learnedOf, Node.learned] at first second ⊢
    rw [← first]
    exact congrArg _ second
  | filter innerWalk check cache _ inner later =>
    rw [later, cacheFilter_knowledge cache, checkFilter_knowledge check, innerWalk.variableOf?_eq,
      inner]
    simp only [Node.learnedOf, Node.learned, keyedVariable?_id]
  | call _ _ _ _ first second later =>
    rw [later, second, first]
    rfl
  | list _ _ _ inner later =>
    rw [later, inner]
    rfl

/-- The expression of a statement. -/
theorem Operands.learned_eq {e e' : Node} (h : Operands ctx st.beginStatement [e] [e'] next) :
    next.knowledge =
      e.learned id ctx.options.cachePlaceholders ctx.assignedAnywhere st.knowledge :=
  h.knowledge_eq

end Expressions

/-- The walk of a block learns what its statements teach by name. -/
theorem Statements.knowledge_eq {ctx : Context} {st last : State} {source out : List Node}
    (h : Statements ctx st source out last) :
    last.knowledge =
      Node.learnedOf id ctx.options.cachePlaceholders ctx.assignedAnywhere source st.knowledge := by
  induction h with
  | nil => rfl
  | function _ _ _ _ _ ih => exact ih
  | @branch ctx st tested inThen last condition _ thenBody _ rest _ _ span test _ _ thenIH ih =>
    have inBranch : inThen.knowledge = Node.learnedOf id ctx.options.cachePlaceholders
        ctx.assignedAnywhere thenBody tested.knowledge := thenIH
    rw [ih, Node.learnedOf, Node.learned, ← test.learned_eq]
    rw [← inBranch]
    rfl
  | @branches ctx st tested inThen inElse last condition _ thenBody _ elseBody _ rest _ _ _ span
      test _ _ _ thenIH elseIH ih =>
    have inFirst : inThen.knowledge = Node.learnedOf id ctx.options.cachePlaceholders
        ctx.assignedAnywhere thenBody tested.knowledge := thenIH
    have inSecond : inElse.knowledge = Node.learnedOf id ctx.options.cachePlaceholders
        ctx.assignedAnywhere elseBody (tested.knowledge.afterBranch inThen.knowledge) := elseIH
    rw [ih, Node.learnedOf, Node.learned, ← test.learned_eq]
    rw [← inFirst, ← inSecond]
    rfl
  | assign _ _ inner _ ih =>
    rw [ih, Node.learnedOf, Node.learned, ← inner.learned_eq]
    rfl
  | write _ inner _ ih | expression _ inner _ ih =>
    rw [ih]
    exact congrArg _ inner.learned_eq

end Analysis

/-! ### Numbers for names -/

namespace NameTable

/-- The number of a name that a table has numbered. -/
def number (table : NameTable) (name : String) : NameId := (table.lookup? name).getD ⟨0⟩

section Numbers

variable {table : NameTable} {log : List NameEvent} {name : String}

theorem Keeps.lookup?_number (keeps : table.Keeps log)
    (numbered : .intern name ∈ log.map NameEvent.call) :
    table.lookup? name = some (table.number name) := by
  cases found : table.lookup? name with
  | none => exact absurd numbered (keeps.lookup?_eq_none.1 found)
  | some id => rw [number, found, Option.getD_some]

/-- Numbers tell the names apart that were numbered. -/
theorem Keeps.distinguishes (keeps : table.Keeps log) {names : List String}
    (numbered : ∀ name ∈ names, .intern name ∈ log.map NameEvent.call) :
    Distinguishes table.number names := by
  intro a member b member' same
  have one := keeps.lookup?_eq_some.1 (keeps.lookup?_number (numbered a member))
  have two := keeps.lookup?_eq_some.1 (keeps.lookup?_number (numbered b member'))
  exact (keeps.id_eq_iff one two).1 same

end Numbers

end NameTable

namespace Analysis

open NameCall (distinctNames)

/-- Whether a name belongs to the template can be asked by its number; a name without a number does
not. -/
theorem isUserName_by_number {table : NameTable} {log : List NameEvent} (keeps : table.Keeps log)
    (ctx : Context) (st : State)
    (numbered : ∀ name ∈ ctx.assignedAnywhere ++ ctx.declared ++ st.globals.toList,
      .intern name ∈ log.map NameEvent.call) (name : String) :
    st.isUserName ctx name = (table.lookup? name).any fun id =>
      id ∈ (ctx.assignedAnywhere ++ ctx.declared ++ st.globals.toList).map table.number := by
  have asked : st.isUserName ctx name =
      decide (name ∈ ctx.assignedAnywhere ++ ctx.declared ++ st.globals.toList) := by
    simp [State.isUserName, OrderedSet.mem_def, Bool.or_assoc]
  rw [asked, Bool.eq_iff_iff, decide_eq_true_eq]
  cases found : table.lookup? name with
  | none =>
    refine iff_of_false (fun member => ?_) Bool.false_ne_true
    exact keeps.lookup?_eq_none.1 found (numbered name member)
  | some id =>
    have interned := NameEvent.intern_mem_calls.2 ⟨id, keeps.lookup?_eq_some.1 found⟩
    have same : id = table.number name :=
      Option.some.inj (found.symm.trans (keeps.lookup?_number interned))
    have distinct : Distinguishes table.number
        (name :: (ctx.assignedAnywhere ++ ctx.declared ++ st.globals.toList)) :=
      keeps.distinguishes (List.forall_mem_cons.2 ⟨interned, numbered⟩)
    rw [Option.any_some, decide_eq_true_eq, same]
    exact (distinct.mem_map_iff (List.subset_cons_self _ _) List.mem_cons_self).symm

/-- A function can be walked with numbers in place of names. However a table was used, as long as it
has numbered the names of the function and fewer than 2³² names in all, the walk by number knows
about every name that has a number what the analysis knows about it by name: whether it is assigned
on every path, and what a filter of it finds. -/
theorem known_by_number {ctx : Context} {st inner : State} {body walked : List Node} {scope : Scope}
    (inside : Statements (ctx.enterFunction ⟨body, scope⟩) (st.enterFunction ⟨body, scope⟩) body
      walked inner)
    (calls : List NameCall) (few : distinctNames calls < 2 ^ 32)
    (numbered : ∀ name ∈ scope.locals.toList ++ Node.mentionsOf body ++ Node.assignmentsOf body,
      .intern name ∈ calls) (name : String) (asked : .intern name ∈ calls) :
    let number := ((∅ : NameTable).after calls).number
    let numbers := Node.learnedOf number ctx.options.cachePlaceholders
      ((Node.assignmentsOf body).map number) body ⟨.ofList (scope.locals.toList.map number), ∅⟩
    (number name ∈ numbers.assigned ↔ name ∈ inner.frame.assigned) ∧
      (numbers.ledger.filter (number name)).2 = (inner.ledger.filter name).2 := by
  intro number numbers
  have keeps : ((∅ : NameTable).after calls).Keeps ((∅ : NameTable).log calls) :=
    NameTable.keeps_empty.after few
  let names := calls.filterMap NameCall.interned?
  have distinct : Distinguishes number names := by
    apply keeps.distinguishes
    intro name member
    rw [NameTable.map_call_log]
    exact NameCall.mem_interned.1 member
  have within : scope.locals.toList ++ Node.mentionsOf body ++ Node.assignmentsOf body ⊆ names :=
    fun name member => NameCall.mem_interned.2 (numbered name member)
  rw [List.append_subset, List.append_subset] at within
  have start : (st.enterFunction ⟨body, scope⟩).knowledge.Represents number names
      ⟨.ofList (scope.locals.toList.map number), ∅⟩ :=
    ⟨.ofList within.1.1, fun _ _ => rfl⟩
  have represents : inner.knowledge.Represents number names numbers := by
    rw [inside.knowledge_eq]
    exact Node.learnedOf_represents distinct within.2 body within.1.2 within.2 start
  have member : name ∈ names := NameCall.mem_interned.2 asked
  exact ⟨represents.assigned.mem_iff distinct member, represents.use_eq member⟩

end Analysis

end Stencil
