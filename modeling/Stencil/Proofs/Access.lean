import Stencil.Proofs.Survey

/-!
# How placeholders are read

What the analysis notes on the sites of a tree, told for the places inside them.

* `analyze_access_determined`: how every placeholder is read. The names that a template takes from
  outside have no part in it.
* `analyze_eligibility_exact`: which placeholders count as always evaluated.
-/

namespace Stencil

section Reads

variable {options : Options} {s t : Site} {way : List Nat} {span : Span} {name : String}

/-- A placeholder of the source, at its place in the analysed tree. -/
theorem Site.Noted.placeholder (h : Site.Noted options s t) {resolution : Option Resolution}
    (found : s.expression.at? way = some (.placeholder span name resolution)) :
    ∃ note, t.expression.at? way = some (.placeholder span name (some note)) ∧
      (note.cacheEligible = false ↔ s.expression.Skips way) ∧
      s.toPlace.access? options t.toPlace note.cacheEligible name = some note.access := by
  rw [← h.bare, Node.at?_bare, Option.map_eq_some_iff] at found
  obtain ⟨n, found, same⟩ := found
  cases n with
  | placeholder span' name' resolution' =>
    cases same
    obtain ⟨left, ⟨note, rfl, eligible, access⟩, skips⟩ := h.notes.at found
    refine ⟨note, found, ?_, access⟩
    rw [← h.bare, Node.skips_bare, eligible, Bool.not_eq_false', skips]
    simp
  | template | function | conditional | assign | write | identifier | literal | binary | filter
  | call | list => cases same

/-- A filter of the source, at its place in the analysed tree. -/
theorem Site.Noted.filter (h : Site.Noted options s t) {operand : Node}
    {filter cachedAs : Option String}
    (found : s.expression.at? way = some (.filter span operand filter cachedAs)) :
    ∃ operand' cachedAs', t.expression.at? way = some (.filter span operand' filter cachedAs') ∧
      (s.expression.Skips way → cachedAs' = none) := by
  rw [← h.bare, Node.at?_bare, Option.map_eq_some_iff] at found
  obtain ⟨n, found, same⟩ := found
  cases n with
  | filter span' operand' filter' cachedAs' =>
    cases same
    obtain ⟨left, kept, skips⟩ := h.notes.at found
    refine ⟨operand', cachedAs', found, fun skipped => kept (skips.2 (.inr ?_))⟩
    rwa [← h.bare, Node.skips_bare] at skipped
  | template | function | conditional | assign | write | identifier | placeholder | literal | binary
  | call | list => cases same

end Reads

section Access

variable {options : Options} {p q q' : Place} {eligible : Bool} {name : String}
  {access access' : Access}

/-- A read that may be left out is not one of an alias. -/
theorem Place.access?_skipped (h : p.access? options q false name = some access)
    (alternative : String) : access ≠ .cached alternative := by
  rintro rfl
  rw [Place.access?] at h
  split at h
  · cases h
  · simp at h

/-- Ways to read a placeholder that differ at most in the name of an alias. -/
def Access.Similar : Access → Access → Prop
  | .cached _, .cached _ => True
  | access, access' => access = access'

/-- The aliases of a place only matter for the name of the alias to read. -/
theorem Place.access?_similar (h : p.access? options q eligible name = some access)
    (h' : p.access? options q' eligible name = some access') : access.Similar access' := by
  rw [Place.access?] at h h'
  by_cases direct : (options.directAccess && p.isAssigned name) = true
  · rw [if_pos direct] at h h'
    cases h
    cases h'
    rfl
  · rw [if_neg direct] at h h'
    by_cases kept : (options.cachePlaceholders && eligible && p.isConstant name) = true
    · rw [if_pos kept, Option.map_eq_some_iff] at h h'
      obtain ⟨_, -, rfl⟩ := h
      obtain ⟨_, -, rfl⟩ := h'
      trivial
    · rw [if_neg kept] at h h'
      cases h
      cases h'
      rfl

/-- Two analysed forms of a site read its placeholders in similar ways. -/
theorem Site.Noted.similar {s t t' : Site} (h : Site.Noted options s t)
    (h' : Site.Noted options s t') {way : List Nat} {span : Span} {note note' : Resolution}
    (found : t.expression.at? way = some (.placeholder span name (some note)))
    (found' : t'.expression.at? way = some (.placeholder span name (some note'))) :
    note.access.Similar note'.access := by
  have written : s.expression.at? way = some (.placeholder span name none) := by
    rw [← h.bare, Node.at?_bare, found]
    rfl
  obtain ⟨_, here, skips, access⟩ := h.placeholder written
  obtain ⟨_, here', skips', access'⟩ := h'.placeholder written
  rw [found] at here
  rw [found'] at here'
  cases here
  cases here'
  have eligible : note.cacheEligible = note'.cacheEligible := by
    rw [Bool.eq_iff_iff, ← not_iff_not, Bool.not_eq_true, Bool.not_eq_true, skips, skips']
  rw [eligible] at access
  exact Place.access?_similar access access'

end Access

/-- A tree that takes other names from outside. -/
def Node.withGlobals (globals : OrderedSet String) : Node → Node
  | .template span name _ body => .template span name globals body
  | n => n

theorem Node.top_withGlobals (globals : OrderedSet String) (root : Node) :
    (root.withGlobals globals).top = root.top := by
  cases root <;> rfl

theorem forall₂_of_common {α β γ : Type} {R : α → β → Prop} {S : α → γ → Prop} {T : β → γ → Prop}
    {as : List α} {bs : List β} {cs : List γ} (each : ∀ a b c, R a b → S a c → T b c)
    (first : List.Forall₂ R as bs) (second : List.Forall₂ S as cs) : List.Forall₂ T bs cs := by
  induction first generalizing cs with
  | nil =>
    cases second
    exact .nil
  | cons here _ ih =>
    cases second with
    | cons here' later => exact .cons (each _ _ _ here here') (ih later)

/-- Every placeholder of a source tree gets the access that its place determines. The names that the
tree takes from outside have no influence on it, except that an alias may be called differently. -/
theorem analyze_access_determined (options : Options) (root : Node) (analysis : Analysis)
    (source : root.isSource) (h : root.analyze options = .ok analysis) :
    List.Forall₂ (fun s t : Site => t.expression.bare = s.expression ∧
        ∀ way span name resolution,
          s.expression.at? way = some (.placeholder span name resolution) →
          ∃ note, t.expression.at? way = some (.placeholder span name (some note)) ∧
            s.toPlace.access? options t.toPlace note.cacheEligible name = some note.access)
      (root.sites .top) ((analysis.tree.pruned fun _ => false).sites .top) ∧
    ∀ globals analysis', (root.withGlobals globals).analyze options = .ok analysis' →
      List.Forall₂ (fun t t' : Site => t.expression.bare = t'.expression.bare ∧
          ∀ way span name note note',
            t.expression.at? way = some (.placeholder span name (some note)) →
            t'.expression.at? way = some (.placeholder span name (some note')) →
            note.access.Similar note'.access)
        ((analysis.tree.pruned fun _ => false).sites .top)
        ((analysis'.tree.pruned fun _ => false).sites .top) := by
  obtain ⟨sites, -⟩ := Analysis.analyze_surveyed source h
  constructor
  · apply sites.imp
    intro s t noted
    refine ⟨noted.bare, fun way span name resolution found => ?_⟩
    obtain ⟨note, found, -, access⟩ := noted.placeholder found
    exact ⟨note, found, access⟩
  · intro globals analysis' h'
    have same := Node.top_withGlobals globals root
    have source' : (root.withGlobals globals).isSource := by rwa [Node.isSource, same]
    obtain ⟨sites', -⟩ := Analysis.analyze_surveyed source' h'
    rw [Node.sites_top, same, ← Node.sites_top] at sites'
    apply forall₂_of_common _ sites sites'
    intro s t t' noted noted'
    refine ⟨noted.bare.trans noted'.bare.symm, fun way span name note note' found found' => ?_⟩
    exact noted.similar noted' found found'

/-- A template in which each way to read a placeholder occurs: `x` before and after the template
assigns it, the parameter `arg`, `site` that the template takes from outside, `y` in a branch that
assigns it, behind that branch and in a function inside, `z` before and after it is assigned, and
`foo` in a branch, where it may be left out, and where it always is read. -/
def crossing : Node :=
  let value (name : String) := Node.placeholder .generated name none
  let read (name : String) := Node.write .generated (value name)
  let set (name : String) := Node.assign .generated name (.literal .generated .null)
  let page : Block Node :=
    ⟨[read "arg", read "site",
        .conditional .generated (value "site") (.plain [set "y", read "y", read "foo"]) none,
        read "y", .function .generated "inside" (.plain [read "y"]),
        .write .generated (.binary .generated .and (value "bar") (value "foo")), read "foo",
        read "z", set "z", read "z"], { Scope.empty with locals := .ofList ["arg"] }⟩
  .template .generated "crossing" (.ofList ["site"])
    [read "x", set "x", read "x", .function .generated "page" page]

theorem crossing_analyze :
    ∃ analysis analysis', crossing.analyze .caching = .ok analysis ∧
      (crossing.withGlobals ∅).analyze .caching = .ok analysis' ∧
      analysis.reads.map (fun read => (read.name, read.resolution.access)) =
        [("x", .dynamic), ("x", .direct "x"), ("arg", .direct "arg"), ("site", .cached "_rph_site"),
          ("site", .cached "_rph_site"), ("y", .direct "y"), ("foo", .cached "_rph_foo"),
          ("y", .dynamic), ("y", .cached "_rph_y"), ("bar", .cached "_rph_bar"), ("foo", .dynamic),
          ("foo", .cached "_rph_foo"), ("z", .dynamic), ("z", .direct "z")] :=
  ⟨_, _, rfl, rfl, by decide +kernel⟩

theorem crossing_access_determined :
    ∃ analysis analysis', crossing.isSource = true ∧ crossing.analyze .caching = .ok analysis ∧
      (crossing.withGlobals ∅).analyze .caching = .ok analysis' ∧
      analysis.reads.map (fun read => (read.name, read.resolution.access)) =
        [("x", .dynamic), ("x", .direct "x"), ("arg", .direct "arg"), ("site", .cached "_rph_site"),
          ("site", .cached "_rph_site"), ("y", .direct "y"), ("foo", .cached "_rph_foo"),
          ("y", .dynamic), ("y", .cached "_rph_y"), ("bar", .cached "_rph_bar"), ("foo", .dynamic),
          ("foo", .cached "_rph_foo"), ("z", .dynamic), ("z", .direct "z")] ∧
      List.Forall₂ (fun s t : Site => ∀ way span name resolution,
          s.expression.at? way = some (.placeholder span name resolution) →
          ∃ note, t.expression.at? way = some (.placeholder span name (some note)) ∧
            s.toPlace.access? .caching t.toPlace note.cacheEligible name = some note.access)
        (crossing.sites .top) ((analysis.tree.pruned fun _ => false).sites .top) ∧
      List.Forall₂ (fun t t' : Site => ∀ way span name note note',
          t.expression.at? way = some (.placeholder span name (some note)) →
          t'.expression.at? way = some (.placeholder span name (some note')) →
          note.access.Similar note'.access)
        ((analysis.tree.pruned fun _ => false).sites .top)
        ((analysis'.tree.pruned fun _ => false).sites .top) := by
  obtain ⟨analysis, analysis', analyzed, analyzed', read⟩ := crossing_analyze
  obtain ⟨accesses, similar⟩ :=
    analyze_access_determined .caching crossing analysis (by decide) analyzed
  refine ⟨analysis, analysis', by decide, analyzed, analyzed', read, ?_, ?_⟩
  · exact accesses.imp fun s t noted => noted.2
  · exact (similar ∅ analysis' analyzed').imp fun t t' noted => noted.2

/-- A placeholder counts as always evaluated unless it stands, in the expression of its statement,
inside the right operand of `and` or `or`. There no placeholder is read from an alias and no filter
is kept. -/
theorem analyze_eligibility_exact (options : Options) (root : Node) (analysis : Analysis)
    (source : root.isSource) (h : root.analyze options = .ok analysis) :
    List.Forall₂ (fun s t : Site => t.expression.bare = s.expression ∧
        (∀ way span name resolution,
          s.expression.at? way = some (.placeholder span name resolution) →
          ∃ note, t.expression.at? way = some (.placeholder span name (some note)) ∧
            (note.cacheEligible = false ↔ s.expression.Skips way) ∧
            (s.expression.Skips way → ∀ alternative, note.access ≠ .cached alternative)) ∧
        ∀ way span operand filter cachedAs,
          s.expression.at? way = some (.filter span operand filter cachedAs) →
          ∃ operand' cachedAs', t.expression.at? way = some (.filter span operand' filter cachedAs') ∧
            (s.expression.Skips way → cachedAs' = none))
      (root.sites .top) ((analysis.tree.pruned fun _ => false).sites .top) := by
  obtain ⟨sites, -⟩ := Analysis.analyze_surveyed source h
  apply sites.imp
  intro s t noted
  refine ⟨noted.bare, fun way span name resolution found => ?_,
    fun way span operand filter cachedAs found => noted.filter found⟩
  obtain ⟨note, found, skips, access⟩ := noted.placeholder found
  refine ⟨note, found, skips, fun skipped => ?_⟩
  rw [skips.2 skipped] at access
  exact Place.access?_skipped access

/-- A function with right operands of `and` and `or` at several depths, in two statements and in a
condition, and with operands and statements behind them. -/
def guarded : Node :=
  let value (name : String) := Node.placeholder .generated name none
  let short (value : Node) := Node.filter .generated value (some "short") none
  .function .generated "guarded" (.plain
    [.write .generated (.list .generated
        [.binary .generated .or (value "a") (.binary .generated .add (short (value "b"))
            (.call .generated (value "c") [.binary .generated .and (value "d") (value "e")])),
          short (value "f")]),
      .conditional .generated
        (.binary .generated .and (value "g") (.list .generated [short (value "b")]))
        (.plain [.write .generated
          (.binary .generated .add (.binary .generated .and (value "h") (value "i")) (value "b"))])
        none,
      .write .generated (value "b")])

theorem guarded_analyze :
    ∃ analysis, guarded.analyze .caching = .ok analysis ∧
      analysis.reads.map (fun read => (read.name, read.resolution.cacheEligible)) =
        [("a", true), ("b", false), ("c", false), ("d", false), ("e", false), ("f", true),
          ("g", true), ("b", false), ("h", true), ("i", false), ("b", true), ("b", true)] :=
  ⟨_, rfl, by decide +kernel⟩

theorem guarded_eligibility_exact :
    ∃ analysis, guarded.isSource = true ∧ guarded.analyze .caching = .ok analysis ∧
      analysis.reads.map (fun read => (read.name, read.resolution.cacheEligible)) =
        [("a", true), ("b", false), ("c", false), ("d", false), ("e", false), ("f", true),
          ("g", true), ("b", false), ("h", true), ("i", false), ("b", true), ("b", true)] ∧
      List.Forall₂ (fun s t : Site =>
          (∀ way span name resolution,
            s.expression.at? way = some (.placeholder span name resolution) →
            ∃ note, t.expression.at? way = some (.placeholder span name (some note)) ∧
              (note.cacheEligible = false ↔ s.expression.Skips way)) ∧
          ∀ way span operand filter cachedAs,
            s.expression.at? way = some (.filter span operand filter cachedAs) →
            s.expression.Skips way →
            ∃ operand', t.expression.at? way = some (.filter span operand' filter none))
        (guarded.sites .top) ((analysis.tree.pruned fun _ => false).sites .top) := by
  obtain ⟨analysis, analyzed, eligible⟩ := guarded_analyze
  have sites := analyze_eligibility_exact .caching guarded analysis (by decide) analyzed
  refine ⟨analysis, by decide, analyzed, eligible, sites.imp ?_⟩
  rintro s t ⟨-, placeholders, filters⟩
  constructor
  · intro way span name resolution found
    obtain ⟨note, found, eligible, -⟩ := placeholders way span name resolution found
    exact ⟨note, found, eligible⟩
  · intro way span operand filter cachedAs found skipped
    obtain ⟨operand', cachedAs', found, kept⟩ := filters way span operand filter cachedAs found
    cases kept skipped
    exact ⟨operand', found⟩

end Stencil
