import Stencil.CommandLine.Run

/-!
# Operations on directories

A path is followed through directories alone, so two trees with the same directories and the same
working directory agree on where a path leads. Creating a directory puts directories where nothing
was, even if it fails; doing it again comes to the same and changes nothing.

* `Directory.resolve_of_grows`: where a path leads does not change as directories are added.
* `Directory.create_spec`, `Directory.create_again`: creating a directory, once and twice.
* `Directory.create_failed`: failing to create a directory, once and twice.
* `resolve_outputPath`: the output of a file is in the output directory, under its name.
-/

namespace Stencil

/-! ## The text of paths -/

namespace Text

/-- No piece of a list has the element at which the list was split. -/
theorem not_mem_of_mem_splitOn {c : Char} {text piece : List Char}
    (mem : piece ∈ text.splitOn c) : c ∉ piece := by
  induction h : text.length using Nat.strongRecOn generalizing text with
  | _ n ih =>
    by_cases split : c ∈ text
    · obtain ⟨before, after, rfl, fresh⟩ := List.eq_append_cons_of_mem split
      rw [List.splitOn_append_cons_self, List.splitOn_eq_singleton fresh] at mem
      rcases List.mem_append.1 mem with mem | mem
      · rw [List.mem_singleton.1 mem]
        exact fresh
      · exact ih after.length (by simp at h; omega) mem rfl
    · rw [List.splitOn_eq_singleton split] at mem
      rw [List.mem_singleton.1 mem]
      exact split

/-- A slash separates the pieces before it from those behind it. -/
theorem pieces_append_slash (path rest : String) :
    pieces (path ++ "/" ++ rest) = pieces path ++ pieces rest := by
  have cut : (path ++ "/" ++ rest).toList = path.toList ++ '/' :: rest.toList := by simp
  rw [pieces, cut, List.splitOn_append_cons_self, List.map_append]
  rfl

theorem exists_append_slash {path : String} (ends : path.endsWith "/") :
    ∃ front, path = front ++ "/" := by
  rw [String.endsWith_eq_endsWith_toSlice, String.Slice.endsWith_string_iff] at ends
  obtain ⟨front, cut⟩ := ends
  refine ⟨String.ofList front, String.toList_injective ?_⟩
  simpa using cut.symm

/-- A piece has no slash, and is the only piece of itself. -/
theorem pieces_of_mem {path piece : String} (mem : piece ∈ pieces path) :
    pieces piece = [piece] := by
  obtain ⟨letters, split, rfl⟩ := List.mem_map.1 mem
  rw [pieces, String.toList_ofList, List.splitOn_eq_singleton (not_mem_of_mem_splitOn split)]
  rfl

end Text

namespace CommandLine

namespace Directory

/-! ## Entries -/

theorem get?_eq_find? {d : Directory} {place : List String} (elsewhere : ¬place <+: d.working) :
    d.get? place = (d.entries.find? (·.1 == place)).map Prod.snd := by
  rw [get?, if_neg]
  simpa using elsewhere

theorem get?_of_prefix {d : Directory} {place : List String} (around : place <+: d.working) :
    d.get? place = some .directory := by
  rw [get?, if_pos]
  simpa using around

@[simp]
theorem working_put (d : Directory) (place : List String) (entry : Entry) :
    (d.put place entry).working = d.working := by
  unfold put
  split <;> rfl

/-- Overwriting the entries at a path changes what is found there and nothing else. -/
theorem find?_overwritten (entries : List (List String × Entry)) (path other : List String)
    (entry : Entry) :
    ((entries.map fun old => if old.1 == path then (path, entry) else old).find?
        (·.1 == other)).map Prod.snd =
      if other = path then (entries.find? (·.1 == path)).map fun _ => entry
      else (entries.find? (·.1 == other)).map Prod.snd := by
  induction entries with
  | nil => simp
  | cons old rest ih =>
    by_cases here : old.1 = path
    · subst here
      by_cases same : other = old.1
      · simp [same]
      · simpa [same, Ne.symm same] using ih
    · by_cases found : old.1 = other
      · subst found
        simp [here]
      · simpa [here, found] using ih

/-- Where something other than a directory can be put, only the entry there changes. -/
theorem get?_put {d : Directory} {place : List String} (free : d.get? place ≠ some .directory)
    (entry : Entry) (other : List String) :
    (d.put place entry).get? other = if other = place then some entry else d.get? other := by
  have elsewhere : ¬place <+: d.working := mt get?_of_prefix free
  by_cases around : other <+: d.working
  · have different : other ≠ place := by
      rintro rfl
      exact elsewhere around
    rw [if_neg different, get?_of_prefix around]
    exact get?_of_prefix (by rwa [working_put])
  rw [get?_eq_find? (by rwa [working_put]), get?_eq_find? around]
  unfold put
  split
  next known =>
    rw [find?_overwritten]
    have found : (d.entries.find? (·.1 == place)).isSome := by
      rw [List.find?_isSome]
      simpa using known
    obtain ⟨old, old_eq⟩ := Option.isSome_iff_exists.1 found
    simp [old_eq]
  next unknown =>
    have absent : d.entries.find? (·.1 == place) = none := by
      rw [List.find?_eq_none]
      intro old mem here
      exact unknown (List.any_eq_true.2 ⟨old, mem, here⟩)
    by_cases same : other = place
    · subst same
      simp [List.find?_append, absent]
    · simp [List.find?_append, same, Ne.symm same]

/-! ## Following paths -/

theorem follow_cons (d : Directory) (here : List String) (part : String) (rest : List String) :
    d.follow here (part :: rest) =
      match d.get? here with
      | some .directory => (enter here part).bind (d.follow · rest)
      | some _ => .error .notADirectory
      | none => .error .missing := rfl

theorem follow_append (d : Directory) (here front back : List String) :
    d.follow here (front ++ back) = (d.follow here front).bind (d.follow · back) := by
  induction front generalizing here with
  | nil => rfl
  | cons part rest ih =>
    rw [List.cons_append, follow_cons, follow_cons]
    split
    next =>
      cases enter here part with
      | error fault => rfl
      | ok further => exact ih further
    next => rfl
    next => rfl

/-- All directories of the first tree are directories of the second, and relative paths start at the
same place. -/
structure Grows (d e : Directory) : Prop where
  working : e.working = d.working
  directory : ∀ place, d.get? place = some .directory → e.get? place = some .directory

theorem Grows.origin {d e : Directory} (grows : d.Grows e) (path : String) :
    e.origin path = d.origin path := by
  rw [Directory.origin, grows.working, Directory.origin]

/-- A path that can be followed leads to the same place when there are more directories. -/
theorem follow_of_grows {d e : Directory} (grows : d.Grows e) {here place parts : List String}
    (followed : d.follow here parts = .ok place) : e.follow here parts = .ok place := by
  induction parts generalizing here with
  | nil => exact followed
  | cons part rest ih =>
    rw [follow_cons] at followed ⊢
    split at followed
    next directory =>
      rw [grows.directory here directory]
      cases entered : enter here part with
      | error fault => simp [entered, Except.bind] at followed
      | ok further =>
        rw [entered] at followed
        exact ih followed
    next => cases followed
    next => cases followed

/-- A path that the system takes at all. -/
def Addressable (path : String) : Prop :=
  path ≠ "" ∧ '\x00' ∉ path.toList ∧ path.utf8ByteSize < 4096

theorem resolve_eq_follow {path : String} (addressable : Addressable path) (d : Directory) :
    d.resolve path = d.follow (d.origin path) (parts path) := by
  obtain ⟨nonempty, clean, short⟩ := addressable
  have within : ¬4096 ≤ path.utf8ByteSize := by omega
  simp [resolve, nonempty, clean, within]

theorem resolve_congr {d e : Directory} {path : String}
    (alike : e.follow (e.origin path) (parts path) = d.follow (d.origin path) (parts path)) :
    e.resolve path = d.resolve path := by
  unfold resolve
  rw [alike]

theorem addressable_of_resolve {d : Directory} {path : String} {place : List String}
    (resolved : d.resolve path = .ok place) : Addressable path := by
  unfold resolve at resolved
  split at resolved
  · cases resolved
  next nonempty =>
    split at resolved
    · cases resolved
    next clean =>
      split at resolved
      · cases resolved
      next within => exact ⟨by simpa using nonempty, by simpa using clean, by omega⟩

theorem resolve_of_grows {d e : Directory} (grows : d.Grows e) {path : String}
    {place : List String} (resolved : d.resolve path = .ok place) :
    e.resolve path = .ok place := by
  have addressable := addressable_of_resolve resolved
  rw [resolve_eq_follow addressable] at resolved ⊢
  rw [grows.origin]
  exact follow_of_grows grows resolved

/-! ## Creating directories -/

/-- The second tree has what the first one has, and directories where that has nothing. -/
structure Extends (d e : Directory) : Prop where
  working : e.working = d.working
  entries : ∀ place, e.get? place = d.get? place ∨
    d.get? place = none ∧ e.get? place = some .directory

theorem Extends.refl (d : Directory) : d.Extends d := ⟨rfl, fun _ => .inl rfl⟩

theorem Extends.trans {d e f : Directory} (first : d.Extends e) (second : e.Extends f) :
    d.Extends f := by
  refine ⟨second.working.trans first.working, fun place => ?_⟩
  rcases second.entries place with same | ⟨free, made⟩
  · rw [same]
    exact first.entries place
  · rcases first.entries place with same | ⟨_, taken⟩
    · exact .inr ⟨same ▸ free, made⟩
    · rw [taken] at free
      cases free

theorem Extends.grows {d e : Directory} (more : d.Extends e) : d.Grows e := by
  refine ⟨more.working, fun place directory => ?_⟩
  rcases more.entries place with same | ⟨free, _⟩
  · rw [same, directory]
  · rw [directory] at free
    cases free

section Start

variable {d e : Directory} {start parts : List String} {fault : Fault}

theorem make_eq (made : d.make start parts = .ok e) :
    ∃ place, d.follow start parts = .ok place ∧ d.get? place = none ∧
      e = d.put place .directory := by
  unfold make at made
  cases followed : d.follow start parts with
  | error fault => simp [followed, bind, Except.bind] at made
  | ok place =>
    simp only [followed, bind, Except.bind] at made
    by_cases taken : (d.get? place).isSome
    · rw [if_pos taken] at made
      cases made
    · rw [if_neg taken] at made
      cases made
      exact ⟨place, rfl, by simpa using taken, rfl⟩

theorem make_extends (made : d.make start parts = .ok e) : d.Extends e := by
  obtain ⟨place, _, free, rfl⟩ := make_eq made
  refine ⟨working_put d place .directory, fun other => ?_⟩
  rw [get?_put (by simp [free])]
  by_cases same : other = place
  · exact .inr ⟨same ▸ free, if_pos same⟩
  · exact .inl (if_neg same)

theorem isDirectory_iff :
    d.isDirectory start parts ↔
      ∃ place, d.follow start parts = .ok place ∧ d.get? place = some .directory := by
  unfold isDirectory
  split
  next place followed => simp [followed]
  next fault followed => simp [followed]

theorem Grows.isDirectory (grows : d.Grows e) (directory : d.isDirectory start parts) :
    e.isDirectory start parts := by
  obtain ⟨place, followed, here⟩ := isDirectory_iff.1 directory
  exact isDirectory_iff.2 ⟨place, follow_of_grows grows followed, grows.directory place here⟩

theorem make_isDirectory (made : d.make start parts = .ok e) : e.isDirectory start parts := by
  have grows := (make_extends made).grows
  obtain ⟨place, followed, free, rfl⟩ := make_eq made
  refine isDirectory_iff.2 ⟨place, follow_of_grows grows followed, ?_⟩
  exact (get?_put (by simp [free]) .directory place).trans (if_pos rfl)

theorem make_of_isDirectory (directory : d.isDirectory start parts) :
    d.make start parts = .error .exists := by
  obtain ⟨place, followed, here⟩ := isDirectory_iff.1 directory
  simp [make, followed, here, bind, Except.bind, throw, throwThe, MonadExceptOf.throw]

theorem make_eq_error (failed : d.make start parts = .error fault) :
    d.follow start parts = .error fault ∨
      ∃ place entry, d.follow start parts = .ok place ∧ d.get? place = some entry ∧
        fault = .exists := by
  unfold make at failed
  cases followed : d.follow start parts with
  | error reason =>
    rw [followed] at failed
    cases failed
    exact .inl rfl
  | ok place =>
    simp only [followed, bind, Except.bind] at failed
    cases here : d.get? place with
    | none =>
      rw [here] at failed
      cases failed
    | some entry =>
      rw [here] at failed
      cases failed
      exact .inr ⟨place, entry, rfl, here, rfl⟩

theorem ensure_eq_ok (ensured : ensure start d parts = .ok e) :
    d.Extends e ∧ e.isDirectory start parts := by
  unfold ensure at ensured
  split at ensured
  next made =>
    cases ensured
    exact ⟨make_extends made, make_isDirectory made⟩
  next =>
    split at ensured
    next directory =>
      cases ensured
      exact ⟨.refl _, directory⟩
    next => cases ensured
  next => cases ensured

/-- A directory that cannot be made is not there, and nothing has changed. -/
theorem ensure_eq_error (failed : ensure start d parts = .error (fault, e)) :
    e = d ∧ d.make start parts = .error fault ∧ ¬d.isDirectory start parts := by
  unfold ensure at failed
  split at failed
  next => cases failed
  next made =>
    split at failed
    next => cases failed
    next missing =>
      cases failed
      exact ⟨rfl, made, missing⟩
  next reason different made =>
    cases failed
    refine ⟨rfl, made, fun directory => different ?_⟩
    exact Except.error.inj (made.symm.trans (make_of_isDirectory directory))

theorem foldlM_ensure_eq_ok {left : List (List String)}
    (ensured : left.foldlM (ensure start) d = .ok e) :
    d.Extends e ∧ ∀ parts ∈ left, e.isDirectory start parts := by
  induction left generalizing d with
  | nil =>
    cases ensured
    exact ⟨.refl _, by simp⟩
  | cons parts rest ih =>
    rw [List.foldlM_cons] at ensured
    cases made : ensure start d parts with
    | error failure => simp [made, bind, Except.bind] at ensured
    | ok between =>
      rw [made] at ensured
      obtain ⟨more, directory⟩ := ensure_eq_ok made
      obtain ⟨further, directories⟩ := ih ensured
      refine ⟨more.trans further, ?_⟩
      rw [List.forall_mem_cons]
      exact ⟨further.grows.isDirectory directory, directories⟩

/-- Where one of several directories cannot be made, those before it are there. -/
theorem foldlM_ensure_eq_error {left : List (List String)}
    (failed : left.foldlM (ensure start) d = .error (fault, e)) :
    d.Extends e ∧ ∃ before parts after, left = before ++ parts :: after ∧
      (∀ other ∈ before, e.isDirectory start other) ∧
      ensure start e parts = .error (fault, e) := by
  induction left generalizing d with
  | nil => cases failed
  | cons parts rest ih =>
    rw [List.foldlM_cons] at failed
    cases made : ensure start d parts with
    | error failure =>
      rw [made] at failed
      cases failed
      obtain ⟨rfl, _, _⟩ := ensure_eq_error made
      exact ⟨.refl _, [], parts, rest, rfl, by simp, made⟩
    | ok between =>
      rw [made] at failed
      obtain ⟨more, directory⟩ := ensure_eq_ok made
      obtain ⟨further, before, next, after, rfl, directories, stopped⟩ := ih failed
      refine ⟨more.trans further, parts :: before, next, after, rfl, ?_, stopped⟩
      rw [List.forall_mem_cons]
      exact ⟨further.grows.isDirectory directory, directories⟩

/-- What is tried is left up to the first path that leads to a directory then. -/
theorem makeOuter_eq_ok {tried left rest : List (List String)}
    (made : d.makeOuter start tried left = .ok (e, rest)) :
    d.Extends e ∧ ∃ skipped around, tried = skipped ++ around ∧ rest = skipped.reverse ++ left ∧
      ∀ parts ∈ around.head?, e.isDirectory start parts := by
  induction tried generalizing left with
  | nil =>
    cases made
    exact ⟨.refl _, [], [], rfl, rfl, by simp⟩
  | cons parts around ih =>
    unfold makeOuter at made
    split at made
    next first =>
      cases made
      exact ⟨make_extends first, [], parts :: around, rfl, rfl,
        by simpa using make_isDirectory first⟩
    next =>
      obtain ⟨more, skipped, outside, rfl, rfl, directory⟩ := ih made
      exact ⟨more, parts :: skipped, outside, rfl, by simp, directory⟩
    next =>
      split at made
      next directory =>
        cases made
        exact ⟨.refl _, [], parts :: around, rfl, rfl, by simpa using directory⟩
      next => cases made
    next => cases made

theorem makeOuter_of_isDirectory {tried : List (List String)}
    (directory : ∀ parts ∈ tried.head?, d.isDirectory start parts) (left : List (List String)) :
    d.makeOuter start tried left = .ok (d, left) := by
  cases tried with
  | nil => rfl
  | cons parts around =>
    have there : d.isDirectory start parts := directory parts rfl
    simp [makeOuter, make_of_isDirectory there, there]

theorem makeOuter_of_error (failed : d.make start parts = .error fault)
    (absent : ¬d.isDirectory start parts) (around left : List (List String)) :
    d.makeOuter start (parts :: around) left =
      if fault = .missing then d.makeOuter start around (parts :: left) else .error fault := by
  rw [makeOuter, failed]
  cases fault <;> simp [absent]

/-- Behind a directory that cannot be made, none can. -/
theorem make_behind {further : List String} (failed : d.make start parts = .error fault)
    (absent : ¬d.isDirectory start parts) (nonempty : further ≠ []) :
    ∃ fault', d.make start (parts ++ further) = .error fault' ∧
      ¬d.isDirectory start (parts ++ further) := by
  obtain ⟨fault', stopped⟩ : ∃ fault', d.follow start (parts ++ further) = .error fault' := by
    rw [follow_append]
    rcases make_eq_error failed with followed | ⟨place, entry, followed, here, _⟩
    · exact ⟨fault, by rw [followed]; rfl⟩
    · obtain ⟨part, rest, rfl⟩ := List.exists_cons_of_ne_nil nonempty
      refine ⟨.notADirectory, ?_⟩
      have other : entry ≠ .directory := by
        rintro rfl
        exact absent (isDirectory_iff.2 ⟨place, followed, here⟩)
      rw [followed]
      simp only [Except.bind, follow_cons, here]
  refine ⟨fault', by rw [make, stopped]; rfl, ?_⟩
  rw [isDirectory_iff]
  rintro ⟨place, followed, _⟩
  cases stopped.symm.trans followed

/-- Where a directory cannot be made between those behind it and those around it, trying all of them
changes nothing, and leaves that one to be made first. -/
theorem makeOuter_blocked {behind outside : List (List String)}
    (failed : d.make start parts = .error fault) (absent : ¬d.isDirectory start parts)
    (longer : ∀ other ∈ behind, ∃ further ≠ [], other = parts ++ further)
    (around : ∀ other ∈ outside.head?, d.isDirectory start other) (left : List (List String)) :
    (∃ fault', d.makeOuter start (behind ++ parts :: outside) left = .error fault') ∨
      d.makeOuter start (behind ++ parts :: outside) left =
        .ok (d, parts :: (behind.reverse ++ left)) := by
  induction behind generalizing left with
  | nil =>
    rw [List.nil_append, makeOuter_of_error failed absent, makeOuter_of_isDirectory around]
    by_cases missing : fault = .missing
    · exact .inr (if_pos missing)
    · exact .inl ⟨fault, if_neg missing⟩
  | cons other behind ih =>
    rw [List.forall_mem_cons] at longer
    obtain ⟨⟨further, nonempty, rfl⟩, rest⟩ := longer
    obtain ⟨fault', stopped, nowhere⟩ := make_behind failed absent nonempty
    rw [List.cons_append, makeOuter_of_error stopped nowhere]
    by_cases missing : fault' = .missing
    · rw [if_pos missing]
      simpa using ih rest (_ :: left)
    · exact .inl ⟨fault', if_neg missing⟩

end Start

/-- Each path that is tried is inside those that are tried after it. -/
theorem ancestors_inside (parts : List String) :
    (ancestors parts).Pairwise fun inner outer => ∃ further ≠ [], inner = outer ++ further := by
  have inside : ∀ {short long : Nat}, short < long → short < parts.length →
      ∃ further ≠ [], parts.take long = parts.take short ++ further := by
    intro short long less within
    refine ⟨(parts.take long).drop short, ?_, ?_⟩
    · rw [ne_eq, List.drop_eq_nil_iff, List.length_take]
      omega
    · have cut := List.take_append_drop short (parts.take long)
      rwa [List.take_take, Nat.min_eq_left (Nat.le_of_lt less), eq_comm] at cut
  have shorter : ∀ kept : List (List String),
      kept.Sublist ((List.range parts.length).map parts.take) →
      (parts :: kept.reverse).Pairwise fun inner outer =>
        ∃ further ≠ [], inner = outer ++ further := by
    intro kept sub
    rw [List.pairwise_cons, List.pairwise_reverse]
    constructor
    · intro outer mem
      obtain ⟨i, within, rfl⟩ := List.mem_map.1 (sub.subset (List.mem_reverse.1 mem))
      rw [List.mem_range] at within
      simpa using inside within within
    · refine List.Pairwise.sublist sub (List.pairwise_map.2 ?_)
      refine List.pairwise_lt_range.imp_of_mem ?_
      intro i j mem _ less
      exact inside less (List.mem_range.1 mem)
  unfold ancestors
  apply shorter
  split
  · exact (List.dropLast_sublist _).trans List.filter_sublist
  · exact List.filter_sublist

section Create

variable {d e f : Directory} {path : String} {fault : Fault}

theorem create_eq (clean : '\x00' ∉ path.toList) (short : path.utf8ByteSize < 4096)
    (d : Directory) :
    d.create path =
      match d.makeOuter (d.origin path) (ancestors (parts path)) [] with
      | .error fault => .error (fault, d)
      | .ok (outer, left) => left.foldlM (ensure (d.origin path)) outer := by
  rw [create, if_neg (by simpa using clean)]
  exact if_neg (by omega)

/-- Creating a directory fails at once, or the outermost directory that is needed is there, and the
others follow. -/
theorem create_cases (d : Directory) (path : String) :
    (∃ fault, d.create path = .error (fault, d)) ∨
      '\x00' ∉ path.toList ∧ path.utf8ByteSize < 4096 ∧ ∃ outer left,
        d.makeOuter (d.origin path) (ancestors (parts path)) [] = .ok (outer, left) ∧
        d.create path = left.foldlM (ensure (d.origin path)) outer := by
  by_cases clean : '\x00' ∈ path.toList
  · exact .inl ⟨.zeroInName, by simp [create, clean]⟩
  by_cases short : path.utf8ByteSize < 4096
  · rw [create_eq clean short]
    cases made : d.makeOuter (d.origin path) (ancestors (parts path)) [] with
    | error fault => exact .inl ⟨fault, rfl⟩
    | ok result => exact .inr ⟨clean, short, result.1, result.2, rfl, rfl⟩
  · have long : 4096 ≤ path.utf8ByteSize := by omega
    exact .inl ⟨.nameTooLong, by simp [create, clean, long]⟩

/-- Creating a directory puts directories where nothing was, and then the path leads to one. -/
theorem create_spec (created : d.create path = .ok e) :
    d.Extends e ∧ e.isDirectory (e.origin path) (parts path) := by
  rcases create_cases d path with ⟨fault, failed⟩ | ⟨_, _, outer, left, made, ensured⟩
  · cases failed.symm.trans created
  obtain ⟨more, skipped, around, tried, rfl, directory⟩ := makeOuter_eq_ok made
  obtain ⟨further, rest⟩ := foldlM_ensure_eq_ok (ensured.symm.trans created)
  have whole := more.trans further
  rw [whole.grows.origin]
  refine ⟨whole, ?_⟩
  have innermost : (skipped ++ around).head? = some (parts path) := by rw [← tried]; rfl
  cases skipped with
  | nil => exact further.grows.isDirectory (directory _ innermost)
  | cons first others =>
    cases innermost
    exact rest _ (by simp)

/-- A directory that has been created is there as long as directories stay, so that creating it
again changes nothing. -/
theorem create_again (created : d.create path = .ok e) (grows : e.Grows f) :
    f.create path = .ok f := by
  obtain ⟨_, directory⟩ := create_spec created
  have there := grows.isDirectory directory
  rw [← grows.origin] at there
  rcases create_cases d path with ⟨fault, failed⟩ | ⟨clean, short, _⟩
  · cases failed.symm.trans created
  · rw [create_eq clean short, makeOuter_of_isDirectory (by simpa [ancestors] using there)]
    rfl

/-- Creating a directory puts directories where nothing was even if it fails, and then it fails
again and changes nothing more. -/
theorem create_failed (failed : d.create path = .error (fault, e)) :
    d.Extends e ∧ ∃ fault', e.create path = .error (fault', e) := by
  rcases create_cases d path with ⟨fault', same⟩ | ⟨clean, short, outer, left, made, ensured⟩
  · cases same.symm.trans failed
    exact ⟨.refl _, fault, same⟩
  obtain ⟨more, skipped, around, tried, rfl, directory⟩ := makeOuter_eq_ok made
  obtain ⟨further, before, stop, after, left_eq, directories, stopped⟩ :=
    foldlM_ensure_eq_error (ensured.symm.trans failed)
  have whole := more.trans further
  refine ⟨whole, ?_⟩
  -- What was left is tried again from the other end: first the paths behind the one that cannot be
  -- made, then this one, then paths that lead to directories by now.
  rw [List.append_nil, List.reverse_eq_iff] at left_eq
  have again : ancestors (parts path) = after.reverse ++ stop :: (before.reverse ++ around) := by
    rw [tried, left_eq]
    simp
  obtain ⟨_, unmade, absent⟩ := ensure_eq_error stopped
  have longer : ∀ other ∈ after.reverse, ∃ further ≠ [], other = stop ++ further := by
    have inside := ancestors_inside (parts path)
    rw [again, List.pairwise_append] at inside
    exact fun other mem => inside.2.2 other mem stop List.mem_cons_self
  have outside : ∀ other ∈ (before.reverse ++ around).head?,
      e.isDirectory (d.origin path) other := by
    intro other first
    cases reversed : before.reverse with
    | nil =>
      rw [reversed] at first
      exact further.grows.isDirectory (directory other first)
    | cons head rest =>
      rw [reversed] at first
      cases first
      exact directories other (List.mem_reverse.1 (by simp [reversed]))
  rw [create_eq clean short, whole.grows.origin, again]
  rcases makeOuter_blocked unmade absent longer outside [] with ⟨fault', refused⟩ | retried
  · exact ⟨fault', by rw [refused]⟩
  · refine ⟨fault, ?_⟩
    rw [retried]
    simp only [List.foldlM_cons, stopped]
    rfl

end Create

/-! ## Reading and writing -/

theorem toOption_eq_some_iff {ε α : Type} {x : Except ε α} {value : α} :
    x.toOption = some value ↔ x = .ok value := by
  cases x <;> simp [Except.toOption]

theorem read_eq_ok_iff {d : Directory} {path content : String} :
    d.read path = .ok content ↔
      ∃ place, d.resolve path = .ok place ∧ d.get? place = some (.text content) ∧
        path.endsWith "/" = false := by
  unfold read
  cases resolved : d.resolve path with
  | error fault => simp [bind, Except.bind]
  | ok place =>
    simp only [bind, Except.bind, Except.ok.injEq, exists_eq_left']
    cases found : d.get? place with
    | none => simp [throw, throwThe, MonadExceptOf.throw]
    | some entry =>
      cases entry with
      | directory => simp [throw, throwThe, MonadExceptOf.throw]
      | binary => cases path.endsWith "/" <;> simp [throw, throwThe, MonadExceptOf.throw]
      | text older =>
        cases path.endsWith "/" <;>
          simp [throw, throwThe, MonadExceptOf.throw, pure, Except.pure]

example :
    let d : Directory :=
      ⟨["home"], [(["home", "a"], .directory), (["home", "a", "x"], .text "t")]⟩
    ∀ path ∈ ["a/x", "../home/a/x", "/home/./a/x", "/../home/a/x"],
      (d.read path).toOption = some "t" := by
  decide +kernel

/-- What can be read can still be read when there are more directories, if it has not been
overwritten. -/
theorem read_of_grows {d e : Directory} (grows : d.Grows e) {path content : String}
    (alike : ∀ place, d.resolve path = .ok place → e.get? place = d.get? place)
    (read : d.read path = .ok content) : e.read path = .ok content := by
  obtain ⟨place, resolved, here, ends⟩ := read_eq_ok_iff.1 read
  exact read_eq_ok_iff.2
    ⟨place, resolve_of_grows grows resolved, (alike place resolved).trans here, ends⟩

theorem write_eq_ok_iff {d e : Directory} {path content : String} :
    d.write path content = .ok e ↔
      ∃ place, d.resolve path = .ok place ∧ d.get? place ≠ some .directory ∧
        path.endsWith "/" = false ∧ e = d.put place (.text content) := by
  unfold write store
  cases resolved : d.resolve path with
  | error fault => simp [bind, Except.bind]
  | ok place =>
    simp only [bind, Except.bind, Except.ok.injEq, exists_eq_left']
    by_cases directory : d.get? place = some .directory
    · simp [directory, throw, throwThe, MonadExceptOf.throw]
    · cases ends : path.endsWith "/" with
      | true => simp [throw, throwThe, MonadExceptOf.throw]
      | false => simp [directory, pure, Except.pure, eq_comm (a := e)]

end Directory

/-! ## Outputs -/

open Directory

/-- The name of the output of a file. -/
def outputName (file : String) : String := (Settings.fileName? file).getD "template.json"

theorem pieces_outputName (file : String) : Text.pieces (outputName file) = [outputName file] := by
  unfold outputName Settings.fileName?
  split
  next name rest reversed =>
    split
    · decide
    · have mem : name ∈ Settings.componentsReversed file := by simp [reversed]
      simp only [Settings.componentsReversed, List.mem_reverse, List.mem_filter] at mem
      exact Text.pieces_of_mem mem.1
  next => decide

theorem outputName_plain (file : String) :
    outputName file ≠ "" ∧ outputName file ≠ "." ∧ outputName file ≠ ".." := by
  unfold outputName Settings.fileName?
  split
  next name rest reversed =>
    split
    · decide
    next inner =>
      have mem : name ∈ Settings.componentsReversed file := by simp [reversed]
      simp only [Settings.componentsReversed, List.mem_reverse, List.mem_filter] at mem
      simpa [inner] using mem.2
  next => decide

theorem parts_empty : parts "" = [] := by decide

/-- An output is in the output directory, under the name of its file. -/
theorem parts_outputPath (file directory : String) :
    parts (outputPath file directory) = parts directory ++ [outputName file] := by
  have nonempty : outputName file ≠ "" := (outputName_plain file).1
  have own : parts (outputName file) = [outputName file] := by
    rw [parts, pieces_outputName]
    simp [nonempty]
  unfold outputPath
  rw [← outputName]
  split
  next plain =>
    rw [Bool.or_eq_true] at plain
    rcases plain with empty | ends
    · rw [String.isEmpty_iff.1 empty, String.empty_append, own, parts_empty, List.nil_append]
    · obtain ⟨front, rfl⟩ := Text.exists_append_slash ends
      have empty : Text.pieces "" = [""] := by decide
      have idle : parts (front ++ "/") = parts front := by
        have cut := Text.pieces_append_slash front ""
        rw [String.append_empty, empty] at cut
        simp [parts, cut]
      rw [idle, parts, Text.pieces_append_slash, List.filter_append, pieces_outputName]
      simp [parts, nonempty]
  next =>
    rw [parts, Text.pieces_append_slash, List.filter_append, pieces_outputName]
    simp [parts, nonempty]

theorem outputPath_eq_append (file directory : String) :
    ∃ rest, outputPath file directory = directory ++ rest := by
  unfold outputPath
  split
  · exact ⟨_, rfl⟩
  · exact ⟨_, String.append_assoc ..⟩

theorem outputName_relative (file : String) : (outputName file).startsWith "/" = false := by
  rw [Bool.eq_false_iff]
  intro absolute
  obtain ⟨rest, letters⟩ := String.startsWith_string_iff.1 absolute
  have cut : outputName file = "" ++ "/" ++ String.ofList rest :=
    String.toList_injective (by simpa using letters.symm)
  have pieces := congrArg List.length (pieces_outputName file)
  rw [cut, Text.pieces_append_slash, List.length_append] at pieces
  have first : (Text.pieces "").length = 1 := by decide
  have second : Text.pieces (String.ofList rest) ≠ [] := by simp [Text.pieces]
  have := List.length_pos_iff.2 second
  simp at pieces
  omega

/-- An output is looked for from where its directory is looked for. -/
theorem origin_outputPath (d : Directory) (file directory : String) :
    d.origin (outputPath file directory) = d.origin directory := by
  have start : (outputPath file directory).startsWith "/" = directory.startsWith "/" := by
    by_cases unnamed : directory = ""
    · subst unnamed
      have path_eq : outputPath file "" = outputName file := by simp [outputPath, outputName]
      rw [path_eq, outputName_relative]
      decide +kernel
    · obtain ⟨rest, path_eq⟩ := outputPath_eq_append file directory
      rw [path_eq, Bool.eq_iff_iff, String.startsWith_string_iff, String.startsWith_string_iff,
        String.toList_append]
      cases letters : directory.toList with
      | nil => exact absurd (String.toList_eq_nil_iff.1 letters) unnamed
      | cons c cs => simp
  rw [Directory.origin, start, Directory.origin]

theorem addressable_of_outputPath {file directory : String} (nonempty : directory ≠ "")
    (addressable : Addressable (outputPath file directory)) : Addressable directory := by
  obtain ⟨rest, path_eq⟩ := outputPath_eq_append file directory
  rw [path_eq] at addressable
  obtain ⟨_, clean, short⟩ := addressable
  rw [String.toList_append] at clean
  rw [String.utf8ByteSize_append] at short
  exact ⟨nonempty, fun mem => clean (List.mem_append_left _ mem), by omega⟩

/-- Where the output of a file is does not change once its directory is there. -/
theorem resolve_outputPath_of_grows {d e : Directory} (grows : d.Grows e) {directory : String}
    (there : d.isDirectory (d.origin directory) (parts directory)) (file : String) :
    e.resolve (outputPath file directory) = d.resolve (outputPath file directory) := by
  obtain ⟨place, followed, here⟩ := isDirectory_iff.1 there
  apply resolve_congr
  rw [origin_outputPath, origin_outputPath, grows.origin, parts_outputPath, follow_append,
    follow_append, followed, follow_of_grows grows followed]
  simp only [Except.bind, follow_cons, here, grows.directory place here]
  rfl

/-- The directory of outputs. One without a name is the working directory. -/
def Directory.outputFolder (d : Directory) (directory : String) : Except Fault (List String) :=
  if directory.isEmpty then .ok d.working else d.resolve directory

/-- The output of a file is right in the output directory, under the name of the file. -/
theorem resolve_outputPath {d : Directory} {file directory : String} {place : List String}
    (resolved : d.resolve (outputPath file directory) = .ok place) :
    ∃ folder, d.outputFolder directory = .ok folder ∧ place = folder ++ [outputName file] := by
  obtain ⟨_, straight, inward⟩ := outputName_plain file
  have addressable := addressable_of_resolve resolved
  rw [resolve_eq_follow addressable, origin_outputPath, parts_outputPath, follow_append] at resolved
  cases followed : d.follow (d.origin directory) (parts directory) with
  | error fault => simp [followed, Except.bind] at resolved
  | ok folder =>
    rw [followed] at resolved
    have entered : enter folder (outputName file) = .ok place := by
      simp only [Except.bind, follow] at resolved
      split at resolved
      · cases stepped : enter folder (outputName file) with
        | error fault => simp [stepped, bind, Except.bind] at resolved
        | ok next => simpa [stepped, bind, Except.bind] using resolved
      · cases resolved
      · cases resolved
    refine ⟨folder, ?_, ?_⟩
    · by_cases unnamed : directory = ""
      · subst unnamed
        have relative : d.origin "" = d.working := if_neg (by decide +kernel)
        rw [relative, parts_empty] at followed
        exact followed
      · rw [Directory.outputFolder, if_neg (by simpa using unnamed),
          resolve_eq_follow (addressable_of_outputPath unnamed addressable), followed]
    · simp only [enter] at entered
      grind

end CommandLine

end Stencil
