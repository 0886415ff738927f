import Mathlib.Data.List.Nodup
import Stencil.Proofs.Workers

/-!
# What workers deliver

A worker reads its file, and if there is a tree to write, it creates the output directory and writes
the tree there. Of the tree of directories it changes nothing but that. A directory that one worker
cannot create no other can create either, and what the first attempt leaves behind is all that is
left. As long as no file is in the way of another, no operation can tell what the other workers have
done already, so every order of the operations comes to the same.

The output of a file has the name of the file, so two files of the same name have one output, even
if they are in different directories. The later worker overwrites what the earlier one has written,
and nothing tells that an output is lost.

* `Underway.step`: the invariant, kept by each operation of each worker.
* `interleaved_outputs_kept`: all orders come to the same, and no output is lost.
* `shelves_output_lost`: two files of which one output is left, depending on the order, and a file
  that is found or not, depending on the order.
-/

namespace Stencil.CommandLine

/-- The tree once it has been tried to create a directory. -/
def Directory.prepared (d : Directory) (path : String) : Directory :=
  match d.create path with
  | .ok made => made
  | .error (_, left) => left

/-- Whether a file is right in a directory. -/
def Directory.holds (d : Directory) (directory file : String) : Bool :=
  match d.outputFolder directory, d.resolve file with
  | .ok folder, .ok place => !place.isEmpty && place.dropLast == folder
  | _, _ => false

/-! ## Outputs -/

section Outputs

variable (a : Arguments) (options : Options) (d : Directory) (directory : String)

/-- The output of a file is a text that can be written at a path once the output directory is
there. -/
def Delivers (file : String) (path : List String) (text : String) : Prop :=
  ∃ tree lines made, verdict a options file (d.reading file) = .inr (tree, lines) ∧
    d.create directory = .ok made ∧ made.resolve (outputPath file directory) = .ok path ∧
    made.get? path ≠ some .directory ∧ (outputPath file directory).endsWith "/" = false ∧
    text = tree.toJson.pretty

/-- No file is in the way of another: outputs have different paths, no input is in the output
directory, and no input can be read only because that directory, or one around it, has been
created. -/
structure Apart (files : List String) : Prop where
  names : (files.map (outputPath · directory)).Nodup
  inputs : ∀ file ∈ files, (d.prepared directory).holds directory file = false
  steady : ∀ file ∈ files,
    ((d.prepared directory).read file).toOption = (d.read file).toOption

/-- The trees that workers can find: the first one, one that is left when the output directory
cannot be created, or one with that directory and some of the outputs. -/
inductive Found (files : List String) (current : Directory) : Bool → Prop
  | untouched : current = d → Found files current false
  | refused {fault : Fault} :
      d.create directory = .error (fault, current) →
      (∃ file ∈ files, ∃ output, verdict a options file (d.reading file) = .inr output) →
      Found files current true
  | prepared {made : Directory} :
      d.create directory = .ok made → current.working = d.working →
      (∃ file ∈ files, ∃ output, verdict a options file (d.reading file) = .inr output) →
      (∀ path, current.get? path = made.get? path ∨
        ∃ file ∈ files, ∃ text, Delivers a options d directory file path text ∧
          current.get? path = some (.text text)) →
      Found files current true

/-- How far the worker of a file is, and whether any has tried to create the output directory. -/
inductive Phase (file : String) : Bool → Worker (FileResult × List String) → Prop
  | starting {tried : Bool} : Phase file tried (optimizeFile Worker.files a options file)
  | creating {tried : Bool} {tree : Node} {lines : List String} :
      verdict a options file (d.reading file) = .inr (tree, lines) →
      Phase file tried (creating file directory tree lines)
  | writing {tree : Node} {lines : List String} {made : Directory} :
      verdict a options file (d.reading file) = .inr (tree, lines) →
      d.create directory = .ok made → Phase file true (writing file directory tree lines)
  | finished {tried : Bool} {result : FileResult × List String} :
      standing result = expected a options d file →
      (∀ output, verdict a options file (d.reading file) = .inr output → tried = true) →
      Phase file tried (.done result)

/-- What holds while the workers of files are at work. -/
structure Underway (files : List String) (workers : List (Worker (FileResult × List String)))
    (current : Directory) (tried : Bool) : Prop where
  length : workers.length = files.length
  found : Found a options d directory files current tried
  phase : ∀ (i : Nat) file worker, files[i]? = some file → workers[i]? = some worker →
    Phase a options d directory file tried worker
  delivered : ∀ (i : Nat) file result, files[i]? = some file → workers[i]? = some (.done result) →
    ∀ path text, Delivers a options d directory file path text →
      current.get? path = some (.text text)

variable {a options d directory}
variable {files : List String} {file other text : String} {i : Nat} {path : List String}
variable {workers : List (Worker (FileResult × List String))}
variable {worker next : Worker (FileResult × List String)}
variable {results : List (FileResult × List String)} {result : FileResult × List String}
variable {output : Node × List String}
variable {tree : Node} {lines : List String} {tried tried' : Bool} {fault : Fault}
variable {current after made final e : Directory}

theorem prepared_of_ok (created : d.create directory = .ok made) :
    d.prepared directory = made := by
  rw [Directory.prepared, created]

theorem prepared_of_error (failed : d.create directory = .error (fault, e)) :
    d.prepared directory = e := by
  rw [Directory.prepared, failed]

example :
    (⟨[], [(["a"], .text "")]⟩ : Directory).prepared "x/../a/y" =
      ⟨[], [(["a"], .text ""), (["x"], .directory)]⟩ := by
  decide +kernel

/-- A directory that cannot be created has no outputs. -/
theorem not_delivers_of_error (failed : d.create directory = .error (fault, e)) :
    ¬Delivers a options d directory file path text := by
  rintro ⟨_, _, made, _, created, _⟩
  cases failed.symm.trans created

/-- Outputs at the same path are outputs of the same file. -/
theorem Delivers.file_eq (apart : Apart d directory files) (mem : file ∈ files)
    (other_mem : other ∈ files) {text' : String}
    (first : Delivers a options d directory file path text)
    (second : Delivers a options d directory other path text') : file = other := by
  obtain ⟨_, _, made, _, created, resolved, _⟩ := first
  obtain ⟨_, _, made', _, created', resolved', _⟩ := second
  cases created.symm.trans created'
  obtain ⟨folder, _, path_eq⟩ := resolve_outputPath resolved
  obtain ⟨folder', _, path_eq'⟩ := resolve_outputPath resolved'
  have names : outputName file = outputName other := by
    exact (List.append_inj' (path_eq.symm.trans path_eq') rfl).2 |> List.singleton_inj.1
  have paths : outputPath file directory = outputPath other directory := by
    unfold outputPath
    rw [← outputName, ← outputName, names]
  exact List.inj_on_of_nodup_map apart.names mem other_mem paths

/-- No input is where an output is. -/
theorem Delivers.ne_input (apart : Apart d directory files) (mem : file ∈ files)
    (delivers : Delivers a options d directory other path text)
    (created : d.create directory = .ok made) : made.resolve file ≠ .ok path := by
  intro resolved
  obtain ⟨_, _, made', _, created', there, _⟩ := delivers
  cases created.symm.trans created'
  obtain ⟨folder, named, path_eq⟩ := resolve_outputPath there
  cases path_eq
  have held := apart.inputs file mem
  rw [prepared_of_ok created] at held
  simp [Directory.holds, named, resolved] at held

/-- Outputs change no directory. -/
theorem Found.get?_directory (found : Found a options d directory files current true)
    (created : d.create directory = .ok made) (path : List String) :
    current.get? path = some .directory ↔ made.get? path = some .directory := by
  cases found with
  | refused failed => cases failed.symm.trans created
  | prepared created' _ _ entries =>
    cases created.symm.trans created'
    rcases entries path with same | ⟨file, _, text, delivers, written⟩
    · rw [same]
    · obtain ⟨_, _, made', _, created', _, free, _⟩ := delivers
      cases created.symm.trans created'
      simp [written, free]

theorem Found.working_eq (found : Found a options d directory files current tried) :
    current.working = d.working := by
  cases found with
  | untouched same => rw [same]
  | refused failed => exact (Directory.create_failed failed).1.working
  | prepared _ same => exact same

theorem Found.grows (found : Found a options d directory files current true)
    (created : d.create directory = .ok made) : made.Grows current :=
  ⟨found.working_eq.trans (Directory.create_spec created).1.working.symm,
    fun path => (found.get?_directory created path).2⟩

/-- What can be read of an input does not depend on the other workers. -/
theorem Found.read_eq (apart : Apart d directory files)
    (found : Found a options d directory files current tried) (mem : file ∈ files) :
    (current.read file).toOption = (d.read file).toOption := by
  cases tried with
  | false =>
    cases found with
    | untouched same => rw [same]
  | true =>
    have whole := found
    cases found with
    | refused failed => rw [← apart.steady file mem, prepared_of_error failed]
    | @prepared made created _ _ entries =>
      rw [← apart.steady file mem, prepared_of_ok created]
      have grows := whole.grows created
      have shrinks : current.Grows made :=
        ⟨grows.working.symm, fun path => (whole.get?_directory created path).1⟩
      have alike : ∀ place, made.resolve file = .ok place →
          current.get? place = made.get? place := by
        intro place resolved
        rcases entries place with same | ⟨other, _, text, delivers, _⟩
        · exact same
        · exact absurd resolved (delivers.ne_input apart mem created)
      apply Option.ext
      intro content
      rw [Directory.toOption_eq_some_iff, Directory.toOption_eq_some_iff]
      constructor
      · refine Directory.read_of_grows shrinks fun place resolved => ?_
        exact (alike place (Directory.resolve_of_grows shrinks resolved)).symm
      · exact Directory.read_of_grows grows alike

/-! ## Steps -/

theorem Phase.later (phase : Phase a options d directory file tried worker)
    (later : tried = true → tried' = true) : Phase a options d directory file tried' worker := by
  cases phase with
  | starting => exact .starting
  | creating decided => exact .creating decided
  | writing decided created =>
    rw [later rfl]
    exact .writing decided created
  | finished same due => exact .finished same fun output decided => later (due output decided)

/-- A worker takes a step: what has to be shown is about this worker and about the tree alone. -/
theorem Underway.advance (apart : Apart d directory files)
    (underway : Underway a options d directory files workers current tried)
    (here : files[i]? = some file) (found : Found a options d directory files after tried')
    (later : tried = true → tried' = true) (phase : Phase a options d directory file tried' next)
    (kept : ∀ other ∈ files, other ≠ file → ∀ path text,
      Delivers a options d directory other path text → current.get? path = some (.text text) →
      after.get? path = some (.text text))
    (mine : ∀ result, next = .done result → ∀ path text,
      Delivers a options d directory file path text → after.get? path = some (.text text)) :
    Underway a options d directory files (workers.set i next) after tried' := by
  have within : i < workers.length := by
    rw [underway.length]
    exact (List.getElem?_eq_some_iff.1 here).1
  refine ⟨by simpa using underway.length, found, ?_, ?_⟩
  · intro j other worker there was
    by_cases same : i = j
    · subst same
      rw [List.getElem?_set_self within] at was
      cases was
      cases here.symm.trans there
      exact phase
    · rw [List.getElem?_set_ne same] at was
      exact (underway.phase j other worker there was).later later
  · intro j other result there was path text delivers
    by_cases same : i = j
    · subst same
      rw [List.getElem?_set_self within, Option.some.injEq] at was
      cases here.symm.trans there
      exact mine result was path text delivers
    · rw [List.getElem?_set_ne same] at was
      have different : other ≠ file := by
        rintro rfl
        have once : files.Nodup := apart.names.of_map
        exact same ((List.getElem?_inj (List.getElem?_eq_some_iff.1 here).1 once).1
          (here.trans there.symm))
      exact kept other (List.mem_of_getElem? there) different path text delivers
        (underway.delivered j other result there was path text delivers)

theorem verdict_of_error {fault : Fault} (failed : e.read file = .error fault) :
    verdict a options file (e.reading file) =
      .inl (.failed ("failed to read " ++ file ++ ": " ++ fault.text), []) := by
  rw [Directory.reading, failed]
  rfl

theorem reading_eq (same : (current.read file).toOption = (d.read file).toOption)
    (read : d.read file = .ok text) : current.reading file = d.reading file := by
  cases second : current.read file with
  | error fault => simp [read, second, Except.toOption] at same
  | ok other =>
    have texts : other = text := by simpa [read, second, Except.toOption] using same
    rw [Directory.reading, Directory.reading, read, second, texts]

/-- A file with a tree to write has it whatever the other workers have done. -/
theorem verdict_of_inr (same : (current.read file).toOption = (d.read file).toOption)
    (decided : verdict a options file (d.reading file) = .inr output) :
    verdict a options file (current.reading file) = .inr output := by
  cases read : d.read file with
  | error fault => cases (verdict_of_error read).symm.trans decided
  | ok text => rw [reading_eq same read, decided]

/-- Reading a file settles its verdict, whatever the other workers have done. -/
theorem Phase.judged (asked : a.outputDirectory = some directory)
    (same : (current.read file).toOption = (d.read file).toOption) :
    Phase a options d directory file tried
      (judged file directory (verdict a options file (current.reading file))) := by
  cases decided : verdict a options file (d.reading file) with
  | inr output =>
    rw [verdict_of_inr same decided]
    exact .creating decided
  | inl result =>
    -- Of a file that cannot be read, at most the reason depends on the order.
    have alike : ∃ result', verdict a options file (current.reading file) = .inl result' ∧
        standing result' = standing result := by
      cases first : d.read file with
      | ok text => exact ⟨result, by rw [reading_eq same first, decided], rfl⟩
      | error fault =>
        cases second : current.read file with
        | ok text => simp [first, second, Except.toOption] at same
        | error other =>
          cases (verdict_of_error first).symm.trans decided
          exact ⟨_, verdict_of_error second, rfl⟩
    obtain ⟨result', decided', standing_eq⟩ := alike
    rw [decided']
    refine .finished (standing_eq.trans (expected_of_inl asked decided).symm) ?_
    intro output tree
    cases decided.symm.trans tree

/-- A file has one output. -/
theorem Delivers.unique {path' : List String} {text' : String}
    (first : Delivers a options d directory file path text)
    (second : Delivers a options d directory file path' text') : path = path' ∧ text = text' := by
  obtain ⟨_, _, made, decided, created, resolved, _, _, rfl⟩ := first
  obtain ⟨_, _, made', decided', created', resolved', _, _, rfl⟩ := second
  cases created.symm.trans created'
  cases resolved.symm.trans resolved'
  cases decided.symm.trans decided'
  exact ⟨rfl, rfl⟩

theorem Delivers.text_eq (delivers : Delivers a options d directory file path text)
    (decided : verdict a options file (d.reading file) = .inr (tree, lines)) :
    text = tree.toJson.pretty := by
  obtain ⟨_, _, _, decided', _, _, _, _, rfl⟩ := delivers
  cases decided.symm.trans decided'
  rfl

theorem Found.get?_put (found : Found a options d directory files current true)
    (delivers : Delivers a options d directory file path text) (other : List String) :
    (current.put path (.text text)).get? other =
      if other = path then some (.text text) else current.get? other := by
  obtain ⟨_, _, made, _, created, _, free, _⟩ := delivers
  exact Directory.get?_put (mt (found.get?_directory created path).1 free) _ other

/-- A tree with one more output. -/
theorem Found.put (found : Found a options d directory files current true) (mem : file ∈ files)
    (delivers : Delivers a options d directory file path text) :
    Found a options d directory files (current.put path (.text text)) true := by
  have entries_put := found.get?_put delivers
  cases found with
  | refused failed => exact absurd delivers (not_delivers_of_error failed)
  | prepared created same_working some_tree entries =>
    refine .prepared created ((current.working_put path _).trans same_working) some_tree
      fun other => ?_
    rw [entries_put]
    by_cases there : other = path
    · subst there
      exact .inr ⟨file, mem, text, delivers, if_pos rfl⟩
    · rw [if_neg there]
      exact entries other

/-- Whether an output can be written does not depend on the other workers. -/
theorem Found.write_eq_ok_iff (found : Found a options d directory files current true)
    (created : d.create directory = .ok made)
    (decided : verdict a options file (d.reading file) = .inr (tree, lines)) :
    current.write (outputPath file directory) tree.toJson.pretty = .ok e ↔
      ∃ path, Delivers a options d directory file path tree.toJson.pretty ∧
        e = current.put path (.text tree.toJson.pretty) := by
  obtain ⟨_, there⟩ := Directory.create_spec created
  rw [Directory.write_eq_ok_iff, resolve_outputPath_of_grows (found.grows created) there]
  simp only [ne_eq, found.get?_directory created]
  constructor
  · rintro ⟨path, resolved, free, ends, rfl⟩
    exact ⟨path, ⟨tree, lines, made, decided, created, resolved, free, ends, rfl⟩, rfl⟩
  · rintro ⟨path, ⟨_, _, made', _, created', resolved, free, ends, _⟩, rfl⟩
    cases created.symm.trans created'
    exact ⟨path, resolved, free, ends, rfl⟩

theorem creating_ne_done : creating file directory tree lines ≠ .done result := by
  intro same
  have stepped := step_creating file directory tree lines ⟨[], []⟩
  rw [same] at stepped
  split at stepped <;> cases stepped

/-- A worker that finds the output directory refused ends as expected. -/
theorem Underway.refuse (asked : a.outputDirectory = some directory)
    (apart : Apart d directory files)
    (underway : Underway a options d directory files workers current tried)
    (here : files[i]? = some file)
    (decided : verdict a options file (d.reading file) = .inr (tree, lines))
    (failed : d.create directory = .error (fault, after)) (reason : String) :
    Underway a options d directory files (workers.set i (.done (.failed reason, lines))) after
      true := by
  have mem : file ∈ files := List.mem_of_getElem? here
  refine underway.advance apart here (.refused failed ⟨file, mem, _, decided⟩) (fun _ => rfl)
    (.finished ?_ fun _ _ => rfl) ?_ ?_
  · rw [expected_of_inr asked decided, failed]
    rfl
  · intro other _ _ path text delivers
    exact absurd delivers (not_delivers_of_error failed)
  · intro _ _ path text delivers
    exact absurd delivers (not_delivers_of_error failed)

theorem Underway.create (asked : a.outputDirectory = some directory)
    (apart : Apart d directory files)
    (underway : Underway a options d directory files workers current tried)
    (here : files[i]? = some file)
    (decided : verdict a options file (d.reading file) = .inr (tree, lines))
    (stepped : (creating file directory tree lines).step current = some (next, after)) :
    Underway a options d directory files (workers.set i next) after true := by
  have mem : file ∈ files := List.mem_of_getElem? here
  rw [step_creating] at stepped
  cases underway.found with
  | refused failed =>
    -- Another worker has failed to create the directory, and so does this one.
    obtain ⟨_, fault', again⟩ := Directory.create_failed failed
    rw [again] at stepped
    cases stepped
    exact underway.refuse asked apart here decided failed _
  | prepared created =>
    -- Another worker has created the directory, so that nothing changes.
    rw [Directory.create_again created (underway.found.grows created)] at stepped
    cases stepped
    refine underway.advance apart here underway.found id (.writing decided created)
      (fun _ _ _ _ _ _ written => written) ?_
    intro result done
    cases done
  | untouched same =>
    subst same
    cases creation : current.create directory with
    | error failure =>
      rw [creation] at stepped
      cases stepped
      exact underway.refuse asked apart here decided creation _
    | ok made =>
      rw [creation] at stepped
      cases stepped
      have more := (Directory.create_spec creation).1
      refine underway.advance apart here
        (.prepared creation more.working ⟨file, mem, _, decided⟩ fun _ => .inl rfl)
        (fun _ => rfl) (.writing decided creation) ?_ ?_
      · intro other _ _ path text _ written
        rcases more.entries path with kept | ⟨free, _⟩
        · exact kept.trans written
        · cases free.symm.trans written
      · intro result done
        cases done

theorem Underway.write (asked : a.outputDirectory = some directory)
    (apart : Apart d directory files)
    (underway : Underway a options d directory files workers current true)
    (here : files[i]? = some file)
    (decided : verdict a options file (d.reading file) = .inr (tree, lines))
    (created : d.create directory = .ok made)
    (stepped : (writing file directory tree lines).step current = some (next, after)) :
    Underway a options d directory files (workers.set i next) after true := by
  have mem : file ∈ files := List.mem_of_getElem? here
  have found := underway.found
  have fresh : Found a options d directory files made true :=
    .prepared created (Directory.create_spec created).1.working ⟨file, mem, _, decided⟩
      fun _ => .inl rfl
  have expects : expected a options d file =
      ((made.write (outputPath file directory) tree.toJson.pretty).isOk, lines) := by
    rw [expected_of_inr asked decided, created]
  rw [step_writing] at stepped
  cases store : current.write (outputPath file directory) tree.toJson.pretty with
  | error fault =>
    rw [store] at stepped
    cases stepped
    have undelivered : ∀ path text, ¬Delivers a options d directory file path text := by
      intro path text delivers
      cases delivers.text_eq decided
      cases store.symm.trans ((found.write_eq_ok_iff created decided).2 ⟨path, delivers, rfl⟩)
    refine underway.advance apart here found id (.finished ?_ fun _ _ => rfl)
      (fun _ _ _ _ _ _ written => written) ?_
    · rw [expects]
      cases first : made.write (outputPath file directory) tree.toJson.pretty with
      | error fault => rfl
      | ok e =>
        obtain ⟨path, delivers, _⟩ := (fresh.write_eq_ok_iff created decided).1 first
        exact absurd delivers (undelivered path _)
    · intro _ _ path text delivers
      exact absurd delivers (undelivered path text)
  | ok e =>
    rw [store] at stepped
    cases stepped
    obtain ⟨path, delivers, rfl⟩ := (found.write_eq_ok_iff created decided).1 store
    refine underway.advance apart here (found.put mem delivers) id
      (.finished ?_ fun _ _ => rfl) ?_ ?_
    · rw [expects, (fresh.write_eq_ok_iff created decided).2 ⟨path, delivers, rfl⟩]
      rfl
    · intro other other_mem different elsewhere text others written
      rw [found.get?_put delivers, if_neg]
      · exact written
      · rintro rfl
        exact different (others.file_eq apart other_mem mem delivers)
    · intro _ _ elsewhere text mine
      obtain ⟨rfl, rfl⟩ := delivers.unique mine
      rw [found.get?_put delivers, if_pos rfl]

/-- What holds while workers are at work holds after each step. -/
theorem Underway.step (asked : a.outputDirectory = some directory) (apart : Apart d directory files)
    (underway : Underway a options d directory files workers current tried)
    (was : workers[i]? = some worker) (stepped : worker.step current = some (next, after)) :
    ∃ tried', Underway a options d directory files (workers.set i next) after tried' := by
  obtain ⟨file, here⟩ : ∃ file, files[i]? = some file := by
    have within := (List.getElem?_eq_some_iff.1 was).1
    rw [underway.length] at within
    exact ⟨_, List.getElem?_eq_getElem within⟩
  have mem : file ∈ files := List.mem_of_getElem? here
  have found := underway.found
  cases underway.phase i file worker here was with
  | finished => cases stepped
  | starting =>
    rw [step_optimizeFile asked] at stepped
    cases stepped
    have same := found.read_eq apart mem
    refine ⟨tried, underway.advance apart here found id (.judged asked same)
      (fun _ _ _ _ _ _ written => written) ?_⟩
    rintro result done path text ⟨tree, lines, _, decided, _⟩
    rw [verdict_of_inr same decided] at done
    exact absurd done creating_ne_done
  | creating decided => exact ⟨true, underway.create asked apart here decided stepped⟩
  | writing decided created =>
    exact ⟨true, underway.write asked apart here decided created stepped⟩

/-! ## Runs -/

/-- The tree in which nothing but outputs can be different at the end. -/
def settled (a : Arguments) (options : Options) (d : Directory) (directory : String)
    (files : List String) : Directory :=
  if files.any fun file => (verdict a options file (d.reading file)).isRight then
    d.prepared directory
  else d

theorem settled_eq (mem : file ∈ files)
    (decided : verdict a options file (d.reading file) = .inr output) :
    settled a options d directory files = d.prepared directory := by
  rw [settled, if_pos]
  exact List.any_eq_true.2 ⟨file, mem, by simp [decided]⟩

/-- What workers end with and leave behind is settled by the first tree. -/
structure Settled (a : Arguments) (options : Options) (d : Directory) (directory : String)
    (files : List String) (results : List (FileResult × List String)) (final : Directory) :
    Prop where
  results_eq : results.map standing = files.map (expected a options d)
  working : final.working = d.working
  delivered : ∀ file ∈ files, ∀ path text, Delivers a options d directory file path text →
    final.get? path = some (.text text)
  others : ∀ path, (∀ file ∈ files, ∀ text, ¬Delivers a options d directory file path text) →
    final.get? path = (settled a options d directory files).get? path

theorem Underway.settled
    (underway : Underway a options d directory files (results.map .done) final tried) :
    Settled a options d directory files results final := by
  have length : results.length = files.length := by simpa using underway.length
  have ended : ∀ (i : Nat) (within : i < results.length),
      (results.map Worker.done)[i]? = some (.done results[i]) := by
    intro i within
    simp [within]
  refine ⟨List.ext_getElem (by simpa using length) ?_, underway.found.working_eq, ?_, ?_⟩
  · intro i within _
    rw [List.length_map] at within
    have here : files[i]? = some files[i] := List.getElem?_eq_getElem (length ▸ within)
    cases underway.phase i _ _ here (ended i within) with
    | finished same _ => simpa using same
  · intro file mem path text delivers
    obtain ⟨i, within, rfl⟩ := List.getElem_of_mem mem
    exact underway.delivered i _ _ (List.getElem?_eq_getElem within)
      (ended i (length.symm ▸ within)) path text delivers
  · intro path undelivered
    cases underway.found with
    | prepared created _ some_tree entries =>
      obtain ⟨file, mem, output, decided⟩ := some_tree
      rw [settled_eq mem decided, prepared_of_ok created]
      rcases entries path with same | ⟨file, mem, text, delivers, _⟩
      · exact same
      · exact absurd delivers (undelivered file mem text)
    | refused failed some_tree =>
      obtain ⟨file, mem, output, decided⟩ := some_tree
      rw [settled_eq mem decided, prepared_of_error failed]
    | untouched same =>
      subst same
      -- A worker with a tree to write would have tried to create the directory.
      rw [CommandLine.settled, if_neg]
      intro any
      obtain ⟨file, mem, right⟩ := List.any_eq_true.1 any
      obtain ⟨output, decided⟩ := Sum.isRight_iff.1 right
      obtain ⟨i, within, rfl⟩ := List.getElem_of_mem mem
      cases underway.phase i _ _ (List.getElem?_eq_getElem within)
        (ended i (length.symm ▸ within)) with
      | finished _ due => cases due output decided

theorem underway_start (options : Options) (d : Directory)
    (asked : a.outputDirectory = some directory) (files : List String) :
    Underway a options d directory files (files.map (optimizeFile Worker.files a options)) d
      false := by
  refine ⟨List.length_map .., .untouched rfl, ?_, ?_⟩
  · intro i file worker here was
    rw [List.getElem?_map, here] at was
    cases was
    exact .starting
  · intro i file result here was
    rw [List.getElem?_map, here, Option.map_some, optimizeFile_eq_read asked] at was
    cases was

/-- Whatever order workers take, what they come to is settled. -/
theorem Interleaved.settled (asked : a.outputDirectory = some directory)
    (apart : Apart d directory files) (interleaved : Interleaved workers current results final)
    (underway : Underway a options d directory files workers current tried) :
    Settled a options d directory files results final := by
  induction interleaved generalizing tried with
  | done results current => exact underway.settled
  | step was stepped _ ih =>
    obtain ⟨tried', further⟩ := underway.step asked apart was stepped
    exact ih further

theorem Settled.grows (ended : Settled a options d directory files results final)
    (created : d.create directory = .ok made) (mem : file ∈ files)
    (decided : verdict a options file (d.reading file) = .inr output) : made.Grows final := by
  refine ⟨ended.working.trans (Directory.create_spec created).1.working.symm, ?_⟩
  intro path folder
  rw [ended.others path, settled_eq mem decided, prepared_of_ok created, folder]
  rintro other _ text ⟨_, _, made', _, created', _, free, _⟩
  cases created.symm.trans created'
  exact free folder

/-- The output of a file can be read at its path when all workers are done. -/
theorem Settled.read_output (ended : Settled a options d directory files results final)
    (mem : file ∈ files) (delivers : Delivers a options d directory file path text) :
    final.read (outputPath file directory) = .ok text := by
  have written := ended.delivered file mem path text delivers
  obtain ⟨tree, lines, made, decided, created, resolved, _, ends, _⟩ := delivers
  have grows := ended.grows created mem decided
  exact Directory.read_eq_ok_iff.2
    ⟨path, Directory.resolve_of_grows grows resolved, written, ends⟩

theorem Settled.optimized (asked : a.outputDirectory = some directory)
    (ended : Settled a options d directory files results final) (here : files[i]? = some file)
    (decided : verdict a options file (d.reading file) = .inr (tree, lines))
    (created : d.create directory = .ok made)
    (written : made.write (outputPath file directory) tree.toJson.pretty = .ok e) :
    results[i]? = some (.optimized, lines) := by
  have fate : expected a options d file = (true, lines) := by
    rw [expected_of_inr asked decided, created]
    simp [written, Except.isOk, Except.toBool]
  have same := congrArg (·[i]?) ended.results_eq
  simp only [List.getElem?_map, here, Option.map_some, fate, Option.map_eq_some_iff] at same
  obtain ⟨⟨result, lines'⟩, found, standing_eq⟩ := same
  cases result with
  | optimized =>
    cases standing_eq
    exact found
  | rejected => cases standing_eq
  | failed message => cases standing_eq

theorem Settled.get?_eq {results' : List (FileResult × List String)} {final' : Directory}
    (first : Settled a options d directory files results final)
    (second : Settled a options d directory files results' final') (path : List String) :
    final.get? path = final'.get? path := by
  by_cases delivered : ∃ file ∈ files, ∃ text, Delivers a options d directory file path text
  · obtain ⟨file, mem, text, delivers⟩ := delivered
    rw [first.delivered file mem path text delivers, second.delivered file mem path text delivers]
  · have undelivered : ∀ file ∈ files, ∀ text, ¬Delivers a options d directory file path text := by
      intro file mem text delivers
      exact delivered ⟨file, mem, text, delivers⟩
    rw [first.others path undelivered, second.others path undelivered]

end Outputs

/-- Whatever order the workers of files take, they end as when the files are treated one after
another, and leave the same entries behind. The output of every file that is read, decoded and
optimised is at its path, if the system lets it be written there at all. The outputs need different
paths, and an input whose path leads through the output directory has to be there from the
beginning. -/
theorem interleaved_outputs_kept (a : Arguments) (options : Options) (d : Directory)
    (directory : String) (asked : a.outputDirectory = some directory)
    (names : (a.files.map (outputPath · directory)).Nodup)
    (inputs : ∀ file ∈ a.files, (d.prepared directory).holds directory file = false)
    (steady : ∀ file ∈ a.files,
      ((d.prepared directory).read file).toOption = (d.read file).toOption)
    (results : List (FileResult × List String)) (final : Directory)
    (interleaved :
      Interleaved (a.files.map (optimizeFile Worker.files a options)) d results final) :
    results.map standing =
        ((optimizeFiles Directory.files a options a.files).run d).1.map (standing ·.2) ∧
      (∀ path, final.get? path =
        ((optimizeFiles Directory.files a options a.files).run d).2.get? path) ∧
      ∀ (i : Nat) file source root o made e, a.files[i]? = some file → d.read file = .ok source →
        (Json.parse? source).bind Node.ofJson? = some root → root.optimize options = .ok o →
        d.create directory = .ok made →
        made.write (outputPath file directory) o.tree.toJson.pretty = .ok e →
        (∃ lines, results[i]? = some (.optimized, lines)) ∧
          final.read (outputPath file directory) = .ok o.tree.toJson.pretty := by
  have apart : Apart d directory a.files := ⟨names, inputs, steady⟩
  have start := underway_start options d asked a.files
  have ended := interleaved.settled asked apart start
  have inOrder := (interleaved_optimizeFiles a options a.files d).settled asked apart start
  refine ⟨?_, ended.get?_eq inOrder, ?_⟩
  · rw [ended.results_eq, ← inOrder.results_eq, List.map_map]
    rfl
  · intro i file source root o made e here read decoded optimized created written
    have decided : verdict a options file (d.reading file) =
        .inr (o.tree, o.diagnostics.map (·.line (!a.plain) file)) := by
      simp [Directory.reading, read, Except.mapError, verdict, decoded, optimized]
    obtain ⟨path, resolved, free, ends, _⟩ := Directory.write_eq_ok_iff.1 written
    exact ⟨⟨_, ended.optimized asked here decided created written⟩,
      ended.read_output (List.mem_of_getElem? here)
        ⟨_, _, made, decided, created, resolved, free, ends, rfl⟩⟩

/-- The text of a tree that is one identifier. -/
def nameText (name : String) : String :=
  "\x7b\"kind\":\"identifier\",\"data\":\"" ++ name ++ "\"\x7d"

/-- The text of the same tree when it has been optimised. -/
def nameOutput (name : String) : String := (Node.identifier .generated name).toJson.pretty

/-- Two files in directories of their own, below the working directory. -/
def shelves (first second : String) : Directory :=
  ⟨["home"],
    [(["home", "a"], .directory), (["home", "a", first], .text (nameText "first")),
      (["home", "b"], .directory), (["home", "b", second], .text (nameText "second"))]⟩

/-- Arguments that name two files. -/
def pairOf (first second : String) : Arguments :=
  { files := [first, second], outputDirectory := some "out" }

theorem shelves_written (first second : String) (file text : String)
    (computed : (do
      let source ← ((shelves first second).read file).toOption
      let root ← (Json.parse? source).bind Node.ofJson?
      let o ← (root.optimize {}).toOption
      let made ← ((shelves first second).create "out").toOption
      let _ ← (made.write (outputPath file "out") o.tree.toJson.pretty).toOption
      return o.tree.toJson.pretty) = some text) :
    ∃ source root o made e, (shelves first second).read file = .ok source ∧
      (Json.parse? source).bind Node.ofJson? = some root ∧ root.optimize {} = .ok o ∧
      (shelves first second).create "out" = .ok made ∧
      made.write (outputPath file "out") o.tree.toJson.pretty = .ok e ∧
      o.tree.toJson.pretty = text := by
  obtain ⟨source, read, computed⟩ := Option.bind_eq_some_iff.1 computed
  obtain ⟨root, decoded, computed⟩ := Option.bind_eq_some_iff.1 computed
  obtain ⟨o, optimized, computed⟩ := Option.bind_eq_some_iff.1 computed
  obtain ⟨made, created, computed⟩ := Option.bind_eq_some_iff.1 computed
  obtain ⟨e, written, computed⟩ := Option.bind_eq_some_iff.1 computed
  rw [Directory.toOption_eq_some_iff] at read optimized created written
  exact ⟨source, root, o, made, e, read, decoded, optimized, created, written,
    Option.some.inj computed⟩

theorem shelves_outputs_kept :
    ∃ results final,
      Interleaved ((pairOf "a/x.json" "/home/b/y.json").files.map
        (optimizeFile Worker.files (pairOf "a/x.json" "/home/b/y.json") {}))
        (shelves "x.json" "y.json") results final ∧
      results.map standing = [(true, []), (true, [])] ∧
      final.read "out/x.json" = .ok (nameOutput "first") ∧
      final.read "out/y.json" = .ok (nameOutput "second") := by
  have interleaved := interleaved_second_first (pairOf "a/x.json" "/home/b/y.json") {}
    "a/x.json" "/home/b/y.json" (shelves "x.json" "y.json")
  obtain ⟨same, _, kept⟩ := interleaved_outputs_kept (pairOf "a/x.json" "/home/b/y.json") {}
    (shelves "x.json" "y.json") "out" rfl (by decide +kernel) (by decide +kernel)
    (by decide +kernel) _ _ interleaved
  refine ⟨_, _, interleaved, same.trans (by decide +kernel), ?_, ?_⟩
  · obtain ⟨source, root, o, made, e, read, decoded, optimized, created, written, text_eq⟩ :=
      shelves_written "x.json" "y.json" "a/x.json" (nameOutput "first") (by decide +kernel)
    have path : outputPath "a/x.json" "out" = "out/x.json" := by decide +kernel
    rw [← path, ← text_eq]
    exact (kept 0 _ source root o made e (by decide +kernel) read decoded optimized created
      written).2
  · obtain ⟨source, root, o, made, e, read, decoded, optimized, created, written, text_eq⟩ :=
      shelves_written "x.json" "y.json" "/home/b/y.json" (nameOutput "second") (by decide +kernel)
    have path : outputPath "/home/b/y.json" "out" = "out/y.json" := by decide +kernel
    rw [← path, ← text_eq]
    exact (kept 1 _ source root o made e (by decide +kernel) read decoded optimized created
      written).2

/-- Workers can end with such results, having changed such files. -/
def Reaches (a : Arguments) (d : Directory) (standings : List (Bool × List String))
    (changed : List (List String × String)) : Prop :=
  ∃ results final, Interleaved (a.files.map (optimizeFile Worker.files a {})) d results final ∧
    results.map standing = standings ∧ d.changes final = changed

theorem reaches_in_order {a : Arguments} {d : Directory} {standings : List (Bool × List String)}
    {changed : List (List String × String)}
    (computed : ((optimizeFiles Directory.files a {} a.files).run d).1.map (standing ·.2) =
        standings ∧
      d.changes ((optimizeFiles Directory.files a {} a.files).run d).2 = changed) :
    Reaches a d standings changed := by
  obtain ⟨results_eq, changed_eq⟩ := computed
  refine ⟨_, _, interleaved_optimizeFiles a {} a.files d, ?_, changed_eq⟩
  rw [List.map_map]
  exact results_eq

theorem reaches_second_first {first second : String} {d : Directory}
    {standings : List (Bool × List String)} {changed : List (List String × String)}
    (computed :
      let before := (optimizeFile Directory.files (pairOf first second) {} second).run d
      let after := (optimizeFile Directory.files (pairOf first second) {} first).run before.2
      [standing after.1, standing before.1] = standings ∧ d.changes after.2 = changed) :
    Reaches (pairOf first second) d standings changed :=
  ⟨_, _, interleaved_second_first (pairOf first second) {} first second d, computed.1, computed.2⟩

/-- Two files of the same name in different directories are both said to be optimised, but only one
of the outputs is left, and which one depends on the order. What becomes of a file whose path leads
through an output directory that is not there yet depends on the order, too. -/
theorem shelves_output_lost :
    ((pairOf "a/page.json" "b/page.json").files.Nodup ∧
      (∀ file ∈ (pairOf "a/page.json" "b/page.json").files,
        ((shelves "page.json" "page.json").prepared "out").holds "out" file = false) ∧
      Reaches (pairOf "a/page.json" "b/page.json") (shelves "page.json" "page.json")
        [(true, []), (true, [])] [(["home", "out", "page.json"], nameOutput "second")] ∧
      Reaches (pairOf "a/page.json" "b/page.json") (shelves "page.json" "page.json")
        [(true, []), (true, [])] [(["home", "out", "page.json"], nameOutput "first")]) ∧
    ((pairOf "a/x.json" "out/../b/y.json").files.map (outputPath · "out")).Nodup ∧
      (∀ file ∈ (pairOf "a/x.json" "out/../b/y.json").files,
        ((shelves "x.json" "y.json").prepared "out").holds "out" file = false) ∧
      Reaches (pairOf "a/x.json" "out/../b/y.json") (shelves "x.json" "y.json")
        [(true, []), (true, [])]
        [(["home", "out", "x.json"], nameOutput "first"),
          (["home", "out", "y.json"], nameOutput "second")] ∧
      Reaches (pairOf "a/x.json" "out/../b/y.json") (shelves "x.json" "y.json")
        [(true, []), (false, [])] [(["home", "out", "x.json"], nameOutput "first")] := by
  refine ⟨⟨by decide +kernel, by decide +kernel, reaches_in_order ?_, reaches_second_first ?_⟩,
    by decide +kernel, by decide +kernel, reaches_in_order ?_, reaches_second_first ?_⟩
  all_goals decide +kernel

end Stencil.CommandLine
