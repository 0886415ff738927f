import Stencil.Proofs.Directories

/-!
# Workers

Each file has a worker of its own. A worker is what it is going to do: an operation on files, and
for each answer what follows. Workers share a directory tree and take their operations in any order;
doing all of the first, then all of the second and so on is one of the orders.

* `Interleaved`: what workers can end with, and the tree that they can leave behind.
* `interleaved_optimizeFiles`: treating files one after another is one of the orders.
* `step_optimizeFile`, `step_creating`, `step_writing`: the operations of the worker of a file.
-/

namespace Stencil.CommandLine

/-- What is left to do for a worker. -/
inductive Worker (α : Type) where
  | done (result : α)
  | read (path : String) (next : Except String String → Worker α)
  | write (path content : String) (next : Except String Unit → Worker α)
  | createDirectory (path : String) (next : Except String Unit → Worker α)

namespace Worker

variable {α β : Type}

/-- Goes on with another worker. -/
def andThen : Worker α → (α → Worker β) → Worker β
  | .done result, further => further result
  | .read path next, further => .read path fun answer => (next answer).andThen further
  | .write path content next, further =>
    .write path content fun answer => (next answer).andThen further
  | .createDirectory path next, further =>
    .createDirectory path fun answer => (next answer).andThen further

instance : Monad Worker where
  pure := .done
  bind := andThen

/-- The operations on files, left to do. -/
def files : Files Worker where
  read path := .read path .done
  write path content := .write path content .done
  createDirectory path := .createDirectory path .done

/-- Does the next operation, if there is one. -/
def step (d : Directory) : Worker α → Option (Worker α × Directory)
  | .done _ => none
  | .read path next =>
    let (answer, d) := (Directory.files.read path).run d
    some (next answer, d)
  | .write path content next =>
    let (answer, d) := (Directory.files.write path content).run d
    some (next answer, d)
  | .createDirectory path next =>
    let (answer, d) := (Directory.files.createDirectory path).run d
    some (next answer, d)

/-- Does all operations, one right after another. -/
def perform : Worker α → StateM Directory α
  | .done result => pure result
  | .read path next => do (next (← Directory.files.read path)).perform
  | .write path content next => do (next (← Directory.files.write path content)).perform
  | .createDirectory path next => do (next (← Directory.files.createDirectory path)).perform

theorem perform_bind (worker : Worker α) (further : α → Worker β) :
    (worker >>= further).perform = worker.perform >>= fun result => (further result).perform := by
  induction worker with
  | done result => rfl
  | read path next ih => exact funext fun d => congrFun (ih _) _
  | write path content next ih => exact funext fun d => congrFun (ih _) _
  | createDirectory path next ih => exact funext fun d => congrFun (ih _) _

theorem perform_of_step {worker next : Worker α} {d e : Directory}
    (stepped : worker.step d = some (next, e)) : worker.perform.run d = next.perform.run e := by
  cases worker <;> cases stepped <;> rfl

end Worker

/-- Workers end with the results, and leave the last tree behind, if they take their operations in
some order. -/
inductive Interleaved {α : Type} : List (Worker α) → Directory → List α → Directory → Prop
  | done (results : List α) (d : Directory) : Interleaved (results.map .done) d results d
  | step {workers : List (Worker α)} {d e final : Directory} {results : List α} {i : Nat}
      {worker next : Worker α} :
      workers[i]? = some worker → worker.step d = some (next, e) →
      Interleaved (workers.set i next) e results final → Interleaved workers d results final

/-- One of the workers can do all its operations first. -/
theorem Interleaved.perform {α : Type} {front rest : List (Worker α)} {worker : Worker α}
    {d final : Directory} {results : List α}
    (others : Interleaved (front ++ .done (worker.perform.run d).1 :: rest)
      (worker.perform.run d).2 results final) :
    Interleaved (front ++ worker :: rest) d results final := by
  have here : ∀ worker : Worker α, (front ++ worker :: rest)[front.length]? = some worker := by simp
  have moved : ∀ worker next : Worker α,
      (front ++ worker :: rest).set front.length next = front ++ next :: rest := by simp
  induction worker generalizing d with
  | done result => exact others
  | read path next ih => exact .step (here _) rfl (by rw [moved]; exact ih _ others)
  | write path content next ih => exact .step (here _) rfl (by rw [moved]; exact ih _ others)
  | createDirectory path next ih => exact .step (here _) rfl (by rw [moved]; exact ih _ others)

theorem perform_writeTree (file directory : String) (tree : Node) :
    (writeTree Worker.files file directory tree).perform =
      writeTree Directory.files file directory tree := by
  unfold writeTree
  rw [Worker.perform_bind]
  refine congrArg (Directory.files.createDirectory directory >>= ·) (funext fun answer => ?_)
  cases answer with
  | error reason => rfl
  | ok _ =>
    dsimp only
    rw [Worker.perform_bind]
    refine congrArg (Directory.files.write _ _ >>= ·) (funext fun answer => ?_)
    cases answer <;> rfl

theorem perform_optimizeFile (a : Arguments) (options : Options) (file : String) :
    (optimizeFile Worker.files a options file).perform =
      optimizeFile Directory.files a options file := by
  unfold optimizeFile
  rw [Worker.perform_bind]
  refine congrArg (Directory.files.read file >>= ·) (funext fun answer => ?_)
  cases answer with
  | error reason => rfl
  | ok source =>
    dsimp only
    cases (Json.parse? source).bind Node.ofJson? with
    | none => rfl
    | some root =>
      dsimp only
      cases root.optimize options with
      | error failure => rfl
      | ok o =>
        dsimp only
        cases a.outputDirectory with
        | none => rfl
        | some directory =>
          dsimp only
          rw [Worker.perform_bind, perform_writeTree]
          rfl

/-- Treating files one after another is one of the orders that their workers can take. -/
theorem interleaved_optimizeFiles (a : Arguments) (options : Options) (files : List String)
    (d : Directory) :
    Interleaved (files.map (optimizeFile Worker.files a options)) d
      (((optimizeFiles Directory.files a options files).run d).1.map Prod.snd)
      ((optimizeFiles Directory.files a options files).run d).2 := by
  suffices general : ∀ front : List (FileResult × List String),
      Interleaved (front.map .done ++ files.map (optimizeFile Worker.files a options)) d
        (front ++ ((optimizeFiles Directory.files a options files).run d).1.map Prod.snd)
        ((optimizeFiles Directory.files a options files).run d).2 from general []
  induction files generalizing d with
  | nil =>
    intro front
    have nothing : (optimizeFiles Directory.files a options []).run d = ([], d) := rfl
    simpa [nothing] using Interleaved.done front d
  | cons file rest ih =>
    intro front
    apply Interleaved.perform
    rw [perform_optimizeFile]
    have others := ih ((optimizeFile Directory.files a options file).run d).2
      (front ++ [((optimizeFile Directory.files a options file).run d).1])
    simp only [List.map_append, List.append_assoc] at others
    exact others

/-- Of two files, the second one can be treated first. -/
theorem interleaved_second_first (a : Arguments) (options : Options) (first second : String)
    (d : Directory) :
    let before := (optimizeFile Directory.files a options second).run d
    let after := (optimizeFile Directory.files a options first).run before.2
    Interleaved ([first, second].map (optimizeFile Worker.files a options)) d [after.1, before.1]
      after.2 := by
  intro before after
  have last : Interleaved ([] ++ optimizeFile Worker.files a options first :: [.done before.1])
      before.2 [after.1, before.1] after.2 := by
    apply Interleaved.perform
    rw [perform_optimizeFile]
    exact .done [after.1, before.1] after.2
  have all : Interleaved ([optimizeFile Worker.files a options first] ++
      optimizeFile Worker.files a options second :: []) d [after.1, before.1] after.2 := by
    apply Interleaved.perform
    rw [perform_optimizeFile]
    exact last
  exact all

/-! ## The worker of a file -/

/-- The answer to reading a file. -/
def Directory.reading (d : Directory) (file : String) : Except String String :=
  (d.read file).mapError Fault.text

/-- What a result says, but for the reason of a failure. -/
def standing (result : FileResult × List String) : Bool × List String :=
  (result.1.isOptimized, result.2)

/-- What is decided about a file when it has been read: its result, or a tree to write, with the
lines that show its diagnostics. -/
def verdict (a : Arguments) (options : Options) (file : String) :
    Except String String → (FileResult × List String) ⊕ (Node × List String)
  | .error reason => .inl (.failed ("failed to read " ++ file ++ ": " ++ reason), [])
  | .ok source =>
    match (Json.parse? source).bind Node.ofJson? with
    | none => .inl (.failed "malformed syntax tree", [])
    | some root =>
      match root.optimize options with
      | .error failure => .inl (.rejected, failure.diagnostics.map (·.line (!a.plain) file))
      | .ok o => .inr (o.tree, o.diagnostics.map (·.line (!a.plain) file))

/-- A worker that has a tree to write. -/
def creating (file directory : String) (tree : Node) (lines : List String) :
    Worker (FileResult × List String) := do
  return (← writeTree Worker.files file directory tree, lines)

/-- A worker that has a tree to write, and a directory to write it in. -/
def writing (file directory : String) (tree : Node) (lines : List String) :
    Worker (FileResult × List String) :=
  .write (outputPath file directory) tree.toJson.pretty fun
    | .error reason =>
      .done (.failed ("failed to write " ++ outputPath file directory ++ ": " ++ reason), lines)
    | .ok _ => .done (.optimized, lines)

/-- A worker after the decision about its file. -/
def judged (file directory : String) :
    (FileResult × List String) ⊕ (Node × List String) → Worker (FileResult × List String)
  | .inl result => .done result
  | .inr (tree, lines) => creating file directory tree lines

section Steps

variable {a : Arguments} {options : Options} {d : Directory} {directory : String}

theorem optimizeFile_eq_read (asked : a.outputDirectory = some directory) (file : String) :
    optimizeFile Worker.files a options file =
      .read file fun answer => judged file directory (verdict a options file answer) := by
  refine congrArg (Worker.read file) (funext fun answer => ?_)
  cases answer with
  | error reason => rfl
  | ok source =>
    simp only [verdict, asked, Worker.andThen]
    cases (Json.parse? source).bind Node.ofJson? with
    | none => rfl
    | some root =>
      dsimp only
      cases root.optimize options <;> rfl

theorem step_optimizeFile (asked : a.outputDirectory = some directory) (file : String)
    (d : Directory) :
    (optimizeFile Worker.files a options file).step d =
      some (judged file directory (verdict a options file (d.reading file)), d) := by
  rw [optimizeFile_eq_read asked]
  rfl

theorem step_creating (file directory : String) (tree : Node) (lines : List String)
    (d : Directory) :
    (creating file directory tree lines).step d =
      match d.create directory with
      | .ok e => some (writing file directory tree lines, e)
      | .error (fault, e) =>
        some
          (.done (.failed ("failed to create " ++ directory ++ ": " ++ fault.text), lines), e) := by
  have first : creating file directory tree lines =
      .createDirectory directory fun
        | .error reason =>
          .done (.failed ("failed to create " ++ directory ++ ": " ++ reason), lines)
        | .ok _ => writing file directory tree lines := by
    refine congrArg (Worker.createDirectory directory) (funext fun answer => ?_)
    cases answer with
    | error reason => rfl
    | ok _ =>
      refine congrArg (Worker.write _ _) (funext fun answer => ?_)
      cases answer <;> rfl
  simp only [first, Worker.step, Directory.files, StateT.run, bind, StateT.bind, get,
    getThe, MonadStateOf.get, StateT.get, pure]
  cases d.create directory <;> rfl

theorem step_writing (file directory : String) (tree : Node) (lines : List String)
    (d : Directory) :
    (writing file directory tree lines).step d =
      match d.write (outputPath file directory) tree.toJson.pretty with
      | .ok e => some (.done (.optimized, lines), e)
      | .error fault =>
        some (.done
          (.failed ("failed to write " ++ outputPath file directory ++ ": " ++ fault.text), lines),
          d) := by
  simp only [writing, Worker.step, Directory.files, StateT.run, bind, StateT.bind, get,
    getThe, MonadStateOf.get, StateT.get, pure]
  cases d.write (outputPath file directory) tree.toJson.pretty <;> rfl

/-- What a file comes to when no other file is treated. -/
def expected (a : Arguments) (options : Options) (d : Directory) (file : String) :
    Bool × List String :=
  standing ((optimizeFile Directory.files a options file).run d).1

theorem expected_eq (asked : a.outputDirectory = some directory) (file : String) :
    expected a options d file = standing
      ((judged file directory (verdict a options file (d.reading file))).perform.run d).1 := by
  rw [expected, ← perform_optimizeFile, Worker.perform_of_step (step_optimizeFile asked file d)]

theorem expected_of_inl (asked : a.outputDirectory = some directory) {file : String}
    {result : FileResult × List String}
    (decided : verdict a options file (d.reading file) = .inl result) :
    expected a options d file = standing result := by
  rw [expected_eq asked, decided]
  rfl

theorem expected_of_inr (asked : a.outputDirectory = some directory) {file : String}
    {tree : Node} {lines : List String}
    (decided : verdict a options file (d.reading file) = .inr (tree, lines)) :
    expected a options d file =
      (match d.create directory with
        | .ok made => (made.write (outputPath file directory) tree.toJson.pretty).isOk
        | .error _ => false, lines) := by
  rw [expected_eq asked, decided, judged]
  have created := step_creating file directory tree lines d
  cases creation : d.create directory with
  | error failure =>
    rw [creation] at created
    rw [Worker.perform_of_step created]
    rfl
  | ok made =>
    rw [creation] at created
    dsimp only
    rw [Worker.perform_of_step created]
    have written := step_writing file directory tree lines made
    cases store : made.write (outputPath file directory) tree.toJson.pretty <;>
      · rw [store] at written
        rw [Worker.perform_of_step written]
        rfl

end Steps

end Stencil.CommandLine
