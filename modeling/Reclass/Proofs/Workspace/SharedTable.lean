import Reclass.Workspace
import Reclass.Proofs.Outcome
import Mathlib.Data.List.Induction

/-!
# One renaming table for a whole run

The calls to a workspace may come in any order, and the disk may be another one at each of them. The
table that is read first serves all of them: whether a call succeeds depends on nothing else than
whether a table could be read by then, and a call that fails changes nothing. A tree that has been
answered is kept.
-/

namespace Reclass

namespace Workspace

/-- What a workspace can be asked for. -/
inductive Call where
  /-- The renaming table of the run. -/
  | table
  /-- The module tree of a module. -/
  | tree (module : String)
  deriving DecidableEq, Repr

/-- What a workspace answers. -/
inductive Answer where
  | table (table : RenamingTable)
  | tree (tree : ModuleTree)
  deriving DecidableEq, Repr

/-- Asks a workspace, and gives the workspace after the call. -/
def call (workspace : Workspace) (disk : Disk) :
    Call → Except SetupError Answer × Workspace
  | .table =>
    let (answer, workspace) := workspace.fetchTable disk
    (answer.map .table, workspace)
  | .tree module =>
    let (answer, workspace) := workspace.fetchTree disk module
    (answer.map .tree, workspace)

/-- A workspace after some calls, each of them with the disk as it is then. -/
def after (workspace : Workspace) (calls : List (Disk × Call)) : Workspace :=
  calls.foldl (fun workspace (disk, call) => (workspace.call disk call).2) workspace

/-- A workspace after one more call is what that call leaves. -/
theorem after_concat (workspace : Workspace) (calls : List (Disk × Call)) (disk : Disk)
    (call : Call) :
    workspace.after (calls ++ [(disk, call)]) = ((workspace.after calls).call disk call).2 := by
  simp only [after, List.foldl_append, List.foldl_cons, List.foldl_nil]

/-- What a call is answered when a table serves the run: that table, or the tree that has its root
where the project has the scripts of the module. -/
def Call.answer (settings : Settings) (project : Project) (table : RenamingTable) : Call → Answer
  | .table => .table table
  | .tree module => .tree {
      root := project.scriptRoot module
      renamings := table
      basePackage := settings.basePackage
      style := settings.style }

/-- The table that is read from the first disk of some calls from which one can be read. -/
def firstTable? (settings : Settings) (calls : List (Disk × Call)) : Option RenamingTable :=
  calls.findSome? fun (disk, _) => (RenamingTable.load disk settings.renamingPath).toOption

/-- The first table of two runs is that of the first run, or else that of the second. -/
theorem firstTable?_append (settings : Settings) (calls calls' : List (Disk × Call)) :
    firstTable? settings (calls ++ calls') =
      (firstTable? settings calls).or (firstTable? settings calls') := by
  simp [firstTable?, List.findSome?_append]

variable {settings : Settings} {project : Project} {table? : Option RenamingTable}
  {table : RenamingTable} {workspace : Workspace} {disk : Disk}

/-- That a workspace holds a table, or none, and only trees that are made with the table. -/
structure Keeps (settings : Settings) (project : Project) (table? : Option RenamingTable)
    (workspace : Workspace) : Prop where
  settings_eq : workspace.settings = settings
  project_eq : workspace.project = project
  table_eq : workspace.table = table?
  trees : ∀ module tree, workspace.trees.lookup module = some tree →
    ∃ table ∈ table?, .tree tree = (Call.tree module).answer settings project table

/-- A workspace that has not been asked keeps no table. -/
theorem keeps_fresh (settings : Settings) (project : Project) :
    Keeps settings project none { settings := settings, project := project } :=
  ⟨rfl, rfl, rfl, by simp⟩

/-! ### One call -/

/-- Without a table there are no trees. -/
theorem Keeps.lookup_eq_none (h : Keeps settings project none workspace) (module : String) :
    workspace.trees.lookup module = none := by
  cases hlookup : workspace.trees.lookup module with
  | none => rfl
  | some tree =>
    obtain ⟨table, htable, _⟩ := h.trees module tree hlookup
    cases htable

/-- Once there is a table, every call is answered with it. -/
theorem Keeps.call_of_table (h : Keeps settings project (some table) workspace) (disk : Disk)
    (call : Call) :
    (workspace.call disk call).1 = .ok (call.answer settings project table) ∧
      Keeps settings project (some table) (workspace.call disk call).2 := by
  have hfetch : workspace.fetchTable disk = (.ok table, workspace) := by
    simp only [fetchTable, h.table_eq]
  cases call with
  | table =>
    simp only [Workspace.call, hfetch]
    exact ⟨rfl, h⟩
  | tree module =>
    cases hlookup : workspace.trees.lookup module with
    | some tree =>
      obtain ⟨_, htable, htree⟩ := h.trees module tree hlookup
      cases htable
      simp only [Workspace.call, fetchTree, hlookup]
      exact ⟨congrArg Except.ok htree, h⟩
    | none =>
      simp only [Workspace.call, fetchTree, hlookup, hfetch, h.project_eq, h.settings_eq]
      refine ⟨rfl, rfl, rfl, h.table_eq, fun other tree htree => ?_⟩
      rw [List.lookup_cons] at htree
      split at htree
      · next heq =>
        cases htree
        exact ⟨table, rfl, by rw [eq_of_beq heq]; rfl⟩
      · exact h.trees other tree htree

/-- Without a table, a call answers with the error of reading one, and changes nothing. -/
theorem Keeps.call_of_error {error : SetupError} (h : Keeps settings project none workspace)
    (hload : RenamingTable.load disk settings.renamingPath = .error error) (call : Call) :
    workspace.call disk call = (.error error, workspace) := by
  have hfetch : workspace.fetchTable disk = (.error error, workspace) := by
    simp only [fetchTable, h.table_eq, h.settings_eq, hload]
  cases call with
  | table =>
    simp only [Workspace.call, hfetch]
    rfl
  | tree module =>
    simp only [Workspace.call, fetchTree, h.lookup_eq_none, hfetch]
    rfl

/-- Without a table, a call that can read one goes on as if the table had been there. -/
theorem Keeps.call_of_load (h : Keeps settings project none workspace)
    (hload : RenamingTable.load disk settings.renamingPath = .ok table) (call : Call) :
    (workspace.call disk call).1 = .ok (call.answer settings project table) ∧
      Keeps settings project (some table) (workspace.call disk call).2 := by
  have hplaced : Keeps settings project (some table) { workspace with table := some table } := by
    refine ⟨h.settings_eq, h.project_eq, rfl, fun module tree hlookup => ?_⟩
    rw [h.lookup_eq_none] at hlookup
    cases hlookup
  have hcall : workspace.call disk call =
      Workspace.call { workspace with table := some table } disk call := by
    cases call <;>
      simp only [Workspace.call, fetchTree, fetchTable, h.lookup_eq_none, h.table_eq,
        h.settings_eq, hload]
  rw [hcall]
  exact hplaced.call_of_table disk call

/-- A call is answered with the table that is there, or that can be read now; if there is none, the
call changes nothing. -/
theorem Keeps.call_cases (h : Keeps settings project table? workspace) (disk : Disk) (call : Call) :
    (∃ table, table?.or (RenamingTable.load disk settings.renamingPath).toOption = some table ∧
      (workspace.call disk call).1 = .ok (call.answer settings project table) ∧
      Keeps settings project (some table) (workspace.call disk call).2) ∨
    ∃ error, table? = none ∧ RenamingTable.load disk settings.renamingPath = .error error ∧
      workspace.call disk call = (.error error, workspace) := by
  cases table? with
  | some table => exact .inl ⟨table, rfl, h.call_of_table disk call⟩
  | none =>
    cases hload : RenamingTable.load disk settings.renamingPath with
    | ok table => exact .inl ⟨table, rfl, h.call_of_load hload call⟩
    | error error => exact .inr ⟨error, rfl, rfl, h.call_of_error hload call⟩

/-! ### Trees are kept -/

section Trees

variable {module : String} {tree : ModuleTree}

/-- Asking for the table leaves the trees alone. -/
theorem trees_fetchTable (workspace : Workspace) (disk : Disk) :
    (workspace.fetchTable disk).2.trees = workspace.trees := by
  unfold fetchTable
  split
  · rfl
  · split <;> rfl

/-- A tree that is kept is the answer, and nothing changes. -/
theorem call_of_lookup (h : workspace.trees.lookup module = some tree) (disk : Disk) :
    workspace.call disk (.tree module) = (.ok (.tree tree), workspace) := by
  simp only [Workspace.call, fetchTree, h]
  rfl

/-- A tree that is the answer is kept. -/
theorem lookup_of_call
    (h : (workspace.call disk (.tree module)).1 = .ok (.tree tree)) :
    (workspace.call disk (.tree module)).2.trees.lookup module = some tree := by
  cases hlookup : workspace.trees.lookup module with
  | some kept =>
    rw [call_of_lookup hlookup] at h ⊢
    cases h
    exact hlookup
  | none =>
    simp only [Workspace.call, fetchTree, hlookup] at h ⊢
    split at h
    · cases h
    · cases h
      simp only [List.lookup_cons_self]

/-- A tree that is kept stays, whatever the workspace is asked for. -/
theorem lookup_call (h : workspace.trees.lookup module = some tree) (disk : Disk) (call : Call) :
    (workspace.call disk call).2.trees.lookup module = some tree := by
  cases call with
  | table =>
    simp only [Workspace.call, trees_fetchTable, h]
  | tree other =>
    cases hlookup : workspace.trees.lookup other with
    | some kept =>
      rw [call_of_lookup hlookup]
      exact h
    | none =>
      have hne : (module == other) = false := by
        refine beq_false_of_ne ?_
        rintro rfl
        cases h.symm.trans hlookup
      have htrees := trees_fetchTable workspace disk
      simp only [Workspace.call, fetchTree, hlookup]
      generalize workspace.fetchTable disk = fetched at htrees
      obtain ⟨answer, next⟩ := fetched
      cases answer with
      | error error => rwa [← htrees] at h
      | ok table =>
        simp only [List.lookup_cons, hne]
        rwa [← htrees] at h

/-- A tree that is kept stays through any run of calls. -/
theorem lookup_after (h : workspace.trees.lookup module = some tree)
    (calls : List (Disk × Call)) : (workspace.after calls).trees.lookup module = some tree := by
  induction calls using List.reverseRecOn with
  | nil => exact h
  | append_singleton calls moment ih =>
    obtain ⟨disk, call⟩ := moment
    rw [after_concat]
    exact lookup_call ih disk call

end Trees

/-! ### A run of calls -/

/-- The first table of a longer run is that of the run before, or else the one that is read last. -/
theorem firstTable?_concat (calls : List (Disk × Call)) (disk : Disk) (call : Call) :
    firstTable? settings (calls ++ [(disk, call)]) =
      (firstTable? settings calls).or (RenamingTable.load disk settings.renamingPath).toOption := by
  rw [firstTable?_append]
  simp [firstTable?]

/-- After some calls, a workspace keeps the first table that could be read. -/
theorem keeps_after (settings : Settings) (project : Project) (calls : List (Disk × Call)) :
    Keeps settings project (firstTable? settings calls)
      (after { settings := settings, project := project } calls) := by
  induction calls using List.reverseRecOn with
  | nil => exact keeps_fresh settings project
  | append_singleton calls moment ih =>
    obtain ⟨disk, call⟩ := moment
    rw [after_concat, firstTable?_concat]
    rcases ih.call_cases disk call with
      ⟨table, htable, _, hkeeps⟩ | ⟨error, hnone, hload, hcall⟩
    · rw [htable]
      exact hkeeps
    · rw [hnone] at ih
      rw [hnone, hload, hcall]
      exact ih

/-- In a run of calls, a call is answered with the first table that is read in it, and cannot fail
behind that. When it fails, it has tried to read a table, and changes nothing. -/
theorem Keeps.call_in_run {before : List (Disk × Call)}
    (h : Keeps settings project (firstTable? settings before) workspace) (disk : Disk) (call : Call)
    (behind : List (Disk × Call)) :
    (∀ result, (workspace.call disk call).1 = .ok result →
        ∃ table ∈ firstTable? settings (before ++ (disk, call) :: behind),
          result = call.answer settings project table) ∧
      (firstTable? settings before ≠ none → ∃ result, (workspace.call disk call).1 = .ok result) ∧
      ∀ error, (workspace.call disk call).1 = .error error →
        RenamingTable.load disk settings.renamingPath = .error error ∧
          (workspace.call disk call).2 = workspace := by
  rcases h.call_cases disk call with ⟨table, htable, hanswer, _⟩ | ⟨fault, hnone, hload, hcall⟩
  · -- what can be read by now is what is read first in the whole run
    have hfirst : firstTable? settings (before ++ (disk, call) :: behind) = some table := by
      rw [List.append_cons, firstTable?_append, firstTable?_concat, htable, Option.or]
    refine ⟨fun result hresult => ⟨table, hfirst, ?_⟩, fun _ => ⟨_, hanswer⟩,
      fun error herror => ?_⟩
    · exact Except.ok.inj (hresult.symm.trans hanswer)
    · cases hanswer.symm.trans herror
  · have hanswer : (workspace.call disk call).1 = .error fault := congrArg Prod.fst hcall
    refine ⟨fun result hresult => ?_, fun hsome => absurd hnone hsome, fun error herror => ?_⟩
    · cases hanswer.symm.trans hresult
    · obtain rfl : fault = error := Except.error.inj (hanswer.symm.trans herror)
      exact ⟨hload, congrArg Prod.snd hcall⟩

/-- In any run of calls, with any disk at each of them, one table serves all calls that succeed: the
first one that could be read. A module has the same tree whenever it is asked for, with its root at
the scripts of the module. Once a table has been read, no call fails any more. A call that fails has
tried to read the table from its own disk, and leaves the workspace as it was. The tree of a module
is made once: it is kept from the first call that answers with it to the end of the run, and is the
answer to later calls for the module, which change nothing. -/
theorem one_table_serves_run (settings : Settings) (project : Project)
    (before : List (Disk × Call)) (disk : Disk) (call : Call) (behind : List (Disk × Call)) :
    let workspace := after { settings := settings, project := project } before
    let answer := (workspace.call disk call).1
    let next := (workspace.call disk call).2
    (∀ result, answer = .ok result →
        ∃ table ∈ firstTable? settings (before ++ (disk, call) :: behind),
          result = call.answer settings project table) ∧
      (firstTable? settings before ≠ none → ∃ result, answer = .ok result) ∧
      (∀ error, answer = .error error →
        RenamingTable.load disk settings.renamingPath = .error error ∧ next = workspace) ∧
      ∀ module tree, call = .tree module → answer = .ok (.tree tree) →
        (next.after behind).trees.lookup module = some tree ∧
          ∀ disk, (next.after behind).call disk (.tree module) =
            (.ok (.tree tree), next.after behind) := by
  intro workspace answer next
  have hkeeps : Keeps settings project (firstTable? settings before) workspace :=
    keeps_after settings project before
  obtain ⟨hserves, hnever, hfails⟩ := hkeeps.call_in_run disk call behind
  refine ⟨hserves, hnever, hfails, ?_⟩
  rintro module tree rfl hanswer
  have hkept := lookup_after (lookup_of_call hanswer) behind
  exact ⟨hkept, call_of_lookup hkept⟩

end Workspace

end Reclass
