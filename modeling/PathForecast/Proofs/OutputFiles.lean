import PathForecast.Proofs.FileNames
import PathForecast.Proofs.Json.Records
import PathForecast.Proofs.Sessions
import PathForecast.Proofs.Workloads

/-!
# What a build writes

A build resolves its output directory first and then writes one file for each model under a name in
that directory. Every such name is an entry of its own, so nothing outside the directory changes,
and no file is written twice. Main statement: `snapshotFileName_build`.
-/

set_option autoImplicit false

namespace PathForecast

/-! ## Snapshots of models -/

namespace ProcedureModel

def fileName (m : ProcedureModel Float) (format : SnapshotFormat) : String :=
  snapshotFileName m.graph.procedure.id m.graph.procedure.name format

def fileContent (m : ProcedureModel Float) (format : SnapshotFormat) : Bytes :=
  format.encode m.graph.snapshot.stored

end ProcedureModel

/-- From one tree to another no file has changed, except that models may have been written to their
files in the directory. -/
def FilledBy (directory : Place) (format : SnapshotFormat) (models : List (ProcedureModel Float))
    (t t' : FileTree) : Prop :=
  ∀ q, t'.file? q = t.file? q ∨
    ∃ m ∈ models, q = directory ++ [m.fileName format] ∧ t'.file? q = some (m.fileContent format)

section Writing

variable {directory : Place} {format : SnapshotFormat} {t t' t'' : FileTree}

theorem FilledBy.refl (models : List (ProcedureModel Float)) :
    FilledBy directory format models t t := fun _ => .inl rfl

theorem FilledBy.trans {ms ns : List (ProcedureModel Float)} (h : FilledBy directory format ms t t')
    (h' : FilledBy directory format ns t' t'') : FilledBy directory format (ms ++ ns) t t'' := by
  intro q
  rcases h' q with hsame | ⟨m, hm, hq, hfile⟩
  · rcases h q with hsame' | ⟨m, hm, hq, hfile⟩
    · exact .inl (hsame.trans hsame')
    · exact .inr ⟨m, List.mem_append_left ns hm, hq, hsame.trans hfile⟩
  · exact .inr ⟨m, List.mem_append_right ms hm, hq, hfile⟩

variable (hp : directory.Proper)

include hp

theorem filledBy_of_write {m : ProcedureModel Float}
    (h : t.write (Host.pathIn (FileTree.absolutePath directory) (m.fileName format))
      (m.fileContent format) = .ok t') :
    FilledBy directory format [m] t t' ∧
      t'.file? (directory ++ [m.fileName format]) = some (m.fileContent format) := by
  rw [FileTree.pathIn_absolutePath hp] at h
  have hfile := FileTree.file?_write hp (isEntry_snapshotFileName _ _ format) h
  have hown : t'.file? (directory ++ [m.fileName format]) = some (m.fileContent format) :=
    (hfile _).trans (if_pos rfl)
  refine ⟨fun q => ?_, hown⟩
  by_cases hq : q = directory ++ [m.fileName format]
  · exact .inr ⟨m, List.mem_cons_self, hq, hq ▸ hown⟩
  · exact .inl ((hfile q).trans (if_neg hq))

/-- Either the model's own file is written or nothing, and then the command does not go on. -/
theorem run_writeFile {m : ProcedureModel Float} {line : WrittenModel} {s s' : Session}
    {written : Except Fault WrittenModel}
    (h : (Host.demand .write (Host.pathIn (FileTree.absolutePath directory) (m.fileName format))
      (Session.host.write (Host.pathIn (FileTree.absolutePath directory) (m.fileName format))
        (m.fileContent format)) >>= fun _ => pure line).run.run s = (written, s')) :
    FilledBy directory format [m] s.tree s'.tree ∧
      ∀ w, written = .ok w →
        s'.tree.file? (directory ++ [m.fileName format]) = some (m.fileContent format) := by
  rw [Session.run_bind, Session.run_write] at h
  cases hwrite : s.tree.write
      (Host.pathIn (FileTree.absolutePath directory) (m.fileName format))
      (m.fileContent format) with
  | error reason =>
      rw [hwrite] at h
      cases h
      exact ⟨.refl _, nofun⟩
  | ok t =>
      rw [hwrite] at h
      cases h
      obtain ⟨hfilled, hown⟩ := filledBy_of_write hp hwrite
      exact ⟨hfilled, fun _ _ => hown⟩

/-- An audit only keeps a model from being written. -/
theorem run_writeModel {audited : Bool} {m : ProcedureModel Float} {s s' : Session}
    {written : Except Fault WrittenModel}
    (h : (writeModel Session.host (FileTree.absolutePath directory) format audited m).run.run s =
      (written, s')) :
    FilledBy directory format [m] s.tree s'.tree ∧
      ∀ w, written = .ok w →
        s'.tree.file? (directory ++ [m.fileName format]) = some (m.fileContent format) := by
  unfold writeModel at h
  split at h
  · split at h
    · cases h
      exact ⟨.refl _, nofun⟩
    · exact run_writeFile hp h
  · exact run_writeFile hp h

/-- The models are written one after the other until one of them cannot be. -/
theorem run_writeModels {audited : Bool} (models : List (ProcedureModel Float)) :
    ∀ {s s' : Session} {written : Except Fault (List WrittenModel)},
      (models.mapM (writeModel Session.host (FileTree.absolutePath directory) format
        audited)).run.run s = (written, s') →
      (models.map (·.fileName format)).Nodup →
      FilledBy directory format models s.tree s'.tree ∧
        ∀ ws, written = .ok ws → ∀ m ∈ models,
          s'.tree.file? (directory ++ [m.fileName format]) = some (m.fileContent format) := by
  induction models with
  | nil =>
      intro s s' written h _
      rw [List.mapM_nil] at h
      cases h
      exact ⟨.refl _, fun _ _ => nofun⟩
  | cons m models ih =>
      intro s s' written h hnodup
      obtain ⟨hnew, hnodup⟩ := List.nodup_cons.mp hnodup
      rw [List.mapM_cons] at h
      rcases Session.cases_of_run_bind h with ⟨fault, hfirst, rfl⟩ | ⟨w, k, hfirst, h⟩
      · obtain ⟨hfilled, -⟩ := run_writeModel hp hfirst
        exact ⟨hfilled.trans (.refl models), nofun⟩
      · obtain ⟨hfilled, hown⟩ := run_writeModel hp hfirst
        rcases Session.cases_of_run_bind h with ⟨fault, hrest, rfl⟩ | ⟨ws, k', hrest, h⟩
        · exact ⟨hfilled.trans (ih hrest hnodup).1, nofun⟩
        · cases h
          obtain ⟨hfilled', howns⟩ := ih hrest hnodup
          refine ⟨hfilled.trans hfilled', fun _ _ n hn => ?_⟩
          rcases List.mem_cons.mp hn with rfl | hn
          · -- no later model has the name of the first one
            rcases hfilled' (directory ++ [n.fileName format]) with hsame | ⟨l, hl, hplace, -⟩
            · exact hsame.trans (hown w rfl)
            · have hname := List.singleton_inj.mp (List.append_cancel_left hplace)
              exact absurd (List.mem_map.mpr ⟨l, hl, hname.symm⟩) hnew
          · exact howns ws rfl n hn

end Writing

/-- Models of procedures with ids of their own have file names of their own. -/
theorem nodup_fileNames {models : List (ProcedureModel Float)}
    (h : (models.map (·.graph.procedure.id)).Nodup) (format : SnapshotFormat) :
    (models.map (·.fileName format)).Nodup := by
  refine List.pairwise_map.mpr ((List.pairwise_map.mp h).imp fun hne heq => hne ?_)
  exact procedure_eq_of_fileName heq

/-- Reporting what has been written leaves the tree alone. -/
theorem keepsTree_report (options : GlobalOptions) (report : BuildReport) :
    Session.KeepsTree (if options.jsonMode then Session.host.printJson report.toJson
      else if !options.quiet then Session.host.printLines report.lines else pure ()) := by
  split
  · exact Session.keepsTree_print _
  · split
    · exact Session.keepsTree_printLines _
    · exact Session.keepsTree_mk (.ok ())

/-- A build has learned models and has written them, or those before the first that could not be
written, to their files in its output directory. -/
structure Outputs (settings : RunSettings) (b : BuildOptions) (s s' : Session)
    (answer : Except Fault Unit) (format : SnapshotFormat) (directory : Place)
    (outcome : BuildOutcome Float) : Prop where
  format_eq : SnapshotFormat.parse b.format = some format
  /-- The directory is where the output path leads once it has been created. -/
  prepared : ∃ t, s.tree.createDirectories b.output = .ok t ∧ t.locate b.output = .ok directory ∧
    ((learnFiles Session.host settings b.catalog b.workload).run.run { s with tree := t }).1 =
      .ok outcome
  ids : (outcome.models.values.map (·.graph.procedure.id)).Nodup
  files : FilledBy directory format outcome.models.values s.tree s'.tree
  complete : answer = .ok () → ∀ m ∈ outcome.models.values,
    s'.tree.file? (directory ++ [m.fileName format]) = some (m.fileContent format)

/-- A build writes nothing and fails, or it writes its models. -/
theorem run_runBuild {settings : RunSettings} {options : GlobalOptions} {b : BuildOptions}
    {s s' : Session} {answer : Except Fault Unit} (hhome : s.tree.home.Proper)
    (h : (runBuild Session.host settings options b).run.run s = (answer, s')) :
    ((∀ q, s'.tree.file? q = s.tree.file? q) ∧ ∃ fault, answer = .error fault) ∨
      ∃ format directory outcome, Outputs settings b s s' answer format directory outcome := by
  cases hformat : SnapshotFormat.parse b.format with
  | none =>
      rw [runBuild, hformat] at h
      cases h
      exact .inl ⟨fun _ => rfl, _, rfl⟩
  | some format =>
      rw [runBuild, hformat] at h
      rcases Session.cases_of_run_bind h with ⟨fault, hprepare, rfl⟩ | ⟨path, k, hprepare, h⟩
      · exact .inl ⟨(Session.run_prepareDirectory hprepare).1, _, rfl⟩
      · obtain ⟨hsame, hplace⟩ := Session.run_prepareDirectory hprepare
        -- from here on the directory is known by its place, not by the path that was given
        obtain ⟨t, directory, hcreate, hlocate, hkept, rfl, rfl⟩ := hplace path rfl
        have hp : directory.Proper := FileTree.proper_of_locate (hkept.symm ▸ hhome) hlocate
        have hlearned := Session.keepsTree_learnFiles settings b.catalog b.workload
          { s with tree := t }
        rcases Session.cases_of_run_bind h with ⟨fault, hlearn, rfl⟩ | ⟨outcome, k, hlearn, h⟩
        · rw [hlearn] at hlearned
          exact .inl ⟨fun q => (congrArg (·.file? q) hlearned).trans (hsame q), _, rfl⟩
        · rw [hlearn] at hlearned
          obtain ⟨c, traces, hbuild⟩ := Session.exists_buildModels_of_learnFiles hlearn
          have hids := nodup_ids_of_buildModels hbuild
          have hprepared : ∃ t, s.tree.createDirectories b.output = .ok t ∧
              t.locate b.output = .ok directory ∧
              ((learnFiles Session.host settings b.catalog b.workload).run.run
                { s with tree := t }).1 = .ok outcome := ⟨t, hcreate, hlocate, by rw [hlearn]⟩
          have hstart : FilledBy directory format [] s.tree k.tree := fun q =>
            .inl ((congrArg (·.file? q) hlearned).trans (hsame q))
          refine .inr ⟨format, directory, outcome, ?_⟩
          rcases Session.cases_of_run_bind h with ⟨fault, hwrite, rfl⟩ | ⟨ws, k', hwrite, h⟩
          · obtain ⟨hfilled, -⟩ := run_writeModels hp _ hwrite (nodup_fileNames hids format)
            exact ⟨hformat, hprepared, hids, hstart.trans hfilled, nofun⟩
          · obtain ⟨hfilled, hall⟩ := run_writeModels hp _ hwrite (nodup_fileNames hids format)
            have hreported : s'.tree = k'.tree := by
              have hreport := keepsTree_report options
                { models := ws, learned := outcome.learned, rejected := outcome.rejected
                  orphaned := outcome.orphaned } k'
              rwa [h] at hreport
            refine ⟨hformat, hprepared, hids, ?_, fun _ m hm => ?_⟩
            · rw [hreported]
              exact hstart.trans hfilled
            · rw [hreported]
              exact hall ws rfl m hm

/-- Different procedures have different file names, whatever they are called and in whatever format,
and every file name is one part of a path: plain characters, a point and an extension. So a build on
a file tree whose home directory is a place changes no file but those of its models, each directly
in the output directory and each to the model's own snapshot. No file named for a procedure changes
unless that procedure has a model, and if the build succeeds every model has its file. -/
theorem snapshotFileName_build :
    (∀ (id id' : ProcedureId) (name name' : String) (format format' : SnapshotFormat), id ≠ id' →
      snapshotFileName id name format ≠ snapshotFileName id' name' format') ∧
    (∀ (id : ProcedureId) (name : String) (format : SnapshotFormat),
      IsEntry (snapshotFileName id name format) ∧
      ∃ stem, snapshotFileName id name format = stem ++ "." ++ format.fileExtension ∧
        ∀ c ∈ stem.toList, isPlainChar c = true) ∧
    ∀ (settings : RunSettings) (options : GlobalOptions) (b : BuildOptions) (s s' : Session)
      (answer : Except Fault Unit), s.tree.home.Proper →
      (runBuild Session.host settings options b).run.run s = (answer, s') →
      ((∀ q, s'.tree.file? q = s.tree.file? q) ∧ ∃ fault, answer = .error fault) ∨
      ∃ format directory outcome, Outputs settings b s s' answer format directory outcome ∧
        ∀ (id : ProcedureId) (name : String) (format' : SnapshotFormat),
          let q := directory ++ [snapshotFileName id name format']
          s'.tree.file? q = s.tree.file? q ∨ ∃ m ∈ outcome.models.values,
            m.graph.procedure.id = id ∧ s'.tree.file? q = some (m.fileContent format) := by
  refine ⟨fun id id' name name' format format' hne heq => hne (procedure_eq_of_fileName heq),
    fun id name format => ⟨isEntry_snapshotFileName id name format, ?_⟩,
    fun settings options b s s' answer hhome hrun => ?_⟩
  · obtain ⟨stem, hname, -, hplain⟩ := fileName_spelling id name format
    exact ⟨stem, hname, hplain⟩
  · refine (run_runBuild hhome hrun).imp_right fun ⟨format, directory, outcome, houtputs⟩ => ?_
    refine ⟨format, directory, outcome, houtputs, fun id name format' => ?_⟩
    rcases houtputs.files (directory ++ [snapshotFileName id name format']) with
      hsame | ⟨m, hm, hplace, hfile⟩
    · exact .inl hsame
    · have hname := List.singleton_inj.mp (List.append_cancel_left hplace)
      exact .inr ⟨m, hm, (procedure_eq_of_fileName hname).symm, hfile⟩

/-- Procedures whose names hold slashes, points and the hyphen that separates the id. -/
def stealthyCatalog : Catalog where
  procedures :=
    [{ id := ⟨1⟩, name := "../pay-1", statements := [] },
      { id := ⟨11⟩, name := "../pay", statements := [] }]

def stealthySession : Session where
  tree := shelf stealthyCatalog.toJson.compact (workloadToJson []).compact
  printed := []

def stealthyBuild : BuildOptions where
  catalog := "c"
  workload := "w"
  output := "out"
  format := "json"
  audited := false

/-- A build that succeeds: both models have their files in the output directory, and the catalog
above it is as it was. -/
theorem snapshotFileName_build_stealthy :
    snapshotFileName ⟨1⟩ "../pay-1" .json ≠ snapshotFileName ⟨11⟩ "../pay" .json ∧
      ∃ s', (runBuild Session.host .standard ⟨false, true, false, none⟩ stealthyBuild).run.run
          stealthySession = (.ok (), s') ∧
        s'.tree.file? ["home", "c"] = stealthySession.tree.file? ["home", "c"] ∧
        ∃ outcome : BuildOutcome Float,
          outcome.models.values.map (·.graph.procedure.id) = [⟨1⟩, ⟨11⟩] ∧
          ∀ m ∈ outcome.models.values,
            s'.tree.file? (["home", "out"] ++ [m.fileName .json]) =
              some (m.fileContent .json) := by
  have hhome : stealthySession.tree.home.Proper := by
    intro n hn
    rw [List.mem_singleton.mp hn]
    exact ⟨by decide, by decide, by decide, by decide⟩
  have hdone : ((runBuild Session.host .standard ⟨false, true, false, none⟩
      stealthyBuild).run.run stealthySession).1.toOption = some () := by decide +kernel
  have hformat : SnapshotFormat.parse stealthyBuild.format = some .json := by decide
  have hplace : ((stealthySession.tree.createDirectories stealthyBuild.output).toOption.bind
      fun t => (t.locate stealthyBuild.output).toOption) = some ["home", "out"] := by
    decide +kernel
  have hids : ((stealthySession.tree.createDirectories stealthyBuild.output).toOption.bind
      fun t => ((learnFiles Session.host .standard stealthyBuild.catalog
        stealthyBuild.workload).run.run { stealthySession with tree := t }).1.toOption.map
          fun o => o.models.values.map (·.graph.procedure.id)) = some [⟨1⟩, ⟨11⟩] := by
    decide +kernel
  obtain ⟨hnames, -, hbuild⟩ := snapshotFileName_build
  refine ⟨hnames _ _ _ _ _ _ (by decide), ?_⟩
  rcases hrun : (runBuild Session.host .standard ⟨false, true, false, none⟩
    stealthyBuild).run.run stealthySession with ⟨answer, s'⟩
  rw [hrun] at hdone
  obtain rfl := eq_ok_of_toOption hdone
  rcases hbuild _ _ _ _ _ _ hhome hrun with
    ⟨-, fault, hfault⟩ | ⟨format, directory, outcome, houtputs, -⟩
  · cases hfault
  · obtain rfl : format = .json := Option.some.inj (houtputs.format_eq.symm.trans hformat)
    obtain ⟨t, hcreate, hlocate, hlearn⟩ := houtputs.prepared
    simp only [hcreate, Except.toOption, Option.bind_some, hlocate] at hplace
    obtain rfl : directory = ["home", "out"] := Option.some.inj hplace
    simp only [hcreate, Except.toOption, Option.bind_some, hlearn, Option.map_some] at hids
    refine ⟨s', rfl, ?_, outcome, Option.some.inj hids, houtputs.complete rfl⟩
    rcases houtputs.files ["home", "c"] with hsame | ⟨m, -, hplace, -⟩
    · exact hsame
    · exact absurd (congrArg List.length hplace) (by simp)

end PathForecast
