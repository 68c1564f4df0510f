import PathForecast.CommandLine.Run
import PathForecast.FileTree.Session
import PathForecast.Proofs.Places

/-!
# Commands on a session

A command on a session hands on the tree that it leaves. Reading and printing leave it as it is
(`KeepsTree`), and preparing an output directory changes no file (`run_prepareDirectory`).
-/

set_option autoImplicit false

namespace PathForecast

namespace Session

variable {β γ : Type}

/-! ## Steps -/

theorem run_bind (m : ExceptT Fault (StateM Session) β)
    (f : β → ExceptT Fault (StateM Session) γ) (s : Session) :
    (m >>= f).run.run s =
      match m.run.run s with
      | (.ok x, s') => (f x).run.run s'
      | (.error fault, s') => (.error fault, s') := by
  rw [ExceptT.run_bind, StateT.run_bind]
  rcases m.run.run s with ⟨_ | x, s'⟩ <;> rfl

/-- A command fails with its first part, or it goes on with what the first part has left. -/
theorem cases_of_run_bind {m : ExceptT Fault (StateM Session) β}
    {f : β → ExceptT Fault (StateM Session) γ} {s s' : Session} {answer : Except Fault γ}
    (h : (m >>= f).run.run s = (answer, s')) :
    (∃ fault, m.run.run s = (.error fault, s') ∧ answer = .error fault) ∨
      ∃ x k, m.run.run s = (.ok x, k) ∧ (f x).run.run k = (answer, s') := by
  rw [run_bind] at h
  rcases hrun : m.run.run s with ⟨fault | x, k⟩
  · rw [hrun] at h
    cases h
    exact .inl ⟨fault, rfl, rfl⟩
  · rw [hrun] at h
    exact .inr ⟨x, k, rfl, h⟩

/-- A question about the tree is answered, and nothing changes. -/
theorem run_demand_ask (attempt : FileAttempt) (path : String)
    (question : FileTree → Except String β) (s : Session) :
    (Host.demand attempt path (ask question)).run.run s =
      ((question s.tree).mapError fun reason => .io (.refused attempt path reason), s) := by
  have hlift : (monadLift (ask question) : ExceptT Fault (StateM Session) (Except String β)).run.run
      s = (.ok (question s.tree), s) := rfl
  rw [Host.demand, run_bind, hlift]
  cases question s.tree <;> rfl

theorem run_demand_change (attempt : FileAttempt) (path : String)
    (f : FileTree → Except String FileTree) (s : Session) :
    (Host.demand attempt path (change f)).run.run s =
      match f s.tree with
      | .ok tree => (.ok (), { s with tree })
      | .error reason => (.error (.io (.refused attempt path reason)), s) := by
  have hlift : (monadLift (change f) : ExceptT Fault (StateM Session) (Except String Unit)).run.run
      s = match f s.tree with
        | .ok tree => (.ok (.ok ()), { s with tree })
        | .error reason => (.ok (.error reason), s) := by
    show (Functor.map Except.ok (change f) : StateM Session _).run s = _
    rw [StateT.run_map, change]
    cases h : f s.tree
    all_goals
      simp [h]
      rfl
  rw [Host.demand, run_bind, hlift]
  cases f s.tree <;> rfl

theorem run_write (path : String) (content : Bytes) (s : Session) :
    (Host.demand .write path (host.write path content)).run.run s =
      match s.tree.write path content with
      | .ok tree => (.ok (), { s with tree })
      | .error reason => (.error (.io (.refused .write path reason)), s) :=
  run_demand_change .write path (·.write path content) s

/-! ## Commands that leave the tree alone -/

/-- Whatever comes of it, the tree stays as it is. -/
def KeepsTree (m : ExceptT Fault (StateM Session) β) : Prop :=
  ∀ s, (m.run.run s).2.tree = s.tree

theorem keepsTree_mk (x : Except Fault β) :
    KeepsTree (ExceptT.mk (pure x) : ExceptT Fault (StateM Session) β) := fun _ => rfl

theorem keepsTree_throw (fault : Fault) :
    KeepsTree (throw fault : ExceptT Fault (StateM Session) β) := fun _ => rfl

theorem KeepsTree.bind {m : ExceptT Fault (StateM Session) β}
    {f : β → ExceptT Fault (StateM Session) γ} (hm : KeepsTree m) (hf : ∀ x, KeepsTree (f x)) :
    KeepsTree (m >>= f) := by
  intro s
  have htree := hm s
  rw [run_bind]
  rcases hrun : m.run.run s with ⟨_ | x, s'⟩
  · rw [hrun] at htree
    exact htree
  · rw [hrun] at htree
    exact (hf x s').trans htree

theorem keepsTree_demand_ask (attempt : FileAttempt) (path : String)
    (question : FileTree → Except String β) :
    KeepsTree (Host.demand attempt path (ask question)) := by
  intro s
  rw [run_demand_ask]

theorem keepsTree_readBounded (path : String) (limit : UInt64) :
    KeepsTree (host.readBounded path limit) := by
  refine (keepsTree_demand_ask .read path (·.info path)).bind fun info => ?_
  cases info with
  | other => exact keepsTree_throw _
  | regular size =>
      dsimp only
      split
      · exact keepsTree_throw _
      · exact keepsTree_demand_ask .read path (·.read path)

theorem keepsTree_loadCatalog (path : String) (limit : UInt64) :
    KeepsTree (host.loadCatalog path limit) := by
  refine (keepsTree_readBounded path limit).bind fun content => ?_
  split
  · exact keepsTree_mk _
  · exact keepsTree_throw _

theorem keepsTree_loadWorkload (path : String) (limit : UInt64) :
    KeepsTree (host.loadWorkload path limit) := by
  refine (keepsTree_readBounded path limit).bind fun content => ?_
  split
  · exact keepsTree_mk _
  · exact keepsTree_throw _

theorem keepsTree_learnFiles (settings : RunSettings) (catalog workload : String) :
    KeepsTree (learnFiles host settings catalog workload) :=
  (keepsTree_loadCatalog catalog settings.maxFileBytes).bind fun _ =>
    (keepsTree_loadWorkload workload settings.maxFileBytes).bind fun _ => keepsTree_mk _

theorem keepsTree_print (line : String) :
    KeepsTree (host.print line : ExceptT Fault (StateM Session) Unit) := fun _ => rfl

theorem keepsTree_printLines (lines : List String) : KeepsTree (host.printLines lines) := by
  induction lines with
  | nil => exact keepsTree_mk (.ok ())
  | cons line lines ih =>
      exact (keepsTree_print line).bind fun _ => ih

/-! ## Learning and preparing -/

/-- What was learned is a build of the catalog and the traces that were read. -/
theorem exists_buildModels_of_learnFiles {settings : RunSettings} {catalog workload : String}
    {s s' : Session} {o : BuildOutcome Float}
    (h : (learnFiles host settings catalog workload).run.run s = (.ok o, s')) :
    ∃ c traces, buildModels c traces settings.model = .ok o := by
  rcases cases_of_run_bind h with ⟨_, -, hfault⟩ | ⟨c, k, -, h⟩
  · cases hfault
  · rcases cases_of_run_bind h with ⟨_, -, hfault⟩ | ⟨traces, k', -, h⟩
    · cases hfault
    · exact ⟨c, traces, congrArg Prod.fst h⟩

/-- Preparing a directory changes no file, and the answer is the path of the place where the
directory stands. -/
theorem run_prepareDirectory {path : String} {s k : Session} {answer : Except Fault String}
    (h : (host.prepareDirectory path).run.run s = (answer, k)) :
    (∀ q, k.tree.file? q = s.tree.file? q) ∧
      ∀ name, answer = .ok name → ∃ t p, s.tree.createDirectories path = .ok t ∧
        t.locate path = .ok p ∧ t.home = s.tree.home ∧ name = FileTree.absolutePath p ∧
        k = { s with tree := t } := by
  have hcreate : (Host.demand .createDirectory path (host.createDirectories path)).run.run s = _ :=
    run_demand_change .createDirectory path (·.createDirectories path) s
  rw [Host.prepareDirectory, run_bind, hcreate] at h
  cases htree : s.tree.createDirectories path with
  | error reason =>
      rw [htree] at h
      cases h
      exact ⟨fun _ => rfl, nofun⟩
  | ok t =>
      obtain ⟨hfiles, hhome⟩ := FileTree.createDirectories_keeps htree
      have hresolve : (Host.demand .resolveDirectory path (host.resolve path)).run.run
          { s with tree := t } = _ :=
        run_demand_ask .resolveDirectory path (·.resolve path) { s with tree := t }
      rw [htree] at h
      dsimp only at h
      rw [hresolve] at h
      cases h
      refine ⟨fun q => congrArg (List.lookup q) hfiles, fun name hname => ?_⟩
      cases hplace : t.locate path with
      | error reason =>
          rw [FileTree.resolve, hplace] at hname
          cases hname
      | ok p =>
          rw [FileTree.resolve, hplace] at hname
          exact ⟨t, p, rfl, hplace, hhome, (Except.ok.inj hname).symm, rfl⟩

end Session

end PathForecast
