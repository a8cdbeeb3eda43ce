import Stencil.CommandLine.Run
import Stencil.Proofs.CommandLine.Task
import Mathlib.Data.List.Forall2

/-! Files compiled by a crew, one worker to a file. The workers take turns in any order, one request at a time, and once one
of them has failed others may give up before they have begun. Files that are compiled in order are one such order. -/

namespace Stencil.Run

section Job

variable {m : Type → Type} [Monad m]

def job (host : Host m) (o : Options) (check : Bool) (log : LogFile) (path : Bytes) : m (Except Trouble Result) := do
  let r ← compileFile host o log path
  let written ← if check || o.stdout then pure (.ok ()) else writeResult host o log r
  return written.map fun () => r

theorem compileAll_cons [LawfulMonad m] (host : Host m) (o : Options) (check : Bool) (log : LogFile) (path : Bytes)
    (more : List Bytes) : compileAll host o check log (path :: more) = do
      let first ← job host o check log path
      let rest ← compileAll host o check log more
      return first.bind fun r => rest.map (r :: ·) := by
  rw [compileAll, job, bind_assoc]
  refine bind_congr fun r => ?_
  dsimp only
  by_cases hskip : (check || o.stdout) = true
  · rw [if_pos hskip, if_pos hskip, pure_bind, pure_bind, pure_bind]
    rfl
  · rw [if_neg hskip, if_neg hskip, bind_assoc]
    refine bind_congr fun written => ?_
    rw [pure_bind]
    refine bind_congr fun rest => ?_
    cases written <;> rfl

end Job

/-- Who sees to a file: yet to begin, at work, or at the end of it. -/
inductive Worker where
  | waiting (path : Bytes)
  | working (task : Task (Except Trouble Result))
  | ended (outcome : Except Trouble Result)

namespace Worker

def trouble? : Worker → Option Trouble
  | .ended (.error e) => some e
  | _ => none

def result? : Worker → Option Result
  | .ended (.ok r) => some r
  | _ => none

end Worker

structure Crew where
  workers : List Worker
  world : World

/-- Whose turn it is, and whether it is to go on or to give up. -/
inductive Turn where
  | go (worker : Nat)
  | abandon (worker : Nat)
deriving DecidableEq, Repr

namespace Crew

def start (files : List Bytes) (world : World) : Crew := ⟨files.map .waiting, world⟩

/-- The results in the order of the files, once every worker has come to the end without trouble. -/
def results? (c : Crew) : Option (List Result) := c.workers.mapM Worker.result?

theorem workers_of_results {c : Crew} {results : List Result} (h : c.results? = some results) :
    c.workers = results.map fun r => .ended (.ok r) := by
  obtain ⟨workers, w⟩ := c
  rw [results?] at h
  induction workers generalizing results with
  | nil =>
    cases h
    rfl
  | cons worker workers ih =>
    rw [List.mapM_cons] at h
    obtain ⟨r, hr, h⟩ := Option.bind_eq_some_iff.mp h
    obtain ⟨rest, hrest, h⟩ := Option.bind_eq_some_iff.mp h
    cases h
    have hworker : worker = .ended (.ok r) := by
      rw [Worker.result?.eq_def] at hr
      split at hr
      · cases hr
        rfl
      · cases hr
    rw [List.map_cons, hworker]
    exact congrArg _ (ih hrest)

theorem results_of_workers (results : List Result) (w : World) :
    results? ⟨results.map fun r => .ended (.ok r), w⟩ = some results := by
  rw [results?]
  induction results with
  | nil => rfl
  | cons r results ih =>
    rw [List.map_cons, List.mapM_cons]
    dsimp only at ih
    rw [ih]
    rfl

variable (o : Options) (check : Bool) (log : LogFile)

def turn (c : Crew) : Turn → Crew
  | .go i =>
    match c.workers[i]? with
    | some (.waiting path) => { c with workers := c.workers.set i (.working (job Task.host o check log path)) }
    | some (.working (.done outcome)) => { c with workers := c.workers.set i (.ended outcome) }
    | some (.working (.ask request next)) =>
      let (answer, world) := (request.perform).run c.world
      ⟨c.workers.set i (.working (next answer)), world⟩
    | _ => c
  | .abandon i =>
    match c.workers[i]?, c.workers.findSome? Worker.trouble? with
    | some (.waiting _), some e => { c with workers := c.workers.set i (.ended (.error e)) }
    | _, _ => c

def run (c : Crew) (schedule : List Turn) : Crew := schedule.foldl (turn o check log) c

end Crew

section Within

variable (o : Options) (check : Bool) (log : LogFile) (R : World → World → Prop) (Q : Bytes → Result → World → Prop)

/-- Whatever the others do within `R`, the worker stays within `R` and its file ends as `Q` says, or in trouble. -/
def Worker.Within (path : Bytes) (w : World) (worker : Worker) : Prop :=
  let ends (outcome : Except Trouble Result) (w : World) : Prop := ∀ r, outcome = .ok r → Q path r w
  match worker with
  | .waiting p => p = path ∧ (job Task.host o check log path).Within R ends w
  | .working task => task.Within R ends w
  | .ended outcome => (Task.done outcome).Within R ends w

structure Crew.Within (files : List Bytes) (c : Crew) : Prop where
  length : c.workers.length = files.length
  each : ∀ {i : Nat} {path worker}, files[i]? = some path → c.workers[i]? = some worker →
    Worker.Within o check log R Q path c.world worker

variable {o check log R Q} {files : List Bytes} {c : Crew}

theorem Worker.Within.later (htrans : ∀ a b c, R a b → R b c → R a c) {path : Bytes} {w w' : World} {worker : Worker}
    (h : worker.Within o check log R Q path w) (hw : R w w') : worker.Within o check log R Q path w' := by
  cases worker with
  | waiting p => exact ⟨h.1, h.2.later htrans hw⟩
  | working task => exact Task.Within.later htrans h hw
  | ended outcome => exact Task.Within.later htrans h hw

namespace Crew.Within

theorem start {w : World} (h : ∀ path ∈ files, (job Task.host o check log path).Within R
    (fun outcome w => ∀ r, outcome = .ok r → Q path r w) w) : (Crew.start files w).Within o check log R Q files where
  length := List.length_map _
  each {i path worker} hpath hworker := by
    rw [Crew.start, List.getElem?_map, hpath] at hworker
    cases hworker
    exact ⟨rfl, h path (List.mem_of_getElem? hpath)⟩

theorem set (htrans : ∀ a b c, R a b → R b c → R a c) (h : c.Within o check log R Q files) {w : World} (hw : R c.world w)
    {i : Nat} {x : Worker} (hx : ∀ path, files[i]? = some path → x.Within o check log R Q path w) :
    Crew.Within o check log R Q files ⟨c.workers.set i x, w⟩ where
  length := (List.length_set ..).trans h.length
  each {j path worker} hpath hworker := by
    rw [List.getElem?_set] at hworker
    split at hworker
    next hij =>
      split at hworker
      · cases hworker
        exact hx path (hij ▸ hpath)
      · cases hworker
    next => exact (h.each hpath hworker).later htrans hw

theorem turn (hrefl : ∀ w, R w w) (htrans : ∀ a b c, R a b → R b c → R a c) (h : c.Within o check log R Q files) (t : Turn) :
    R c.world (c.turn o check log t).world ∧ (c.turn o check log t).Within o check log R Q files := by
  have hsame := hrefl c.world
  cases t with
  | go i =>
    rw [Crew.turn]
    split
    next path hi =>
      refine ⟨hsame, h.set htrans hsame fun path' hpath => ?_⟩
      obtain ⟨rfl, hjob⟩ := h.each hpath hi
      exact hjob
    next outcome hi =>
      refine ⟨hsame, h.set htrans hsame fun path hpath => ?_⟩
      have hdone := h.each hpath hi
      exact hdone
    next request next hi =>
      have hi' : i < files.length := h.length ▸ (List.getElem?_eq_some_iff.mp hi).1
      have hstep := h.each (List.getElem?_eq_getElem hi') hi c.world hsame
      refine ⟨hstep.1, h.set htrans hstep.1 fun path hpath => ?_⟩
      have hnext := (h.each hpath hi c.world hsame).2
      exact hnext
    next => exact ⟨hsame, h⟩
  | abandon i =>
    rw [Crew.turn]
    split
    next path e hi he => exact ⟨hsame, h.set htrans hsame fun _ _ _ _ _ hr => (by cases hr)⟩
    next => exact ⟨hsame, h⟩

theorem run (hrefl : ∀ w, R w w) (htrans : ∀ a b c, R a b → R b c → R a c) (h : c.Within o check log R Q files)
    (schedule : List Turn) :
    R c.world (c.run o check log schedule).world ∧ (c.run o check log schedule).Within o check log R Q files := by
  induction schedule generalizing c with
  | nil => exact ⟨hrefl _, h⟩
  | cons t schedule ih =>
    obtain ⟨hturn, hwithin⟩ := h.turn hrefl htrans t
    obtain ⟨hrest, hend⟩ := ih hwithin
    exact ⟨htrans _ _ _ hturn hrest, hend⟩

/-- Once all have come to the end without trouble, every file has ended as promised. -/
theorem results (hrefl : ∀ w, R w w) (h : c.Within o check log R Q files) {results : List Result}
    (hresults : c.results? = some results) : List.Forall₂ (fun path r => Q path r c.world) files results := by
  have hworkers := workers_of_results hresults
  have hlength : files.length = results.length := by rw [← h.length, hworkers, List.length_map]
  refine List.forall₂_iff_get.mpr ⟨hlength, fun i hi hi' => ?_⟩
  have hworker : c.workers[i]? = some (.ended (.ok results[i])) := by
    rw [hworkers, List.getElem?_map, List.getElem?_eq_getElem hi']
    rfl
  exact h.each (List.getElem?_eq_getElem hi) hworker c.world (hrefl _) _ rfl

end Crew.Within

end Within

namespace Crew

variable (o : Options) (check : Bool) (log : LogFile)

theorem run_append (c : Crew) (first second : List Turn) :
    c.run o check log (first ++ second) = (c.run o check log first).run o check log second := List.foldl_append

/-- A worker can finish what it is at before anybody else moves. -/
theorem run_task (task : Task (Except Trouble Result)) {c : Crew} {i : Nat} (hi : c.workers[i]? = some (.working task)) :
    ∃ schedule, c.run o check log schedule =
      ⟨c.workers.set i (.ended (task.run.run c.world).1), (task.run.run c.world).2⟩ := by
  induction task generalizing c with
  | done outcome =>
    refine ⟨[.go i], ?_⟩
    change c.turn o check log (.go i) = _
    rw [turn, hi]
    rfl
  | ask request next ih =>
    have hlt := (List.getElem?_eq_some_iff.mp hi).1
    have hturn : c.turn o check log (.go i) =
        ⟨c.workers.set i (.working (next (request.perform.run c.world).1)), (request.perform.run c.world).2⟩ := by
      rw [turn, hi]
      rfl
    obtain ⟨schedule, hrun⟩ := ih (request.perform.run c.world).1
      (c := ⟨c.workers.set i (.working (next (request.perform.run c.world).1)), (request.perform.run c.world).2⟩)
      (List.getElem?_set_self hlt)
    refine ⟨.go i :: schedule, ?_⟩
    rw [List.set_set] at hrun
    rw [run, List.foldl_cons, hturn]
    exact hrun

end Crew

theorem log_run (file : LogFile) (lines : List Bytes) : (log Task.host file lines).run = log World.host file lines := by
  cases file with
  | none => rfl
  | some path => rfl

variable (o : Options) (check : Bool) (log : LogFile)

theorem compileFile_run (path : Bytes) : (compileFile Task.host o log path).run = compileFile World.host o log path := by
  rw [compileFile, compileFile, Task.run_bind, log_run]
  refine bind_congr fun _ => ?_
  dsimp only
  rw [Task.run_bind]
  refine bind_congr fun data => ?_
  cases data with
  | error e => rfl
  | ok data =>
    dsimp only
    rw [Task.run_bind, log_run]
    rfl

theorem writePage_run (output : Bytes) (page : Compiled) :
    (writePage Task.host o output page).run = writePage World.host o output page := by
  rw [writePage, writePage, Task.run_bind]
  refine bind_congr fun written => ?_
  cases written with
  | error e => rfl
  | ok _ =>
    dsimp only
    split
    · rw [Task.run_bind]
      refine bind_congr fun written => ?_
      cases written <;> rfl
    · rfl

theorem writeResult_run (r : Result) : (writeResult Task.host o log r).run = writeResult World.host o log r := by
  rw [writeResult, writeResult]
  split
  · rfl
  · rw [Task.run_bind, writePage_run]
    refine bind_congr fun written => ?_
    cases written with
    | error e => rfl
    | ok _ =>
      dsimp only
      rw [Task.run_bind, log_run]
      rfl

theorem job_run (path : Bytes) : (job Task.host o check log path).run = job World.host o check log path := by
  rw [job, job, Task.run_bind, compileFile_run]
  refine bind_congr fun r => ?_
  dsimp only
  split
  · rfl
  · rw [Task.run_bind, writeResult_run]
    rfl

/-- Compiling the files in order is one of the orders in which a crew can go about it. -/
theorem compileAll_scheduled {files : List Bytes} {w w' : World} {results : List Result}
    (h : (compileAll World.host o check log files).run w = (.ok results, w')) :
    ∃ schedule, (Crew.start files w).run o check log schedule = ⟨results.map fun r => .ended (.ok r), w'⟩ := by
  suffices hrest : ∀ before : List Worker, ∃ schedule,
      Crew.run o check log ⟨before ++ files.map .waiting, w⟩ schedule =
        ⟨before ++ results.map fun r => .ended (.ok r), w'⟩ from
    hrest []
  induction files generalizing w w' results with
  | nil =>
    cases h
    exact fun before => ⟨[], rfl⟩
  | cons path more ih =>
    intro before
    obtain ⟨first, w₁, hfirst⟩ : ∃ first w₁, (job World.host o check log path).run w = (first, w₁) := ⟨_, _, rfl⟩
    obtain ⟨rest, w₂, hmore⟩ : ∃ rest w₂, (compileAll World.host o check log more).run w₁ = (rest, w₂) := ⟨_, _, rfl⟩
    have hall : (compileAll World.host o check log (path :: more)).run w =
        (first.bind fun r => rest.map (r :: ·), w₂) := by
      rw [compileAll_cons, StateT.run_bind, hfirst]
      change (compileAll World.host o check log more >>= fun rest => pure (first.bind fun r => rest.map (r :: ·))).run w₁ = _
      rw [StateT.run_bind, hmore]
      rfl
    rw [hall] at h
    obtain ⟨r, rfl⟩ : ∃ r, first = .ok r := by
      cases first with
      | error e => cases h
      | ok r => exact ⟨r, rfl⟩
    obtain ⟨results', rfl⟩ : ∃ results', rest = .ok results' := by
      cases rest with
      | error e => cases h
      | ok results' => exact ⟨results', rfl⟩
    cases h
    -- The first worker begins, comes to its end, and the others go on as they would without it.
    have hbegin : Crew.turn o check log ⟨before ++ (path :: more).map .waiting, w⟩ (.go before.length) =
        ⟨before ++ .working (job Task.host o check log path) :: more.map .waiting, w⟩ := by
      rw [Crew.turn]
      simp
    obtain ⟨working, hworking⟩ := Crew.run_task o check log (job Task.host o check log path)
      (c := ⟨before ++ .working (job Task.host o check log path) :: more.map .waiting, w⟩) (i := before.length) (by simp)
    obtain ⟨schedule, hschedule⟩ := ih hmore (before ++ [.ended (.ok r)])
    refine ⟨.go before.length :: (working ++ schedule), ?_⟩
    rw [Crew.run, List.foldl_cons, hbegin]
    change Crew.run o check log _ _ = _
    rw [Crew.run_append, hworking, job_run, hfirst]
    simpa using hschedule

end Stencil.Run
