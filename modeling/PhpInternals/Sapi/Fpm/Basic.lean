import PhpInternals.Found.HeadList
import PhpInternals.Found.StateSpec

/-!
# The master process of FPM

`sapi/fpm/fpm/fpm_children.c` and `fpm_process_ctl.c`: how the master starts and buries the workers
of its pools.

What workers write to the scoreboard in shared memory is data of an event as well: the master may
read anything there.
-/

namespace PhpInternals.Sapi.Fpm

open Found
open Function (update)

/-! ## State -/

/-- Source: `PM_STYLE_STATIC`, `PM_STYLE_DYNAMIC` and `PM_STYLE_ONDEMAND`. -/
inductive PmStyle where
  | static
  | dynamic
  | ondemand
  deriving DecidableEq

/-- The settings of a pool. `fpm_conf_process_all_pools` accepts only positive values of
`pm.max_children`. Source: `fpm_conf.h` `struct fpm_worker_pool_config_s`. -/
structure PoolConfig where
  pm : PmStyle
  pmMaxChildren : ℕ
  pmStartServers : ℤ
  pmMinSpareServers : ℤ
  pmMaxSpareServers : ℤ
  pmProcessIdleTimeout : ℤ

/-- The slots of a pool, and the one that is supposed to be free. Source: `fpm_scoreboard.h` `struct
fpm_scoreboard_s`. -/
structure Scoreboard where
  nprocs : ℕ
  used : ℕ → Bool
  freeProc : ℕ

/-- Source: `fpm_children.h` `struct fpm_child_s`. -/
structure Child where
  pid : ℤ
  started : ℤ
  idleKill : Bool
  wp : ℕ
  scoreboardI : ℕ

/-- Source: `fpm_worker_pool.h` `struct fpm_worker_pool_s`. -/
structure Pool where
  config : PoolConfig
  children : ℕ
  runningChildren : ℤ
  idleSpawnRate : ℤ
  warnMaxChildren : Bool
  scoreboard : Scoreboard
  socketEventSet : Bool

/-- Source: `FPM_PCTL_STATE_*`. -/
inductive PctlState where
  | normal
  | reloading
  | terminating
  | finishing
  deriving DecidableEq

/-- The signals the master sends. Source: `fpm_pctl_action_next`. -/
inductive Signal where
  | quit
  | term
  | kill
  deriving DecidableEq

/-- The globals of the master and the memory they refer to. Pools and workers are named by
addresses, with 0 for null; `allocated` is the last address a worker was given. Source: `fpm.h`
`struct fpm_globals_s`, `fpm_children.c`, `fpm_process_ctl.c`. -/
structure Master where
  allPools : List ℕ
  pool : ℕ → Pool
  child : ℕ → Child
  links : Links ℕ
  allocated : ℕ
  runningChildren : ℤ
  processMax : ℤ
  state : PctlState
  signalSent : Option Signal
  warned : Bool
  lastFaults : Option (ℕ → ℤ)
  fault : ℕ
  emergencyRestartThreshold : ℕ
  emergencyRestartInterval : ℤ

/-- How the master stops: it executes itself again, or it exits. `endless` is a loop over a list of
workers that does not end. Source: `fpm_pctl_exec`, `fpm_pctl_exit`. -/
inductive Stop where
  | exec
  | exit
  | endless
  deriving DecidableEq

abbrev MasterM := StateT Master (Except Stop)

def Master.setPool (s : Master) (wp : ℕ) (p : Pool) : Master :=
  { s with pool := update s.pool wp p }

@[simp] lemma Master.setPool_pool (s : Master) (wp : ℕ) (p : Pool) :
    (s.setPool wp p).pool = update s.pool wp p := rfl

/-! ## Scoreboard -/

/-- Source: `fpm_scoreboard_proc_free`. -/
def fpmScoreboardProcFree (scoreboard : Scoreboard) (childIndex : ℕ) : Scoreboard :=
  if scoreboard.nprocs ≤ childIndex then scoreboard
  else { scoreboard with
    used := update scoreboard.used childIndex false
    freeProc := childIndex }

/-- Source: `fpm_scoreboard_proc_alloc`. -/
def fpmScoreboardProcAlloc (scoreboard : Scoreboard) : Option (Scoreboard × ℕ) :=
  -- first try the slot which is supposed to be free
  let slot :=
    if scoreboard.freeProc < scoreboard.nprocs ∧ scoreboard.used scoreboard.freeProc = false then
      some scoreboard.freeProc
    else (List.range scoreboard.nprocs).find? fun i => !scoreboard.used i
  slot.map fun i =>
    ({ scoreboard with
      used := update scoreboard.used i true
      freeProc := if scoreboard.nprocs ≤ i + 1 then 0 else i + 1 }, i)

/-! ## Workers -/

/-- Source: `fpm_child_link`. -/
def fpmChildLink (s : Master) (child : ℕ) : Master :=
  let wp := (s.child child).wp
  let p := s.pool wp
  { s with
    pool := update s.pool wp
      { p with runningChildren := p.runningChildren + 1, children := child }
    runningChildren := s.runningChildren + 1
    links := s.links.pushHead 0 p.children child }

/-- Source: `fpm_child_unlink`. -/
def fpmChildUnlink (s : Master) (child : ℕ) : Master :=
  let wp := (s.child child).wp
  let p := s.pool wp
  let r := s.links.removeCell 0 p.children child
  { s with
    pool := update s.pool wp
      { p with runningChildren := p.runningChildren - 1, children := r.1 }
    runningChildren := s.runningChildren - 1
    links := r.2 }

/-- The workers of a pool, in the order of its list. Source: `fpm_children.c`, `fpm_process_ctl.c`.
-/
def childrenOf (wp : ℕ) : MasterM (List ℕ) := do
  let s ← get
  match collect 0 s.links.next s.allocated (s.pool wp).children with
  | some l => pure l
  | none => throw .endless

/-- The first worker with `pid`, pool by pool. -/
def fpmChildFind (pid : ℤ) : List ℕ → MasterM (Option ℕ)
  | [] => pure none
  | wp :: pools => do
    let l ← childrenOf wp
    let s ← get
    match l.find? fun c => (s.child c).pid == pid with
    | some c => pure (some c)
    | none => fpmChildFind pid pools

/-! ## Forking -/

/-- How the system calls for a new worker end: no memory or no pipes, `fork` fails, or it returns a
pid. Source: `fpm_children_make`. -/
inductive Spawn where
  | noResources
  | forkFails
  | forked (pid started : ℤ)

/-- `fpm_pctl_can_spawn_children`. -/
def Master.canSpawnChildren (s : Master) : Bool := s.state == .normal

/-- The condition of the loop. -/
def Master.mayFork (s : Master) (wp : ℕ) (max : ℤ) : Prop :=
  s.canSpawnChildren = true ∧ (s.pool wp).runningChildren < max ∧
    (s.processMax < 1 ∨ s.runningChildren < s.processMax)

instance (s : Master) (wp : ℕ) (max : ℤ) : Decidable (s.mayFork wp max) :=
  inferInstanceAs (Decidable (_ ∧ _ ∧ _))

/-- The parent's side of a successful `fork`. Source: `fpm_children_make`,
`fpm_parent_resources_use`. -/
def Master.addChild (s : Master) (wp : ℕ) (scoreboardI : ℕ) (pid started : ℤ) : Master :=
  let child := s.allocated + 1
  fpmChildLink { s with
    allocated := child
    child := update s.child child ⟨pid, started, false, wp, scoreboardI⟩ } child

/-- One round of the loop; `false` if it ends with an error. Source: `fpm_children_make`,
`fpm_resources_prepare`, `fpm_resources_discard`. -/
def Master.forkChild (s : Master) (wp : ℕ) (spawn : Spawn) : Master × Bool :=
  let s := { s with warned := false }
  let p := s.pool wp
  match spawn with
  | .noResources => (s, false)
  | .forkFails =>
    match fpmScoreboardProcAlloc p.scoreboard with
    | none => (s, false)
    | some (scoreboard, i) =>
      (s.setPool wp { p with scoreboard := fpmScoreboardProcFree scoreboard i }, false)
  | .forked pid started =>
    match fpmScoreboardProcAlloc p.scoreboard with
    | none => (s, false)
    | some (scoreboard, i) =>
      ((s.setPool wp { p with scoreboard := scoreboard }).addChild wp i pid started, true)

/-- The loop over `fork`, in the parent; `false` if it ends with an error. Behind the end of the
list there is no memory for a worker. Source: `fpm_children_make`. -/
def forkLoop (wp : ℕ) (max : ℤ) : List Spawn → Master → Master × Bool
  | [], s => if s.mayFork wp max then s.forkChild wp .noResources else (s, true)
  | spawn :: spawns, s =>
    if s.mayFork wp max then
      let r := s.forkChild wp spawn
      if r.2 then forkLoop wp max spawns r.1 else (r.1, false)
    else (s, true)

/-- `max`. Source: `fpm_children_make`. -/
def Pool.makeMax (p : Pool) (inEventLoop : Bool) (nbToSpawn : ℤ) : ℤ :=
  match p.config.pm with
  | .dynamic => if inEventLoop then p.runningChildren + nbToSpawn else p.config.pmStartServers
  | .ondemand => if inEventLoop then p.runningChildren + nbToSpawn else 0
  | .static => p.config.pmMaxChildren

/-- The new state, and whether the result is 1. -/
def fpmChildrenMake (s : Master) (wp : ℕ) (inEventLoop : Bool) (nbToSpawn : ℤ)
    (spawns : List Spawn) :
    Master × Bool :=
  let max := (s.pool wp).makeMax inEventLoop nbToSpawn
  let r := forkLoop wp max spawns s
  if r.2 ∧ r.1.warned = false ∧ 0 < r.1.processMax ∧ r.1.processMax ≤ r.1.runningChildren ∧
      (r.1.pool wp).runningChildren < max then
    ({ r.1 with warned := true }, true)
  else r

/-! ## Process control -/

/-- Source: `fpm_pctl_action_last`. -/
def fpmPctlActionLast : MasterM Unit := do
  let s ← get
  match s.state with
  | .normal => pure ()
  | .reloading => throw .exec
  | .finishing => throw .exit
  | .terminating => throw .exit

/-- The signal that is sent next: workers that did not follow the last one get a stronger one.
Source: `fpm_pctl_action_next`. -/
def Master.nextSignal (s : Master) : Signal :=
  match s.signalSent with
  | none => if s.state = .terminating then .term else .quit
  | some .quit => .term
  | some _ => .kill

/-- `if (!fpm_globals.running_children) fpm_pctl_action_last();`. -/
def lastIfNone : MasterM Unit := do
  let s ← get
  if s.runningChildren = 0 then fpmPctlActionLast else pure ()

/-- Every worker is sent the signal. -/
def fpmPctlActionNext : MasterM Unit := do
  lastIfNone
  modify fun s => { s with signalSent := some s.nextSignal }

/-- Which states can be overridden. Source: `fpm_pctl`. -/
def PctlState.overriddenBy : PctlState → PctlState → Bool
  | .normal, _ => true
  | .reloading, new => new == .finishing || new == .terminating
  | .finishing, new => new == .terminating
  | .terminating, _ => false

/-- `fpm_pctl(new_state, FPM_PCTL_ACTION_SET)`. -/
def fpmPctl (newState : PctlState) : MasterM Unit := do
  let s ← get
  if s.state = newState then pure ()
  else if s.state.overriddenBy newState then do
    set { s with signalSent := none, state := newState }
    fpmPctlActionNext
  else pure ()

/-- Source: `fpm_pctl_child_exited`. -/
def fpmPctlChildExited : MasterM Unit := do
  let s ← get
  if s.state = .normal then pure () else lastIfNone

/-! ## Burying -/

/-- What `waitpid` says of a process. Source: `fpm_children_bury`. -/
inductive WaitStatus where
  | exited (code : ℕ)
  | signaled (sig : ℕ)
  | stopped

/-- The signal that ends an idle worker. -/
def sigQuit : ℕ := 3

def sigBus : ℕ := 7

def sigSegv : ℕ := 11

/-- `WTERMSIG`. Source: `fpm_children_bury`. -/
def WaitStatus.termSig : WaitStatus → ℕ
  | .signaled sig => sig
  | _ => 0

/-- A result of `waitpid`, with the time, and the system calls for a worker in its place. Source:
`fpm_children_bury`. -/
structure Buried where
  pid : ℤ
  status : WaitStatus
  now : ℤ
  spawns : List Spawn

/-- Whether another worker is started; not if this one was killed because it was idle. Source:
`fpm_children_bury`. -/
def WaitStatus.restartChild (status : WaitStatus) (idleKill : Bool) : Bool :=
  match status with
  | .signaled sig => !(idleKill && sig == sigQuit)
  | _ => !idleKill

/-- `last_faults[fault++] = now`, and whether so many workers crashed in a short time. Source:
`fpm_children_bury`. -/
def Master.noteFault (s : Master) (faults : ℕ → ℤ) (now : ℤ) : Master × Bool :=
  let faults := update faults s.fault now
  let fault := if s.fault + 1 = s.emergencyRestartThreshold then 0 else s.fault + 1
  ({ s with lastFaults := some faults, fault := fault },
    (List.range s.emergencyRestartThreshold).all fun i =>
      decide (now - faults i ≤ s.emergencyRestartInterval))

/-- A crash is noted, and the master reloads if there were too many. Source: `fpm_children_bury`. -/
def emergencyRestart (status : WaitStatus) (now : ℤ) : MasterM Unit := do
  let s ← get
  match s.lastFaults with
  | none => pure ()
  | some faults =>
    if status.termSig = sigSegv ∨ status.termSig = sigBus then do
      let r := s.noteFault faults now
      set r.1
      if r.2 then fpmPctl .reloading else pure ()
    else pure ()

/-- The worker leaves its pool and its slot. Source: `fpm_children_bury`. -/
def Master.removeChild (s : Master) (child : ℕ) : Master :=
  let c := s.child child
  let s := fpmChildUnlink s child
  let p := s.pool c.wp
  s.setPool c.wp { p with scoreboard := fpmScoreboardProcFree p.scoreboard c.scoreboardI }

/-- A worker that exited. Source: `fpm_children_bury`. -/
def buryChild (child : ℕ) (b : Buried) : MasterM Unit := do
  let s ← get
  let c := s.child child
  set (s.removeChild child)
  fpmPctlChildExited
  emergencyRestart b.status b.now
  modify fun s =>
    if b.status.restartChild c.idleKill then (fpmChildrenMake s c.wp true 1 b.spawns).1 else s

/-- One round of the loop over `waitpid`. Source: `fpm_children_bury`. -/
def buryRound (b : Buried) : MasterM Unit := do
  let s ← get
  let child ← fpmChildFind b.pid s.allPools
  match b.status, child with
  -- stopped for tracing
  | .stopped, _ => pure ()
  | _, some child => buryChild child b
  | _, none => pure ()

/-- Source: `fpm_children_bury`. -/
def fpmChildrenBury : List Buried → MasterM Unit
  | [] => pure ()
  | b :: bs => do
    buryRound b
    fpmChildrenBury bs

/-! ## Maintenance -/

/-- The bound on the workers that are started in one tick. -/
def fpmMaxSpawnRate : ℤ := 32

/-- What the master reads of the workers of a pool, the time, and the system calls for new workers.
Source: `fpm_request.c` `fpm_request_is_idle`, `fpm_request_last_activity`. -/
structure View where
  isIdle : ℕ → Bool
  lastActivity : ℕ → ℤ
  now : ℤ
  spawns : List Spawn

/-- `last_idle_child` and `idle` after one more worker. Source:
`fpm_pctl_perform_idle_server_maintenance`. -/
def Master.countIdle (s : Master) (v : View) : Option ℕ × ℤ → ℕ → Option ℕ × ℤ
  | (last, idle), c =>
    if v.isIdle c then
      match last with
      | none => (some c, idle + 1)
      | some d => (if (s.child c).started < (s.child d).started then some c else some d, idle + 1)
    else (last, idle)

/-- `child->idle_kill = 1`, and the worker is sent `SIGQUIT`. -/
def Master.killIdle (s : Master) (child : ℕ) : Master :=
  { s with child := update s.child child { s.child child with idleKill := true } }

/-- `fpm_pctl_perform_idle_server_maintenance`. -/
def Master.setSpawnRate (s : Master) (wp : ℕ) (rate : ℤ) : Master :=
  s.setPool wp { s.pool wp with idleSpawnRate := rate }

def Master.setWarnMaxChildren (s : Master) (wp : ℕ) (warn : Bool) : Master :=
  s.setPool wp { s.pool wp with warnMaxChildren := warn }

/-- `children_to_fork`. Source: `fpm_pctl_perform_idle_server_maintenance`. -/
def Pool.childrenToFork (p : Pool) (idle : ℤ) : ℤ :=
  min (min p.idleSpawnRate (p.config.pmMinSpareServers - idle))
    (p.config.pmMaxChildren - p.runningChildren)

/-- A pool with `PM_STYLE_DYNAMIC`. Source: `fpm_pctl_perform_idle_server_maintenance`. -/
def Master.maintainDynamic (s : Master) (wp : ℕ) (v : View) (last : Option ℕ) (idle : ℤ) : Master :=
  let p := s.pool wp
  if p.config.pmMaxSpareServers < idle ∧ last ≠ none then
    (last.elim s s.killIdle).setSpawnRate wp 1
  else if idle < p.config.pmMinSpareServers then
    if p.config.pmMaxChildren ≤ p.runningChildren then
      (s.setWarnMaxChildren wp true).setSpawnRate wp 1
    else if p.childrenToFork idle ≤ 0 then (s.setWarnMaxChildren wp true).setSpawnRate wp 1
    else
      let s := s.setWarnMaxChildren wp false
      let s := (fpmChildrenMake s wp true (p.childrenToFork idle) v.spawns).1
      -- double the spawn rate for the next iteration
      if (s.pool wp).idleSpawnRate < fpmMaxSpawnRate then
        s.setSpawnRate wp ((s.pool wp).idleSpawnRate * 2)
      else s
  else s.setSpawnRate wp 1

/-- What is done for a pool once its idle workers are counted. Source:
`fpm_pctl_perform_idle_server_maintenance`. -/
def Master.maintain (s : Master) (wp : ℕ) (v : View) (last : Option ℕ) (idle : ℤ) : Master :=
  match (s.pool wp).config.pm with
  | .ondemand =>
    match last with
    | none => s
    | some c =>
      if v.lastActivity c < v.now - (s.pool wp).config.pmProcessIdleTimeout then s.killIdle c else s
  | .static => s
  | .dynamic => s.maintainDynamic wp v last idle

/-- The loop over the pools. -/
def fpmPctlPerformIdleServerMaintenance (v : ℕ → View) : List ℕ → MasterM Unit
  | [] => pure ()
  | wp :: pools => do
    let l ← childrenOf wp
    modify fun s =>
      let r := l.foldl (s.countIdle (v wp)) (none, 0)
      s.maintain wp (v wp) r.1 r.2
    fpmPctlPerformIdleServerMaintenance v pools

/-- The timer of the maintenance. No worker is started while the master stops or reloads. -/
def fpmPctlPerformIdleServerMaintenanceHeartbeat (v : ℕ → View) : MasterM Unit := do
  let s ← get
  if s.canSpawnChildren then fpmPctlPerformIdleServerMaintenance v s.allPools else pure ()

/-! ## Connections -/

/-- Source: `fpm_pctl_on_socket_accept`. -/
def fpmPctlOnSocketAccept (wp : ℕ) (v : View) : MasterM Unit := do
  modify fun s => s.setPool wp { s.pool wp with socketEventSet := false }
  let s ← get
  if (s.pool wp).config.pmMaxChildren ≤ (s.pool wp).runningChildren then
    set (s.setWarnMaxChildren wp true)
  else
    let l ← childrenOf wp
    if l.any v.isIdle then pure ()
    else set (fpmChildrenMake (s.setWarnMaxChildren wp false) wp true 1 v.spawns).1

/-! ## Start-up -/

/-- The calls to the system at the start of a pool: whether there is memory for its event, and those
for its workers. Source: `fpm_children_create_initial`. -/
structure Start where
  ondemandEvent : Bool
  spawns : List Spawn

/-- The new state, and whether the result is 1. -/
def fpmChildrenCreateInitial (s : Master) (wp : ℕ) (v : Start) : Master × Bool :=
  if (s.pool wp).config.pm = .ondemand then
    if v.ondemandEvent then (s.setPool wp { s.pool wp with socketEventSet := true }, true)
      else (s, true)
  else fpmChildrenMake s wp false 0 v.spawns

/-- The loop over the pools. With an error the master terminates. -/
def fpmRun (v : ℕ → Start) : List ℕ → MasterM Unit
  | [] => pure ()
  | wp :: pools => do
    let s ← get
    let r := fpmChildrenCreateInitial s wp (v wp)
    set r.1
    if r.2 then fpmRun v pools else fpmPctl .terminating

/-! ## Runs -/

/-- What the master handles: start-up, a maintenance tick, a connection for a pool without an idle
worker, exits of workers, a signal to the master, and the timer of `fpm_pctl`. Source: `fpm.c`,
`fpm_events.c`, `fpm_process_ctl.c`. -/
inductive Event where
  | run (v : ℕ → Start)
  | maintenance (v : ℕ → View)
  | accept (wp : ℕ) (v : View)
  | exits (bs : List Buried)
  | signal (newState : PctlState)
  | timeout

/-- The function that the event loop calls. Source: `fpm.c`, `fpm_events.c`, `fpm_process_ctl.c`. -/
def handle : Event → MasterM Unit
  | .run v => do
    let s ← get
    fpmRun v s.allPools
  | .maintenance v => fpmPctlPerformIdleServerMaintenanceHeartbeat v
  | .accept wp v => fpmPctlOnSocketAccept wp v
  | .exits bs => fpmChildrenBury bs
  | .signal newState => fpmPctl newState
  | .timeout => fpmPctlActionNext

/-- The pools an event names. Source: `fpm_pctl_on_socket_accept`. -/
def Event.pools : Event → List ℕ
  | .accept wp _ => [wp]
  | _ => []

/-- A pool without workers. Source: `fpm_worker_pool.c` `fpm_worker_pool_alloc`. -/
def Pool.new (config : PoolConfig) : Pool where
  config := config
  children := 0
  runningChildren := 0
  idleSpawnRate := 1
  warnMaxChildren := false
  scoreboard := ⟨config.pmMaxChildren, fun _ => false, 0⟩
  socketEventSet := false

/-- The master before it starts workers, for the settings of its pools, `process.max` and
`emergency_restart_*`. Source: `fpm.c` `fpm_init`, `fpm_children.c` `fpm_children_init_main`. -/
def Master.init (configs : List PoolConfig) (processMax : ℤ) (threshold : ℕ) (interval : ℤ) :
    Master where
  allPools := List.range configs.length
  pool wp := Pool.new (configs.getD wp ⟨.static, 0, 0, 0, 0, 0⟩)
  child _ := ⟨0, 0, false, 0, 0⟩
  links := ⟨fun _ => 0, fun _ => 0⟩
  allocated := 0
  runningChildren := 0
  processMax := processMax
  state := .normal
  signalSent := none
  warned := false
  lastFaults := if threshold ≠ 0 ∧ interval ≠ 0 then some fun _ => 0 else none
  fault := 0
  emergencyRestartThreshold := threshold
  emergencyRestartInterval := interval

/-- The states between events. Source: `fpm_events.c` `fpm_event_loop`. -/
inductive Reaches (s₀ : Master) : Master → Prop
  | start : Reaches s₀ s₀
  | step {s s' : Master} {e : Event} (h : Reaches s₀ s) (hpools : ∀ wp ∈ e.pools, wp ∈ s.allPools)
      (hstep : handle e s = .ok ((), s')) : Reaches s₀ s'

end PhpInternals.Sapi.Fpm
