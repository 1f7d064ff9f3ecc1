import PhpInternals.Sapi.Fpm.Fleet

/-!
# The number of workers

Every handler keeps the lists of workers and the bounds, and none of them loops endlessly.
-/

namespace PhpInternals.Sapi.Fpm

open Master Function Found List

section
variable {configs : List PoolConfig} {processMax : ℤ} {kids : ℕ → List ℕ} {s s' : Master} {wp c : ℕ}

/-- A handler keeps the lists and the bounds, or it ends the process. -/
def Keeps {β : Type} (configs : List PoolConfig) (processMax : ℤ) (x : MasterM β) (s : Master) :
    Prop :=
  Yields (· ≠ Stop.endless) x s fun _ s' => s'.Ok configs processMax

/-! ## Loops over workers -/

section

variable (h : Fleet configs processMax kids s)
include h

lemma Fleet.length_le (hwp : wp < configs.length) : (kids wp).length ≤ s.allocated := by
  have hn := (h.list wp hwp).nodup
  have hsb : ∀ c ∈ kids wp, c ∈ (range (s.allocated + 1)).erase 0 := by
    intro c hc
    rw [List.Nodup.mem_erase_iff nodup_range, mem_range]
    exact ⟨h.ne_zero hwp hc, Nat.lt_succ_of_le (h.allocated wp hwp c hc)⟩
  have hle := (subperm_of_subset (nodup_cons.mp hn).2 hsb).length_le
  rwa [length_erase_of_mem (mem_range.mpr (Nat.succ_pos _)), length_range] at hle

variable {E : Stop → Prop}

/-- **The loop over the workers of a pool ends.** -/
theorem childrenOf_yields (hwp : wp < configs.length) :
    Yields E (childrenOf wp) s fun l s' => l = kids wp ∧ s' = s := by
  refine .get_bind ?_
  rw [(h.list wp hwp).nullList.collect_eq (h.length_le hwp)]
  exact .pure ⟨rfl, rfl⟩

lemma fpmChildFind_yields (pid : ℤ) {pools : List ℕ} (hp : ∀ wp ∈ pools, wp < configs.length) :
    Yields E (fpmChildFind pid pools) s fun r s' =>
      s' = s ∧ ∀ c, r = some c → ∃ wp < configs.length, c ∈ kids wp := by
  induction pools with
  | nil => exact .pure ⟨rfl, nofun⟩
  | cons wp pools ih =>
    have hwp := hp wp mem_cons_self
    refine (childrenOf_yields h hwp).bind ?_
    rintro _ _ ⟨rfl, rfl⟩
    refine .get_bind ?_
    cases hf : (kids wp).find? _ with
    | none => exact ih fun w hw => hp w (mem_cons_of_mem _ hw)
    | some c =>
      refine .pure ⟨rfl, ?_⟩
      rintro _ ⟨⟩
      exact ⟨wp, hwp, mem_of_find?_eq_some hf⟩

end

/-! ## Process control -/

lemma Master.Ok.control (h : s.Ok configs processMax) (state : PctlState) (sig : Option Signal) :
    ({ s with state := state, signalSent := sig } : Master).Ok configs processMax :=
  h.imp fun _ h => h.tune rfl rfl rfl rfl rfl (fun _ => rfl) fun _ => ⟨rfl, rfl, rfl⟩

lemma lastIfNone_yields (s : Master) :
    Yields (· ≠ Stop.endless) lastIfNone s fun _ s' => s' = s := by
  refine .get_bind (.ite (fun _ => .get_bind ?_) fun _ => .pure rfl)
  cases s.state with
  | normal => exact .pure rfl
  | reloading | terminating | finishing => exact .throw (by decide)

variable {P : Master → Prop}

lemma fpmPctlActionNext_yields (h : P s)
    (hP : ∀ s state sig, P s → P { s with state := state, signalSent := sig }) :
    Yields (· ≠ Stop.endless) fpmPctlActionNext s fun _ s' => P s' := by
  refine (lastIfNone_yields s).bind ?_
  rintro _ _ rfl
  exact .modify (hP _ _ _ h)

lemma fpmPctl_yields (h : P s)
    (hP : ∀ s state sig, P s → P { s with state := state, signalSent := sig })
    (newState : PctlState) :
    Yields (· ≠ Stop.endless) (fpmPctl newState) s fun _ s' => P s' := by
  refine .get_bind (.ite (fun _ => .pure h) fun _ => .ite (fun _ => .set_bind ?_) fun _ => .pure h)
  exact fpmPctlActionNext_yields (hP _ _ _ h) hP

/-! ## Burying -/

/-- A pool with room for one more worker. -/
def Master.OkWithRoom (configs : List PoolConfig) (processMax : ℤ) (wp : ℕ) (s : Master) : Prop :=
  s.Ok configs processMax ∧ (s.pool wp).runningChildren + 1 ≤ (s.pool wp).config.pmMaxChildren

lemma emergencyRestart_yields (h : s.OkWithRoom configs processMax wp)
    (status : WaitStatus) (now : ℤ) :
    Yields (· ≠ Stop.endless) (emergencyRestart status now) s fun _ s' =>
      s'.OkWithRoom configs processMax wp := by
  refine .get_bind ?_
  cases s.lastFaults with
  | none => exact .pure h
  | some faults =>
    refine .ite (fun _ => .set_bind ?_) fun _ => .pure h
    have hn : (s.noteFault faults now).1.OkWithRoom configs processMax wp :=
      ⟨h.1.imp fun _ h => h.tune rfl rfl rfl rfl rfl (fun _ => rfl) fun _ => ⟨rfl, rfl, rfl⟩, h.2⟩
    exact .ite (fun _ => fpmPctl_yields hn (fun _ _ _ h => ⟨h.1.control _ _, h.2⟩) _)
      fun _ => .pure hn

/-- **A worker exits**, and another one may take its place. -/
theorem buryChild_yields (h : Fleet configs processMax kids s) (hwp : wp < configs.length)
    (hc : c ∈ kids wp) (b : Buried) : Keeps configs processMax (buryChild c b) s := by
  have ho := h.owner wp hwp c hc
  refine .get_bind (.set_bind ?_)
  obtain ⟨kids', hr, hrn⟩ := h.removeChild hwp hc
  have hrm : (s.removeChild c).OkWithRoom configs processMax wp := by
    refine ⟨⟨kids', hr⟩, ?_⟩
    have hcn := Option.some.inj ((hr.config wp hwp).symm.trans (h.config wp hwp))
    rw [hrn, hcn]
    exact (sub_add_cancel _ _).trans_le (h.bound wp hwp)
  have het : Yields (· ≠ Stop.endless) fpmPctlChildExited (s.removeChild c) fun _ s' =>
      s' = s.removeChild c := .get_bind (.ite (fun _ => .pure rfl) fun _ => lastIfNone_yields _)
  refine het.bind ?_
  rintro _ _ rfl
  refine (emergencyRestart_yields hrm b.status b.now).bind fun _ t ht => .modify ?_
  split_ifs
  · rw [ho]
    exact ht.1.make hwp (makeMax_le ht.2) _
  · exact ht.1

lemma buryRound_yields (h : s.Ok configs processMax) (b : Buried) :
    Keeps configs processMax (buryRound b) s := by
  obtain ⟨kids, h⟩ := h
  refine .get_bind ?_
  have hp : ∀ wp ∈ s.allPools, wp < configs.length := by
    rw [h.allPools]
    exact fun wp => mem_range.mp
  refine (fpmChildFind_yields h b.pid hp).bind ?_
  rintro r _ ⟨rfl, hf⟩
  cases r with
  | none => cases b.status <;> exact .pure ⟨kids, h⟩
  | some c =>
    obtain ⟨wp, hwp, hc⟩ := hf c rfl
    cases b.status with
    | stopped => exact .pure ⟨kids, h⟩
    | exited code | signaled sig => exact buryChild_yields h hwp hc b

lemma fpmChildrenBury_yields : ∀ (bs : List Buried) {s : Master}, s.Ok configs processMax →
    Keeps configs processMax (fpmChildrenBury bs) s
  | [], _, h => .pure h
  | b :: bs, _, h => (buryRound_yields h b).bind fun _ _ h => fpmChildrenBury_yields bs h

/-! ## Maintenance -/

section

variable (h : s.Ok configs processMax)
include h

lemma Master.Ok.killIdle (c : ℕ) : (s.killIdle c).Ok configs processMax := by
  refine h.imp fun _ h => h.tune rfl rfl rfl rfl rfl (fun d => ?_) fun _ => ⟨rfl, rfl, rfl⟩
  by_cases heq : d = c
  · simp [Master.killIdle, heq]
  · simp [Master.killIdle, update_of_ne heq]

lemma Master.Ok.setSpawnRate (wp : ℕ) (rate : ℤ) :
    (s.setSpawnRate wp rate).Ok configs processMax := h.imp fun _ h => h.setPool rfl rfl rfl

lemma Master.Ok.setWarnMaxChildren (wp : ℕ) (warn : Bool) :
    (s.setWarnMaxChildren wp warn).Ok configs processMax := h.imp fun _ h => h.setPool rfl rfl rfl

/-- **A pool with `PM_STYLE_DYNAMIC`.** The new workers fit between the running ones and the bound.
-/
theorem Master.Ok.maintainDynamic (hwp : wp < configs.length) (v : View)
    (last : Option ℕ) (idle : ℤ) : (s.maintainDynamic wp v last idle).Ok configs processMax := by
  have hr : (s.pool wp).runningChildren + (s.pool wp).childrenToFork idle ≤
      (s.pool wp).config.pmMaxChildren := by
    have hle : (s.pool wp).childrenToFork idle ≤
        (s.pool wp).config.pmMaxChildren - (s.pool wp).runningChildren := min_le_right _ _
    omega
  have hm : (fpmChildrenMake (s.setWarnMaxChildren wp false) wp true
      ((s.pool wp).childrenToFork idle) v.spawns).1.Ok configs processMax := by
    refine (h.setWarnMaxChildren wp false).make hwp (makeMax_le ?_) _
    simp only [Master.setWarnMaxChildren, Master.setPool_pool, update_self]
    exact hr
  unfold Master.maintainDynamic
  dsimp only
  split_ifs with hs hfw hf hn hrt
  · cases last with
    | none => exact h.setSpawnRate wp 1
    | some c => exact (h.killIdle c).setSpawnRate wp 1
  · exact (h.setWarnMaxChildren wp true).setSpawnRate wp 1
  · exact (h.setWarnMaxChildren wp true).setSpawnRate wp 1
  · exact hm.setSpawnRate wp _
  · exact hm
  · exact h.setSpawnRate wp 1

lemma Master.Ok.maintain (hwp : wp < configs.length) (v : View)
    (last : Option ℕ) (idle : ℤ) : (s.maintain wp v last idle).Ok configs processMax := by
  unfold Master.maintain
  cases (s.pool wp).config.pm with
  | static => exact h
  | dynamic => exact h.maintainDynamic hwp v last idle
  | ondemand =>
    cases last with
    | none => exact h
    | some c =>
      dsimp only
      split_ifs
      · exact h.killIdle c
      · exact h

end

variable {pools : List ℕ}

/-- **A round of maintenance** forks within the limits. -/
lemma maintenance_yields (v : ℕ → View) (hp : ∀ wp ∈ pools, wp < configs.length)
    (h : s.Ok configs processMax) :
    Keeps configs processMax (fpmPctlPerformIdleServerMaintenance v pools) s := by
  induction pools generalizing s with
  | nil => exact .pure h
  | cons wp pools ih =>
    have hwp := hp wp mem_cons_self
    obtain ⟨kids, hf⟩ := h
    refine (childrenOf_yields hf hwp).bind ?_
    rintro _ _ ⟨rfl, rfl⟩
    refine .modify_bind (ih (fun w hw => hp w (mem_cons_of_mem _ hw)) ?_)
    exact Master.Ok.maintain ⟨kids, hf⟩ hwp _ _ _

/-! ## Connections and start-up -/

/-- **A connection without an idle worker.** -/
theorem fpmPctlOnSocketAccept_yields (h : s.Ok configs processMax)
    (hwp : wp < configs.length) (v : View) :
    Keeps configs processMax (fpmPctlOnSocketAccept wp v) s := by
  refine .modify_bind (.get_bind ?_)
  have hev : (s.setPool wp { s.pool wp with socketEventSet := false }).Ok configs processMax :=
    h.imp fun _ h => h.setPool rfl rfl rfl
  generalize s.setPool wp { s.pool wp with socketEventSet := false } = t at hev ⊢
  refine .ite (fun _ => hev.setWarnMaxChildren wp true) fun hr => ?_
  obtain ⟨kids, hf⟩ := hev
  refine (childrenOf_yields hf hwp).bind ?_
  rintro _ _ ⟨rfl, rfl⟩
  refine .ite (fun _ => .pure ⟨kids, hf⟩) fun _ => ?_
  have hw : Master.Ok configs processMax _ :=
    (show Master.Ok configs processMax _ from ⟨kids, hf⟩).setWarnMaxChildren wp false
  refine hw.make hwp (makeMax_le ?_) _
  simp only [setWarnMaxChildren, setPool_pool, update_self]
  omega

lemma fpmRun_yields (hs : ∀ c ∈ configs, c.pmStartServers ≤ c.pmMaxChildren) (v : ℕ → Start)
    (hp : ∀ wp ∈ pools, wp < configs.length) (h : s.Ok configs processMax) :
    Keeps configs processMax (fpmRun v pools) s := by
  induction pools generalizing s with
  | nil => exact .pure h
  | cons wp pools ih =>
    have hwp := hp wp mem_cons_self
    refine .get_bind (.set_bind ?_)
    have hi : (fpmChildrenCreateInitial s wp (v wp)).1.Ok configs processMax := by
      unfold fpmChildrenCreateInitial
      split_ifs
      · exact h.imp fun _ h => h.setPool rfl rfl rfl
      · exact h
      · refine h.make hwp (makeMax_start_le ?_) _
        obtain ⟨kids, hf⟩ := h
        exact hs _ (mem_of_getElem? (hf.config wp hwp))
    exact .ite (fun _ => ih (fun w hw => hp w (mem_cons_of_mem _ hw)) hi)
      fun _ => fpmPctl_yields hi (fun _ _ _ h => h.control _ _) _

/-! ## Runs -/

/-- **Every event keeps the limits.** -/
lemma handle_yields (hs : ∀ c ∈ configs, c.pmStartServers ≤ c.pmMaxChildren)
    (h : s.Ok configs processMax) (e : Event) (hp : ∀ wp ∈ e.pools, wp ∈ s.allPools) :
    Keeps configs processMax (handle e) s := by
  have ha : ∀ wp ∈ s.allPools, wp < configs.length := by
    obtain ⟨kids, hf⟩ := h
    rw [hf.allPools]
    exact fun wp => mem_range.mp
  cases e with
  | run v => exact .get_bind (fpmRun_yields hs v ha h)
  | maintenance v => exact .get_bind (.ite (fun _ => maintenance_yields v ha h) fun _ => .pure h)
  | accept wp v => exact fpmPctlOnSocketAccept_yields h (ha wp (hp wp mem_cons_self)) v
  | exits bs => exact fpmChildrenBury_yields bs h
  | signal newState => exact fpmPctl_yields h (fun _ _ _ h => h.control _ _) newState
  | timeout => exact fpmPctlActionNext_yields h fun _ _ _ h => h.control _ _

lemma Master.init_ok (configs : List PoolConfig) (processMax : ℤ) (threshold : ℕ) (interval : ℤ) :
    (init configs processMax threshold interval).Ok configs processMax := by
  refine ⟨fun _ => [], rfl, fun wp hwp => ?_, rfl, fun _ _ => HeadList.nil, fun _ _ _ hc => ?_,
    fun _ _ _ hc => ?_, fun _ _ => rfl, fun _ _ => Int.natCast_nonneg _, ?_, fun hp => hp.le⟩
  · change _ = some (configs.getD wp _)
    rw [getD_eq_getElem?_getD, getElem?_eq_getElem hwp, Option.getD_some]
  · cases hc
  · cases hc
  · exact (Finset.sum_const_zero).symm

/-- **So does every run.** -/
lemma Reaches.ok {threshold : ℕ} {interval : ℤ}
    (hs : ∀ c ∈ configs, c.pmStartServers ≤ c.pmMaxChildren)
    (h : Reaches (init configs processMax threshold interval) s) : s.Ok configs processMax := by
  induction h with
  | start => exact init_ok configs processMax threshold interval
  | step _ hp hsp ih => exact (handle_yields hs ih _ hp).of_ok hsp

end

/-- **The number of workers**, in every run of start-ups, maintenance ticks, connections, exits and
signals: the counter of a pool is the length of its list and within `pm.max_children`, the global
counter is the sum of those of the pools and within `process.max` if that is set. No handler loops
endlessly. -/
theorem fpm_runningChildren {configs : List PoolConfig} {processMax : ℤ} {threshold : ℕ}
    {interval : ℤ}
    {s : Master} (hstart : ∀ c ∈ configs, c.pmStartServers ≤ c.pmMaxChildren)
    (h : Reaches (init configs processMax threshold interval) s) :
    (∀ (wp : ℕ) (hwp : wp < configs.length), ∃ children,
      HeadList 0 s.links (s.pool wp).children children ∧
      (s.pool wp).runningChildren = children.length ∧
      (s.pool wp).runningChildren ≤ configs[wp].pmMaxChildren) ∧
    s.runningChildren = ∑ wp ∈ Finset.range configs.length, (s.pool wp).runningChildren ∧
    (0 < processMax → s.runningChildren ≤ processMax) ∧
    ∀ e : Event, (∀ wp ∈ e.pools, wp < configs.length) → handle e s ≠ .error .endless := by
  have hok := h.ok hstart
  obtain ⟨kids, hf⟩ := id hok
  refine ⟨fun wp hwp => ⟨kids wp, hf.list wp hwp, hf.running wp hwp, ?_⟩, hf.total,
    hf.limit, fun e hp heq => ?_⟩
  · have hc := hf.config wp hwp
    rw [getElem?_eq_getElem hwp] at hc
    rw [Option.some.inj hc]
    exact hf.bound wp hwp
  · have ha : ∀ wp ∈ e.pools, wp ∈ s.allPools := by
      rw [hf.allPools]
      exact fun wp hwp => mem_range.mpr (hp wp hwp)
    exact (handle_yields hstart hok e ha).of_error heq rfl

/-- Two pools, with `process.max` for two workers. -/
def twoPools : List PoolConfig := [⟨.static, 2, 0, 0, 0, 0⟩, ⟨.dynamic, 3, 1, 1, 2, 0⟩]

/-- The first pool takes all workers there may be. -/
theorem fpm_runningChildren_twoPools : ∃ s, Reaches (init twoPools 2 0 0) s ∧
    (s.pool 0).runningChildren = 2 ∧
    s.runningChildren = ∑ wp ∈ Finset.range twoPools.length, (s.pool wp).runningChildren ∧
    s.runningChildren ≤ 2 := by
  have hsr : ∀ c ∈ twoPools, c.pmStartServers ≤ c.pmMaxChildren := by decide
  obtain ⟨s, hs, hc⟩ : ∃ s, handle (.run fun _ => ⟨true, [.forked 10 0, .forked 11 0]⟩)
      (init twoPools 2 0 0) = .ok ((), s) ∧ (s.pool 0).runningChildren = 2 := ⟨_, rfl, rfl⟩
  have hr : Reaches (init twoPools 2 0 0) s := .step .start (by rintro _ ⟨⟩) hs
  obtain ⟨-, htt, hl, -⟩ := fpm_runningChildren hsr hr
  exact ⟨s, hr, hc, htt, hl (by decide)⟩

end PhpInternals.Sapi.Fpm
