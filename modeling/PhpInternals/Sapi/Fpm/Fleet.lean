import PhpInternals.Sapi.Fpm.Basic

/-!
# The workers of the pools

A worker enters where there is room for it; everything else the master writes leaves the lists
alone.
-/

namespace PhpInternals.Sapi.Fpm

open Master Function Finset Found

/-- **The workers of the pools.** `kids` are the lists of the workers. -/
structure Fleet (configs : List PoolConfig) (processMax : ℤ) (kids : ℕ → List ℕ) (s : Master) :
    Prop where
  allPools : s.allPools = List.range configs.length
  config : ∀ wp < configs.length, configs[wp]? = some (s.pool wp).config
  processMax_eq : s.processMax = processMax
  list : ∀ wp < configs.length, HeadList 0 s.links (s.pool wp).children (kids wp)
  owner : ∀ wp < configs.length, ∀ c ∈ kids wp, (s.child c).wp = wp
  allocated : ∀ wp < configs.length, ∀ c ∈ kids wp, c ≤ s.allocated
  running : ∀ wp < configs.length, (s.pool wp).runningChildren = (kids wp).length
  bound : ∀ wp < configs.length, (s.pool wp).runningChildren ≤ (s.pool wp).config.pmMaxChildren
  total : s.runningChildren = ∑ wp ∈ range configs.length, (s.pool wp).runningChildren
  limit : 0 < processMax → s.runningChildren ≤ processMax

section
variable {configs : List PoolConfig} {processMax : ℤ} {kids : ℕ → List ℕ} {s s' : Master} {wp c : ℕ}

namespace Fleet

section

variable (h : Fleet configs processMax kids s)
include h

lemma ne_zero (hwp : wp < configs.length) (hc : c ∈ kids wp) : c ≠ 0 := (h.list wp hwp).ne_null hc

lemma disjoint {wp' : ℕ} (hwp : wp < configs.length)
    (hw' : wp' < configs.length) (hne : wp ≠ wp') : (kids wp).Disjoint (kids wp') := by
  intro c hc hc'
  exact hne ((h.owner wp hwp c hc).symm.trans (h.owner wp' hw' c hc'))

/-- **Writes to anything but the lists and the counters.** -/
theorem tune (hal : s'.allPools = s.allPools)
    (hm : s'.processMax = s.processMax) (hl : s'.links = s.links)
    (ha : s'.allocated = s.allocated) (hr : s'.runningChildren = s.runningChildren)
    (ho : ∀ c, (s'.child c).wp = (s.child c).wp)
    (hp : ∀ wp, (s'.pool wp).config = (s.pool wp).config ∧
      (s'.pool wp).children = (s.pool wp).children ∧
      (s'.pool wp).runningChildren = (s.pool wp).runningChildren) :
    Fleet configs processMax kids s' where
  allPools := hal.trans h.allPools
  config wp hwp := by rw [(hp wp).1, h.config wp hwp]
  processMax_eq := hm.trans h.processMax_eq
  list wp hwp := by rw [hl, (hp wp).2.1]; exact h.list wp hwp
  owner wp hwp c hc := (ho c).trans (h.owner wp hwp c hc)
  allocated wp hwp c hc := by rw [ha]; exact h.allocated wp hwp c hc
  running wp hwp := (hp wp).2.2.trans (h.running wp hwp)
  bound wp hwp := by rw [(hp wp).1, (hp wp).2.2]; exact h.bound wp hwp
  total := by
    rw [hr, h.total]
    exact sum_congr rfl fun wp _ => (hp wp).2.2.symm
  limit := by rw [hr]; exact h.limit

lemma setPool {p : Pool} (hcn : p.config = (s.pool wp).config)
    (hc : p.children = (s.pool wp).children)
    (hr : p.runningChildren = (s.pool wp).runningChildren) :
    Fleet configs processMax kids (s.setPool wp p) := by
  refine h.tune rfl rfl rfl rfl rfl (fun _ => rfl) fun wp' => ?_
  by_cases heq : wp' = wp
  · rw [heq, setPool_pool, update_self]
    exact ⟨hcn, hc, hr⟩
  · rw [setPool_pool, update_of_ne heq]
    exact ⟨rfl, rfl, rfl⟩

end

end Fleet

lemma sum_update {n : ℕ} (hwp : wp < n) (pool : ℕ → Pool) (p : Pool) :
    ∑ w ∈ range n, (update pool wp p w).runningChildren =
      ∑ w ∈ range n, (pool w).runningChildren +
      (p.runningChildren - (pool wp).runningChildren) := by
  have hm : wp ∈ range n := mem_range.mpr hwp
  rw [← add_sum_erase _ _ hm, ← add_sum_erase _ (fun w => (pool w).runningChildren) hm, update_self]
  have hr : ∑ w ∈ (range n).erase wp, (update pool wp p w).runningChildren =
      ∑ w ∈ (range n).erase wp, (pool w).runningChildren :=
    sum_congr rfl fun w hw => by rw [update_of_ne (ne_of_mem_erase hw)]
  rw [hr]
  ring

namespace Fleet

section

variable (h : Fleet configs processMax kids s)
include h

/-- **One pool gets other workers.** -/
lemma repopulate (hwp : wp < configs.length) {p : Pool} {l : List ℕ}
    (hal : s'.allPools = s.allPools)
    (hm : s'.processMax = s.processMax) (hp : s'.pool = update s.pool wp p)
    (hcn : p.config = (s.pool wp).config) (hl : HeadList 0 s'.links p.children l)
    (hot : ∀ w < configs.length, w ≠ wp → HeadList 0 s'.links (s.pool w).children (kids w))
    (hk : ∀ w < configs.length, ∀ c ∈ update kids wp l w, (s'.child c).wp = w ∧ c ≤ s'.allocated)
    (hr : p.runningChildren = l.length) (hb : p.runningChildren ≤ p.config.pmMaxChildren)
    (htt : s'.runningChildren =
      s.runningChildren + (p.runningChildren - (s.pool wp).runningChildren))
    (hlm : 0 < processMax → s'.runningChildren ≤ processMax) :
    Fleet configs processMax (update kids wp l) s' := by
  refine ⟨hal.trans h.allPools, fun w hw => ?_, hm.trans h.processMax_eq, fun w hw => ?_,
    fun w hw c hc => (hk w hw c hc).1, fun w hw c hc => (hk w hw c hc).2, fun w hw => ?_,
    fun w hw => ?_, by rw [hp, sum_update hwp, htt, h.total], hlm⟩
  all_goals
    rw [hp]
    by_cases heq : w = wp
  · rw [heq, update_self, hcn, h.config wp hwp]
  · rw [update_of_ne heq, h.config w hw]
  · rwa [heq, update_self, update_self]
  · rw [update_of_ne heq, update_of_ne heq]
    exact hot w hw heq
  · rwa [heq, update_self, update_self]
  · rw [update_of_ne heq, update_of_ne heq]
    exact h.running w hw
  · rwa [heq, update_self]
  · rw [update_of_ne heq]
    exact h.bound w hw

lemma addChild (hwp : wp < configs.length) {i : ℕ}
    {pid started : ℤ} (hr : (s.pool wp).runningChildren < (s.pool wp).config.pmMaxChildren)
    (hl : 0 < processMax → s.runningChildren < processMax) :
    Fleet configs processMax (update kids wp ((s.allocated + 1) :: kids wp))
      (s.addChild wp i pid started) := by
  have hn : ∀ w < configs.length, s.allocated + 1 ∉ kids w := fun w hw hm => by
    have := h.allocated w hw _ hm
    omega
  have hch : ∀ c, c ≠ s.allocated + 1 →
      ((s.addChild wp i pid started).child c) = s.child c := fun c hc => update_of_ne hc _ _
  have ho : ((s.addChild wp i pid started).child (s.allocated + 1)).wp = wp := by
    simp [Master.addChild, fpmChildLink]
  have hp : (s.addChild wp i pid started).pool = update s.pool wp { s.pool wp with
        runningChildren := (s.pool wp).runningChildren + 1, children := s.allocated + 1 } := by
    simp [Master.addChild, fpmChildLink]
  have hln : (s.addChild wp i pid started).links =
      s.links.pushHead 0 (s.pool wp).children (s.allocated + 1) := by
    simp [Master.addChild, fpmChildLink]
  have hold : ∀ w < configs.length, ∀ c ∈ kids w,
      ((s.addChild wp i pid started).child c).wp = w ∧ c ≤ s.allocated + 1 := by
    intro w hw c hc
    rw [hch c (ne_of_mem_of_not_mem hc (hn w hw))]
    exact ⟨h.owner w hw c hc, (h.allocated w hw c hc).trans (Nat.le_succ _)⟩
  refine h.repopulate hwp rfl rfl hp rfl ?_ (fun w hw hne => ?_) (fun w hw c hc => ?_) ?_ hr ?_ hl
  · rw [hln]
    refine (h.list wp hwp).pushHead (List.not_mem_cons_of_ne_of_not_mem ?_ (hn wp hwp))
    omega
  · rw [hln]
    exact (h.list wp hwp).pushHead_other (h.list w hw) (hn w hw) (h.disjoint hwp hw hne.symm)
  · by_cases heq : w = wp
    · rw [heq, update_self] at hc
      rcases List.mem_cons.mp hc with rfl | hc
      · exact ⟨ho.trans heq.symm, le_rfl⟩
      · rw [heq]
        exact hold wp hwp c hc
    · rw [update_of_ne heq] at hc
      exact hold w hw c hc
  · rw [List.length_cons, h.running wp hwp]
    exact (Nat.cast_succ _).symm
  · exact (congrArg (s.runningChildren + ·) (add_sub_cancel_left _ 1)).symm

lemma childUnlink (hwp : wp < configs.length) {l1 l2 : List ℕ} (hl : kids wp = l1 ++ c :: l2) :
    Fleet configs processMax (update kids wp (l1 ++ l2)) (fpmChildUnlink s c) := by
  have hm : c ∈ kids wp := hl ▸ List.mem_append_right _ List.mem_cons_self
  have ho := h.owner wp hwp c hm
  have hls := h.list wp hwp
  rw [hl] at hls
  have hsb : (l1 ++ l2).Sublist (kids wp) := by
    rw [hl]
    exact (List.Sublist.refl l1).append (List.sublist_cons_self c l2)
  have hp : (fpmChildUnlink s c).pool = update s.pool wp { s.pool wp with
        runningChildren := (s.pool wp).runningChildren - 1
        children := (s.links.removeCell 0 (s.pool wp).children c).1 } := by
    simp [fpmChildUnlink, ho]
  have hln : (fpmChildUnlink s c).links = (s.links.removeCell 0 (s.pool wp).children c).2 := by
    simp [fpmChildUnlink, ho]
  refine h.repopulate hwp rfl rfl hp rfl ?_ (fun w hw hne => ?_) (fun w hw d hd => ?_) ?_
    ((sub_le_self _ zero_le_one).trans (h.bound wp hwp)) ?_
    fun hps => (sub_le_self _ zero_le_one).trans (h.limit hps)
  · rw [hln]
    exact hls.removeCell
  · rw [hln]
    exact hls.removeCell_other (h.list w hw) (hl ▸ h.disjoint hwp hw hne.symm)
  · have hk : d ∈ kids w := by
      by_cases heq : w = wp
      · rw [heq, update_self] at hd
        exact heq ▸ hsb.subset hd
      · rwa [update_of_ne heq] at hd
    exact ⟨h.owner w hw d hk, h.allocated w hw d hk⟩
  · rw [h.running wp hwp, hl]
    simp only [List.length_append, List.length_cons]
    push_cast
    ring
  · exact (congrArg (s.runningChildren + ·) (sub_sub_cancel_left _ 1)).symm

lemma removeChild (hwp : wp < configs.length)
    (hc : c ∈ kids wp) : ∃ kids', Fleet configs processMax kids' (s.removeChild c) ∧
      ((s.removeChild c).pool wp).runningChildren = (s.pool wp).runningChildren - 1 := by
  obtain ⟨l1, l2, hl⟩ := List.append_of_mem hc
  refine ⟨_, (h.childUnlink hwp hl).setPool rfl rfl rfl, ?_⟩
  have ho := h.owner wp hwp c hc
  simp [Master.removeChild, fpmChildUnlink, ho]

end

end Fleet

/-! ## Forking -/

/-- The lists are there. -/
def Master.Ok (configs : List PoolConfig) (processMax : ℤ) (s : Master) : Prop :=
  ∃ kids, Fleet configs processMax kids s

lemma Master.Ok.forkChild (h : s.Ok configs processMax) (hwp : wp < configs.length) {max : ℤ}
    (hmx : max ≤ (s.pool wp).config.pmMaxChildren) (hmy : s.mayFork wp max) (spawn : Spawn) :
    (s.forkChild wp spawn).1.Ok configs processMax ∧
      ((s.forkChild wp spawn).1.pool wp).config = (s.pool wp).config := by
  obtain ⟨kids, h⟩ := h
  obtain ⟨-, hrm, hl⟩ := hmy
  have hw : Fleet configs processMax kids { s with warned := false } :=
    h.tune rfl rfl rfl rfl rfl (fun _ => rfl) fun _ => ⟨rfl, rfl, rfl⟩
  cases spawn with
  | noResources => exact ⟨⟨kids, hw⟩, rfl⟩
  | forkFails =>
    simp only [Master.forkChild]
    cases fpmScoreboardProcAlloc (s.pool wp).scoreboard with
    | none => exact ⟨⟨kids, hw⟩, rfl⟩
    | some r =>
      refine ⟨⟨kids, hw.setPool rfl rfl rfl⟩, ?_⟩
      simp [setPool]
  | forked pid started =>
    simp only [Master.forkChild]
    cases fpmScoreboardProcAlloc (s.pool wp).scoreboard with
    | none => exact ⟨⟨kids, hw⟩, rfl⟩
    | some r =>
      have hse : Fleet configs processMax kids (({ s with warned := false } : Master).setPool wp
          { s.pool wp with scoreboard := r.1 }) := hw.setPool rfl rfl rfl
      refine ⟨⟨_, hse.addChild hwp ?_ fun hp => ?_⟩, ?_⟩
      · simp only [setPool, update_self]
        exact hrm.trans_le hmx
      · have hm : s.processMax = processMax := h.processMax_eq
        change s.runningChildren < processMax
        omega
      · simp [setPool, addChild, fpmChildLink, update_self]

/-- **The loop over `fork` keeps the bounds.** -/
theorem Master.Ok.forkLoop (hwp : wp < configs.length) {max : ℤ} :
    ∀ (spawns : List Spawn) {s : Master},
    s.Ok configs processMax → max ≤ (s.pool wp).config.pmMaxChildren →
      (forkLoop wp max spawns s).1.Ok configs processMax
  | [], s, h, hm => by
    rw [Fpm.forkLoop]
    split_ifs with hmy
    · exact (h.forkChild hwp hm hmy _).1
    · exact h
  | spawn :: spawns, s, h, hm => by
    rw [Fpm.forkLoop]
    split_ifs with hmy
    · obtain ⟨hok, hc⟩ := h.forkChild hwp hm hmy spawn
      dsimp only
      split_ifs
      · exact Master.Ok.forkLoop hwp spawns hok (hc ▸ hm)
      · exact hok
    · exact h

/-- **`fpm_children_make` keeps the bounds** for a `max` that is within the pool's bound. -/
theorem Master.Ok.make (h : s.Ok configs processMax)
    (hwp : wp < configs.length) {inEventLoop : Bool}
    {n : ℤ} (hm : (s.pool wp).makeMax inEventLoop n ≤ (s.pool wp).config.pmMaxChildren)
    (spawns : List Spawn) :
    (fpmChildrenMake s wp inEventLoop n spawns).1.Ok configs processMax := by
  have hl := Master.Ok.forkLoop hwp spawns h hm
  rw [fpmChildrenMake]
  split_ifs
  · obtain ⟨kids, hl⟩ := hl
    exact ⟨kids, hl.tune rfl rfl rfl rfl rfl (fun _ => rfl) fun _ => ⟨rfl, rfl, rfl⟩⟩
  · exact hl

/-- In the event loop `max` is within the bound if there is room for the new workers. -/
lemma makeMax_le {p : Pool} {n : ℤ} (hr : p.runningChildren + n ≤ p.config.pmMaxChildren) :
    p.makeMax true n ≤ p.config.pmMaxChildren := by
  rw [Pool.makeMax]
  cases p.config.pm with
  | static => exact le_rfl
  | dynamic | ondemand => exact hr

/-- At the start `max` is within the bound if the number of servers to start is. -/
lemma makeMax_start_le {p : Pool} (hs : p.config.pmStartServers ≤ p.config.pmMaxChildren) :
    p.makeMax false 0 ≤ p.config.pmMaxChildren := by
  rw [Pool.makeMax]
  cases p.config.pm with
  | static => exact le_rfl
  | dynamic => exact hs
  | ondemand => exact Int.natCast_nonneg _

end

end PhpInternals.Sapi.Fpm
