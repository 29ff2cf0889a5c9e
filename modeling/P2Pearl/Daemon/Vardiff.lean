import P2Pearl.Daemon.Job
import P2Pearl.Data.OrderedMap
import P2Pearl.Data.Rounding

/-!
The variable difficulty of `PoolNode` of `daemon.py`: every worker has a target factor, which its
own shares double when they come too fast and halve when they come too slowly.

* `VardiffState.share`: `_record_vardiff_share` on the state of one worker, in floating point.
* `Vardiff`: the states by worker, every factor within the maximum.
* `vardiff_isolated`: the job of a worker depends on no share but its own, whatever the order of
  the calls, and its target stays within the maximal factor of the limit.
-/

namespace P2Pearl

/-! ### One worker -/

/-- `config.STRATUM_VARDIFF_TARGET_SECONDS`. -/
def vardiffTargetSeconds : ℚ := 60

/-- `config.STRATUM_VARDIFF_MAX_FACTOR`. -/
def vardiffMaxFactor : ℕ+ := 2 ^ 24

/-- `_VardiffState`. -/
structure VardiffState where
  factor : ℕ+
  lastShareAt : Option ℚ := none
  ewmaInterval : Option ℚ := none

namespace VardiffState

variable (round : ℚ → ℚ) (maxFactor : ℕ+)

/-- The factor after an average interval: doubled below half the target, halved above twice the
target. -/
def retune (factor : ℕ+) (ewma : ℚ) : ℕ+ :=
  if ewma < vardiffTargetSeconds / 2 then
    Nat.toPNat (min maxFactor (factor * 2)) (by positivity)
  else if vardiffTargetSeconds * 2 < ewma then Nat.toPNat (max 1 (factor / 2)) (by positivity)
  else factor

/-- `interval` of `_record_vardiff_share`. -/
def interval (last now : ℚ) : ℚ := max (round (1 / 1000)) (round (now - last))

/-- `ewma_interval` with one more interval. -/
def average (s : VardiffState) (interval : ℚ) : ℚ :=
  match s.ewmaInterval with
  | none => interval
  | some ewma => smooth round (7 / 10) (3 / 10) ewma interval

/-- `_record_vardiff_share` on the state of the worker: whether its factor has changed, and the
state. -/
def share (s : VardiffState) (now : ℚ) : Bool × VardiffState :=
  match s.lastShareAt with
  | none => (false, { s with lastShareAt := some now })
  | some last =>
      let ewma := s.average round (interval round last now)
      let factor := retune maxFactor s.factor ewma
      if factor = s.factor then (false, ⟨s.factor, some now, some ewma⟩)
      else (true, ⟨factor, some now, none⟩)

variable {round} {maxFactor} {s : VardiffState} {now last ewma : ℚ} {factor : ℕ+}

lemma share_of_first (h : s.lastShareAt = none) :
    s.share round maxFactor now = (false, { s with lastShareAt := some now }) := by
  rw [share, h]

lemma share_of_kept (h : s.lastShareAt = some last)
    (hkept : retune maxFactor s.factor (s.average round (interval round last now)) = s.factor) :
    s.share round maxFactor now
      = (false, ⟨s.factor, some now, some (s.average round (interval round last now))⟩) := by
  rw [share, h]
  exact if_pos hkept

lemma share_of_changed (h : s.lastShareAt = some last)
    (hchanged : retune maxFactor s.factor (s.average round (interval round last now)) ≠ s.factor) :
    s.share round maxFactor now
      = (true, ⟨retune maxFactor s.factor (s.average round (interval round last now)),
          some now, none⟩) := by
  rw [share, h]
  exact if_neg hchanged

/-- What the factor is after a share. -/
lemma factor_share (s : VardiffState) (now : ℚ) :
    (s.share round maxFactor now).2.factor = s.factor
      ∨ ∃ ewma, (s.share round maxFactor now).2.factor = retune maxFactor s.factor ewma := by
  rw [share]
  split
  · exact .inl rfl
  · dsimp only
    split_ifs
    · exact .inl rfl
    · exact .inr ⟨_, rfl⟩

/-- The answer says whether the factor has changed. -/
lemma share_fst (s : VardiffState) (now : ℚ) :
    (s.share round maxFactor now).1 = true
      ↔ (s.share round maxFactor now).2.factor ≠ s.factor := by
  rw [share]
  split
  · simp
  · dsimp only
    split_ifs with h
    · simp
    · simpa using h

/-- The factor as a number. -/
lemma coe_retune : (retune maxFactor factor ewma : ℕ)
    = if ewma < vardiffTargetSeconds / 2 then min (maxFactor : ℕ) ((factor : ℕ) * 2)
      else if vardiffTargetSeconds * 2 < ewma then max 1 ((factor : ℕ) / 2) else (factor : ℕ) := by
  rw [retune, apply_ite PNat.val, apply_ite PNat.val]
  rfl

lemma retune_le (h : factor ≤ maxFactor) : retune maxFactor factor ewma ≤ maxFactor := by
  have hle : (factor : ℕ) ≤ maxFactor := h
  have hpos := maxFactor.pos
  rw [← PNat.coe_le_coe, coe_retune]
  split_ifs <;> omega

lemma share_factor_le (h : s.factor ≤ maxFactor) :
    (s.share round maxFactor now).2.factor ≤ maxFactor := by
  obtain hf | ⟨ewma, hf⟩ : (s.share round maxFactor now).2.factor = s.factor ∨ _ :=
    factor_share s now
  · rwa [hf]
  · exact hf ▸ retune_le h

end VardiffState

/-! ### All workers -/

/-- The key of a worker in `_vardiff`. -/
abbrev WorkerKey := PyStr × PyStr

/-- `_worker_key`. -/
def workerKey (workerAddress : Option PyStr) (workerLabel : PyStr) : Option WorkerKey :=
  match workerAddress with
  | none => none
  | some address =>
      if address = [] then none
      else some (address, if workerLabel = [] then "default".toList else workerLabel)

/-- `_vardiff` with the initial factor, every factor within the maximum. -/
structure Vardiff where
  targetFactor : ℕ+
  states : OrderedMap WorkerKey VardiffState
  factor_le : ∀ k s, states.get k = some s → s.factor ≤ max targetFactor vardiffMaxFactor

namespace Vardiff

/-- `_stratum_target_factor`, `_vardiff` of a new `PoolNode`. -/
def init (stratumTargetFactor : ℤ) : Vardiff where
  targetFactor := ⟨max 1 stratumTargetFactor.toNat, by positivity⟩
  states := .empty
  factor_le := fun k s h => by simp [OrderedMap.empty, OrderedMap.get] at h

/-- `_vardiff_enabled`. -/
def enabled (v : Vardiff) : Prop := 1 < (v.targetFactor : ℕ)

instance (v : Vardiff) : Decidable v.enabled := Nat.decLt _ _

/-- `_vardiff_max_factor`. -/
def maxFactor (v : Vardiff) : ℕ+ := max v.targetFactor vardiffMaxFactor

/-- The state of a worker, a new one if there is none. -/
def stateFor (v : Vardiff) (k : WorkerKey) : VardiffState :=
  (v.states.get k).getD { factor := v.targetFactor }

lemma stateFor_factor_le (v : Vardiff) (k : WorkerKey) : (v.stateFor k).factor ≤ v.maxFactor := by
  rw [stateFor]
  cases h : v.states.get k with
  | none => exact le_max_left _ _
  | some s => exact v.factor_le k s h

/-- The state of a worker is stored. -/
def put (v : Vardiff) (k : WorkerKey) (s : VardiffState) (h : s.factor ≤ v.maxFactor) :
    Vardiff where
  targetFactor := v.targetFactor
  states := v.states.set k s
  factor_le := by
    intro j t hj
    rw [OrderedMap.get_set] at hj
    split_ifs at hj
    · exact (Option.some.inj hj) ▸ h
    · exact v.factor_le j t hj

lemma stateFor_put {v : Vardiff} {k j : WorkerKey} {s : VardiffState}
    {h : s.factor ≤ v.maxFactor} :
    (v.put k s h).stateFor j = if j = k then s else v.stateFor j := by
  rw [stateFor, put, OrderedMap.get_set]
  split_ifs <;> rfl

/-- `_vardiff_state_for`: the state, and the table with it. -/
def vardiffStateFor (v : Vardiff) (workerAddress : Option PyStr) (workerLabel : PyStr) :
    VardiffState × Vardiff :=
  match workerKey workerAddress workerLabel with
  | none => ({ factor := v.targetFactor }, v)
  | some k => (v.stateFor k, v.put k (v.stateFor k) (v.stateFor_factor_le k))

/-- `_worker_target_factor`. -/
def workerTargetFactor (v : Vardiff) (workerAddress : Option PyStr) (workerLabel : PyStr) :
    ℕ+ × Vardiff :=
  if v.enabled then
    ((v.vardiffStateFor workerAddress workerLabel).1.factor,
      (v.vardiffStateFor workerAddress workerLabel).2)
  else (v.targetFactor, v)

/-- `_record_vardiff_share` at a time. -/
def recordVardiffShare (round : ℚ → ℚ) (v : Vardiff) (workerAddress : Option PyStr)
    (workerLabel : PyStr) (now : ℚ) : Bool × Vardiff :=
  if v.enabled then
    match workerKey workerAddress workerLabel with
    | none => (false, v)
    | some k =>
        (((v.stateFor k).share round v.maxFactor now).1,
          v.put k ((v.stateFor k).share round v.maxFactor now).2
            (VardiffState.share_factor_le (v.stateFor_factor_le k)))
  else (false, v)

end Vardiff

/-! ### Runs -/

/-- A call of the node on the table: the factor for a job of a worker, or a share of a worker that
the chain has accepted. -/
inductive VardiffEvent where
  | job (workerAddress : Option PyStr) (workerLabel : PyStr)
  | share (workerAddress : Option PyStr) (workerLabel : PyStr) (now : ℚ)

/-- The time of a share of the worker. -/
def VardiffEvent.timeOf (k : WorkerKey) : VardiffEvent → Option ℚ
  | .job _ _ => none
  | .share workerAddress workerLabel now =>
      if workerKey workerAddress workerLabel = some k then some now else none

/-- The times of the shares of a worker. -/
def shareTimes (k : WorkerKey) (es : List VardiffEvent) : List ℚ := es.filterMap (·.timeOf k)

lemma shareTimes_cons_of_none {k : WorkerKey} {e : VardiffEvent} {es : List VardiffEvent}
    (h : e.timeOf k = none) : shareTimes k (e :: es) = shareTimes k es := List.filterMap_cons_none h

lemma shareTimes_cons_of_some {k : WorkerKey} {e : VardiffEvent} {es : List VardiffEvent} {now : ℚ}
    (h : e.timeOf k = some now) : shareTimes k (e :: es) = now :: shareTimes k es :=
  List.filterMap_cons_some h

namespace Vardiff

variable (round : ℚ → ℚ)

/-- The table after a call. -/
def step (v : Vardiff) : VardiffEvent → Vardiff
  | .job workerAddress workerLabel => (v.workerTargetFactor workerAddress workerLabel).2
  | .share workerAddress workerLabel now =>
      (v.recordVardiffShare round workerAddress workerLabel now).2

/-- The table after calls in any order. -/
def run (v : Vardiff) (es : List VardiffEvent) : Vardiff := es.foldl (step round) v

variable {round} {v v' : Vardiff} {k : WorkerKey} {e : VardiffEvent} {es : List VardiffEvent}

lemma run_append {es' : List VardiffEvent} :
    v.run round (es ++ es') = (v.run round es).run round es' := List.foldl_append

@[simp] lemma targetFactor_step : (v.step round e).targetFactor = v.targetFactor := by
  cases e with
  | job address label =>
      rw [step, workerTargetFactor]
      split_ifs
      · rw [vardiffStateFor]
        split <;> rfl
      · rfl
  | share address label now =>
      rw [step, recordVardiffShare]
      split_ifs
      · split <;> rfl
      · rfl

@[simp] lemma targetFactor_run : (v.run round es).targetFactor = v.targetFactor := by
  induction es generalizing v with
  | nil => rfl
  | cons e es ih => exact (ih (v := v.step round e)).trans targetFactor_step

/-- A call changes the state of a worker only where it is a share of that worker. -/
lemma stateFor_step (henabled : v.enabled) :
    (v.step round e).stateFor k
      = (e.timeOf k).elim (v.stateFor k)
          fun now => ((v.stateFor k).share round v.maxFactor now).2 := by
  cases e with
  | job address label =>
      rw [step, workerTargetFactor, if_pos henabled, vardiffStateFor]
      cases workerKey address label with
      | none => rfl
      | some j =>
          refine (stateFor_put (h := v.stateFor_factor_le j)).trans ?_
          split_ifs with h
          · rw [h]; rfl
          · rfl
  | share address label now =>
      rw [step, recordVardiffShare, if_pos henabled, VardiffEvent.timeOf]
      cases workerKey address label with
      | none => rfl
      | some j =>
          refine (stateFor_put (h := VardiffState.share_factor_le
            (v.stateFor_factor_le j))).trans ?_
          by_cases h : k = j
          · rw [if_pos h, if_pos (congrArg some h.symm), h]; rfl
          · rw [if_neg h, if_neg fun hj => h (Option.some.inj hj).symm]; rfl

end Vardiff

/-- The state of a worker after shares. -/
def VardiffState.shares (round : ℚ → ℚ) (maxFactor : ℕ+) (s : VardiffState) (times : List ℚ) :
    VardiffState := times.foldl (fun s now => (s.share round maxFactor now).2) s

namespace Vardiff

variable {round : ℚ → ℚ} {v v' : Vardiff} {k : WorkerKey} {e : VardiffEvent}
  {es es' : List VardiffEvent}

/-- The state of a worker after a run is the one after its own shares. -/
lemma stateFor_run (henabled : v.enabled) :
    (v.run round es).stateFor k
      = (v.stateFor k).shares round v.maxFactor (shareTimes k es) := by
  induction es generalizing v with
  | nil => rfl
  | cons e es ih =>
      have henabled' : (v.step round e).enabled := by rwa [enabled, targetFactor_step]
      have hmax : (v.step round e).maxFactor = v.maxFactor := by
        rw [maxFactor, targetFactor_step, maxFactor]
      rw [run, List.foldl_cons, ← run, ih henabled', hmax, stateFor_step henabled]
      cases h : e.timeOf k with
      | none => rw [shareTimes_cons_of_none h]; rfl
      | some now => rw [shareTimes_cons_of_some h]; rfl

end Vardiff

/-! ### The job of a worker -/

/-- `build_job_for` with the factor of the worker. -/
def buildWorkerJob {Ctx : Type} (P : Params) (C : Sharechain) (template : Option ParentTemplate)
    (minPayout : ℕ) (makeHeader : MakeHeader Ctx) (v : Vardiff) (now : ℚ)
    (workerAddress workerLabel : PyStr) : Except PyError (Option (Job Ctx)) :=
  buildJobFor P C template minPayout makeHeader
    (v.workerTargetFactor (some workerAddress) workerLabel).1 now workerAddress

namespace Vardiff

variable {v : Vardiff} {k : WorkerKey} {workerAddress workerLabel : PyStr}

/-- The factor for a job, by the key of the worker. -/
lemma workerTargetFactor_fst :
    (v.workerTargetFactor (some workerAddress) workerLabel).1
      = if v.enabled then
          (workerKey (some workerAddress) workerLabel).elim v.targetFactor
            fun k => (v.stateFor k).factor
        else v.targetFactor := by
  rw [workerTargetFactor]
  split_ifs
  · rw [vardiffStateFor]
    cases workerKey (some workerAddress) workerLabel <;> rfl
  · rfl

lemma workerTargetFactor_le :
    (v.workerTargetFactor (some workerAddress) workerLabel).1 ≤ v.maxFactor := by
  rw [workerTargetFactor_fst]
  split_ifs
  · cases workerKey (some workerAddress) workerLabel with
    | none => exact le_max_left _ _
    | some k => exact v.stateFor_factor_le k
  · exact le_max_left _ _

/-- Only the shares of the worker itself decide its factor. -/
lemma workerTargetFactor_run {round : ℚ → ℚ} {es es' : List VardiffEvent}
    (h : ∀ k, workerKey (some workerAddress) workerLabel = some k →
      shareTimes k es = shareTimes k es') :
    ((v.run round es).workerTargetFactor (some workerAddress) workerLabel).1
      = ((v.run round es').workerTargetFactor (some workerAddress) workerLabel).1 := by
  have hiff (es : List VardiffEvent) : (v.run round es).enabled ↔ v.enabled := by
    rw [enabled, targetFactor_run, enabled]
  simp only [workerTargetFactor_fst, hiff, targetFactor_run]
  split_ifs with henabled
  · cases hk : workerKey (some workerAddress) workerLabel with
    | none => rfl
    | some k =>
        rw [Option.elim_some, Option.elim_some, stateFor_run henabled, stateFor_run henabled,
          h k hk]
  · rfl

end Vardiff

/-- A job comes from a template. -/
lemma exists_of_buildJobFor {Ctx : Type} {P : Params} {C : Sharechain}
    {template : Option ParentTemplate} {minPayout : ℕ} {makeHeader : MakeHeader Ctx} {factor : ℕ+}
    {now : ℚ} {addr : PyStr} {job : Job Ctx}
    (h : buildJobFor P C template minPayout makeHeader factor now addr = .ok (some job)) :
    ∃ tpl, jobFor P C tpl minPayout makeHeader factor now addr = .ok job := by
  cases template with
  | none => simp [buildJobFor] at h
  | some tpl =>
      rcases eq_or_ne addr [] with rfl | hne
      · simp [buildJobFor] at h
      · exact ⟨tpl, (buildJobFor_eq_ok_iff hne).mp h⟩

/-- After two interleavings of calls in which a worker has submitted the same shares at the same
times, the worker gets the same job: no share or job of another worker changes its difficulty.  And
the share target of a job stays between the target limit over the maximal factor and the limit. -/
theorem vardiff_isolated {Ctx : Type} (P : Params) (C : Sharechain)
    (template : Option ParentTemplate) (minPayout : ℕ) (makeHeader : MakeHeader Ctx)
    (round : ℚ → ℚ) (v : Vardiff) (now : ℚ) (workerAddress workerLabel : PyStr)
    (es es' : List VardiffEvent)
    (hsame : ∀ k, workerKey (some workerAddress) workerLabel = some k →
      shareTimes k es = shareTimes k es') :
    buildWorkerJob P C template minPayout makeHeader (v.run round es) now workerAddress workerLabel
        = buildWorkerJob P C template minPayout makeHeader (v.run round es') now workerAddress
            workerLabel
      ∧ ∀ job, buildWorkerJob P C template minPayout makeHeader (v.run round es) now workerAddress
          workerLabel = .ok (some job) →
        job.context.candidate.targetLimit / v.maxFactor ≤ job.shareTarget
          ∧ job.shareTarget ≤ max 1 job.context.candidate.targetLimit := by
  constructor
  · rw [buildWorkerJob, buildWorkerJob, Vardiff.workerTargetFactor_run hsame]
  · intro job hjob
    obtain ⟨tpl, hok⟩ := exists_of_buildJobFor hjob
    obtain ⟨prev, limit, payoutSet, sid, -, -, -, hdata, -, -, htarget, -⟩ :=
      jobFor_eq_ok_iff.mp hok
    have hlimit : job.context.candidate.targetLimit = limit := by rw [hdata]; rfl
    have hfactor : ((v.run round es).workerTargetFactor (some workerAddress) workerLabel).1
        ≤ v.maxFactor := by
      refine Vardiff.workerTargetFactor_le.trans_eq ?_
      rw [Vardiff.maxFactor, Vardiff.targetFactor_run, Vardiff.maxFactor]
    rw [htarget, hlimit]
    refine ⟨le_max_of_le_right ?_, max_le_max_left 1 (Nat.div_le_self _ _)⟩
    exact Nat.div_le_div_left hfactor (PNat.pos _)

/-- The shares of another worker, among two of the worker. -/
theorem vardiff_isolated_rig :
    let template : ParentTemplate := ⟨0, genesisPrev, 0x1e01ffff, 0, 0x20000000, 1⟩
    let ours : List VardiffEvent := [.share (some ['a']) [] 1000, .share (some ['a']) [] 1010]
    let both : List VardiffEvent := [.share (some ['a']) [] 1000, .share (some ['b']) [] 1000,
      .share (some ['b']) [] 1001, .share (some ['a']) [] 1010]
    buildWorkerJob {} .empty (some template) 0 (fun _ _ _ => .ok ([], ()))
        ((Vardiff.init 8).run id ours) 0 ['a'] []
      = buildWorkerJob {} .empty (some template) 0 (fun _ _ _ => .ok ([], ()))
        ((Vardiff.init 8).run id both) 0 ['a'] [] := by
  intro template ours both
  refine (vardiff_isolated {} .empty (some template) 0 _ id (Vardiff.init 8) 0 ['a'] [] ours both
    fun k hk => ?_).1
  obtain rfl : (['a'], "default".toList) = k := Option.some.inj hk
  rfl

end P2Pearl
