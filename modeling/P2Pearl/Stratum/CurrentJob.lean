import P2Pearl.Daemon.FoundBlock
import P2Pearl.Stratum.Server

/-!
How long a miner may submit for the last job it was given.

* `findJob_iff`: exactly while fewer than `max` jobs have been minted after it.
* `Spares`: the condition on an event that no connection's last job is lost in it; a refresh meets
  it exactly with at most `max` ready connections.
* `current_jobs_found_iff`: the last job of every connection is found all along a run exactly when
  every event of the run meets it.
* `seventeen_miners`: a server with the default size loses the first of seventeen miners' jobs in
  the refresh that sends it.
-/

namespace P2Pearl

variable {Ctx : Type}

namespace StratumServer

/-- The last job of every ready connection is found under the id the miner was given. -/
def NoneStale (S : StratumServer Ctx) : Prop :=
  ∀ c ∈ S.conns, c.ready = true → ∀ p, c.pushed = some p → S.findJob p.params.jobId = .ok p.job

/-- The last job of every connection is among the last `max`. -/
def Held (S : StratumServer Ctx) : Prop :=
  ∀ c ∈ S.conns, ∀ p, c.pushed = some p → S.minted.length ≤ p.serial + S.registry.max

/-- The event loses no connection's last job: a push to a ready connection, where fewer than
`max - 1` jobs have been minted since the last push to any other one, or a refresh of at most
`max` ready connections. -/
def Spares (S : StratumServer Ctx) : Event Ctx → Prop
  | .push connId => ∀ c, S.conn? connId = some c → c.ready = true → 1 ≤ S.registry.max
      ∧ ∀ d ∈ S.conns, d.connId ≠ connId → ∀ p, d.pushed = some p →
        S.minted.length + 1 ≤ p.serial + S.registry.max
  | .refresh => (S.conns.filter (·.ready)).length ≤ S.registry.max
  | _ => True

variable {S S' : StratumServer Ctx} {c d : Connection Ctx} {cs : List (Connection Ctx)}
  {f : Connection Ctx → Option (Pushed Ctx)}

/-- The job a connection was sent is found exactly while fewer than `max` have been minted after
it. -/
lemma findJob_iff (h : Sound S) (hmax : S.registry.max < 2 ^ 16) (hc : c ∈ S.conns)
    {p : Pushed Ctx} (hp : c.pushed = some p) (hage : S.minted.length ≤ p.serial + 2 ^ 16) :
    S.findJob p.params.jobId = .ok p.job ↔ S.minted.length ≤ p.serial + S.registry.max := by
  obtain ⟨hjob, hid⟩ := h.pushed c hc p hp
  rw [← h.keeps.get_eq_some_iff hmax hjob hage, findJob, hid]
  cases S.registry.get p.job.jobId <;> simp

lemma noneStale_of_held (h : Sound S) (hmax : S.registry.max < 2 ^ 16) (hheld : S.Held) :
    S.NoneStale := by
  intro c hc _ p hp
  have hle := hheld c hc p hp
  exact (findJob_iff h hmax hc hp (by omega)).mpr hle

/-! ### Pushing -/

/-- The number of jobs after a push. -/
lemma Pushes.length (hp : Pushes S cs S' f) : S'.minted.length = S.minted.length + cs.length := by
  obtain ⟨jobs, hminted, hlen⟩ := hp.minted
  rw [hminted, List.length_append, hlen]

/-- Pushing to at most `max` connections keeps what the others have, where enough room is left. -/
lemma Pushes.held (hp : Pushes S cs S' f) (hsize : cs.length ≤ S.registry.max)
    (hother : ∀ d ∈ S.conns, d.connId ∉ cs.map Connection.connId → ∀ p, d.pushed = some p →
      S.minted.length + cs.length ≤ p.serial + S.registry.max) : S'.Held := by
  intro d' hd' p hpd
  rw [hp.conns] at hd'
  obtain ⟨d, hd, rfl⟩ := List.mem_map.mp hd'
  rw [hp.length, hp.max]
  by_cases hin : d.connId ∈ cs.map Connection.connId
  · obtain ⟨k, hk⟩ := List.mem_iff_getElem?.mp hin
    obtain ⟨q, hq, hserial, -, -⟩ := hp.sent d k hk
    obtain rfl : q = p := Option.some.inj (hq.symm.trans hpd)
    omega
  · exact hother d hd hin p (hp.other d hin ▸ hpd)

/-- A connection that was pushed to is ready and was sent the job of its place. -/
lemma Pushes.exists_sent (hp : Pushes S cs S' f) {k : ℕ} (hk : cs[k]? = some c)
    (hc : c ∈ S.conns) (hready : c.ready = true) : ∃ d ∈ S'.conns, d.ready = true
      ∧ ∃ p, d.pushed = some p ∧ p.serial = S.minted.length + k := by
  have hid : (cs.map Connection.connId)[k]? = some c.connId := by
    rw [List.getElem?_map, hk]; rfl
  obtain ⟨p, hfp, hserial, -, -⟩ := hp.sent c k hid
  refine ⟨{ c with pushed := f c }, ?_, hready, p, hfp, hserial⟩
  rw [hp.conns]
  exact List.mem_map_of_mem hc

/-- Where no job is stale after pushing to ready connections, they are at most `max`. -/
lemma Pushes.size_of_noneStale (hp : Pushes S cs S' f) (h' : Sound S')
    (hmax : S.registry.max < 2 ^ 16) (hstale : S'.NoneStale)
    (hcs : ∀ c ∈ cs, c ∈ S.conns ∧ c.ready = true) : cs.length ≤ S.registry.max := by
  by_contra hgt
  -- the connection that `max` others come after
  have hlt : cs.length - 1 - S.registry.max < cs.length := by omega
  obtain ⟨hc, hready⟩ := hcs _ (List.getElem_mem hlt)
  obtain ⟨d, hd, hdr, p, hpd, hserial⟩ :=
    hp.exists_sent (List.getElem?_eq_getElem hlt) hc hready
  have hlen := hp.length
  have hle := (findJob_iff h' (hp.max ▸ hmax) hd hpd (by omega)).mp (hstale d hd hdr p hpd)
  rw [hp.max] at hle
  omega

/-! ### One event -/

/-- An event that spares the last jobs keeps them among the last `max`. -/
lemma Held.step (hheld : S.Held) (h : Sound S) (hmax : S.registry.max < 2 ^ 16)
    (hb : Answers S.jobBuilder) {e : Event Ctx} (hstep : S.step e = some S')
    (hspares : S.Spares e) : S'.Held := by
  rcases (step_cases h hmax hb hstep).2 with ⟨⟨f, hf⟩, he⟩ | ⟨hquiet, -, -⟩
  · rcases he with rfl | ⟨connId, rfl⟩
    · refine hf.held hspares fun d hd hnot p hp => absurd ?_ hnot
      have hready := h.ready d hd (by rw [hp]; exact Option.some_ne_none p)
      exact List.mem_map_of_mem (List.mem_filter.mpr ⟨hd, hready⟩)
    · obtain ⟨c, hc, -⟩ := Option.map_eq_some_iff.mp hstep
      cases hready : c.ready with
      | false =>
          have hnone : S.targets (.push connId) = [] := by
            rw [targets, hc, Option.toList_some, List.filter_cons_of_neg (by simp [hready])]; rfl
          rw [hnone] at hf
          exact hf.held (Nat.zero_le _) fun d hd _ p hp => hheld d hd p hp
      | true =>
          have hone : S.targets (.push connId) = [c] := by
            rw [targets, hc, Option.toList_some, List.filter_cons_of_pos hready]; rfl
          have hid : c.connId = connId := by simpa using List.find?_some hc
          obtain ⟨hpos, hother⟩ := hspares c hc hready
          rw [hone] at hf
          refine hf.held hpos fun d hd hnot p hp => hother d hd (fun e => hnot ?_) p hp
          rw [e, ← hid]
          exact List.mem_singleton.mpr rfl
  · intro d hd p hp
    rw [hquiet.minted, hquiet.registry]
    rcases hquiet.conns d hd with hnone | ⟨c, hc, hcd⟩
    · rw [hnone] at hp; cases hp
    · exact hheld c hc p (hcd.trans hp)

/-- Where no job is stale after an event, the event has spared the last jobs. -/
lemma spares_of_noneStale (hheld : S.Held) (h : Sound S) (hmax : S.registry.max < 2 ^ 16)
    (hb : Answers S.jobBuilder) {e : Event Ctx} (hstep : S.step e = some S')
    (hstale : S'.NoneStale) : S.Spares e := by
  obtain ⟨h', hcases⟩ := step_cases h hmax hb hstep
  rcases hcases with ⟨⟨f, hf⟩, he⟩ | ⟨-, hne, hne'⟩
  · have hsize := hf.size_of_noneStale h' hmax hstale fun c hc => mem_targets hc
    rcases he with rfl | ⟨connId, rfl⟩
    · exact hsize
    · intro c hc hready
      have hone : S.targets (.push connId) = [c] := by
        rw [targets, hc, Option.toList_some, List.filter_cons_of_pos hready]; rfl
      have hid : c.connId = connId := by simpa using List.find?_some hc
      rw [hone] at hf hsize
      refine ⟨hsize, fun d hd hne p hp => ?_⟩
      have hnot : d.connId ∉ [c].map Connection.connId := fun hin =>
        hne ((List.mem_singleton.mp hin).trans hid)
      have hd' : { d with pushed := f d } ∈ S'.conns := by
        rw [hf.conns]
        exact List.mem_map_of_mem hd
      have hp' : f d = some p := (hf.other d hnot).trans hp
      have hready' : d.ready = true := h.ready d hd (by rw [hp]; exact Option.some_ne_none p)
      have hold := hheld d hd p hp
      have hlen := hf.length
      have hle := (findJob_iff h' (hf.max ▸ hmax) hd' hp' (by
        rw [hlen, List.length_singleton]; omega)).mp (hstale _ hd' hready' p hp')
      rw [hf.max, hlen] at hle
      exact hle
  · cases e with
    | refresh => exact absurd rfl hne
    | push connId => exact absurd rfl (hne' connId)
    | _ => trivial

/-- The size of the registry never changes, and the job builder answers while the new ones do. -/
lemma step_settings (h : Sound S) (hmax : S.registry.max < 2 ^ 16) (hb : Answers S.jobBuilder)
    {e : Event Ctx} (hstep : S.step e = some S')
    (hnew : ∀ jobBuilder, e = .setJobBuilder jobBuilder → Answers jobBuilder) :
    S'.registry.max = S.registry.max ∧ Answers S'.jobBuilder := by
  rcases (step_cases h hmax hb hstep).2 with ⟨⟨f, hf⟩, -⟩ | ⟨hquiet, hne, hne'⟩
  · exact ⟨hf.max, hf.builder ▸ hb⟩
  · refine ⟨by rw [hquiet.registry], ?_⟩
    cases e with
    | refresh => exact absurd rfl hne
    | push connId => exact absurd rfl (hne' connId)
    | setJobBuilder jobBuilder => cases hstep; exact hnew jobBuilder rfl
    | _ => cases hstep; exact hb

/-! ### Runs -/

/-- From a server whose last jobs are held. -/
lemma noneStale_iff_along (h : Sound S) (hmax : S.registry.max < 2 ^ 16) (hb : Answers S.jobBuilder)
    (hheld : S.Held) {events : List (Event Ctx)}
    (hevents : ∀ jobBuilder, .setJobBuilder jobBuilder ∈ events → Answers jobBuilder) :
    (∀ past S', past <+: events → Machine.run step S past = some S' → S'.NoneStale)
      ↔ Machine.Along step Spares S events := by
  induction events generalizing S with
  | nil =>
      exact iff_of_true
        (Machine.forall_prefix_nil_iff.mpr (noneStale_of_held h hmax hheld)) trivial
  | cons e events ih =>
      have hnew : ∀ jobBuilder, e = .setJobBuilder jobBuilder → Answers jobBuilder :=
        fun jobBuilder he => hevents jobBuilder (he ▸ List.mem_cons_self)
      have hrest : ∀ jobBuilder, .setJobBuilder jobBuilder ∈ events → Answers jobBuilder :=
        fun jobBuilder he => hevents jobBuilder (List.mem_cons_of_mem _ he)
      have hnext : ∀ m, S.step e = some m → S.Spares e →
          ((∀ past S', past <+: events → Machine.run step m past = some S' → S'.NoneStale)
            ↔ Machine.Along step Spares m events) := by
        intro m hm hspares
        obtain ⟨hsame, hbm⟩ := step_settings h hmax hb hm hnew
        exact ih (step_cases h hmax hb hm).1 (hsame ▸ hmax) hbm
          (hheld.step h hmax hb hm hspares) hrest
      rw [Machine.forall_prefix_cons_iff]
      constructor
      · rintro ⟨-, hall⟩
        have hspares : S.Spares e := by
          cases hm : S.step e with
          | none =>
              -- only a push to a connection that is gone cannot happen
              cases e with
              | push connId =>
                  intro c hc
                  rw [step, hc] at hm
                  cases hm
              | _ => cases hm
          | some m =>
              exact spares_of_noneStale hheld h hmax hb hm (hall m hm [] m List.nil_prefix rfl)
        exact ⟨hspares, fun m hm => (hnext m hm hspares).mp (hall m hm)⟩
      · rintro ⟨hspares, halong⟩
        exact ⟨noneStale_of_held h hmax hheld,
          fun m hm => (hnext m hm hspares).mpr (halong m hm)⟩

/-- **The last job of every miner**: with a job builder that always returns a job, it is found
after every event of a run exactly when every event of the run spares the last jobs. -/
theorem current_jobs_found_iff (jobBuilder : JobBuilder Ctx) (jobHistory : ℕ)
    (events : List (Event Ctx)) (hmax : jobHistory < 2 ^ 16) (hbuilder : Answers jobBuilder)
    (hevents : ∀ jobBuilder, .setJobBuilder jobBuilder ∈ events → Answers jobBuilder) :
    (∀ past S, past <+: events → Machine.run step (.init jobBuilder jobHistory) past = some S →
        S.NoneStale)
      ↔ Machine.Along step Spares (.init jobBuilder jobHistory) events :=
  noneStale_iff_along (Sound.init jobBuilder jobHistory) hmax hbuilder (fun _ h => by cases h)
    hevents

/-- Miners who connect, subscribe and are given a job one after the other, and a refresh. -/
def minersJoin (n : ℕ) : List (Event Ctx) :=
  ((List.range n).flatMap fun i => [.connect, .subscribe (i + 1), .push (i + 1)]) ++ [.refresh]

instance (S : StratumServer Ctx) : ∀ e, Decidable (S.Spares e)
  | .push connId => inferInstanceAs (Decidable (∀ c ∈ S.conn? connId, c.ready = true →
      1 ≤ S.registry.max ∧ ∀ d ∈ S.conns, d.connId ≠ connId → ∀ p ∈ d.pushed,
        S.minted.length + 1 ≤ p.serial + S.registry.max))
  | .refresh => inferInstanceAs (Decidable (_ ≤ _))
  | .connect | .disconnect .. | .configure .. | .subscribe .. | .authorize .. | .setJobBuilder .. =>
      isTrue trivial

/-- With sixteen miners, as many as the default size allows, the last job of each is found after
every event, the refresh included. -/
theorem current_jobs_found_sixteen :
    (Machine.run step (.init (fun _ _ => some firstJob) 16) (minersJoin 16)).map
        (fun S => (S.conns.filter (·.ready)).length) = some 16
      ∧ ∀ past S, past <+: minersJoin 16 →
        Machine.run step (.init (fun _ _ => some firstJob) 16) past = some S → S.NoneStale := by
  have hspares : Machine.Along step Spares (.init (fun _ _ => some firstJob) 16)
      (minersJoin 16) := by decide +kernel
  refine ⟨by decide +kernel,
    (current_jobs_found_iff _ 16 _ (by norm_num) (fun _ _ => by simp) ?_).mpr hspares⟩
  simp [minersJoin]

/-- Some ready connection's last job is not found. -/
def lostJob (S : StratumServer Ctx) : Bool :=
  S.conns.any fun c => c.ready && match c.pushed with
    | some p => decide (S.registry.get p.params.jobId = none)
    | none => false

lemma exists_of_lostJob (h : S.lostJob = true) : ∃ c ∈ S.conns, c.ready = true
    ∧ ∃ p, c.pushed = some p ∧ S.findJob p.params.jobId = .error (21, "Job not found") := by
  obtain ⟨c, hc, hlost⟩ := List.any_eq_true.mp h
  obtain ⟨hready, hlost⟩ := Bool.and_eq_true_iff.mp hlost
  refine ⟨c, hc, hready, ?_⟩
  cases hp : c.pushed with
  | none => rw [hp] at hlost; cases hlost
  | some p =>
      rw [hp] at hlost
      exact ⟨p, rfl, by rw [findJob, of_decide_eq_true hlost]; rfl⟩

/-- **Seventeen miners**: a refresh of a server with the default size drops the job it has sent to
the first of them. -/
theorem seventeen_miners :
    ∃ S : StratumServer Unit,
      Machine.run step (.init (fun _ _ => some firstJob) 16) (minersJoin 17) = some S
        ∧ ∃ c ∈ S.conns, c.ready = true ∧ ∃ p, c.pushed = some p
          ∧ S.findJob p.params.jobId = .error (21, "Job not found") := by
  have hrun : (Machine.run step (.init (fun _ _ => some firstJob) 16) (minersJoin 17)).map lostJob
      = some true := by decide +kernel
  obtain ⟨S, hS, hlost⟩ := Option.map_eq_some_iff.mp hrun
  exact ⟨S, hS, exists_of_lostJob hlost⟩

end StratumServer

end P2Pearl
