import P2Pearl.Daemon.Production

/-!
Whether a new best tip gets the miners new jobs.

* `ProductionNode.UpToDate`: the job last pushed to every ready connection commits to a candidate on
  the best tip.
* `ProductionNode.Covered`: a connection whose job does not is still to be pushed to by the refresh
  task; `Covered.step`.
* `ProductionNode.KeepsUp`: the condition on an event that keeps it so: a window sync brings no
  share that overtakes the best tip, and a refresh finds an address to build a job for.
* `tip_change_reissues`: where the best tip changes, a refresh is requested exactly outside a window
  sync; in every run whose events keep up, the miners are up to date once the refresh task is done.
* `work_left_behind`: a window sync changes the best tip, and the miners keep the job they have.
-/

namespace P2Pearl

variable {Ctx : Type}

namespace ProductionNode

/-- The job last pushed to every ready connection commits to a candidate on the best tip. -/
def UpToDate (W : Wiring Ctx) (N : ProductionNode Ctx) : Prop :=
  ∀ c ∈ N.stratum.conns, c.ready = true → c.connId ∉ N.closing → ∀ p, c.pushed = some p →
    CommitsTo W.makeHeader N.bestTip p.job

/-- A window sync: a `shares` message. -/
def Event.IsShares : Event Ctx → Prop
  | .p2p _ (.receive _ msg _) => msg.kind = some .shares
  | _ => False

/-- The event leaves no job behind: a window sync none of whose shares overtakes the best tip, or a
push of a refresh that finds an address, if the connection was sent a job before. -/
def KeepsUp (W : Wiring Ctx) (N : ProductionNode Ctx) : Event Ctx → Prop
  | .p2p verifyIncoming (.receive _ msg clock) => msg.kind = some .shares →
      ∀ pairs, msg.shares.getD (.arr []) = .arr pairs →
        ¬P2PNode.OvertakesIn ⟨W.params, verifyIncoming, W.intOfStr⟩ N.p2p (pairs.take syncLimit)
          clock
  | .push i _ _ => ∀ c refresh, N.refresh.take i = some (c, refresh) →
      ∀ d ∈ N.stratum.conns, d.connId = c.connId → d.pushed ≠ none → d.workerAddress.getD [] ≠ []
  | _ => True

/-- Every open connection that was sent a job has one that commits to a candidate on the best tip,
or is still to be pushed to. -/
def Covered (W : Wiring Ctx) (N : ProductionNode Ctx) : Prop :=
  ∀ c ∈ N.stratum.conns, c.connId ∉ N.closing → ∀ p, c.pushed = some p →
    CommitsTo W.makeHeader N.bestTip p.job ∨ N.refresh.Due fun d => d.connId = c.connId

variable {W : Wiring Ctx} {N N' : ProductionNode Ctx} {e : Event Ctx}

lemma keepsUp_of_other (he : ¬e.IsShares) (hpush : ∀ i now factor, e ≠ .push i now factor) :
    KeepsUp W N e := by
  cases e with
  | p2p verifyIncoming e =>
      cases e with
      | receive peer msg clock => exact fun hkind => absurd hkind he
      | _ => trivial
  | push i now factor => exact absurd rfl (hpush i now factor)
  | _ => trivial

/-! ### Requests -/

/-- A window sync requests no refresh. -/
lemma refresh_of_shares (h : N.Wired W) (hstep : N.step W e = some N') (he : e.IsShares) :
    N'.refresh = N.refresh := by
  cases effect_of_step hstep with
  | p2p verifyIncoming e p2p own steps =>
      cases e with
      | receive peer msg clock =>
          have hsame := (P2PNode.accepted_of_shares (h.shared ▸ h.tipStored) he steps).1
          rw [refresh_withP2P, hsame, if_neg (Nat.lt_irrefl _)]
      | _ => exact absurd he id
  | _ => exact absurd he id

/-- Any other event that changes the best tip requests one. -/
lemma refresh_of_bestTip (h : N.Wired W) (hstep : N.step W e = some N') (he : ¬e.IsShares) :
    N'.bestTip = N.bestTip ∨ ∃ refresh : Coalescer (Connection Ctx),
      N'.refresh = refresh.request ∧ refresh.requests = N.refresh.requests := by
  cases effect_of_step hstep with
  | pool e pool own steps =>
      rcases PoolNode.bestTip_of_step h.tipStored steps own with hsame | hrefresh
      · exact Or.inl (by rw [bestTip, pool_withPool, hsame]; rfl)
      · exact Or.inr ⟨N.refresh, by rw [refresh_withPool, if_pos hrefresh], rfl⟩
  | p2p verifyIncoming e p2p own steps =>
      rcases P2PNode.bestTip_of_step (h.shared ▸ h.tipStored) steps own
        (fun peer msg clock heq hkind => he (by rw [heq]; exact hkind)) with hsame | haccepted
      · exact Or.inl (by rw [bestTip, pool_withP2P, hsame, h.shared]; rfl)
      · exact Or.inr ⟨N.refresh, by rw [refresh_withP2P, if_pos haccepted], rfl⟩
  | polled template => exact Or.inr ⟨N.refresh, rfl, rfl⟩
  | pushed connId now factor c found N' push =>
      exact Or.inl (h.pushJob (h.eq_of_found found) push).2.bestTip
  | served i now factor c refresh takes =>
      have hwired : Wired W { N with refresh } := h.of_same rfl rfl rfl
      rcases (hwired.push c now factor).2 with hout | hclosed
      · exact Or.inl hout.bestTip
      · exact Or.inl (by rw [hclosed]; rfl)
  | _ => exact Or.inl rfl

/-! ### What is left to push -/

lemma covered_of_request {refresh : Coalescer (Connection Ctx)}
    (h : N.refresh = refresh.request) : N.Covered W := by
  intro c _ _ p _
  rw [h]
  exact Or.inr (Coalescer.due_request _ _)

/-- Connections that were sent what they had been sent before stay covered. -/
lemma Covered.of_conns (h : N.Covered W) (hbest : N'.bestTip = N.bestTip)
    (hclosing : N.closing ⊆ N'.closing) (hrefresh : N'.refresh = N.refresh)
    (hconns : ∀ d ∈ N'.stratum.conns, ∀ p, d.pushed = some p →
      ∃ c ∈ N.stratum.conns, c.connId = d.connId ∧ c.pushed = some p) : N'.Covered W := by
  intro d hd hopen p hp
  obtain ⟨c, hc, hid, hcp⟩ := hconns d hd p hp
  rw [hbest, hrefresh, ← hid]
  exact h c hc (fun hmem => hopen (hclosing (hid ▸ hmem))) p hcp

/-- Every connection that was sent a job is one a refresh starts with. -/
lemma mem_readyConns (h : N.Wired W) {c : Connection Ctx} (hc : c ∈ N.stratum.conns)
    {p : Pushed Ctx} (hp : c.pushed = some p) :
    ∃ d ∈ N.readyConns, d.connId = c.connId :=
  ⟨c, List.mem_filter.mpr ⟨hc, h.sound.ready c hc (by rw [hp]; exact Option.some_ne_none p)⟩, rfl⟩

/-- A push of a refresh leaves the connections covered. -/
lemma Covered.push (h : N.Covered W) (hw : N.Wired W) {i : ℕ} {c : Connection Ctx}
    {refresh : Coalescer (Connection Ctx)} (htake : N.refresh.take i = some (c, refresh)) (now : ℚ)
    (factor : ℕ+) (haddr : ∀ d ∈ N.stratum.conns, d.connId = c.connId → d.pushed ≠ none →
      d.workerAddress.getD [] ≠ []) : Covered W ({ N with refresh }.push W c now factor) := by
  have hwired : Wired W { N with refresh } := hw.of_same rfl rfl rfl
  -- the others are due as before
  have hother : ∀ d ∈ N.stratum.conns, d.connId ∉ N.closing → d.connId ≠ c.connId → ∀ p,
      d.pushed = some p → CommitsTo W.makeHeader N.bestTip p.job
        ∨ refresh.Due fun a => a.connId = d.connId :=
    fun d hd hopen hne p hp => (h d hd hopen p hp).imp id fun hdue =>
      hdue.take htake fun hid => hne hid.symm
  have hpush := (hwired.push c now factor).2
  generalize ProductionNode.push W { N with refresh } c now factor = N' at hpush ⊢
  rcases hpush with hout | rfl
  · cases hout with
    | sent stratum p conns commits =>
        intro d' hd' hopen q hq
        rw [conns] at hd'
        obtain ⟨d, hd, rfl⟩ := List.mem_map.mp hd'
        split_ifs at hopen hq ⊢ with hid
        · cases hq
          exact Or.inl commits
        · exact hother d hd hopen (fun he => hid (he.trans (Wired.connId_current _ c).symm)) q hq
    | unanswered stratum conns unfit =>
        intro d hd hopen q hq
        rw [conns] at hd
        by_cases hid : d.connId = c.connId
        · have hsome : d.pushed ≠ none := by rw [hq]; exact Option.some_ne_none q
          rw [hwired.current_eq hd hid] at unfit
          rcases unfit (hw.sound.ready d hd hsome) with hnone | hempty
          · exact absurd hnone hw.template
          · exact absurd hempty (haddr d hd hid hsome)
        · exact hother d hd hopen hid q hq
  · intro d hd hopen q hq
    obtain ⟨hne, hopen'⟩ := not_or.mp (fun hmem => hopen (Finset.mem_insert.mpr hmem))
    exact hother d hd hopen' hne q hq

/-- **An event that keeps up** leaves the connections covered. -/
lemma Covered.step (h : N.Covered W) (hw : N.Wired W) (hkeeps : KeepsUp W N e)
    (hstep : N.step W e = some N') : N'.Covered W := by
  have hsame : ∀ d ∈ N.stratum.conns, ∀ p, d.pushed = some p →
      ∃ c ∈ N.stratum.conns, c.connId = d.connId ∧ c.pushed = some p :=
    fun d hd p hp => ⟨d, hd, rfl, hp⟩
  cases effect_of_step hstep with
  | pool e pool own steps =>
      rcases refresh_of_bestTip hw hstep id with hbest | ⟨refresh, hrefresh, -⟩
      · by_cases hcount : N.pool.scheduled.count .refresh < pool.scheduled.count .refresh
        · exact covered_of_request (by rw [refresh_withPool, if_pos hcount])
        · exact h.of_conns hbest (by simp) (by rw [refresh_withPool, if_neg hcount])
            (by simpa using hsame)
      · exact covered_of_request hrefresh
  | p2p verifyIncoming e p2p own steps =>
      by_cases haccepted : N.p2p.accepted.length < p2p.accepted.length
      · exact covered_of_request (by rw [refresh_withP2P, if_pos haccepted])
      · have htip : N.p2p.chain.TipStored := hw.shared ▸ hw.tipStored
        have hbest : p2p.chain.bestTip = N.p2p.chain.bestTip := by
          by_cases hshares : (Event.p2p verifyIncoming e : Event Ctx).IsShares
          · cases e with
            | receive peer msg clock =>
                exact (P2PNode.accepted_of_shares htip hshares steps).2 (hkeeps hshares)
            | _ => exact absurd hshares id
          · refine (P2PNode.bestTip_of_step htip steps own ?_).resolve_right haccepted
            rintro peer msg clock rfl
            exact hshares
        exact h.of_conns (by rw [bestTip, pool_withP2P, hbest, hw.shared]; rfl) (by simp)
          (by rw [refresh_withP2P, if_neg haccepted]) (by simpa using hsame)
  | polled template => exact covered_of_request rfl
  | stratum e stratum not_refresh not_push steps =>
      exact h.of_conns rfl (Finset.Subset.refl _) rfl
        (StratumServer.step_quiet hw.sound not_refresh not_push steps).2.2
  | pushed connId now factor c found N' push =>
      cases (hw.pushJob (hw.eq_of_found found) push).2 with
      | sent stratum p conns commits =>
          intro d' hd' hopen q hq
          rw [conns] at hd'
          obtain ⟨d, hd, rfl⟩ := List.mem_map.mp hd'
          split_ifs at hopen hq ⊢
          · cases hq
            exact Or.inl commits
          · exact h d hd hopen q hq
      | unanswered stratum conns unfit =>
          exact h.of_conns rfl (Finset.Subset.refl _) rfl fun d hd => hsame d (conns ▸ hd)
  | raised => exact h
  | closed connId => exact h.of_conns rfl (Finset.subset_insert _ _) rfl hsame
  | started refresh begins =>
      exact fun c hc _ p hp => Or.inr (Coalescer.due_of_begin begins (mem_readyConns hw hc hp))
  | served i now factor c refresh takes =>
      exact h.push hw takes now factor (hkeeps c refresh takes)
  | ended refresh finishes =>
      exact fun c hc hopen p hp => (h c hc hopen p hp).imp id fun hdue =>
        hdue.finish finishes (mem_readyConns hw hc hp)

/-- With no refresh task left, covered connections are up to date. -/
lemma Covered.upToDate (h : N.Covered W) (htask : N.refresh.task = none) : N.UpToDate W :=
  fun c hc _ hopen p hp =>
    (h c hc hopen p hp).resolve_right (Coalescer.not_due_of_none htask)

end ProductionNode

open ProductionNode in
/-- **When a new best tip gets the miners new jobs.**  In every reachable state, an event that
changes the best tip requests a stratum refresh, unless it is a window sync, which never does.  In
every run whose events all keep up, once the refresh task is done the job last pushed to every ready
connection commits to a candidate on the best tip. -/
theorem tip_change_reissues (W : Wiring Ctx) (template : ParentTemplate) (events : List (Event Ctx))
    (N : ProductionNode Ctx) (hrun : Machine.run (step W) (init template) events = some N) :
    (∀ e N', N.step W e = some N' → N'.bestTip ≠ N.bestTip →
        (N.refresh.requests < N'.refresh.requests ↔ ¬e.IsShares))
      ∧ (∀ e N', N.step W e = some N' → e.IsShares → N'.refresh = N.refresh)
      ∧ (Machine.Along (step W) (KeepsUp W) (init template) events → N.refresh.task = none →
        N.UpToDate W) := by
  have hw := wired_of_run hrun
  refine ⟨fun e N' hstep hne => ⟨fun hlt he => ?_, fun he => ?_⟩,
    fun e N' hstep he => refresh_of_shares hw hstep he, fun hkeeps htask => ?_⟩
  · rw [refresh_of_shares hw hstep he] at hlt
    exact Nat.lt_irrefl _ hlt
  · obtain ⟨refresh, hrefresh, hcount⟩ := (refresh_of_bestTip hw hstep he).resolve_left hne
    rw [hrefresh, Coalescer.requests_request, hcount]
    exact Nat.lt_succ_self _
  · have hcovered : N.Wired W ∧ N.Covered W := by
      refine Machine.run_invariant (I := fun N => N.Wired W ∧ N.Covered W)
        (fun M e M' hk hstep ⟨hM, hC⟩ => ⟨hM.step hstep, hC.step hM hk hstep⟩) hkeeps
        ⟨Wired.init template, fun c hc => by cases hc⟩ hrun
    exact hcovered.2.upToDate htask

/-! ### The first share -/

/-- A node whose verifiers accept one proof. -/
def firstWiring : Wiring Unit :=
  ⟨{}, oneProof [], fun _ _ _ => .ok ([], ()), minPayoutGrains, fun _ => .error .typeError⟩

/-- A miner connects, logs in and is sent the first job, and a peer connects. -/
def firstMiner : List (ProductionNode.Event Unit) :=
  [.stratum .connect,
    .stratum (.authorize 1 ("prl1".toList ++ List.replicate 50 'q') [] .object), .pushJob 1 0 1,
    .p2p (fun _ _ => .ok true) .connect]

/-- The peer announces a first share and proves it, and the refresh task lists the connections. -/
def firstTip : List (ProductionNode.Event Unit) :=
  [.p2p (fun _ _ => .ok true) (.receive 1 (Message.share (Bytes.hex firstCandidate.wire)).incoming
      fun _ => 0),
    .p2p (fun _ _ => .ok true) (.receive 1
      (Message.proof (doubleSha256 firstCandidate.wire).hex []).incoming fun _ => 0),
    .startRefresh]

/-- Every connection that was sent a job has an address. -/
def addressed (N : ProductionNode Unit) : Bool :=
  N.stratum.conns.all fun c => c.pushed.isNone || decide (c.workerAddress.getD [] ≠ [])

open ProductionNode in
/-- A miner's share becomes the best tip; after the refresh the miner has a job on it. -/
theorem tip_change_reissues_first : ∃ N, Machine.run (step firstWiring) (init firstTemplate)
      ((firstMiner ++ firstTip) ++ [.push 0 1 1, .endRefresh]) = some N
    ∧ N.bestTip = some (doubleSha256 firstCandidate.wire) ∧ N.UpToDate firstWiring := by
  have hrun : ((Machine.run (step firstWiring) (init firstTemplate) (firstMiner ++ firstTip)).map
        addressed = some true)
      ∧ (Machine.run (step firstWiring) (init firstTemplate)
        ((firstMiner ++ firstTip) ++ [.push 0 1 1, .endRefresh])).map
          (fun N => (N.bestTip, N.refresh.task.isNone))
        = some (some (doubleSha256 firstCandidate.wire), true) := by decide +kernel
  obtain ⟨N, hN, heq⟩ := Option.map_eq_some_iff.mp hrun.2
  have hkeeps : Machine.Along (step firstWiring) (KeepsUp firstWiring) (init firstTemplate)
      ((firstMiner ++ firstTip) ++ [.push 0 1 1, .endRefresh]) := by
    refine Machine.Along.append (Machine.along_of_forall fun M e he => ?_) fun M hM => ?_
    · simp only [firstMiner, firstTip, List.cons_append, List.nil_append, List.mem_cons,
        List.not_mem_nil, or_false] at he
      rcases he with rfl | rfl | rfl | rfl | rfl | rfl | rfl
      all_goals exact keepsUp_of_other (by simp [Event.IsShares, Message.incoming]) (by simp)
    · refine ⟨fun c refresh _ d hd _ hsent => ?_, fun _ _ => ⟨trivial, fun _ _ => trivial⟩⟩
      have haddressed := hrun.1
      rw [hM] at haddressed
      have hd' := List.all_eq_true.mp (Option.some.inj haddressed) d hd
      simpa [hsent] using hd'
  obtain ⟨hbest, htask⟩ := Prod.mk.inj heq
  exact ⟨N, hN, hbest, (tip_change_reissues firstWiring firstTemplate _ N hN).2.2 hkeeps
    (Option.isNone_iff_eq_none.mp htask)⟩

/-! ### A window sync -/

/-- The peer sends the first share in a window. -/
def firstWindow : ProductionNode.Event Unit :=
  .p2p (fun _ _ => .ok true)
    (.receive 1 (Message.shares [(Bytes.hex firstCandidate.wire, [])]).incoming fun _ => 0)

namespace ProductionNode

/-- Every background task is done. -/
structure Drained (N : ProductionNode Ctx) : Prop where
  refresh : N.refresh.task = none
  pool : N.pool.Drained
  relaying : N.p2p.relaying = []

/-- Some ready connection's last job is for another predecessor than the best tip. -/
def leftBehind (N : ProductionNode Ctx) : Bool :=
  N.stratum.conns.any fun c => c.ready && decide (c.connId ∉ N.closing) && match c.pushed with
    | some p => p.job.context.any fun context =>
        decide (context.candidate.prevShareId ≠ N.bestTip.getD genesisPrev)
    | none => false

lemma not_upToDate_of_leftBehind {W : Wiring Ctx} {N : ProductionNode Ctx}
    (h : N.leftBehind = true) : ¬N.UpToDate W := by
  intro hup
  obtain ⟨c, hc, hleft⟩ := List.any_eq_true.mp h
  simp only [Bool.and_eq_true, decide_eq_true_eq] at hleft
  obtain ⟨⟨hready, hopen⟩, hleft⟩ := hleft
  cases hp : c.pushed with
  | none => rw [hp] at hleft; cases hleft
  | some p =>
      rw [hp] at hleft
      obtain ⟨context, template, sid, hcontext, hprev, -⟩ := hup c hc hready hopen p hp
      simp only [hcontext, Option.any_some, decide_eq_true_eq] at hleft
      exact hleft hprev

end ProductionNode

open ProductionNode in
/-- **Work left behind**: the window requests no refresh, and the miner keeps its job. -/
theorem work_left_behind :
    (¬∀ (W : Wiring Unit) (template : ParentTemplate) (events : List (Event Unit))
        (N : ProductionNode Unit), Machine.run (step W) (init template) events = some N →
        ∀ e N', N.step W e = some N' → N'.bestTip ≠ N.bestTip →
          N.refresh.requests < N'.refresh.requests)
      ∧ ¬∀ (W : Wiring Unit) (template : ParentTemplate) (events : List (Event Unit))
        (N : ProductionNode Unit), Machine.run (step W) (init template) events = some N →
        N.Drained → N.UpToDate W := by
  have hrun : (Machine.run (step firstWiring) (init firstTemplate) firstMiner).map
        (fun N => (N.bestTip, N.refresh.requests)) = some (none, 0)
      ∧ (Machine.run (step firstWiring) (init firstTemplate) (firstMiner ++ [firstWindow])).map
        (fun N => (N.leftBehind, N.bestTip.isSome, N.refresh.requests, N.refresh.task.isNone
          && N.pool.validations.isEmpty && N.pool.followups.isEmpty
          && N.pool.assembler.waiting.isEmpty && N.pool.assembler.holder.isNone
          && N.p2p.relaying.isEmpty))
        = some (true, true, 0, true) := by decide +kernel
  obtain ⟨N', hN', heq⟩ := Option.map_eq_some_iff.mp hrun.2
  simp only [Prod.mk.injEq, Bool.and_eq_true, List.isEmpty_iff, Option.isNone_iff_eq_none] at heq
  obtain ⟨hleft, htip, hrequests, ⟨⟨⟨⟨hrefresh, hvs⟩, hfs⟩, hwaiting⟩, hholder⟩, hrelaying⟩ := heq
  obtain ⟨N, hN, hstep⟩ := Machine.run_concat_eq_some_iff.mp hN'
  constructor
  · intro h
    have hbefore := hrun.1
    rw [hN] at hbefore
    obtain ⟨hnone, hzero⟩ := Prod.mk.inj (Option.some.inj hbefore)
    have hlt := h firstWiring firstTemplate firstMiner N hN firstWindow N' hstep (fun he => by
      rw [he, hnone] at htip
      cases htip)
    omega
  · exact fun h => not_upToDate_of_leftBehind hleft
      (h firstWiring firstTemplate _ N' hN' ⟨hrefresh, ⟨hvs, hfs, hwaiting, hholder⟩, hrelaying⟩)

end P2Pearl
