import P2Pearl.Data.Coalesce
import P2Pearl.Daemon.Acceptable
import P2Pearl.Daemon.Accounting
import P2Pearl.Daemon.ProvedOnce
import P2Pearl.P2P.Overtake
import P2Pearl.Stratum.Server

/-!
The node `build_production_node` wires together: one sharechain, which the validations of a
`PoolNode` and the handlers of a `P2PNode` add to, and the stratum server whose jobs are built on
it.

* `ProductionNode`: the three parts, and the refresh task; `_refresh_task` and `_refresh_again` are
  a `Coalescer` of the connections whose `push_job` is still to come.
* `ProductionNode.step`: one event between two awaits.  The sends of a connection are in the order
  of its `push_job`s, since its send lock is fair; they may fail at any time.
* `Wired`: what holds of a node in every state.
-/

namespace P2Pearl

variable {Ctx : Type}

/-- What a production node is given. -/
structure Wiring (Ctx : Type) where
  params : Params
  adapters : Adapters Ctx
  makeHeader : MakeHeader Ctx
  minPayout : ℕ
  intOfStr : PyStr → Except PyError ℤ

/-- A production node; `pool.chain` and `p2p.chain` are the same sharechain. -/
structure ProductionNode (Ctx : Type) where
  pool : PoolNode Ctx
  p2p : P2PNode
  stratum : StratumServer Ctx
  /-- The connections whose writer is closing; they are removed when their reader ends. -/
  closing : Finset ℕ
  refresh : Coalescer (Connection Ctx)

namespace ProductionNode

/-- A new node, with the template `_serve` primes it with before it listens. -/
def init (template : ParentTemplate) : ProductionNode Ctx where
  pool := { PoolNode.init with assembler := Assembler.init.setTemplate template }
  p2p := .init
  stratum := .init (fun _ _ => none) 16
  closing := ∅
  refresh := .init

variable (W : Wiring Ctx) (N : ProductionNode Ctx)

/-- `best_tip_id`. -/
def bestTip : Option Hash32 := N.pool.chain.bestTip

/-- The connections `_broadcast` pushes to. -/
def readyConns : List (Connection Ctx) := N.stratum.conns.filter (·.ready)

/-- `_request_stratum_refresh`. -/
def requestStratumRefresh : ProductionNode Ctx := { N with refresh := N.refresh.request }

/-- The pool has taken a step; where it has scheduled a refresh, it has requested it. -/
def withPool (pool : PoolNode Ctx) : ProductionNode Ctx :=
  let N' := { N with pool, p2p := { N.p2p with chain := pool.chain } }
  if N.pool.scheduled.count .refresh < pool.scheduled.count .refresh then N'.requestStratumRefresh
  else N'

/-- The gossip layer has taken a step; where it has had a proof accepted, it has called
`_on_new_share`, which prints the payout statistics and requests a refresh. -/
def withP2P (p2p : P2PNode) : ProductionNode Ctx :=
  let N' := { N with p2p, pool := { N.pool with chain := p2p.chain } }
  if N.p2p.accepted.length < p2p.accepted.length then N'.requestStratumRefresh else N'

/-- `set_template`. -/
def setTemplate (template : ParentTemplate) : ProductionNode Ctx :=
  { N with pool := { N.pool with assembler := N.pool.assembler.setTemplate template } }

/-- `push_job` of a connection, which raises where `build_job_for` does.  `factor` is the target
factor of its worker. -/
def pushJob (c : Connection Ctx) (now : ℚ) (factor : ℕ+) : Except PyError (ProductionNode Ctx) :=
  if c.ready then
    (buildJobFor W.params N.pool.chain N.pool.assembler.template W.minPayout W.makeHeader factor now
      (c.workerAddress.getD [])).map fun spec =>
        { N with stratum := { N.stratum with jobBuilder := fun _ _ => spec }.pushJob c }
  else .ok N

/-- A connection as it is now, or as it was when it left. -/
def current (c : Connection Ctx) : Connection Ctx := (N.stratum.conn? c.connId).getD c

/-- The `push` of `_broadcast`, which closes a connection where `push_job` raises. -/
def push (c : Connection Ctx) (now : ℚ) (factor : ℕ+) : ProductionNode Ctx :=
  match N.pushJob W (N.current c) now factor with
  | .ok N' => N'
  | .error _ => { N with closing := insert c.connId N.closing }

/-- What can happen: something to the pool or the gossip layer, with what `verify_incoming` answers
meanwhile; the poll loop reads a template it refreshes for; a request of a miner, the `push_job` at
the end of it, or a connection that is closed; or the refresh task goes on. -/
inductive Event (Ctx : Type) where
  | pool (e : PoolNode.Event Ctx)
  | p2p (verifyIncoming : ShareBlock → Json → Except PyError Bool) (e : P2PNode.Event)
  | poll (template : ParentTemplate)
  | stratum (e : StratumServer.Event Ctx)
  | pushJob (connId : ℕ) (now : ℚ) (factor : ℕ+)
  | close (connId : ℕ)
  | startRefresh
  | push (i : ℕ) (now : ℚ) (factor : ℕ+)
  | endRefresh

/-- One event, where it can happen. -/
def step : Event Ctx → Option (ProductionNode Ctx)
  -- the gossip layer adds to the sharechain itself, and the poll loop sets the template
  | .pool (.addShare _) | .pool (.assembler (.setTemplate _)) => none
  | .pool e => (PoolNode.step W.params W.adapters N.pool e).map N.withPool
  -- the pool adds to the sharechain itself
  | .p2p _ (.submit _) => none
  | .p2p verifyIncoming e =>
      (P2PNode.step ⟨W.params, verifyIncoming, W.intOfStr⟩ N.p2p e).map N.withP2P
  | .poll template => some (N.setTemplate template).requestStratumRefresh
  -- jobs are pushed with what the builder answers then
  | .stratum (.push _) | .stratum .refresh | .stratum (.setJobBuilder _) => none
  | .stratum e => (N.stratum.step e).map fun stratum => { N with stratum }
  | .pushJob connId now factor =>
      (N.stratum.conn? connId).map fun c => (N.pushJob W c now factor).toOption.getD N
  | .close connId => some { N with closing := insert connId N.closing }
  | .startRefresh => (N.refresh.begin N.readyConns).map fun refresh => { N with refresh }
  | .push i now factor =>
      (N.refresh.take i).map fun (c, refresh) => { N with refresh }.push W c now factor
  | .endRefresh => (N.refresh.finish N.readyConns).map fun refresh => { N with refresh }

end ProductionNode

/-! ### The pool -/

namespace PoolNode

variable {P : Params} {adapters : Adapters Ctx} {N N' : PoolNode Ctx} {e : Event Ctx}

/-- A verified validation requests a refresh where it changes the best tip. -/
lemma addVerified_refresh (htip : N.chain.TipStored) (broadcastShare : Bool) (v : Validation Ctx)
    (now : ℚ) (vardiffChanged : Bool) :
    (addVerified P broadcastShare N v now vardiffChanged).chain.bestTip = N.chain.bestTip
      ∨ N.scheduled.count .refresh
        < (addVerified P broadcastShare N v now vardiffChanged).scheduled.count .refresh := by
  rw [addVerified]
  split
  · exact Or.inl rfl
  · rename_i proof _
    have hreports := addShare_reports (P := P) htip ⟨v.context.candidate, true, some proof, now⟩
    split
    · rename_i chain isBestTip reason heq
      rw [heq] at hreports
      cases hbest : isBestTip with
      | true =>
          refine Or.inr ?_
          cases broadcastShare <;> simp
      | false =>
          have hsame := (hreports.1 _ rfl).1
          rw [hbest] at hsame
          exact Or.inl (not_not.mp fun hne => Bool.false_ne_true (hsame.mpr hne))
    · rename_i chain r hnot heq
      rw [heq] at hreports
      refine Or.inl (congrArg Sharechain.bestTip (hreports.2 ?_))
      rintro ⟨⟨accepted, isBestTip, reason⟩, hr, haccepted⟩
      cases hr
      cases haccepted
      exact hnot _ _ rfl

/-- **An event** of the pool requests a refresh where it changes the best tip. -/
lemma bestTip_of_step (htip : N.chain.TipStored) (hstep : PoolNode.step P adapters N e = some N')
    (hadd : ∀ call, e ≠ .addShare call) :
    N'.chain.bestTip = N.chain.bestTip
      ∨ N.scheduled.count .refresh < N'.scheduled.count .refresh := by
  cases effect_of_step hstep with
  | started submission context shareId job id fresh after => exact Or.inl (by rw [after])
  | completed i now vardiffChanged v mem after =>
      rw [after, finishValidation]
      split
      · exact addVerified_refresh (N := { N with validations := N.validations.eraseIdx i }) htip
          adapters.broadcastShare v now vardiffChanged
      · exact Or.inl rfl
  | elsewhere other pending validations scheduled chain =>
      rcases chain with hsame | ⟨call, he, -⟩
      · exact Or.inl (congrArg Sharechain.bestTip hsame)
      · exact absurd he (hadd call)

/-- A template is only ever replaced by another. -/
lemma template_of_step (hstep : PoolNode.step P adapters N e = some N')
    (h : N.assembler.template ≠ none) : N'.assembler.template ≠ none := by
  refine assembler_preserves (I := fun A => A.template ≠ none) (fun A e A' hA h => ?_) hstep h
  cases Assembler.effect_of_step hA with
  | setTemplate template => rw [Assembler.setTemplate]; split_ifs <;> simp
  | call | preAssembled | preRaised | postRaised | broadcasted => exact h
  | acquire a rest free first => rw [Assembler.locked]; split_ifs <;> exact h
  | assembled a held block =>
      rw [Assembler.assembled]
      split_ifs
      · exact h
      · cases block <;> exact h
  | postAssembled a block held u => cases block <;> exact h
  | submitted a block held outcome =>
      cases outcome with
      | error error => exact h
      | ok result =>
          rw [Assembler.submitted]
          dsimp only
          split_ifs <;> exact h

end PoolNode

/-! ### Pushing a job -/

/-- The job commits to a candidate on that best tip: its header was built for the id of one. -/
def CommitsTo (makeHeader : MakeHeader Ctx) (bestTip : Option Hash32) (job : StratumJob Ctx) :
    Prop :=
  ∃ context template sid, job.context = some context
    ∧ context.candidate.prevShareId = bestTip.getD genesisPrev
    ∧ context.candidate.shareId = .ok sid
    ∧ makeHeader template context.payouts sid = .ok (job.incompleteHeader, context.headerCtx)

/-- A job that is built and minted commits to a candidate on the best tip. -/
lemma commitsTo_of_job {P : Params} {calls : List Call} {template : Option ParentTemplate}
    {minPayout : ℕ} {makeHeader : MakeHeader Ctx} {factor : ℕ+} {now : ℚ} {addr : PyStr}
    {job : Job Ctx}
    (h : buildJobFor P (run P calls).chain template minPayout makeHeader factor now addr
      = .ok (some job)) (jobId : PyStr) :
    CommitsTo makeHeader (run P calls).chain.bestTip (job.mint jobId) := by
  obtain ⟨t, -, hjob⟩ := jobFor_of_buildJobFor h
  obtain ⟨prev, limit, payoutSet, sid, hprev, -, -, hdata, hid, hmake, -, -, hpayouts, -⟩ :=
    jobFor_eq_ok_iff.mp hjob
  refine ⟨job.context, { t with curtime := shareTimestamp (run P calls).chain t now }, sid, rfl, ?_,
    hid, ?_⟩
  · rw [hdata]
    exact Except.ok.inj (hprev.symm.trans (nextPrev_run calls))
  · rw [hpayouts]
    exact hmake

namespace StratumServer

variable {S : StratumServer Ctx} {c d : Connection Ctx}

/-- The id of a connection finds it. -/
lemma conn?_of_mem (h : S.Sound) (hd : d ∈ S.conns) : S.conn? d.connId = some d := by
  cases hc : S.conn? d.connId with
  | none => exact absurd (List.find?_eq_none.mp hc d hd) (by simp)
  | some c =>
      have hid : c.connId = d.connId := by simpa using List.find?_some hc
      rw [List.inj_on_of_nodup_map h.ids (List.mem_of_find?_eq_some hc) hd hid]

/-- Pushing to a connection, if it is still there, keeps a server sound. -/
lemma Sound.pushJob (h : S.Sound) (hmax : S.registry.max < 2 ^ 16)
    (hc : ∀ d ∈ S.conns, d.connId = c.connId → d = c) :
    (S.pushJob c).Sound ∧ (S.pushJob c).registry.max = S.registry.max := by
  have hone : ([c].map Connection.connId).Nodup := List.nodup_singleton _
  obtain ⟨f, hf⟩ := pushAll_pushes hmax h.keeps hone
  refine ⟨h.pushes hf fun a ha d hd hid => ?_, hf.max⟩
  obtain ⟨hmem, hserves⟩ := List.mem_filter.mp ha
  cases List.mem_singleton.mp hmem
  rw [hc d hd hid.symm]
  exact (Bool.and_eq_true_iff.mp hserves).1

/-- A ready connection the builder answers for is sent what it answers. -/
lemma conns_pushJob {spec : Job Ctx} (hready : c.ready = true)
    (hspec : S.jobBuilder c.workerAddress c.workerLabel = some spec) :
    ∃ p, (S.pushJob c).conns = S.conns.map (fun d => if d.connId = c.connId then
        { d with pushed := some p } else d) ∧ ∃ jobId, p.job = spec.mint jobId := by
  rw [pushJob, if_pos hready, mintJobFor, hspec]
  exact ⟨_, rfl, _, rfl⟩

end StratumServer

namespace ProductionNode

variable {W : Wiring Ctx} {N N' : ProductionNode Ctx} {c d : Connection Ctx} {now : ℚ}
  {factor : ℕ+}

/-- What `push_job` of the connection `c` makes of a node: it is sent a job that commits to a
candidate on the best tip, or there is no template or no address to build one for. -/
inductive PushOutcome (W : Wiring Ctx) (N : ProductionNode Ctx) (c : Connection Ctx) :
    ProductionNode Ctx → Prop
  | sent (stratum : StratumServer Ctx) (p : Pushed Ctx)
      (conns : stratum.conns = N.stratum.conns.map fun d => if d.connId = c.connId then
        { d with pushed := some p } else d)
      (commits : CommitsTo W.makeHeader N.bestTip p.job) :
      PushOutcome W N c { N with stratum }
  | unanswered (stratum : StratumServer Ctx) (conns : stratum.conns = N.stratum.conns)
      (unfit : c.ready = true → N.pool.assembler.template = none ∨ c.workerAddress.getD [] = []) :
      PushOutcome W N c { N with stratum }

lemma PushOutcome.bestTip (h : PushOutcome W N c N') : N'.bestTip = N.bestTip := by
  cases h <;> rfl

/-- What holds of a node in every state: it has one sharechain, which calls of `add_share` have led
to, and a template, and its stratum server is sound. -/
structure Wired (W : Wiring Ctx) (N : ProductionNode Ctx) : Prop where
  reached : ∃ calls, N.pool.chain = (run W.params calls).chain
  shared : N.p2p.chain = N.pool.chain
  template : N.pool.assembler.template ≠ none
  sound : N.stratum.Sound
  max : N.stratum.registry.max = 16

namespace Wired

lemma tipStored (h : N.Wired W) : N.pool.chain.TipStored := by
  obtain ⟨calls, hcalls⟩ := h.reached
  exact hcalls ▸ run_tipStored calls

lemma current_eq (h : N.Wired W) (hd : d ∈ N.stratum.conns) (hid : d.connId = c.connId) :
    N.current c = d := by
  rw [current, ← hid, StratumServer.conn?_of_mem h.sound hd]
  rfl

lemma connId_current (N : ProductionNode Ctx) (c : Connection Ctx) :
    (N.current c).connId = c.connId := by
  rw [current]
  cases hc : N.stratum.conn? c.connId with
  | none => rfl
  | some d => simpa using List.find?_some hc

lemma eq_of_found (h : N.Wired W) {connId : ℕ} (hc : N.stratum.conn? connId = some c) :
    ∀ d ∈ N.stratum.conns, d.connId = c.connId → d = c := by
  intro d hd hid
  have hcid : c.connId = connId := by simpa using List.find?_some hc
  have hfound := StratumServer.conn?_of_mem h.sound hd
  rw [hid, hcid, hc] at hfound
  exact (Option.some.inj hfound).symm

/-- A change of the pool that leaves the sharechain as it is, or of the stratum server that leaves
it sound. -/
lemma congr (h : N.Wired W) (hchain : N'.pool.chain = N.pool.chain)
    (hshared : N'.p2p.chain = N.p2p.chain) (htemplate : N'.pool.assembler.template ≠ none)
    (hsound : N'.stratum.Sound) (hmax : N'.stratum.registry.max = N.stratum.registry.max) :
    N'.Wired W :=
  ⟨hchain ▸ h.reached, by rw [hshared, hchain, h.shared], htemplate, hsound, hmax.trans h.max⟩

/-- A change that the invariant does not depend on. -/
lemma of_same (h : N.Wired W) (hpool : N'.pool = N.pool) (hp2p : N'.p2p = N.p2p)
    (hstratum : N'.stratum = N.stratum) : N'.Wired W :=
  h.congr (by rw [hpool]) (by rw [hp2p]) (hpool ▸ h.template) (hstratum ▸ h.sound)
    (by rw [hstratum])

/-- **`push_job`**, where it does not raise. -/
lemma pushJob (h : N.Wired W) (hc : ∀ d ∈ N.stratum.conns, d.connId = c.connId → d = c)
    (hpush : N.pushJob W c now factor = .ok N') : N'.Wired W ∧ PushOutcome W N c N' := by
  have hmax : N.stratum.registry.max < 2 ^ 16 := by rw [h.max]; norm_num
  rw [ProductionNode.pushJob] at hpush
  split_ifs at hpush with hready
  · obtain ⟨spec, hspec, rfl⟩ := map_eq_ok_iff.mp hpush
    have hbuilder : StratumServer.Sound { N.stratum with jobBuilder := fun _ _ => spec } :=
      ⟨h.sound.keeps, h.sound.ids, h.sound.fresh, h.sound.ready, h.sound.pushed⟩
    obtain ⟨hsound, hsame⟩ := hbuilder.pushJob hmax hc
    refine ⟨h.congr rfl rfl h.template hsound hsame, ?_⟩
    cases spec with
    | none =>
        refine .unanswered _ ?_ fun _ => ?_
        · rw [StratumServer.pushJob_of_not_serves (by simp [StratumServer.Serves])]
        · cases htemplate : N.pool.assembler.template with
          | none => exact Or.inl rfl
          | some t =>
              rw [htemplate, buildJobFor] at hspec
              split_ifs at hspec with haddr
              · exact Or.inr haddr
              · obtain ⟨job, -, hjob⟩ := map_eq_ok_iff.mp hspec
                cases hjob
    | some job =>
        obtain ⟨p, hconns, jobId, hjob⟩ := StratumServer.conns_pushJob
          (S := { N.stratum with jobBuilder := fun _ _ => some job }) hready rfl
        obtain ⟨calls, hcalls⟩ := h.reached
        refine .sent _ p hconns ?_
        rw [hjob, bestTip, hcalls]
        rw [hcalls] at hspec
        exact commitsTo_of_job hspec jobId
  · cases hpush
    exact ⟨h, .unanswered N.stratum rfl fun hready' => absurd hready' hready⟩

/-- The `push` of a refresh: it does what `push_job` does, or closes the connection. -/
lemma push (h : N.Wired W) (c : Connection Ctx) (now : ℚ) (factor : ℕ+) :
    (N.push W c now factor).Wired W
      ∧ (PushOutcome W N (N.current c) (N.push W c now factor)
        ∨ N.push W c now factor = { N with closing := insert c.connId N.closing }) := by
  rw [ProductionNode.push]
  cases hpush : N.pushJob W (N.current c) now factor with
  | error e => exact ⟨h.of_same rfl rfl rfl, Or.inr rfl⟩
  | ok N' =>
      obtain ⟨hwired, hout⟩ := h.pushJob (fun d hd hid =>
        (h.current_eq hd (hid.trans (connId_current N c))).symm) hpush
      exact ⟨hwired, Or.inl hout⟩

end Wired

/-! ### One event -/

section With

variable (N) (pool : PoolNode Ctx) (p2p : P2PNode)

@[simp] lemma pool_withPool : (N.withPool pool).pool = pool := by
  rw [withPool]; dsimp only; split_ifs <;> rfl

@[simp] lemma p2p_withPool : (N.withPool pool).p2p = { N.p2p with chain := pool.chain } := by
  rw [withPool]; dsimp only; split_ifs <;> rfl

@[simp] lemma stratum_withPool : (N.withPool pool).stratum = N.stratum := by
  rw [withPool]; dsimp only; split_ifs <;> rfl

@[simp] lemma closing_withPool : (N.withPool pool).closing = N.closing := by
  rw [withPool]; dsimp only; split_ifs <;> rfl

lemma refresh_withPool : (N.withPool pool).refresh
    = if N.pool.scheduled.count .refresh < pool.scheduled.count .refresh then N.refresh.request
      else N.refresh := by
  rw [withPool]; dsimp only; split_ifs <;> rfl

@[simp] lemma pool_withP2P : (N.withP2P p2p).pool = { N.pool with chain := p2p.chain } := by
  rw [withP2P]; dsimp only; split_ifs <;> rfl

@[simp] lemma p2p_withP2P : (N.withP2P p2p).p2p = p2p := by
  rw [withP2P]; dsimp only; split_ifs <;> rfl

@[simp] lemma stratum_withP2P : (N.withP2P p2p).stratum = N.stratum := by
  rw [withP2P]; dsimp only; split_ifs <;> rfl

@[simp] lemma closing_withP2P : (N.withP2P p2p).closing = N.closing := by
  rw [withP2P]; dsimp only; split_ifs <;> rfl

lemma refresh_withP2P : (N.withP2P p2p).refresh
    = if N.p2p.accepted.length < p2p.accepted.length then N.refresh.request else N.refresh := by
  rw [withP2P]; dsimp only; split_ifs <;> rfl

end With

/-- What an event makes of a node. -/
inductive Effect (W : Wiring Ctx) (N : ProductionNode Ctx) :
    Event Ctx → ProductionNode Ctx → Prop
  | pool (e : PoolNode.Event Ctx) (pool : PoolNode Ctx) (own : ∀ call, e ≠ .addShare call)
      (steps : PoolNode.step W.params W.adapters N.pool e = some pool) :
      Effect W N (.pool e) (N.withPool pool)
  | p2p (verifyIncoming : ShareBlock → Json → Except PyError Bool) (e : P2PNode.Event)
      (p2p : P2PNode) (own : ∀ call, e ≠ .submit call)
      (steps : P2PNode.step ⟨W.params, verifyIncoming, W.intOfStr⟩ N.p2p e = some p2p) :
      Effect W N (.p2p verifyIncoming e) (N.withP2P p2p)
  | polled (template : ParentTemplate) :
      Effect W N (.poll template) (N.setTemplate template).requestStratumRefresh
  | stratum (e : StratumServer.Event Ctx) (stratum : StratumServer Ctx)
      (not_refresh : e ≠ .refresh) (not_push : ∀ connId, e ≠ .push connId)
      (steps : N.stratum.step e = some stratum) : Effect W N (.stratum e) { N with stratum }
  | pushed (connId : ℕ) (now : ℚ) (factor : ℕ+) (c : Connection Ctx)
      (found : N.stratum.conn? connId = some c) (N' : ProductionNode Ctx)
      (push : N.pushJob W c now factor = .ok N') : Effect W N (.pushJob connId now factor) N'
  | raised (connId : ℕ) (now : ℚ) (factor : ℕ+) : Effect W N (.pushJob connId now factor) N
  | closed (connId : ℕ) :
      Effect W N (.close connId) { N with closing := insert connId N.closing }
  | started (refresh : Coalescer (Connection Ctx))
      (begins : N.refresh.begin N.readyConns = some refresh) :
      Effect W N .startRefresh { N with refresh }
  | served (i : ℕ) (now : ℚ) (factor : ℕ+) (c : Connection Ctx)
      (refresh : Coalescer (Connection Ctx)) (takes : N.refresh.take i = some (c, refresh)) :
      Effect W N (.push i now factor) ({ N with refresh }.push W c now factor)
  | ended (refresh : Coalescer (Connection Ctx))
      (finishes : N.refresh.finish N.readyConns = some refresh) :
      Effect W N .endRefresh { N with refresh }

/-- **An event** has one of these effects. -/
lemma effect_of_step {e : Event Ctx} (hstep : N.step W e = some N') : Effect W N e N' := by
  unfold step at hstep
  split at hstep
  · cases hstep
  · cases hstep
  · rename_i e hadd _
    obtain ⟨pool, hpool, rfl⟩ := Option.map_eq_some_iff.mp hstep
    exact .pool e pool (fun call he => hadd call (by rw [he])) hpool
  · cases hstep
  · rename_i verifyIncoming e hsubmit
    obtain ⟨p2p, hp2p, rfl⟩ := Option.map_eq_some_iff.mp hstep
    exact .p2p verifyIncoming e p2p (fun call he => hsubmit call he) hp2p
  · cases hstep
    exact .polled _
  · cases hstep
  · cases hstep
  · cases hstep
  · rename_i e hpush hrefresh hbuilder
    obtain ⟨stratum, hstratum, rfl⟩ := Option.map_eq_some_iff.mp hstep
    exact .stratum e stratum (fun he => hrefresh (by rw [he]))
      (fun connId he => hpush connId (by rw [he])) hstratum
  · rename_i connId now factor
    obtain ⟨c, hc, rfl⟩ := Option.map_eq_some_iff.mp hstep
    cases hpush : N.pushJob W c now factor with
    | error e => exact .raised connId now factor
    | ok N' => exact .pushed connId now factor c hc N' hpush
  · cases hstep
    exact .closed _
  · obtain ⟨refresh, hbegin, rfl⟩ := Option.map_eq_some_iff.mp hstep
    exact .started refresh hbegin
  · obtain ⟨⟨c, refresh⟩, htake, rfl⟩ := Option.map_eq_some_iff.mp hstep
    exact .served _ _ _ c refresh htake
  · obtain ⟨refresh, hfinish, rfl⟩ := Option.map_eq_some_iff.mp hstep
    exact .ended refresh hfinish

/-- It holds of a new node. -/
lemma Wired.init (template : ParentTemplate) : (init template : ProductionNode Ctx).Wired W where
  reached := ⟨[], rfl⟩
  shared := rfl
  template := by rw [ProductionNode.init, Assembler.setTemplate]; split_ifs <;> simp
  sound := .init _ 16
  max := rfl

/-- **Every event** keeps it. -/
lemma Wired.step (h : N.Wired W) {e : Event Ctx} (hstep : N.step W e = some N') : N'.Wired W := by
  have hadd : ∀ C call, (∃ calls, C = (run W.params calls).chain) →
      ∃ calls, (addShare W.params C call).1 = (run W.params calls).chain := by
    rintro C call ⟨calls, rfl⟩
    exact ⟨calls ++ [call], by rw [run_append, step_chain]⟩
  cases effect_of_step hstep with
  | pool e pool own steps =>
      refine ⟨?_, by simp, ?_, by simpa using h.sound, by simpa using h.max⟩
      · rw [pool_withPool]
        rcases PoolNode.step_chain steps with hsame | ⟨call, hcall⟩
        · exact hsame ▸ h.reached
        · exact hcall ▸ hadd _ call h.reached
      · rw [pool_withPool]
        exact PoolNode.template_of_step steps h.template
  | p2p verifyIncoming e p2p own steps =>
      refine ⟨?_, by simp, by simpa using h.template, by simpa using h.sound, by simpa using h.max⟩
      rw [pool_withP2P]
      have hreached : ∃ calls, N.p2p.chain = (run W.params calls).chain := by
        rw [h.shared]; exact h.reached
      refine @P2PNode.chain_of_step ⟨W.params, verifyIncoming, W.intOfStr⟩ N.p2p p2p
        (fun C => ∃ calls, C = (run W.params calls).chain) ?_ hadd hreached e steps
      rintro C ⟨calls, rfl⟩
      exact run_tipStored calls
  | polled template =>
      refine h.congr rfl rfl ?_ h.sound rfl
      rw [requestStratumRefresh, setTemplate, Assembler.setTemplate]
      split_ifs <;> simp
  | stratum e stratum not_refresh not_push steps =>
      obtain ⟨hsound, hquiet, -⟩ := StratumServer.step_quiet h.sound not_refresh not_push steps
      exact h.congr rfl rfl h.template hsound (by rw [hquiet.registry])
  | pushed connId now factor c found N' push => exact (h.pushJob (h.eq_of_found found) push).1
  | raised | closed | started | ended => exact h.of_same rfl rfl rfl
  | served i now factor c refresh takes =>
      have hsame : Wired W { N with refresh } := h.of_same rfl rfl rfl
      exact (hsame.push c now factor).1

/-- It holds in every state. -/
lemma wired_of_run {template : ParentTemplate} {events : List (Event Ctx)}
    (hrun : Machine.run (fun N => N.step W) (init template) events = some N) : N.Wired W :=
  Machine.run_preserves (fun _ _ _ hstep h => Wired.step h hstep) (Wired.init template) hrun

end ProductionNode

end P2Pearl
