import P2Pearl.Stratum.Replies

/-!
Whose work a submission is.

* `lastLogin`: the worker a connection has last logged in as.
* `Grows`: what an event does to the server: connections keep their workers, or get the one that
  logs in, and the jobs minted are for workers of connections.
* `submissions_credited`: in every run, a submission that is handed on is for one of the last jobs,
  built for a worker who had logged in, and on the account of the worker its own connection has last
  logged in as.
-/

namespace P2Pearl

variable {Ctx : Type}

/-- The worker of an event, where it is an authorization of the connection. -/
def ServiceEvent.logsIn (codec : Codec) (i : ℕ) : ServiceEvent Ctx → Option (Option PyStr × PyStr)
  | .line connId text =>
      if connId = i ∧ isBlank text = false then loginOf codec text else none
  | _ => none

/-- The worker a connection has last logged in as; at first no one. -/
def lastLogin (codec : Codec) (i : ℕ) (es : List (ServiceEvent Ctx)) : Option PyStr × PyStr :=
  (es.filterMap (·.logsIn codec i)).getLast?.getD (none, "default".toList)

lemma lastLogin_concat {codec : Codec} {i : ℕ} {es : List (ServiceEvent Ctx)}
    {e : ServiceEvent Ctx} :
    lastLogin codec i (es ++ [e]) = (e.logsIn codec i).getD (lastLogin codec i es) := by
  rw [lastLogin, List.filterMap_append]
  cases h : e.logsIn codec i with
  | none => simp [h, lastLogin]
  | some worker => simp [h]

namespace Service

variable {codec : Codec} {S T S' : Service Ctx} {c : Connection Ctx} {i : ℕ} {line : Bytes}
  {id : Json} {frame : Frame} {next : Waiting Ctx} {A B C : StratumServer Ctx}
  {login : ℕ → Option (Option PyStr × PyStr)}

/-- The server only grows: a connection keeps its worker, or gets the one that logs in, and a new
job is one the job builder has answered for the worker of a connection. -/
structure Grows (login : ℕ → Option (Option PyStr × PyStr)) (A B : StratumServer Ctx) : Prop where
  minted : ∃ jobs, B.minted = A.minted ++ jobs ∧ ∀ job ∈ jobs, ∃ c ∈ A.conns, ∃ spec,
    A.jobBuilder c.workerAddress c.workerLabel = some spec ∧ job = spec.mint job.jobId
  conns : ∀ d ∈ B.conns, ∃ c ∈ A.conns, d.connId = c.connId
    ∧ d.worker = (login c.connId).getD c.worker
  builder : B.jobBuilder = A.jobBuilder
  max : B.registry.max = A.registry.max
  keeps : A.registry.max < 2 ^ 16 → Keeps A.registry A.minted → Keeps B.registry B.minted

lemma Grows.refl (A : StratumServer Ctx) : Grows (fun _ => none) A A :=
  ⟨⟨[], by simp, by simp⟩, fun d hd => ⟨d, hd, rfl, rfl⟩, rfl, rfl, fun _ h => h⟩

/-- What keeps everything but connections that go. -/
lemma Grows.of_subset (h : Grows login A B) (hconns : C.conns ⊆ B.conns)
    (hregistry : C.registry = B.registry) (hminted : C.minted = B.minted)
    (hbuilder : C.jobBuilder = B.jobBuilder) : Grows login A C :=
  ⟨hminted ▸ h.minted, fun d hd => h.conns d (hconns hd), hbuilder.trans h.builder,
    hregistry ▸ h.max, by rw [hregistry, hminted]; exact h.keeps⟩

/-- One growth after the other, where nobody logs in. -/
lemma Grows.trans (h : Grows (fun _ => none) A B) (h' : Grows (fun _ => none) B C) :
    Grows (fun _ => none) A C := by
  obtain ⟨jobs, hjobs, hbuilt⟩ := h.minted
  obtain ⟨more, hmore, hbuilt'⟩ := h'.minted
  refine ⟨⟨jobs ++ more, by rw [hmore, hjobs, List.append_assoc], fun job hjob => ?_⟩,
    fun d hd => ?_, h'.builder.trans h.builder, h'.max.trans h.max,
    fun hmax hkeeps => h'.keeps (h.max ▸ hmax) (h.keeps hmax hkeeps)⟩
  · rcases List.mem_append.mp hjob with hjob | hjob
    · exact hbuilt job hjob
    · obtain ⟨d, hd, spec, hspec, hmint⟩ := hbuilt' job hjob
      obtain ⟨c, hc, -, hworker⟩ := h.conns d hd
      obtain ⟨haddr, hlabel⟩ := Prod.mk.inj hworker
      rw [h.builder, haddr, hlabel] at hspec
      exact ⟨c, hc, spec, hspec, hmint⟩
  · obtain ⟨d', hd', hid, hworker⟩ := h'.conns d hd
    obtain ⟨c, hc, hid', hworker'⟩ := h.conns d' hd'
    exact ⟨c, hc, hid.trans hid', hworker.trans hworker'⟩

/-- A push mints a job for the worker of its connection. -/
lemma grows_pushJob (hc : c.worker ∈ A.conns.map Connection.worker) :
    Grows (fun _ => none) A (A.pushJob c) := by
  obtain ⟨d, hd, hworker⟩ := List.mem_map.mp hc
  rw [StratumServer.pushJob]
  split_ifs
  · rw [StratumServer.mintJobFor]
    cases hspec : A.jobBuilder c.workerAddress c.workerLabel with
    | none => exact .refl A
    | some spec =>
        obtain ⟨haddr, hlabel⟩ := Prod.mk.inj hworker
        refine ⟨⟨[_], rfl, fun job hjob => ⟨d, hd, spec, ?_, ?_⟩⟩, fun d' hd' => ?_, rfl, rfl,
          fun hmax hkeeps => hkeeps.mint hmax _ _ _ _⟩
        · rw [haddr, hlabel, hspec]
        · rw [List.mem_singleton.mp hjob]
          rfl
        · obtain ⟨b, hb, rfl⟩ := List.mem_map.mp hd'
          refine ⟨b, hb, ?_⟩
          split_ifs <;> exact ⟨rfl, rfl⟩
  · exact .refl A

lemma workers_pushJob (A : StratumServer Ctx) (c : Connection Ctx) :
    (A.pushJob c).conns.map Connection.worker = A.conns.map Connection.worker := by
  rw [StratumServer.pushJob]
  split_ifs
  · rw [StratumServer.mintJobFor]
    cases A.jobBuilder c.workerAddress c.workerLabel with
    | none => rfl
    | some spec =>
        refine List.map_map.trans (List.map_congr_left fun d _ => ?_)
        rw [Function.comp_apply]
        split_ifs <;> rfl
  · rfl

lemma grows_pushAll {cs : List (Connection Ctx)}
    (hcs : ∀ c ∈ cs, c.worker ∈ A.conns.map Connection.worker) :
    Grows (fun _ => none) A (A.pushAll cs) := by
  induction cs generalizing A with
  | nil => exact .refl A
  | cons c cs ih =>
      refine (grows_pushJob (hcs c List.mem_cons_self)).trans (ih fun d hd => ?_)
      rw [workers_pushJob]
      exact hcs d (List.mem_cons_of_mem _ hd)

/-! ### Every event -/

lemma grows_reply (h : Grows login A T.server) :
    Grows login A (T.reply i frame next).server := by
  rw [reply]
  split_ifs
  · exact h.of_subset conns_leave rfl rfl rfl
  · exact h

lemma grows_touches (ht : Touches S T i (login i)) (hother : ∀ j, j ≠ i → login j = none) :
    Grows login S.server T.server := by
  obtain ⟨g, hconns, hg⟩ := ht.conns
  refine ⟨⟨[], by rw [ht.minted, List.append_nil], by simp⟩, fun d hd => ?_,
    ht.runs.jobBuilder, by rw [ht.registry],
    fun _ h => by rw [ht.registry, ht.minted]; exact h⟩
  rw [hconns] at hd
  obtain ⟨c, hc, rfl⟩ := List.mem_map.mp hd
  refine ⟨c, hc, ?_⟩
  split_ifs with hi
  · rw [hi]
    exact ⟨(hg c).1.trans hi, (hg c).2.2⟩
  · rw [hother _ hi]
    exact ⟨rfl, rfl⟩

lemma grows_finishPush (hc : S.server.conn? c.connId = some c) :
    Grows (fun _ => none) S.server (S.finishPush c id).server := by
  have hpush : Grows (fun _ => none) S.server (S.apply (.push c.connId)).server := by
    rw [server_push hc]
    exact grows_pushJob (List.mem_map_of_mem (List.mem_of_find?_eq_some hc))
  rw [finishPush]
  split
  · exact grows_reply (.refl _)
  · split
    · exact hpush
    · exact grows_reply hpush

lemma grows_refresh (hs : S.Consistent) : Grows (fun _ => none) S.server S.refresh.server := by
  rw [refresh, (server_pushes hs _).1]
  exact grows_pushAll fun c hc => List.mem_map_of_mem (List.mem_filter.mp hc).1

/-- **One event** other than a new connection or a new job builder. -/
lemma step_grows {e : ServiceEvent Ctx} (hs : S.Consistent) (hconnect : e ≠ .connect)
    (hbuilder : ∀ b, e ≠ .setJobBuilder b) (hstep : S.step codec e = some S') :
    Grows (fun i => e.logsIn codec i) S.server S'.server := by
  cases e with
  | connect => exact absurd rfl hconnect
  | line connId line =>
      rw [step] at hstep
      split at hstep
      · rename_i c hc _
        cases hstep
        obtain rfl : c.connId = connId := by simpa using List.find?_some hc
        by_cases hblank : isBlank line = true
        · rw [if_pos hblank]
          simp only [ServiceEvent.logsIn, hblank, Bool.true_eq_false, and_false, if_false]
          exact .refl _
        · have hblank' : isBlank line = false := Bool.eq_false_iff.mpr hblank
          have hother : ∀ j, j ≠ c.connId →
              ServiceEvent.logsIn codec j (.line c.connId line : ServiceEvent Ctx) = none :=
            fun j hj => if_neg fun h => hj h.1.symm
          rw [if_neg hblank]
          obtain ⟨id, pushes, -, ⟨T, frame, next, hd, htouch, -⟩ | ⟨sub, hd, -, hlogin, -⟩⟩ :=
            dispatch_cases codec (S := S) (c := c) hblank'
          · rw [hd]
            refine grows_reply (grows_touches (i := c.connId) ?_ hother)
            rwa [ServiceEvent.logsIn, if_pos ⟨rfl, hblank'⟩]
          · rw [hd, server_setSession]
            refine grows_touches (i := c.connId) ?_ hother
            rw [ServiceEvent.logsIn, if_pos ⟨rfl, hblank'⟩, hlogin]
            exact .refl S _
      · cases hstep
  | pushed connId =>
      rw [step] at hstep
      split at hstep
      · rename_i c id hc _
        cases hstep
        obtain rfl : c.connId = connId := by simpa using List.find?_some hc
        exact grows_finishPush hc
      · cases hstep
  | submitted connId result =>
      rw [step] at hstep
      split at hstep
      · rename_i id sub _
        cases hstep
        obtain ⟨frame, -, heq⟩ := finishSubmit_eq_reply (S := S) (i := connId) id result
        rw [heq]
        exact grows_reply (.refl _)
      · cases hstep
  | refresh =>
      cases hstep
      exact grows_refresh hs
  | fail connId =>
      cases hstep
      exact .refl _
  | leave connId =>
      cases hstep
      exact (Grows.refl _).of_subset conns_leave rfl rfl rfl
  | setJobBuilder builder => exact absurd rfl (hbuilder builder)

/-! ### Every run -/

/-- A job builder of the run. -/
def BuilderIn (builder : Builder Ctx) (es : List (ServiceEvent Ctx)) (b : Builder Ctx) : Prop :=
  b = builder ∨ .setJobBuilder b ∈ es

/-- The job was built in the run for the worker of a connection there was, as it had logged in. -/
def BuiltIn (codec : Codec) (builder : Builder Ctx) (jobHistory : ℕ) (es : List (ServiceEvent Ctx))
    (job : StratumJob Ctx) : Prop :=
  ∃ past T c b spec, past <+: es
    ∧ Machine.run (Service.step codec) (Service.init builder jobHistory) past = some T
    ∧ c ∈ T.server.conns ∧ BuilderIn builder es b
    ∧ b (lastLogin codec c.connId past).1 (lastLogin codec c.connId past).2 = .ok (some spec)
    ∧ job = spec.mint job.jobId

lemma BuiltIn.concat {builder : Builder Ctx} {jobHistory : ℕ} {es : List (ServiceEvent Ctx)}
    {job : StratumJob Ctx} (h : BuiltIn codec builder jobHistory es job) (e : ServiceEvent Ctx) :
    BuiltIn codec builder jobHistory (es ++ [e]) job := by
  obtain ⟨past, T, c, b, spec, hpast, hT, hc, hb, hspec, hmint⟩ := h
  exact ⟨past, T, c, b, spec, hpast.trans (List.prefix_append _ _), hT, hc,
    hb.imp_right fun hb => List.mem_append_left _ hb, hspec, hmint⟩

/-- What holds of the server after a run. -/
structure Credits (codec : Codec) (builder : Builder Ctx) (jobHistory : ℕ)
    (es : List (ServiceEvent Ctx)) (S : Service Ctx) : Prop where
  consistent : S.Consistent
  fresh : Fresh S.server
  unheard : ∀ i, S.server.connSeq < i → lastLogin codec i es = (none, "default".toList)
  worker : ∀ c ∈ S.server.conns, c.worker = lastLogin codec c.connId es
  builds : ∃ b, BuilderIn builder es b ∧ S.server.jobBuilder = b.jobs
  max : S.server.registry.max = jobHistory
  keeps : Keeps S.server.registry S.server.minted
  built : ∀ job ∈ S.server.minted, BuiltIn codec builder jobHistory es job

namespace Credits

variable {builder : Builder Ctx} {jobHistory : ℕ} {es : List (ServiceEvent Ctx)}

lemma init (codec : Codec) (builder : Builder Ctx) (jobHistory : ℕ) :
    Credits codec builder jobHistory [] (Service.init builder jobHistory) where
  consistent := consistent_of_builder rfl
  fresh _ h := by cases h
  unheard _ _ := rfl
  worker _ h := by cases h
  builds := ⟨builder, .inl rfl, rfl⟩
  max := rfl
  keeps := .init jobHistory
  built _ h := by cases h

/-- A job the job builder has answered for the worker of a connection. -/
lemma builtIn (h : Credits codec builder jobHistory es S)
    (hrun : Machine.run (Service.step codec) (Service.init builder jobHistory) es = some S)
    {c : Connection Ctx} (hc : c ∈ S.server.conns) {spec : Job Ctx} {job : StratumJob Ctx}
    (hspec : S.server.jobBuilder c.workerAddress c.workerLabel = some spec)
    (hmint : job = spec.mint job.jobId) : BuiltIn codec builder jobHistory es job := by
  obtain ⟨b, hb, hjobs⟩ := h.builds
  refine ⟨es, S, c, b, spec, List.prefix_refl _, hrun, hc, hb, ?_, hmint⟩
  rw [← h.worker c hc, Connection.worker]
  rw [hjobs, Builder.jobs] at hspec
  cases hjob : b c.workerAddress c.workerLabel with
  | ok job' => rw [hjob] at hspec; exact congrArg Except.ok hspec
  | error text => rw [hjob] at hspec; cases hspec

/-- A line comes only from a connection whose id was given out. -/
lemma logsIn_of_lt (h : Credits codec builder jobHistory es S) {e : ServiceEvent Ctx}
    (hstep : S.step codec e = some S') (hi : S.server.connSeq < i) : e.logsIn codec i = none := by
  cases e with
  | line connId line =>
      rw [ServiceEvent.logsIn]
      split_ifs with heq
      · obtain ⟨rfl, -⟩ := heq
        rw [step] at hstep
        split at hstep
        · rename_i c hc _
          have hle := h.fresh c (List.mem_of_find?_eq_some hc)
          have hid : c.connId = connId := by simpa using List.find?_some hc
          omega
        · cases hstep
      · rfl
  | _ => rfl

lemma step {e : ServiceEvent Ctx} (h : Credits codec builder jobHistory es S)
    (hrun : Machine.run (Service.step codec) (Service.init builder jobHistory) es = some S)
    (hhistory : jobHistory < 2 ^ 16) (hstep : S.step codec e = some S') :
    Credits codec builder jobHistory (es ++ [e]) S' := by
  have hbuilds {b : Builder Ctx} (hb : BuilderIn builder es b) : BuilderIn builder (es ++ [e]) b :=
    hb.imp_right fun hb => List.mem_append_left _ hb
  have hunheard {i : ℕ} (hi : S.server.connSeq < i) :
      lastLogin codec i (es ++ [e]) = (none, "default".toList) := by
    rw [lastLogin_concat, h.logsIn_of_lt hstep hi]
    exact h.unheard i hi
  have hconsistent := consistent_step h.consistent hstep
  obtain ⟨b, hb, hjobs⟩ := h.builds
  by_cases hconnect : e = .connect
  · subst hconnect
    cases hstep
    refine ⟨hconsistent, fresh_server (e := .connect) h.fresh rfl,
      fun i hi => hunheard (Nat.lt_of_succ_lt hi), fun c hc => ?_, ⟨b, hbuilds hb, hjobs⟩, h.max,
      h.keeps, fun job hjob => (h.built job hjob).concat _⟩
    rw [lastLogin_concat]
    rcases List.mem_append.mp hc with hc | hc
    · exact h.worker c hc
    · rw [List.mem_singleton.mp hc]
      exact (h.unheard _ (Nat.lt_succ_self _)).symm
  by_cases hset : ∃ b', e = .setJobBuilder b'
  · obtain ⟨b', rfl⟩ := hset
    cases hstep
    exact ⟨hconsistent, h.fresh, fun i hi => hunheard hi,
      fun c hc => by rw [lastLogin_concat]; exact h.worker c hc, ⟨b', .inr (by simp), rfl⟩, h.max,
      h.keeps, fun job hjob => (h.built job hjob).concat _⟩
  · have hset' : ∀ b', e ≠ .setJobBuilder b' := fun b' he => hset ⟨b', he⟩
    have hgrows := step_grows h.consistent hconnect hset' hstep
    obtain ⟨-, events, -, hserver⟩ := (step_runs h.consistent hstep).resolve_right
      fun ⟨b', he, _⟩ => hset' b' he
    refine ⟨hconsistent, fresh_run h.fresh hserver,
      fun i hi => hunheard ((connSeq_le_run hserver).trans_lt hi), fun d hd => ?_,
      ⟨b, hbuilds hb, hgrows.builder.trans hjobs⟩, hgrows.max.trans h.max,
      hgrows.keeps (h.max ▸ hhistory) h.keeps, fun job hjob => ?_⟩
    · obtain ⟨c, hc, hid, hworker⟩ := hgrows.conns d hd
      rw [lastLogin_concat, hworker, hid, h.worker c hc]
    · obtain ⟨jobs, hjobs', hbuilt⟩ := hgrows.minted
      rw [hjobs'] at hjob
      rcases List.mem_append.mp hjob with hjob | hjob
      · exact (h.built job hjob).concat e
      · obtain ⟨c, hc, spec, hspec, hmint⟩ := hbuilt job hjob
        exact (h.builtIn hrun hc hspec hmint).concat e

lemma run (hhistory : jobHistory < 2 ^ 16)
    (hrun : Machine.run (Service.step codec) (Service.init builder jobHistory) es = some S) :
    Credits codec builder jobHistory es S := by
  induction es using List.reverseRecOn generalizing S with
  | nil =>
      cases hrun
      exact init codec builder jobHistory
  | append_singleton es e ih =>
      obtain ⟨m, hm, hstep⟩ := Machine.run_concat_eq_some_iff.mp hrun
      exact (ih hm).step hm hhistory hstep

end Credits

/-- **Whose work it is**: in any interleaving of connections, lines, refreshes and answers, a
submission is handed on for the job its line names, if that is among the last `jobHistory` minted;
that job was built for the worker of a connection there was, as it had last logged in, and the
submission is on the account of the worker its own connection has last logged in as. -/
theorem submissions_credited (codec : Codec) (builder : Builder Ctx) (jobHistory : ℕ)
    (hhistory : jobHistory < 2 ^ 16) (past : List (ServiceEvent Ctx)) (T S : Service Ctx) (i : ℕ)
    (text : Bytes) (hrun : Machine.run (step codec) (init builder jobHistory) past = some T)
    (hstep : T.step codec (.line i text) = some S) (id : Json) (sub : Submission Ctx)
    (hsub : (S.session i).phase = .submitting id sub) :
    (sub.workerAddress, sub.workerLabel) = lastLogin codec i past
      ∧ codec.b64decode sub.plainProof = .ok ()
      ∧ (∃ req, parseRequest codec text = .ok req
        ∧ parseSubmit codec.str req.params = .ok (sub.job.jobId, sub.plainProof))
      ∧ (∃ n, T.server.minted[n]? = some sub.job ∧ T.server.minted.length ≤ n + jobHistory)
      ∧ BuiltIn codec builder jobHistory past sub.job := by
  have h := Credits.run hhistory hrun
  rw [step] at hstep
  split at hstep
  · rename_i c hc hidle
    cases hstep
    obtain rfl : c.connId = i := by simpa using List.find?_some hc
    by_cases hblank : isBlank text = true
    · rw [if_pos hblank, hidle] at hsub
      cases hsub
    · rw [if_neg hblank] at hsub
      obtain ⟨id', pushes, -, ⟨U, frame, next, hd, -, -, hnext⟩ |
          ⟨sub', hd, -, -, hworker, ⟨jobId, req, hjob, hparse, hsubmit⟩, hdecode⟩⟩ :=
        dispatch_cases codec (S := T) (c := c) (Bool.eq_false_iff.mpr hblank)
      · rw [hd, session_reply, if_pos rfl] at hsub
        split_ifs at hsub
        rcases hnext with rfl | ⟨rfl, -⟩ <;> cases hsub
      · rw [hd, session_setSession, if_pos rfl] at hsub
        obtain ⟨rfl, rfl⟩ := Waiting.submitting.inj hsub
        obtain ⟨rfl, n, hn, hle⟩ :=
          h.keeps.mem_items_iff.mp (OrderedMap.get_eq_some_iff.mp hjob)
        exact ⟨hworker.trans (h.worker c (List.mem_of_find?_eq_some hc)), hdecode,
          ⟨req, hparse, hsubmit⟩, ⟨n, hn, h.max ▸ hle⟩, h.built _ (List.mem_of_getElem? hn)⟩
  · cases hstep

/-- An authorization on the wire. -/
def authorizeLine : Bytes :=
  "\x7b\"id\":1,\"method\":\"mining.authorize\",\"params\":[\"rig\"]\x7d\n".toList.map
    fun c => UInt8.ofNat c.toNat

/-- A submission on the wire. -/
def submitLine : Bytes :=
  ("\x7b\"id\":2,\"method\":\"mining.submit\",".toList
    ++ "\"params\":[\"rig\",\"00000000-0001\",\"AAAA\"]\x7d\n".toList).map
    fun c => UInt8.ofNat c.toNat

/-- A codec for the two lines. -/
def submitCodec : Codec where
  loads line :=
    if line = authorizeLine then
      .ok (.obj [("id".toList, .int 1), ("method".toList, .str "mining.authorize".toList),
        ("params".toList, .arr [.str "rig".toList])])
    else if line = submitLine then
      .ok (.obj [("id".toList, .int 2), ("method".toList, .str "mining.submit".toList),
        ("params".toList,
          .arr [.str "rig".toList, .str "00000000-0001".toList, .str "AAAA".toList])])
    else .error "Expecting value: line 1 column 1 (char 0)".toList
  str := strOfText
  str_str := strOfText_str
  b64decode s := if s = "AAAA".toList then .ok () else .error "Incorrect padding".toList
  ascii s h := by
    split_ifs at h with hs
    rw [hs]
    decide

/-- A miner that logs in without an address and submits for the job it is pushed. -/
theorem submissions_credited_rig :
    ∃ T S : Service Unit, ∃ sub,
      Machine.run (step submitCodec) (init (fun _ _ => .ok (some firstJob)) 16)
        [.connect, .line 1 authorizeLine, .pushed 1] = some T
      ∧ T.step submitCodec (.line 1 submitLine) = some S
      ∧ (S.session 1).phase = .submitting (.int 2) sub
      ∧ (sub.workerAddress, sub.workerLabel) = (none, "rig".toList) := by
  obtain ⟨T, hT, S, hS, sub, hsub⟩ : ∃ T : Service Unit,
      Machine.run (step submitCodec) (init (fun _ _ => .ok (some firstJob)) 16)
        [.connect, .line 1 authorizeLine, .pushed 1] = some T
      ∧ ∃ S, T.step submitCodec (.line 1 submitLine) = some S
      ∧ ∃ sub, (S.session 1).phase = .submitting (.int 2) sub :=
    ⟨_, rfl, _, rfl, _, rfl⟩
  exact ⟨T, S, sub, hT, hS, hsub, (submissions_credited submitCodec _ 16 (by norm_num) _ T S 1
    submitLine hT hS (.int 2) sub hsub).1⟩

end Service

end P2Pearl
