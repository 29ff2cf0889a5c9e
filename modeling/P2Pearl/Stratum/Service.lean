import P2Pearl.Stratum.Dispatch

/-!
What the events of a `Service` do to its server.

* `askedBy`, `loginOf`: the request and the login of a line.
* `Touches`: a handler changes the server by events of its own, and of the connections only its own
  one, whose worker is the one that logs in.
* `dispatch_cases`: a line is replied to, or a submission of it is handed to the submit handler.
* `step_runs`: so an event of the service is a run of events of its server.
-/

namespace P2Pearl

variable {Ctx : Type}

/-- The handler of a request ends with `push_job`. -/
def Request.pushes (codec : Codec) (req : Request) : Bool :=
  match handlerFor req.method with
  | some .subscribe => true
  | some .authorize => (parseAuthorize codec.str req.params).toBool
  | _ => false

/-- The id of the request of a line, and whether its handler ends with `push_job`. -/
def askedBy (codec : Codec) (line : Bytes) : Option (Json × Bool) :=
  if isBlank line then none
  else match parseRequest codec line with
    | .error _ => some (.null, false)
    | .ok req => some (req.id, req.pushes codec)

/-- The worker of a request that is an authorization. -/
def Request.login (codec : Codec) (req : Request) : Option (Option PyStr × PyStr) :=
  match handlerFor req.method, parseAuthorize codec.str req.params with
  | some .authorize, .ok (login, worker, _) => some (loginWorker login worker)
  | _, _ => none

/-- The worker of a line that is an authorization. -/
def loginOf (codec : Codec) (line : Bytes) : Option (Option PyStr × PyStr) :=
  match parseRequest codec line with
  | .error _ => none
  | .ok req => req.login codec

/-- `worker_address` and `worker_label`. -/
def Connection.worker (c : Connection Ctx) : Option PyStr × PyStr :=
  (c.workerAddress, c.workerLabel)

namespace Service

variable {codec : Codec} {S T S' : Service Ctx} {c d : Connection Ctx} {i j : ℕ} {line : Bytes}
  {id : Json} {frame : Frame} {next : Waiting Ctx} {s : Session Ctx}

/-! ### Sessions -/

lemma session_setSession : (S.setSession i s).session j = if j = i then s else S.session j :=
  Function.update_apply _ _ _ _

@[simp] lemma session_apply {e : StratumServer.Event Ctx} : (S.apply e).session = S.session := rfl

@[simp] lemma server_setSession : (S.setSession i s).server = S.server := rfl

lemma session_leave :
    (S.leave i).session j
      = if j = i then { S.session i with phase := .idle, closing := true } else S.session j := by
  rw [leave, session_setSession, session_apply]

/-- A reply goes out and the handler waits, or the connection is closing and ends. -/
lemma session_reply :
    (S.reply i frame next).session j
      = if j = i then
          if (S.session i).closing then { S.session i with phase := .idle, closing := true }
          else { S.session i with phase := next, sent := (S.session i).sent ++ [frame] }
        else S.session j := by
  rw [reply]
  split_ifs <;> simp_all [session_leave, session_setSession]

/-! ### The server below -/

/-- A run of the server between two states of the service, whose job builder stays. -/
def Runs (S T : Service Ctx) : Prop :=
  T.raises = S.raises
    ∧ ∃ events, (∀ builder, .setJobBuilder builder ∉ events)
      ∧ Machine.run StratumServer.step S.server events = some T.server

lemma Runs.of_server (hraises : T.raises = S.raises) (h : T.server = S.server) : Runs S T :=
  ⟨hraises, [], by simp, by rw [h]; rfl⟩

lemma Runs.trans (h : Runs S T) (h' : Runs T S') : Runs S S' := by
  obtain ⟨hraises, past, hpast, hrun⟩ := h
  obtain ⟨hraises', future, hfuture, hrun'⟩ := h'
  refine ⟨hraises'.trans hraises, past ++ future, fun b hb => ?_,
    Machine.run_append_eq_some_iff.mpr ⟨_, hrun, hrun'⟩⟩
  exact (List.mem_append.mp hb).elim (hpast b) (hfuture b)

/-- An event the server cannot refuse. -/
lemma runs_apply {e : StratumServer.Event Ctx} (hne : ∀ builder, .setJobBuilder builder ≠ e)
    (h : S.server.step e ≠ none) : Runs S (S.apply e) := by
  obtain ⟨m, hm⟩ := Option.ne_none_iff_exists'.mp h
  refine ⟨rfl, [e], fun b hb => hne b (List.mem_singleton.mp hb), ?_⟩
  rw [apply, hm, Machine.run, hm]
  rfl

lemma runs_leave : Runs S (S.leave i) :=
  (runs_apply (S := S) (e := .disconnect i) (by simp) (by simp [StratumServer.step])).trans
    (.of_server rfl rfl)

lemma runs_reply : Runs S (S.reply i frame next) := by
  rw [reply]
  split_ifs
  · exact runs_leave
  · exact .of_server rfl rfl

/-- What a handler does to the server before it replies: events of the server, which leave its
registry, and change no connection but that of the handler, to the worker that logs in. -/
structure Touches (S T : Service Ctx) (i : ℕ) (login : Option (Option PyStr × PyStr)) : Prop where
  runs : Runs S T
  session : T.session = S.session
  registry : T.server.registry = S.server.registry
  minted : T.server.minted = S.server.minted
  connSeq : T.server.connSeq = S.server.connSeq
  conns : ∃ g : Connection Ctx → Connection Ctx,
    T.server.conns = S.server.conns.map (fun d => if d.connId = i then g d else d)
      ∧ ∀ d, (g d).connId = d.connId ∧ (g d).pushed = d.pushed
        ∧ (g d).worker = login.getD d.worker

lemma Touches.refl (S : Service Ctx) (i : ℕ) : Touches S S i none :=
  ⟨.of_server rfl rfl, rfl, rfl, rfl, rfl, fun d => d, by simp, fun d => ⟨rfl, rfl, rfl⟩⟩

/-- An event that modifies the connection only. -/
lemma touches_apply {e : StratumServer.Event Ctx} {g : Connection Ctx → Connection Ctx}
    {login : Option (Option PyStr × PyStr)} (hne : ∀ builder, .setJobBuilder builder ≠ e)
    (hstep : S.server.step e = some (S.server.modify i g))
    (hid : ∀ d, (g d).connId = d.connId) (hpushed : ∀ d, (g d).pushed = d.pushed)
    (hworker : ∀ d, (g d).worker = login.getD d.worker) : Touches S (S.apply e) i login := by
  have hserver : (S.apply e).server = S.server.modify i g := by rw [apply, hstep]; rfl
  refine ⟨runs_apply hne (by rw [hstep]; simp), rfl, ?_, ?_, ?_, g, ?_,
    fun d => ⟨hid d, hpushed d, hworker d⟩⟩ <;> rw [hserver] <;> rfl

/-! ### A line -/

/-- What `handle` does with a request. -/
lemma handle_cases (c : Connection Ctx) (req : Request) :
    (∃ T frame next, S.handle codec c req = T.reply c.connId frame next
        ∧ Touches S T c.connId (req.login codec) ∧ frame.answers = some req.id
        ∧ (next = .idle ∨ next = .pushing req.id ∧ req.pushes codec = true))
      ∨ ∃ sub : Submission Ctx, S.handle codec c req
          = S.setSession c.connId { S.session c.connId with phase := .submitting req.id sub }
        ∧ req.pushes codec = false ∧ req.login codec = none
        ∧ (sub.workerAddress, sub.workerLabel) = c.worker
        ∧ (∃ jobId, S.server.registry.get jobId = some sub.job
          ∧ parseSubmit codec.str req.params = .ok (jobId, sub.plainProof))
        ∧ codec.b64decode sub.plainProof = .ok () := by
  have hrefl := Touches.refl S c.connId
  rw [handle, Request.pushes, Request.login]
  cases hm : handlerFor req.method with
  | none => exact .inl ⟨S, _, _, rfl, hrefl, rfl, .inl rfl⟩
  | some m =>
    cases m with
    | configure =>
        exact .inl ⟨_, _, _, rfl, touches_apply (by simp) rfl (fun _ => rfl) (fun _ => rfl)
          (fun _ => rfl), rfl, .inl rfl⟩
    | subscribe =>
        exact .inl ⟨_, _, _, rfl, touches_apply (by simp) rfl (fun _ => rfl) (fun _ => rfl)
          (fun _ => rfl), rfl, .inr ⟨rfl, rfl⟩⟩
    | challengeResponse => exact .inl ⟨S, _, _, rfl, hrefl, rfl, .inl rfl⟩
    | authorize =>
        cases hp : parseAuthorize codec.str req.params with
        | error text => exact .inl ⟨S, _, _, rfl, hrefl, rfl, .inl rfl⟩
        | ok answer =>
            obtain ⟨login, worker, dialect⟩ := answer
            exact .inl ⟨_, _, _, rfl,
              touches_apply (by simp) rfl (fun _ => rfl) (fun _ => rfl) (fun _ => rfl), rfl,
              .inr ⟨rfl, rfl⟩⟩
    | submit =>
        simp only [handleSubmit]
        cases hp : parseSubmit codec.str req.params with
        | error text => exact .inl ⟨S, _, _, rfl, hrefl, rfl, .inl rfl⟩
        | ok answer =>
            obtain ⟨jobId, proof⟩ := answer
            cases hjob : S.server.registry.get jobId with
            | none =>
                have hfind : S.server.findJob jobId = .error (staleShareCode, "Job not found") := by
                  rw [StratumServer.findJob, hjob]
                simp only [hfind]
                exact .inl ⟨S, _, _, rfl, hrefl, rfl, .inl rfl⟩
            | some job =>
                have hfind : S.server.findJob jobId = .ok job := by
                  rw [StratumServer.findJob, hjob]
                simp only [hfind]
                split
                · exact .inl ⟨S, _, _, rfl, hrefl, rfl, .inl rfl⟩
                · rename_i hdecode
                  exact .inr ⟨_, rfl, trivial, trivial, rfl, ⟨jobId, hjob, rfl⟩, hdecode⟩

/-- **A line** that is not blank is replied to once, or its submission is handed on. -/
lemma dispatch_cases (codec : Codec) (hblank : isBlank line = false) :
    ∃ id pushes, askedBy codec line = some (id, pushes)
      ∧ ((∃ T frame next, S.dispatch codec c line = T.reply c.connId frame next
          ∧ Touches S T c.connId (loginOf codec line) ∧ frame.answers = some id
          ∧ (next = .idle ∨ next = .pushing id ∧ pushes = true))
        ∨ ∃ sub : Submission Ctx, S.dispatch codec c line
            = S.setSession c.connId { S.session c.connId with phase := .submitting id sub }
          ∧ pushes = false ∧ loginOf codec line = none
          ∧ (sub.workerAddress, sub.workerLabel) = c.worker
          ∧ (∃ jobId req, S.server.registry.get jobId = some sub.job
            ∧ parseRequest codec line = .ok req
            ∧ parseSubmit codec.str req.params = .ok (jobId, sub.plainProof))
          ∧ codec.b64decode sub.plainProof = .ok ()) := by
  rw [askedBy, loginOf, dispatch, hblank]
  cases hparse : parseRequest codec line with
  | error text =>
      exact ⟨.null, false, rfl, .inl ⟨S, _, _, rfl, .refl S _, rfl, .inl rfl⟩⟩
  | ok req =>
      refine ⟨req.id, req.pushes codec, rfl, (handle_cases c req).imp id ?_⟩
      rintro ⟨sub, hset, hpushes, hlogin, hworker, ⟨jobId, hjob, hsubmit⟩, hdecode⟩
      exact ⟨sub, hset, hpushes, hlogin, hworker, ⟨jobId, req, hjob, rfl, hsubmit⟩, hdecode⟩

/-! ### A push -/

lemma pushJob_of_notice_none (h : S.notice c = none) : S.server.pushJob c = S.server := by
  rw [notice] at h
  rw [StratumServer.pushJob]
  split_ifs with hready
  · rw [if_pos hready, Option.map_eq_none_iff] at h
    rw [StratumServer.mintJobFor] at h ⊢
    cases hb : S.server.jobBuilder c.workerAddress c.workerLabel with
    | none => rfl
    | some spec => rw [hb] at h; cases h
  · rfl

/-- Where a notification goes out, the connection is recorded to have been sent it. -/
lemma pushJob_of_notice {params : NotifyParams} (h : S.notice c = some params) :
    ∃ p : Pushed Ctx, p.params = params ∧ (S.server.pushJob c).conns
      = S.server.conns.map fun d =>
        if d.connId = c.connId then { d with pushed := some p } else d := by
  rw [notice] at h
  rw [StratumServer.pushJob]
  split_ifs at h with hready
  rw [StratumServer.mintJobFor] at h
  rw [if_pos hready, StratumServer.mintJobFor]
  cases hb : S.server.jobBuilder c.workerAddress c.workerLabel with
  | none => rw [hb] at h; cases h
  | some spec =>
      rw [hb] at h
      exact ⟨⟨S.server.minted.length, (S.server.registry.mint spec.header spec.shareTarget
        spec.height (some spec.context)).2, _⟩, Option.some.inj h, rfl⟩

/-- The job builder has no job where it raises. -/
def Consistent (S : Service Ctx) : Prop :=
  ∀ address label, S.raises address label ≠ none → S.server.jobBuilder address label = none

lemma jobBuilder_pushJob (server : StratumServer Ctx) (c : Connection Ctx) :
    (server.pushJob c).jobBuilder = server.jobBuilder := by
  rw [StratumServer.pushJob]
  split_ifs
  · rw [StratumServer.mintJobFor]
    cases server.jobBuilder c.workerAddress c.workerLabel <;> rfl
  · rfl

lemma jobBuilder_pushAll (server : StratumServer Ctx) (cs : List (Connection Ctx)) :
    (server.pushAll cs).jobBuilder = server.jobBuilder := by
  induction cs generalizing server with
  | nil => rfl
  | cons c cs ih => exact (ih (server.pushJob c)).trans (jobBuilder_pushJob server c)

/-- Only a change of the job builder changes it. -/
lemma jobBuilder_step {server server' : StratumServer Ctx} {e : StratumServer.Event Ctx}
    (hne : ∀ builder, .setJobBuilder builder ≠ e) (h : server.step e = some server') :
    server'.jobBuilder = server.jobBuilder := by
  cases e with
  | push connId =>
      obtain ⟨c, -, rfl⟩ := Option.map_eq_some_iff.mp h
      exact jobBuilder_pushJob server c
  | refresh =>
      cases h
      exact jobBuilder_pushAll server _
  | setJobBuilder builder => exact absurd rfl (hne builder)
  | _ => cases h; rfl

lemma Runs.jobBuilder (h : Runs S T) : T.server.jobBuilder = S.server.jobBuilder := by
  obtain ⟨-, events, hnone, hrun⟩ := h
  generalize S.server = server at hrun
  induction events generalizing server with
  | nil => cases hrun; rfl
  | cons e events ih =>
      obtain ⟨m, hm, hrest⟩ := Machine.run_cons_eq_some_iff.mp hrun
      refine (ih (fun b hb => hnone b (List.mem_cons_of_mem _ hb)) m hrest).trans ?_
      exact jobBuilder_step (fun b hb => hnone b (hb ▸ List.mem_cons_self)) hm

lemma Runs.consistent (h : Runs S T) (hs : S.Consistent) : T.Consistent := by
  intro address label hne
  rw [h.1] at hne
  rw [h.jobBuilder]
  exact hs address label hne

/-- The connections of a server have ids it has given out. -/
def Fresh (server : StratumServer Ctx) : Prop := ∀ c ∈ server.conns, c.connId ≤ server.connSeq

lemma fresh_of_ids {server server' : StratumServer Ctx} (h : Fresh server)
    (hids : server'.conns.map Connection.connId ⊆ server.conns.map Connection.connId)
    (hseq : server'.connSeq = server.connSeq) : Fresh server' := by
  intro c hc
  obtain ⟨d, hd, hid⟩ := List.mem_map.mp (hids (List.mem_map_of_mem hc))
  rw [← hid, hseq]
  exact h d hd

lemma fresh_modify {server : StratumServer Ctx} (h : Fresh server)
    {g : Connection Ctx → Connection Ctx} (hg : ∀ d, (g d).connId = d.connId) :
    Fresh (server.modify i g) := by
  refine fresh_of_ids h (fun k hk => ?_) rfl
  obtain ⟨c, hc, rfl⟩ := List.mem_map.mp hk
  obtain ⟨d, hd, rfl⟩ := List.mem_map.mp hc
  refine List.mem_map.mpr ⟨d, hd, ?_⟩
  split_ifs
  · exact (hg d).symm
  · rfl

lemma fresh_pushJob {server : StratumServer Ctx} (h : Fresh server) (c : Connection Ctx) :
    Fresh (server.pushJob c) := by
  rw [StratumServer.pushJob]
  split_ifs
  · rw [StratumServer.mintJobFor]
    cases server.jobBuilder c.workerAddress c.workerLabel with
    | none => exact h
    | some spec => exact fresh_modify (fresh_of_ids h (fun k hk => hk) rfl) fun _ => rfl
  · exact h

lemma fresh_pushAll {server : StratumServer Ctx} (h : Fresh server) (cs : List (Connection Ctx)) :
    Fresh (server.pushAll cs) := by
  induction cs generalizing server with
  | nil => exact h
  | cons c cs ih => exact ih (fresh_pushJob h c)

lemma fresh_server {server server' : StratumServer Ctx} {e : StratumServer.Event Ctx}
    (h : Fresh server) (hstep : server.step e = some server') : Fresh server' := by
  cases e with
  | connect =>
      cases hstep
      intro c hc
      rcases List.mem_append.mp hc with hc | hc
      · exact (h c hc).trans (Nat.le_succ _)
      · rw [List.mem_singleton.mp hc]
  | disconnect connId =>
      cases hstep
      exact fresh_of_ids h (List.filter_sublist.map _).subset rfl
  | push connId =>
      obtain ⟨c, -, rfl⟩ := Option.map_eq_some_iff.mp hstep
      exact fresh_pushJob h c
  | refresh =>
      cases hstep
      exact fresh_pushAll h _
  | setJobBuilder builder => cases hstep; exact h
  | _ => cases hstep; exact fresh_modify h fun _ => rfl

lemma fresh_run {server server' : StratumServer Ctx} {events : List (StratumServer.Event Ctx)}
    (h : Fresh server) (hrun : Machine.run StratumServer.step server events = some server') :
    Fresh server' := by
  induction events generalizing server with
  | nil => cases hrun; exact h
  | cons e events ih =>
      obtain ⟨m, hm, hrest⟩ := Machine.run_cons_eq_some_iff.mp hrun
      exact ih (fresh_server h hm) hrest

lemma connSeq_pushJob (server : StratumServer Ctx) (c : Connection Ctx) :
    (server.pushJob c).connSeq = server.connSeq := by
  rw [StratumServer.pushJob]
  split_ifs
  · rw [StratumServer.mintJobFor]
    cases server.jobBuilder c.workerAddress c.workerLabel <;> rfl
  · rfl

lemma connSeq_pushAll (server : StratumServer Ctx) (cs : List (Connection Ctx)) :
    (server.pushAll cs).connSeq = server.connSeq := by
  induction cs generalizing server with
  | nil => rfl
  | cons c cs ih => exact (ih (server.pushJob c)).trans (connSeq_pushJob server c)

/-- No id is given out twice. -/
lemma connSeq_le_run {server server' : StratumServer Ctx} {events : List (StratumServer.Event Ctx)}
    (hrun : Machine.run StratumServer.step server events = some server') :
    server.connSeq ≤ server'.connSeq := by
  induction events generalizing server with
  | nil => cases hrun; exact le_rfl
  | cons e events ih =>
      obtain ⟨m, hm, hrest⟩ := Machine.run_cons_eq_some_iff.mp hrun
      refine le_trans ?_ (ih hrest)
      cases e with
      | connect => cases hm; exact Nat.le_succ _
      | push connId =>
          obtain ⟨c, -, rfl⟩ := Option.map_eq_some_iff.mp hm
          exact (connSeq_pushJob server c).ge
      | refresh => cases hm; exact (connSeq_pushAll server _).ge
      | _ => cases hm; exact le_rfl

/-- One connection of a broadcast. -/
lemma server_pushOne (hs : S.Consistent) (c : Connection Ctx) :
    (S.pushOne c).server = S.server.pushJob c := by
  rw [pushOne]
  cases hr : S.raises c.workerAddress c.workerLabel with
  | some text =>
      have hnone := hs _ _ (hr.trans_ne (Option.some_ne_none text))
      refine (pushJob_of_notice_none (S := S) ?_).symm
      rw [notice, StratumServer.mintJobFor, hnone]
      split_ifs <;> rfl
  | none =>
      cases hn : S.notice c with
      | none => rfl
      | some params =>
          dsimp only
          split_ifs <;> rfl

lemma raises_pushOne (S : Service Ctx) (c : Connection Ctx) : (S.pushOne c).raises = S.raises := by
  rw [pushOne]
  split
  · rfl
  · dsimp only
    split
    · rfl
    · split_ifs <;> rfl

lemma consistent_pushOne (hs : S.Consistent) (c : Connection Ctx) : (S.pushOne c).Consistent := by
  intro address label hne
  rw [raises_pushOne] at hne
  rw [server_pushOne hs, jobBuilder_pushJob]
  exact hs address label hne

/-- A broadcast pushes to the connections in turn. -/
lemma server_pushes (hs : S.Consistent) (cs : List (Connection Ctx)) :
    (cs.foldl pushOne S).server = S.server.pushAll cs
      ∧ (cs.foldl pushOne S).raises = S.raises := by
  induction cs generalizing S with
  | nil => exact ⟨rfl, rfl⟩
  | cons c cs ih =>
      obtain ⟨hserver, hraises⟩ := ih (consistent_pushOne hs c)
      rw [List.foldl_cons, hserver, hraises, server_pushOne hs]
      exact ⟨rfl, raises_pushOne S c⟩

lemma runs_refresh (hs : S.Consistent) : Runs S S.refresh := by
  obtain ⟨hserver, hraises⟩ := server_pushes hs (S.server.conns.filter (·.ready))
  refine ⟨hraises, [.refresh], by simp, ?_⟩
  rw [refresh, hserver]
  rfl

lemma runs_finishPush (hc : S.server.conn? i = some c) : Runs S (S.finishPush c id) := by
  obtain rfl : c.connId = i := by simpa using List.find?_some hc
  have hpush : Runs S (S.apply (.push c.connId)) :=
    runs_apply (by simp) (by rw [StratumServer.step, hc]; simp)
  rw [finishPush]
  split
  · exact runs_reply
  · split
    · exact hpush.trans (.of_server rfl rfl)
    · exact hpush.trans runs_reply

/-! ### Every event -/

/-- **One event** is a run of the server, or a change of its job builder. -/
lemma step_runs {e : ServiceEvent Ctx} (hs : S.Consistent) (hstep : S.step codec e = some S') :
    Runs S S' ∨ ∃ builder, e = .setJobBuilder builder
      ∧ S' = { S.apply (.setJobBuilder builder.jobs) with raises := builder.raises } := by
  cases e with
  | connect =>
      cases hstep
      exact .inl ((runs_apply (e := .connect) (by simp) (by simp [StratumServer.step])).trans
        (.of_server rfl rfl))
  | line connId line =>
      rw [step] at hstep
      split at hstep
      · rename_i c hphase hc
        cases hstep
        refine .inl ?_
        cases hblank : isBlank line with
        | true => exact .of_server rfl rfl
        | false =>
            obtain ⟨id, pushes, -, ⟨T, frame, next, hd, htouch, -⟩ | ⟨sub, hd, -⟩⟩ :=
              dispatch_cases codec (S := S) (c := c) hblank
            · rw [if_neg (by simp), hd]
              exact htouch.runs.trans runs_reply
            · rw [if_neg (by simp), hd]
              exact .of_server rfl rfl
      · cases hstep
  | pushed connId =>
      rw [step] at hstep
      split at hstep
      · rename_i c id hc _
        cases hstep
        exact .inl (runs_finishPush hc)
      · cases hstep
  | submitted connId result =>
      rw [step] at hstep
      split at hstep
      · cases hstep
        refine .inl ?_
        cases result with
        | error text => exact runs_reply
        | ok result =>
            rw [finishSubmit]
            split_ifs <;> exact runs_reply
      · cases hstep
  | refresh =>
      cases hstep
      exact .inl (runs_refresh hs)
  | fail connId =>
      cases hstep
      exact .inl (.of_server rfl rfl)
  | leave connId =>
      cases hstep
      exact .inl runs_leave
  | setJobBuilder builder =>
      cases hstep
      exact .inr ⟨builder, rfl, rfl⟩

lemma consistent_of_builder {server : StratumServer Ctx} {builder : Builder Ctx}
    {session : ℕ → Session Ctx} (h : server.jobBuilder = builder.jobs) :
    Consistent ⟨server, builder.raises, session⟩ := by
  intro address label hne
  change server.jobBuilder address label = none
  rw [h, Builder.jobs]
  cases hb : builder address label with
  | ok job => exact absurd (by simp only [Builder.raises, hb]) hne
  | error text => rfl

lemma consistent_step {e : ServiceEvent Ctx} (hs : S.Consistent)
    (hstep : S.step codec e = some S') : S'.Consistent := by
  obtain h | ⟨builder, -, rfl⟩ := step_runs hs hstep
  · exact h.consistent hs
  · exact consistent_of_builder rfl

end Service

end P2Pearl
