import P2Pearl.Daemon.FoundBlock
import P2Pearl.Stratum.Service

/-!
What a miner is sent.

* `Shows`: the last notification of an open connection is the one the server has on record.
* `service_refines`: every run of the service is one of `StratumServer`, in which what the server
  records of a connection is what its miner has been sent.
* `Service.exchanges`: the requests of a connection, each with the exception its `push_job` ended
  with; `Answered`: their answers, in order, with a second one for each exception.
* `Session.Follows`: a session has answered its exchanges up to the one it is working on.
* `requests_answered`: so it has in every run, whatever the other connections do; a subscription or
  an authorization is answered again, with an error, exactly where the builder raises.
-/

namespace P2Pearl

variable {Ctx : Type}

/-! ### The last notification -/

/-- The notification of a frame. -/
def Frame.notification : Frame → Option NotifyParams
  | .notify params => some params
  | _ => none

lemma Frame.notification_of_answers {frame : Frame} {id : Json} (h : frame.answers = some id) :
    frame.notification = none := by
  cases frame with
  | notify params => cases h
  | _ => rfl

/-- The last notification sent. -/
def Session.shown (s : Session Ctx) : Option NotifyParams :=
  (s.sent.filterMap Frame.notification).getLast?

lemma shown_append {s t : Session Ctx} {frame : Frame} (h : t.sent = s.sent ++ [frame]) :
    t.shown = frame.notification.orElse fun _ => s.shown := by
  rw [Session.shown, h, List.filterMap_append]
  cases h : frame.notification with
  | none => simp [h, Session.shown]
  | some params => simp [h]

namespace Service

variable {codec : Codec} {S T S' : Service Ctx} {c : Connection Ctx} {i j : ℕ} {line : Bytes}
  {id : Json} {frame : Frame} {next : Waiting Ctx}

/-- The last notification an open connection was sent is the one the server has on record. -/
def Shows (S : Service Ctx) : Prop :=
  ∀ c ∈ S.server.conns, (S.session c.connId).closing = false →
    (S.session c.connId).shown = c.pushed.map Pushed.params

/-- A change of the sessions that leaves what open connections were sent. -/
lemma Shows.of_session (h : Shows S) (hserver : T.server.conns ⊆ S.server.conns)
    (hsession : ∀ i, (T.session i).closing = false →
      (S.session i).closing = false ∧ (T.session i).shown = (S.session i).shown) : Shows T := by
  intro c hc hopen
  obtain ⟨hopen', hshown⟩ := hsession c.connId hopen
  rw [hshown]
  exact h c (hserver hc) hopen'

lemma Shows.touches {login : Option (Option PyStr × PyStr)} (h : Shows S)
    (ht : Touches S T i login) : Shows T := by
  obtain ⟨g, hconns, hg⟩ := ht.conns
  intro c hc hopen
  rw [hconns] at hc
  obtain ⟨d, hd, rfl⟩ := List.mem_map.mp hc
  have hid : (if d.connId = i then g d else d).connId = d.connId := by
    split_ifs
    · exact (hg d).1
    · rfl
  have hpushed : (if d.connId = i then g d else d).pushed = d.pushed := by
    split_ifs
    · exact (hg d).2.1
    · rfl
  rw [ht.session, hid] at hopen ⊢
  rw [hpushed]
  exact h d hd hopen

lemma conns_leave : (S.leave i).server.conns ⊆ S.server.conns := List.filter_sublist.subset

lemma Shows.leave (h : Shows S) : Shows (S.leave i) := by
  refine h.of_session conns_leave fun j hopen => ?_
  rw [session_leave] at hopen ⊢
  split_ifs at hopen ⊢
  exact ⟨hopen, rfl⟩

/-- A reply is no notification. -/
lemma Shows.reply (h : Shows S) (hframe : frame.notification = none) :
    Shows (S.reply i frame next) := by
  rw [Service.reply]
  split_ifs with hclosing
  · exact h.leave
  · refine h.of_session (fun c hc => hc) fun j hopen => ?_
    rw [session_setSession] at hopen ⊢
    split_ifs at hopen ⊢ with hj
    · refine ⟨hj ▸ hopen, ?_⟩
      rw [shown_append rfl, hframe, hj]
      rfl
    · exact ⟨hopen, rfl⟩

/-- A push that sends its notification. -/
lemma Shows.push {params : NotifyParams} (h : Shows S)
    (hn : S.notice c = some params) (hserver : T.server = S.server.pushJob c)
    (hclosing : ∀ i, (T.session i).closing = (S.session i).closing)
    (hsent : ∀ i, (T.session i).sent = if i = c.connId then
      (S.session i).sent ++ [.notify params] else (S.session i).sent) : Shows T := by
  obtain ⟨p, rfl, hconns⟩ := pushJob_of_notice hn
  intro d' hd' hopen
  rw [hserver, hconns] at hd'
  obtain ⟨d, hd, rfl⟩ := List.mem_map.mp hd'
  by_cases hid : d.connId = c.connId
  · simp only [if_pos hid] at hopen ⊢
    rw [shown_append ((hsent d.connId).trans (if_pos hid))]
    rfl
  · simp only [if_neg hid] at hopen ⊢
    rw [hclosing] at hopen
    rw [Session.shown, (hsent d.connId).trans (if_neg hid)]
    exact h d hd hopen

/-- A push to a connection that is closing. -/
lemma Shows.push_closing (h : Shows S) (hclosing : (S.session c.connId).closing = true)
    (hserver : T.server = S.server.pushJob c) (hsession : T.session = S.session) : Shows T := by
  cases hn : S.notice c with
  | none =>
      rw [pushJob_of_notice_none hn] at hserver
      exact h.of_session (by rw [hserver]; exact fun c hc => hc)
        fun i hopen => ⟨hsession ▸ hopen, by rw [hsession]⟩
  | some params =>
      obtain ⟨p, -, hconns⟩ := pushJob_of_notice hn
      intro d' hd' hopen
      rw [hserver, hconns] at hd'
      obtain ⟨d, hd, rfl⟩ := List.mem_map.mp hd'
      rw [hsession] at hopen ⊢
      by_cases hid : d.connId = c.connId
      · simp only [if_pos hid] at hopen
        rw [hid, hclosing] at hopen
        cases hopen
      · simp only [if_neg hid] at hopen ⊢
        exact h d hd hopen

lemma server_push (hc : S.server.conn? c.connId = some c) :
    (S.apply (.push c.connId)).server = S.server.pushJob c := by
  rw [apply, StratumServer.step, hc]
  rfl

lemma Shows.finishPush (h : Shows S) (hc : S.server.conn? c.connId = some c) :
    Shows (S.finishPush c id) := by
  rw [Service.finishPush]
  split
  · exact h.reply rfl
  · cases hn : S.notice c with
    | none =>
        refine h.of_session ?_ fun j hopen => ?_
        · rw [server_setSession, server_push hc, pushJob_of_notice_none hn]
          exact fun c hc => hc
        · rw [session_setSession] at hopen ⊢
          split_ifs at hopen ⊢ with hj
          · exact ⟨hj ▸ hopen, by rw [hj]; rfl⟩
          · exact ⟨hopen, rfl⟩
    | some params =>
        dsimp only
        rw [Service.reply]
        split_ifs with hclosing
        · exact (h.push_closing (T := S.apply (.push c.connId)) hclosing (server_push hc) rfl).leave
        · refine h.push hn (server_push hc) (fun i => ?_) fun i => ?_ <;>
            rw [session_setSession] <;> split_ifs with hi <;> first | rfl | rw [hi]; rfl

lemma Shows.pushOne (h : Shows S) (c : Connection Ctx) : Shows (S.pushOne c) := by
  rw [Service.pushOne]
  split
  · refine h.of_session (fun c hc => hc) fun j hopen => ?_
    rw [session_setSession] at hopen ⊢
    split_ifs at hopen ⊢
    exact ⟨hopen, rfl⟩
  · cases hn : S.notice c with
    | none =>
        exact h.of_session (by rw [pushJob_of_notice_none hn]; exact fun c hc => hc)
          fun i hopen => ⟨hopen, rfl⟩
    | some params =>
        dsimp only
        split_ifs with hclosing
        · exact h.push_closing hclosing rfl rfl
        · refine h.push hn rfl (fun i => ?_) fun i => ?_ <;>
            rw [session_setSession] <;> split_ifs with hi <;> first | rfl | rw [hi]

lemma Shows.refresh (h : Shows S) : Shows S.refresh := by
  rw [Service.refresh]
  generalize S.server.conns.filter (·.ready) = cs
  induction cs generalizing S with
  | nil => exact h
  | cons c cs ih => exact ih (h.pushOne c)

lemma Shows.connect (h : Shows S) (hfresh : Fresh S.server) :
    Shows ((S.apply .connect).setSession (S.server.connSeq + 1) {}) := by
  intro c hc hopen
  rw [session_setSession] at hopen ⊢
  obtain hold | hnew := List.mem_append.mp hc
  · have hle := hfresh c hold
    have hne : c.connId ≠ S.server.connSeq + 1 := by omega
    rw [if_neg hne] at hopen ⊢
    exact h c hold hopen
  · rw [List.mem_singleton.mp hnew, if_pos rfl]
    rfl

lemma Shows.step {e : ServiceEvent Ctx} (h : Shows S) (hfresh : Fresh S.server)
    (hstep : S.step codec e = some S') : Shows S' := by
  cases e with
  | connect =>
      cases hstep
      exact h.connect hfresh
  | line connId line =>
      rw [Service.step] at hstep
      split at hstep
      · rename_i c _ _
        cases hstep
        cases hblank : isBlank line with
        | true => exact h
        | false =>
            obtain ⟨id, pushes, -, ⟨T, frame, next, hd, htouch, hans, -⟩ | ⟨sub, hd, -⟩⟩ :=
              dispatch_cases codec (S := S) (c := c) hblank
            · rw [if_neg (by simp), hd]
              exact (h.touches htouch).reply (Frame.notification_of_answers hans)
            · rw [if_neg (by simp), hd]
              refine h.of_session (fun c hc => hc) fun j hopen => ?_
              rw [session_setSession] at hopen ⊢
              split_ifs at hopen ⊢ with hj
              · exact ⟨hj ▸ hopen, by rw [hj]; rfl⟩
              · exact ⟨hopen, rfl⟩
      · cases hstep
  | pushed connId =>
      rw [Service.step] at hstep
      split at hstep
      · rename_i c id hc _
        cases hstep
        obtain rfl : c.connId = connId := by simpa using List.find?_some hc
        exact h.finishPush hc
      · cases hstep
  | submitted connId result =>
      rw [Service.step] at hstep
      split at hstep
      · cases hstep
        cases result with
        | error text => exact h.reply rfl
        | ok result =>
            rw [finishSubmit]
            split_ifs <;> exact h.reply rfl
      · cases hstep
  | refresh =>
      cases hstep
      exact h.refresh
  | fail connId =>
      cases hstep
      refine h.of_session (fun c hc => hc) fun j hopen => ?_
      rw [session_setSession] at hopen ⊢
      split_ifs at hopen ⊢
      exact ⟨hopen, rfl⟩
  | leave connId =>
      cases hstep
      exact h.leave
  | setJobBuilder builder =>
      cases hstep
      exact h

/-- **Every run is a run of the server**: from any interleaving of lines, replies, answers of the
submit handler, refreshes and failures there is one of the events of `StratumServer` that leads to
the same server; and what that records an open connection to have been sent last is the last
notification on its wire. -/
theorem service_refines (codec : Codec) (builder : Builder Ctx) (jobHistory : ℕ)
    (es : List (ServiceEvent Ctx)) (S : Service Ctx)
    (hrun : Machine.run (step codec) (init builder jobHistory) es = some S) :
    (∃ events, Machine.run StratumServer.step (.init builder.jobs jobHistory) events
        = some S.server)
      ∧ ∀ c ∈ S.server.conns, (S.session c.connId).closing = false →
        (S.session c.connId).shown = c.pushed.map Pushed.params := by
  suffices h : (∃ events, Machine.run StratumServer.step (.init builder.jobs jobHistory) events
      = some S.server) ∧ S.Consistent ∧ Shows S from ⟨h.1, h.2.2⟩
  induction es using List.reverseRecOn generalizing S with
  | nil =>
      cases hrun
      exact ⟨⟨[], rfl⟩, consistent_of_builder rfl, fun c hc => by cases hc⟩
  | append_singleton es e ih =>
      obtain ⟨m, hm, hstep⟩ := Machine.run_concat_eq_some_iff.mp hrun
      obtain ⟨⟨events, hevents⟩, hconsistent, hshows⟩ := ih m hm
      have hfresh : Fresh m.server := fresh_run (fun c hc => by cases hc) hevents
      refine ⟨?_, consistent_step hconsistent hstep, hshows.step hfresh hstep⟩
      obtain ⟨-, more, -, hmore⟩ | ⟨b, -, rfl⟩ := step_runs hconsistent hstep
      · exact ⟨events ++ more, Machine.run_append_eq_some_iff.mpr ⟨_, hevents, hmore⟩⟩
      · exact ⟨events ++ [.setJobBuilder b.jobs],
          Machine.run_concat_eq_some_iff.mpr ⟨_, hevents, rfl⟩⟩

/-- A subscription on the wire. -/
def subscribeLine : Bytes :=
  "\x7b\"id\":1,\"method\":\"mining.subscribe\"\x7d\n".toList.map fun c => UInt8.ofNat c.toNat

/-- `str` of a text, which is all the examples need. -/
def strOfText : Json → PyStr
  | .str s => s
  | _ => []

lemma strOfText_str (s : PyStr) : strOfText (.str s) = s := rfl

/-- A codec for that line; everything else is no JSON, or no base64. -/
def subscribeCodec : Codec where
  loads line :=
    if line = subscribeLine then
      .ok (.obj [("id".toList, .int 1), ("method".toList, .str "mining.subscribe".toList)])
    else .error "Expecting value: line 1 column 1 (char 0)".toList
  str := strOfText
  str_str := strOfText_str
  b64decode _ := .error "Incorrect padding".toList
  ascii _ h := by cases h

/-- A miner that subscribes where there is a job. -/
theorem service_refines_first :
    ∃ S : Service Unit, Machine.run (step subscribeCodec) (init (fun _ _ => .ok (some firstJob)) 16)
        [.connect, .line 1 subscribeLine, .pushed 1] = some S
      ∧ ∀ c ∈ S.server.conns, (S.session c.connId).closing = false →
        (S.session c.connId).shown = c.pushed.map Pushed.params := by
  obtain ⟨S, hS⟩ : ∃ S : Service Unit, Machine.run (step subscribeCodec)
    (init (fun _ _ => .ok (some firstJob)) 16)
    [.connect, .line 1 subscribeLine, .pushed 1] = some S := ⟨_, rfl⟩
  exact ⟨S, hS, (service_refines subscribeCodec _ 16 _ S hS).2⟩

end Service

/-! ### The replies -/

/-- The ids of the replies to requests, in order: one for each, and where `p` a second one for one
whose handler ends with `push_job`. -/
inductive Replied (p : Prop) : List (Json × Bool) → List Json → Prop where
  | nil : Replied p [] []
  | once {asked : List (Json × Bool)} {ids : List Json} (id : Json) (pushes : Bool) :
      Replied p asked ids → Replied p (asked ++ [(id, pushes)]) (ids ++ [id])
  | twice {asked : List (Json × Bool)} {ids : List Json} (id : Json) :
      p → Replied p asked ids → Replied p (asked ++ [(id, true)]) (ids ++ [id] ++ [id])

lemma Replied.mono {p q : Prop} {asked : List (Json × Bool)} {ids : List Json} (hpq : p → q)
    (h : Replied p asked ids) : Replied q asked ids := by
  induction h with
  | nil => exact .nil
  | once id pushes _ ih => exact .once id pushes ih
  | twice id hp _ ih => exact .twice id (hpq hp) ih

/-- Where none is answered twice, the replies are those of the requests. -/
lemma Replied.eq_of_not {p : Prop} {asked : List (Json × Bool)} {ids : List Json}
    (h : Replied p asked ids) (hp : ¬ p) : ids = asked.map Prod.fst := by
  induction h with
  | nil => rfl
  | once id pushes _ ih => rw [ih, List.map_append]; rfl
  | twice id hp' _ _ => exact absurd hp' hp

/-- The request a connection has read and is yet to answer. -/
def Waiting.pending : Waiting Ctx → List (Json × Bool)
  | .submitting id _ => [(id, false)]
  | _ => []

/-- The request of an event, where it is a line of the connection. -/
def ServiceEvent.asks (codec : Codec) (i : ℕ) : ServiceEvent Ctx → Option (Json × Bool)
  | .line connId text => if connId = i then askedBy codec text else none
  | _ => none

/-- The requests of a connection. -/
def asked (codec : Codec) (i : ℕ) (es : List (ServiceEvent Ctx)) : List (Json × Bool) :=
  es.filterMap (·.asks codec i)

/-- The job builder raises for some worker. -/
def Builder.Raises (b : Builder Ctx) : Prop := ∃ address label, b.raises address label ≠ none

/-- A request, whether its handler ends with `push_job`, and the exception of the job builder that
`push_job` ended with. -/
abbrev Exchange := (Json × Bool) × Option PyStr

/-- `push_job` of the last request has raised. -/
def raiseLast (text : PyStr) (xs : List Exchange) : List Exchange :=
  xs.dropLast ++ (xs.getLast?.map fun x => (x.1, some text)).toList

@[simp] lemma raiseLast_concat (text : PyStr) (xs : List Exchange) (request : Json × Bool)
    (raised : Option PyStr) :
    raiseLast text (xs ++ [(request, raised)]) = xs ++ [(request, some text)] := by
  simp [raiseLast]

/-- What an event makes of the exchanges of an open connection: a request is read, or the builder
raises as its job is pushed. -/
def Service.exchange (codec : Codec) (i : ℕ) (S : Service Ctx) (e : ServiceEvent Ctx)
    (xs : List Exchange) : List Exchange :=
  match e with
  | .pushed connId =>
      if connId = i ∧ (S.session i).closing = false then
        match (S.server.conn? i).bind fun c => S.raises c.workerAddress c.workerLabel with
        | some text => raiseLast text xs
        | none => xs
      else xs
  | e => xs ++ (e.asks codec i).toList.map (·, none)

/-- The exchanges of a connection in a run. -/
def Service.exchangesFrom (codec : Codec) (i : ℕ) :
    Service Ctx → List Exchange → List (ServiceEvent Ctx) → List Exchange
  | _, xs, [] => xs
  | S, xs, e :: es =>
      match S.step codec e with
      | none => xs
      | some S' => exchangesFrom codec i S' (S.exchange codec i e xs) es

/-- The frames of a session that answer requests, in order. -/
def Session.answers (s : Session Ctx) : List Frame :=
  s.sent.filter fun frame => frame.answers.isSome

lemma Session.replies_eq (s : Session Ctx) :
    s.replies = s.answers.filterMap Frame.answers := by
  rw [replies, answers, List.filterMap_filter]
  refine List.filterMap_congr fun frame _ => ?_
  cases frame.answers <;> rfl

/-- The answers to exchanges, in order: one with the id of each request, and where the builder has
raised a second one, an error with the text of the exception. -/
inductive Answered : List Exchange → List Frame → Prop where
  | nil : Answered [] []
  | once {xs : List Exchange} {frames : List Frame} {id : Json} {frame : Frame} (pushes : Bool)
      (past : Answered xs frames) (answers : frame.answers = some id) :
      Answered (xs ++ [((id, pushes), none)]) (frames ++ [frame])
  | twice {xs : List Exchange} {frames : List Frame} {id : Json} {frame : Frame} (text : PyStr)
      (past : Answered xs frames) (answers : frame.answers = some id) :
      Answered (xs ++ [((id, true), some text)])
        (frames ++ [frame] ++ [.error id invalidParamsCode text])

/-- Read by the ids: a second one only where the builder has raised. -/
lemma Answered.replied {xs : List Exchange} {frames : List Frame} (h : Answered xs frames)
    {p : Prop} (hp : ∀ x ∈ xs, x.2 ≠ none → p) :
    Replied p (xs.map Prod.fst) (frames.filterMap Frame.answers) := by
  induction h with
  | nil => exact .nil
  | once pushes past answers ih =>
      have ih := ih fun x hx => hp x (List.mem_append_left _ hx)
      rw [List.map_append, List.filterMap_append, List.filterMap_cons_some answers]
      exact ih.once _ pushes
  | @twice xs frames id frame text past answers ih =>
      have ih := ih fun x hx => hp x (List.mem_append_left _ hx)
      have hraised : p := hp ((id, true), some text) (by simp) (by simp)
      rw [List.map_append, List.filterMap_append, List.filterMap_append,
        List.filterMap_cons_some answers]
      exact ih.twice id hraised

/-- The session has answered the exchanges in order, up to the one it is working on; a subscription
or an authorization whose job is to be pushed is answered already. -/
def Session.Follows (xs : List Exchange) (s : Session Ctx) : Prop :=
  ∃ done rest, xs = done ++ rest ∧ Answered done s.answers
    ∧ (s.closing = false → rest = s.phase.pending.map (·, none)
      ∧ ∀ id, s.phase = .pushing id → ∃ before frames frame, done = before ++ [((id, true), none)]
        ∧ Answered before frames ∧ s.answers = frames ++ [frame] ∧ frame.answers = some id)

namespace Session.Follows

variable {xs more : List Exchange} {s t : Session Ctx} {frame : Frame} {id : Json} {pushes : Bool}

lemma answers_append (hsent : t.sent = s.sent ++ [frame]) :
    t.answers = s.answers ++ if frame.answers.isSome then [frame] else [] := by
  rw [answers, hsent, List.filter_append, List.filter_singleton, answers]
  cases frame.answers <;> rfl

lemma answers_reply (hsent : t.sent = s.sent ++ [frame]) (hframe : frame.answers = some id) :
    t.answers = s.answers ++ [frame] := by
  rw [answers_append hsent, hframe]
  rfl

lemma start : Follows [] ({} : Session Ctx) :=
  ⟨[], [], rfl, .nil, fun _ => ⟨rfl, fun id h => by cases h⟩⟩

/-- A session that closes answers no more. -/
lemma close (h : Follows xs s) (hanswers : t.answers = s.answers)
    (hclosing : t.closing = true) : Follows (xs ++ more) t := by
  obtain ⟨done, rest, rfl, hdone, -⟩ := h
  refine ⟨done, rest ++ more, List.append_assoc _ _ _, hanswers ▸ hdone, fun hopen => ?_⟩
  rw [hclosing] at hopen
  cases hopen

/-- What is no reply changes nothing. -/
lemma keep (h : Follows xs s) (hanswers : t.answers = s.answers) (hphase : t.phase = s.phase)
    (hopen : t.closing = false → s.closing = false) : Follows xs t := by
  obtain ⟨done, rest, hxs, hdone, hwaits⟩ := h
  refine ⟨done, rest, hxs, hanswers ▸ hdone, fun ht => ?_⟩
  rw [hphase, hanswers]
  exact hwaits (hopen ht)

/-- A request comes in and is replied to. -/
lemma answer (h : Follows xs s) (hopen : s.closing = false) (hidle : s.phase = .idle)
    (hsent : t.sent = s.sent ++ [frame]) (hframe : frame.answers = some id)
    (hnext : t.phase = .idle ∨ t.phase = .pushing id ∧ pushes = true) :
    Follows (xs ++ [((id, pushes), none)]) t := by
  obtain ⟨done, rest, rfl, hdone, hwaits⟩ := h
  obtain ⟨hrest, -⟩ := hwaits hopen
  rw [hidle] at hrest
  obtain rfl : rest = [] := hrest
  have hanswers := answers_reply hsent hframe
  refine ⟨done ++ [((id, pushes), none)], [], by simp, hanswers ▸ hdone.once pushes hframe,
    fun _ => ?_⟩
  rcases hnext with hnext | ⟨hnext, rfl⟩
  · exact ⟨by rw [hnext]; rfl, fun id' hid' => by rw [hnext] at hid'; cases hid'⟩
  · refine ⟨by rw [hnext]; rfl, fun id' hid' => ?_⟩
    obtain rfl : id = id' := Waiting.pushing.inj (hnext.symm.trans hid')
    exact ⟨done, s.answers, frame, rfl, hdone, hanswers, hframe⟩

/-- A submission comes in and is handed on. -/
lemma hand (h : Follows xs s) (hidle : s.phase = .idle) {sub : Submission Ctx}
    (hsent : t.sent = s.sent) (hclosing : t.closing = s.closing)
    (hnext : t.phase = .submitting id sub) : Follows (xs ++ [((id, false), none)]) t := by
  obtain ⟨done, rest, rfl, hdone, hwaits⟩ := h
  refine ⟨done, rest ++ [((id, false), none)], List.append_assoc _ _ _, ?_, fun hopen => ?_⟩
  · rwa [answers, hsent]
  · obtain ⟨hrest, -⟩ := hwaits (hclosing ▸ hopen)
    rw [hidle] at hrest
    obtain rfl : rest = [] := hrest
    exact ⟨by rw [hnext]; rfl, fun id' hid' => by rw [hnext] at hid'; cases hid'⟩

/-- The submit handler has answered. -/
lemma answered (h : Follows xs s) (hopen : s.closing = false) {sub : Submission Ctx}
    (hphase : s.phase = .submitting id sub) (hsent : t.sent = s.sent ++ [frame])
    (hframe : frame.answers = some id) (hnext : t.phase = .idle) : Follows xs t := by
  obtain ⟨done, rest, rfl, hdone, hwaits⟩ := h
  obtain ⟨hrest, -⟩ := hwaits hopen
  rw [hphase] at hrest
  obtain rfl : rest = [((id, false), none)] := hrest
  refine ⟨done ++ [((id, false), none)], [], by simp,
    answers_reply hsent hframe ▸ hdone.once false hframe, fun _ => ?_⟩
  exact ⟨by rw [hnext]; rfl, fun id' hid' => by rw [hnext] at hid'; cases hid'⟩

/-- The job has been pushed, or there was none. -/
lemma pushed (h : Follows xs s) (hphase : s.phase = .pushing id)
    (hanswers : t.answers = s.answers) (hclosing : t.closing = s.closing)
    (hnext : t.phase = .idle) : Follows xs t := by
  obtain ⟨done, rest, rfl, hdone, hwaits⟩ := h
  refine ⟨done, rest, rfl, hanswers ▸ hdone, fun hopen => ?_⟩
  obtain ⟨hrest, -⟩ := hwaits (hclosing ▸ hopen)
  rw [hphase] at hrest
  exact ⟨by rw [hrest, hnext]; rfl, fun id' hid' => by rw [hnext] at hid'; cases hid'⟩

/-- The job builder has raised: a second reply. -/
lemma raised (h : Follows xs s) (hopen : s.closing = false) (hphase : s.phase = .pushing id)
    {text : PyStr} (hsent : t.sent = s.sent ++ [.error id invalidParamsCode text])
    (hnext : t.phase = .idle) : Follows (raiseLast text xs) t := by
  obtain ⟨done, rest, rfl, -, hwaits⟩ := h
  obtain ⟨hrest, hpush⟩ := hwaits hopen
  rw [hphase] at hrest
  obtain rfl : rest = [] := hrest
  obtain ⟨before, frames, first, rfl, hframes, hbefore, hfirst⟩ := hpush id hphase
  refine ⟨before ++ [((id, true), some text)], [], by simp, ?_, fun _ => ?_⟩
  · rw [answers_reply hsent rfl, hbefore]
    exact hframes.twice text hfirst
  · exact ⟨by rw [hnext]; rfl, fun id' hid' => by rw [hnext] at hid'; cases hid'⟩

end Session.Follows

namespace Service

variable {codec : Codec} {S T S' : Service Ctx} {c : Connection Ctx} {i j : ℕ}
  {line : Bytes} {id : Json} {frame : Frame} {next : Waiting Ctx} {xs : List Exchange}

/-- A frame on an open connection. -/
lemma session_reply_of_open (hopen : (S.session i).closing = false) :
    (S.reply i frame next).session i
      = { S.session i with phase := next, sent := (S.session i).sent ++ [frame] } := by
  rw [session_reply, if_pos rfl, if_neg (by simp [hopen])]

/-- A frame on a closing one: it ends. -/
lemma session_reply_of_closing (hclosing : (S.session i).closing = true) :
    (S.reply i frame next).session i
      = { S.session i with phase := .idle, closing := true } := by
  rw [session_reply, if_pos rfl, if_pos hclosing]

lemma session_reply_of_ne (hne : j ≠ i) : (S.reply i frame next).session j = S.session j := by
  rw [session_reply, if_neg hne]

/-- A line of the connection. -/
lemma follows_dispatch (h : (S.session c.connId).Follows xs)
    (hidle : (S.session c.connId).phase = .idle) (hblank : isBlank line = false) :
    ((S.dispatch codec c line).session c.connId).Follows
      (xs ++ (askedBy codec line).toList.map (·, none)) := by
  obtain ⟨id, pushes, hasked, ⟨T, frame, next, hd, htouch, hans, hnext⟩ | ⟨sub, hd, hpushes, -⟩⟩ :=
    dispatch_cases codec (S := S) (c := c) hblank
  · rw [hd, hasked, Option.toList_some]
    cases hclosing : (S.session c.connId).closing with
    | true =>
        rw [session_reply_of_closing (by rw [htouch.session, hclosing]), htouch.session]
        exact h.close rfl rfl
    | false =>
        rw [session_reply_of_open (by rw [htouch.session, hclosing]), htouch.session]
        exact h.answer hclosing hidle rfl hans hnext
  · subst hpushes
    rw [hd, hasked, session_setSession, if_pos rfl]
    exact h.hand hidle rfl rfl rfl

/-- Another connection's line. -/
lemma session_dispatch_of_ne (hne : j ≠ c.connId) (hblank : isBlank line = false) :
    (S.dispatch codec c line).session j = S.session j := by
  obtain ⟨id, pushes, -, ⟨T, frame, next, hd, htouch, -⟩ | ⟨sub, hd, -⟩⟩ :=
    dispatch_cases codec (S := S) (c := c) hblank
  · rw [hd, session_reply_of_ne hne, htouch.session]
  · rw [hd, session_setSession, if_neg hne]

/-- The end of a subscription or an authorization. -/
lemma follows_finishPush (h : (S.session c.connId).Follows xs)
    (hc : S.server.conn? c.connId = some c) (hphase : (S.session c.connId).phase = .pushing id) :
    ((S.finishPush c id).session c.connId).Follows
      (S.exchange codec c.connId (.pushed c.connId) xs) := by
  have hend : Session.Follows (xs ++ [])
      { S.session c.connId with phase := .idle, closing := true } := h.close rfl rfl
  rw [List.append_nil] at hend
  rw [finishPush, exchange, hc, Option.bind_some]
  cases hclosing : (S.session c.connId).closing with
  | true =>
      rw [if_neg (by simp)]
      split
      · rw [session_reply_of_closing hclosing]
        exact hend
      · split
        · rw [session_setSession, if_pos rfl]
          exact h.pushed hphase rfl rfl rfl
        · rw [session_reply_of_closing (by rw [session_apply, hclosing])]
          exact hend
  | false =>
      rw [if_pos ⟨rfl, rfl⟩]
      cases S.raises c.workerAddress c.workerLabel with
      | some text =>
          dsimp only
          rw [session_reply_of_open hclosing]
          exact h.raised hclosing hphase rfl rfl
      | none =>
          dsimp only
          split
          · rw [session_setSession, if_pos rfl]
            exact h.pushed hphase rfl rfl rfl
          · rw [session_reply_of_open (by rw [session_apply, hclosing])]
            exact h.pushed hphase
              ((Session.Follows.answers_append rfl).trans (List.append_nil _)) rfl rfl

lemma session_finishPush_of_ne (hne : j ≠ c.connId) :
    (S.finishPush c id).session j = S.session j := by
  rw [finishPush]
  split
  · exact session_reply_of_ne hne
  · split
    · rw [session_setSession, if_neg hne, session_apply]
    · rw [session_reply_of_ne hne, session_apply]

/-- The answer of the submit handler is one reply. -/
lemma finishSubmit_eq_reply (id : Json) (result : Except PyStr SubmitResult) :
    ∃ frame : Frame, frame.answers = some id ∧ S.finishSubmit i id result
      = S.reply i frame .idle := by
  cases result with
  | error text => exact ⟨_, rfl, rfl⟩
  | ok result =>
      rw [finishSubmit]
      split_ifs
      · exact ⟨_, rfl, rfl⟩
      · exact ⟨_, rfl, rfl⟩

/-- A broadcast sends no replies. -/
lemma session_pushOne (c : Connection Ctx) (j : ℕ) :
    ((S.pushOne c).session j).phase = (S.session j).phase
      ∧ ((S.pushOne c).session j).answers = (S.session j).answers
      ∧ (((S.pushOne c).session j).closing = false → (S.session j).closing = false) := by
  rw [pushOne]
  split
  · rw [session_setSession]
    split_ifs with hj
    · exact ⟨by rw [hj], by rw [hj]; rfl, fun h => by cases h⟩
    · exact ⟨rfl, rfl, id⟩
  · split
    · exact ⟨rfl, rfl, id⟩
    · dsimp only
      split_ifs with hclosing
      · exact ⟨rfl, rfl, id⟩
      · rw [session_setSession]
        split_ifs with hj
        · subst hj
          exact ⟨rfl, (Session.Follows.answers_append rfl).trans (List.append_nil _), id⟩
        · exact ⟨rfl, rfl, id⟩

lemma follows_refresh (h : (S.session j).Follows xs) : ((S.refresh).session j).Follows xs := by
  rw [refresh]
  generalize S.server.conns.filter (·.ready) = cs
  induction cs generalizing S with
  | nil => exact h
  | cons c cs ih =>
      obtain ⟨hphase, hanswers, hopen⟩ := session_pushOne (S := S) c j
      exact ih (h.keep hanswers hphase hopen)

/-- The session of a connection after an event. -/
lemma follows_step {e : ServiceEvent Ctx} (hstep : S.step codec e = some S')
    (hnew : e = .connect → i = S.server.connSeq + 1 → xs = [])
    (h : (S.session i).Follows xs) : (S'.session i).Follows (S.exchange codec i e xs) := by
  have hsame (hasks : S.exchange codec i e xs = xs) (hsession : S'.session i = S.session i) :
      (S'.session i).Follows (S.exchange codec i e xs) := by
    rw [hasks, hsession]
    exact h
  cases e with
  | connect =>
      cases hstep
      by_cases hi : i = S.server.connSeq + 1
      · rw [hnew rfl hi, session_setSession, if_pos hi]
        exact .start
      · exact hsame (List.append_nil _) (by rw [session_setSession, if_neg hi, session_apply])
  | line connId line =>
      rw [step] at hstep
      split at hstep
      · rename_i c hphase hc
        cases hstep
        obtain rfl : c.connId = connId := by simpa using List.find?_some hphase
        by_cases hblank : isBlank line = true
        · rw [if_pos hblank] at hsame ⊢
          exact hsame (by simp [exchange, ServiceEvent.asks, askedBy, hblank]) rfl
        · rw [if_neg hblank] at hsame ⊢
          have hblank' : isBlank line = false := Bool.eq_false_iff.mpr hblank
          by_cases hi : i = c.connId
          · subst hi
            rw [exchange, ServiceEvent.asks, if_pos rfl]
            · exact follows_dispatch h hc hblank'
            · rintro connId ⟨⟩
          · exact hsame (by simp [exchange, ServiceEvent.asks, Ne.symm hi])
              (session_dispatch_of_ne hi hblank')
      · cases hstep
  | pushed connId =>
      rw [step] at hstep
      split at hstep
      · rename_i c id hc hphase
        cases hstep
        obtain rfl : c.connId = connId := by simpa using List.find?_some hc
        by_cases hi : i = c.connId
        · subst hi
          exact follows_finishPush h hc hphase
        · exact hsame (if_neg fun h => hi h.1.symm) (session_finishPush_of_ne hi)
      · cases hstep
  | submitted connId result =>
      rw [step] at hstep
      split at hstep
      · rename_i id sub hphase
        cases hstep
        obtain ⟨frame, hans, heq⟩ := finishSubmit_eq_reply (S := S) (i := connId) id result
        rw [heq] at hsame ⊢
        by_cases hi : i = connId
        · subst hi
          cases hclosing : (S.session i).closing with
          | true =>
              rw [session_reply_of_closing hclosing]
              exact h.close rfl rfl
          | false =>
              have hxs : S.exchange codec i (.submitted i result) xs = xs := List.append_nil _
              rw [session_reply_of_open hclosing, hxs]
              exact h.answered hclosing hphase rfl hans rfl
        · exact hsame (List.append_nil _) (session_reply_of_ne hi)
      · cases hstep
  | refresh =>
      cases hstep
      have hxs : S.exchange codec i .refresh xs = xs := List.append_nil _
      rw [hxs]
      exact follows_refresh h
  | fail connId =>
      cases hstep
      by_cases hi : i = connId
      · subst hi
        rw [session_setSession, if_pos rfl]
        exact h.close rfl rfl
      · exact hsame (List.append_nil _) (by rw [session_setSession, if_neg hi])
  | leave connId =>
      cases hstep
      by_cases hi : i = connId
      · subst hi
        rw [session_leave, if_pos rfl]
        exact h.close rfl rfl
      · exact hsame (List.append_nil _) (by rw [session_leave, if_neg hi])
  | setJobBuilder builder =>
      cases hstep
      exact hsame (List.append_nil _) rfl

/-! ### The exchanges of a run -/

/-- The exchanges are those of the requests. -/
lemma map_fst_exchange (e : ServiceEvent Ctx) :
    (S.exchange codec i e xs).map Prod.fst
      = xs.map Prod.fst ++ (e.asks codec i).toList := by
  have hraise : ∀ text, (raiseLast text xs).map Prod.fst = xs.map Prod.fst := by
    intro text
    rcases List.eq_nil_or_concat xs with rfl | ⟨before, ⟨request, raised⟩, rfl⟩
    · rfl
    · simp
  cases e with
  | pushed connId =>
      rw [exchange,
        show ServiceEvent.asks codec i (.pushed connId : ServiceEvent Ctx) = none from rfl,
        Option.toList_none, List.append_nil]
      split_ifs
      · split
        · exact hraise _
        · rfl
      · rfl
  | _ =>
      rw [exchange, List.map_append, List.map_map]
      · exact congrArg _ (List.map_id _)
      · rintro connId ⟨⟩

/-- An exception in an exchange is one of the builder. -/
lemma raises_of_exchange {e : ServiceEvent Ctx} {x : Exchange} (hx : x ∈ S.exchange codec i e xs)
    (hraised : x.2 ≠ none) : x ∈ xs ∨ ∃ address label, S.raises address label ≠ none := by
  cases e with
  | pushed connId =>
      rw [exchange] at hx
      split_ifs at hx
      · split at hx
        · rename_i text hbuilder
          obtain ⟨c, -, hc⟩ := Option.bind_eq_some_iff.mp hbuilder
          exact Or.inr ⟨_, _, by rw [hc]; simp⟩
        · exact Or.inl hx
      · exact Or.inl hx
  | _ =>
      rw [exchange] at hx
      · rcases List.mem_append.mp hx with hx | hx
        · exact Or.inl hx
        · obtain ⟨r, -, rfl⟩ := List.mem_map.mp hx
          exact absurd rfl hraised
      · rintro connId ⟨⟩

/-- The exchanges of a run with one more event. -/
lemma exchangesFrom_concat {es : List (ServiceEvent Ctx)} {e : ServiceEvent Ctx} {m : Service Ctx}
    (hm : Machine.run (step codec) S es = some m) (hstep : m.step codec e = some S') :
    exchangesFrom codec i S xs (es ++ [e])
      = m.exchange codec i e (exchangesFrom codec i S xs es) := by
  induction es generalizing S xs with
  | nil =>
      cases hm
      simp only [List.nil_append, exchangesFrom, hstep]
  | cons e' es ih =>
      obtain ⟨S₁, hS₁, hrest⟩ := Machine.run_cons_eq_some_iff.mp hm
      rw [List.cons_append, exchangesFrom, exchangesFrom, hS₁]
      exact ih hrest

/-- The exchanges of a connection of a new server. -/
def exchanges (codec : Codec) (i : ℕ) (builder : Builder Ctx) (jobHistory : ℕ)
    (es : List (ServiceEvent Ctx)) : List Exchange :=
  exchangesFrom codec i (init builder jobHistory) [] es

/-- A job builder of the run raises. -/
def RaisesIn (builder : Builder Ctx) (es : List (ServiceEvent Ctx)) : Prop :=
  builder.Raises ∨ ∃ b, .setJobBuilder b ∈ es ∧ b.Raises

/-- What holds in every state of a run: every session has answered its requests. -/
lemma follows_of_run {codec : Codec} {builder : Builder Ctx} {jobHistory : ℕ}
    {es : List (ServiceEvent Ctx)} {S : Service Ctx}
    (hrun : Machine.run (step codec) (init builder jobHistory) es = some S) :
    S.Consistent ∧ Fresh S.server
      ∧ (∀ address label, S.raises address label ≠ none → RaisesIn builder es)
      ∧ (∀ i, S.server.connSeq < i → asked codec i es = [])
      ∧ ∀ i, (exchanges codec i builder jobHistory es).map Prod.fst = asked codec i es
        ∧ (∀ x ∈ exchanges codec i builder jobHistory es, x.2 ≠ none → RaisesIn builder es)
        ∧ (S.session i).Follows (exchanges codec i builder jobHistory es) := by
  induction es using List.reverseRecOn generalizing S with
  | nil =>
      cases hrun
      refine ⟨consistent_of_builder rfl, fun c hc => (by cases hc), fun address label hne => ?_,
        fun i _ => rfl, fun i => ⟨rfl, fun x hx => absurd hx List.not_mem_nil, .start⟩⟩
      exact .inl ⟨address, label, hne⟩
  | append_singleton es e ih =>
      obtain ⟨m, hm, hstep⟩ := Machine.run_concat_eq_some_iff.mp hrun
      obtain ⟨hconsistent, hfresh, hraises, hunasked, hfollows⟩ := ih hm
      have hmono : RaisesIn builder es → RaisesIn builder (es ++ [e]) :=
        Or.imp_right fun ⟨b, hb, hr⟩ => ⟨b, List.mem_append_left _ hb, hr⟩
      have hserver : Fresh S.server ∧ m.server.connSeq ≤ S.server.connSeq
          ∧ ∀ address label, S.raises address label ≠ none → RaisesIn builder (es ++ [e]) := by
        obtain ⟨hr, events, -, hevents⟩ | ⟨b, rfl, rfl⟩ := step_runs hconsistent hstep
        · exact ⟨fresh_run hfresh hevents, connSeq_le_run hevents,
            fun address label hne => hmono (hraises address label (hr ▸ hne))⟩
        · exact ⟨hfresh, le_rfl, fun address label hne => .inr ⟨b, by simp, address, label, hne⟩⟩
      have hasked (i : ℕ) :
          asked codec i (es ++ [e]) = asked codec i es ++ (e.asks codec i).toList := by
        rw [asked, asked, List.filterMap_append]
        cases h : e.asks codec i <;> simp [h]
      have hexchanges (i : ℕ) : exchanges codec i builder jobHistory (es ++ [e])
          = m.exchange codec i e (exchanges codec i builder jobHistory es) :=
        exchangesFrom_concat hm hstep
      refine ⟨consistent_step hconsistent hstep, hserver.1, hserver.2.2, fun i hi => ?_,
        fun i => ?_⟩
      · rw [hasked, hunasked i (hserver.2.1.trans_lt hi), List.nil_append]
        cases e with
        | line connId line =>
            rw [ServiceEvent.asks]
            split_ifs with heq
            · -- only a connection with an id that was given out reads a line
              subst heq
              rw [step] at hstep
              split at hstep
              · rename_i c hc _
                have hle := hfresh c (List.mem_of_find?_eq_some hc)
                have hid : c.connId = connId := by simpa using List.find?_some hc
                omega
              · cases hstep
            · rfl
        | _ => rfl
      · obtain ⟨hfst, hbuilder, hsession⟩ := hfollows i
        rw [hexchanges, hasked, map_fst_exchange, hfst]
        refine ⟨rfl, fun x hx hne => ?_, follows_step hstep (fun _ hi => ?_) hsession⟩
        · rcases raises_of_exchange hx hne with hx | ⟨address, label, hr⟩
          · exact hmono (hbuilder x hx hne)
          · exact hmono (hraises address label hr)
        · rw [← List.map_eq_nil_iff, hfst]
          exact hunasked i (by omega)

/-- The replies on a connection, by their ids. -/
lemma replied_of_run {codec : Codec} {builder : Builder Ctx} {jobHistory : ℕ}
    {es : List (ServiceEvent Ctx)} {S : Service Ctx}
    (hrun : Machine.run (step codec) (init builder jobHistory) es = some S) (i : ℕ) :
    ∃ done rest, asked codec i es = done ++ rest
      ∧ Replied (RaisesIn builder es) done (S.session i).replies
      ∧ ((S.session i).closing = false → rest = (S.session i).phase.pending) := by
  obtain ⟨-, -, -, -, hfollows⟩ := follows_of_run hrun
  obtain ⟨hfst, hbuilder, done, rest, hxs, hdone, hopen⟩ := hfollows i
  rw [hxs] at hfst hbuilder
  refine ⟨done.map Prod.fst, rest.map Prod.fst, by rw [← hfst, List.map_append], ?_, fun h => ?_⟩
  · rw [Session.replies_eq]
    exact hdone.replied fun x hx => hbuilder x (List.mem_append_left _ hx)
  · rw [(hopen h).1, List.map_map]
    exact List.map_id _

/-- **Every request is answered**, in order and by a reply with its own id, whatever the other
connections, the submit handler and the refreshes do in between: on an open connection all but one
that is being submitted.  It is answered once, unless the job builder raises for the worker of the
connection as the job of a subscription or an authorization is pushed; then there is a second
answer, an error with the text of the exception. -/
theorem requests_answered (codec : Codec) (builder : Builder Ctx) (jobHistory : ℕ)
    (es : List (ServiceEvent Ctx)) (S : Service Ctx) (i : ℕ)
    (hrun : Machine.run (step codec) (init builder jobHistory) es = some S) :
    ∃ done rest, exchanges codec i builder jobHistory es = done ++ rest
      ∧ asked codec i es = (done ++ rest).map Prod.fst
      ∧ Answered done (S.session i).answers
      ∧ ((S.session i).closing = false → rest = (S.session i).phase.pending.map (·, none))
      ∧ (¬RaisesIn builder es → (S.session i).replies = done.map fun x => x.1.1) := by
  obtain ⟨-, -, -, -, hfollows⟩ := follows_of_run hrun
  obtain ⟨hfst, hbuilder, done, rest, hxs, hdone, hopen⟩ := hfollows i
  rw [hxs] at hfst hbuilder
  refine ⟨done, rest, hxs, hfst.symm, hdone, fun h => (hopen h).1, fun hnone => ?_⟩
  rw [Session.replies_eq, (hdone.replied fun x hx =>
    hbuilder x (List.mem_append_left _ hx)).eq_of_not hnone, List.map_map]
  rfl

/-- A subscription for which the job builder raises, another one where there is no job, and a line
that is no JSON. -/
theorem requests_answered_raised :
    let es : List (ServiceEvent Unit) := [.connect, .line 1 subscribeLine, .pushed 1,
      .setJobBuilder (fun _ _ => .ok none), .line 1 subscribeLine, .pushed 1, .line 1 [0x78]]
    ∃ S, Machine.run (step subscribeCodec) (init (fun _ _ => .error "no template".toList) 16) es
        = some S
      ∧ Answered [((.int 1, true), some "no template".toList), ((.int 1, true), none),
        ((.null, false), none)] (S.session 1).answers := by
  intro es
  obtain ⟨S, hrun, hopen, hphase⟩ : ∃ S : Service Unit,
      Machine.run (step subscribeCodec) (init (fun _ _ => .error "no template".toList) 16) es
        = some S
      ∧ (S.session 1).closing = false ∧ (S.session 1).phase = .idle := ⟨_, rfl, rfl, rfl⟩
  have hxs : exchanges subscribeCodec 1 (fun _ _ => .error "no template".toList) 16 es
      = [((.int 1, true), some "no template".toList), ((.int 1, true), none),
        ((.null, false), none)] := rfl
  obtain ⟨done, rest, hdone, -, hanswered, hrest, -⟩ :=
    requests_answered subscribeCodec _ 16 es S 1 hrun
  rw [hrest hopen, hphase, hxs] at hdone
  refine ⟨S, hrun, ?_⟩
  rw [hdone,
    show (Waiting.idle : Waiting Unit).pending.map (·, none) = ([] : List Exchange) from rfl,
    List.append_nil]
  exact hanswered

end Service

end P2Pearl
