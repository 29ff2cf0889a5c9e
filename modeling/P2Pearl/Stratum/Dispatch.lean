import P2Pearl.P2P.Message
import P2Pearl.Stratum.Server

/-!
The requests of the miners: `stratum/protocol.py`, and `_Connection` of `stratum/server.py` from a
line to its reply.

* `parseRequest`, `parseAuthorize`, `parseSubmit`: what is read from a line.
* `Session`: what a connection is waiting for, and the frames it was sent.
* `Service.step`: a line comes in, a handler goes on after an await, the tip changes, or a
  connection fails or ends.  What the service does to the server are events of `StratumServer`.
-/

namespace P2Pearl

variable {Ctx : Type}

/-! ### Reading a line -/

/-- What the service takes from the standard library: `json.loads` and `base64.b64decode`, each
with the text of its exception, and `str`. -/
structure Codec where
  loads : Bytes → Except PyStr Json
  str : Json → PyStr
  str_str : ∀ s, str (.str s) = s
  b64decode : PyStr → Except PyStr Unit
  ascii : ∀ s, b64decode s = .ok () → IsAscii s

/-- `LOW_DIFF_CODE`. -/
def lowDiffCode : ℤ := 23

/-- `Request`. -/
structure Request where
  id : Json
  method : PyStr
  params : Json

/-- `parse_request`. -/
def parseRequest (codec : Codec) (line : Bytes) : Except PyStr Request :=
  match codec.loads line with
  | .error text => .error text
  | .ok (.obj fields) =>
      match dictGet fields "method" with
      | some (.str method) =>
          .ok ⟨(dictGet fields "id").getD .null, method, (dictGet fields "params").getD .null⟩
      | _ => .error "request missing string 'method'".toList
  | .ok _ => .error "request is not a JSON object".toList

/-- `parse_authorize`: the login, the worker and the dialect. -/
def parseAuthorize (str : Json → PyStr) : Json → Except PyStr (PyStr × PyStr × Dialect)
  | .obj fields =>
      .ok (str ((dictGet fields "wallet").getD (.str [])),
        str ((dictGet fields "worker").getD (.str [])), .object)
  | .arr (login :: _) => .ok (str login, [], .positional)
  | _ => .error "bad mining.authorize params".toList

/-- `parse_submit`: the job id and the proof.  A missing key is named by the `KeyError`. -/
def parseSubmit (str : Json → PyStr) : Json → Except PyStr (PyStr × PyStr)
  | .obj fields =>
      match dictGet fields "job_id", dictGet fields "plain_proof" with
      | none, _ => .error "'job_id'".toList
      | some _, none => .error "'plain_proof'".toList
      | some jobId, some proof => .ok (str jobId, str proof)
  | .arr (_ :: jobId :: proof :: _) => .ok (str jobId, str proof)
  | _ => .error "bad mining.submit params".toList

/-- The handlers of `_HANDLERS`. -/
inductive Method where
  | configure
  | subscribe
  | authorize
  | submit
  | challengeResponse
  deriving DecidableEq

/-- `_HANDLERS`. -/
def handlers : List (PyStr × Method) :=
  [("mining.configure".toList, .configure), ("mining.subscribe".toList, .subscribe),
    ("mining.authorize".toList, .authorize), ("mining.submit".toList, .submit),
    ("pearl.challenge_response".toList, .challengeResponse)]

/-- The handler of a method. -/
def handlerFor (method : PyStr) : Option Method :=
  (handlers.find? fun p => p.1 = method).map Prod.snd

/-- The address and the label of the login of an `authorize`. -/
def loginWorker (login worker : PyStr) : Option PyStr × PyStr :=
  parseWorker (if '.' ∈ login ∨ worker = [] then login else login ++ '.' :: worker)

/-! ### Connections -/

/-- A frame sent: `encode_response`, `encode_error`, or a `mining.notify`. -/
inductive Frame where
  | response (id result : Json)
  | error (id : Json) (code : ℤ) (message : PyStr)
  | notify (params : NotifyParams)

/-- The id of the request a frame answers. -/
def Frame.answers : Frame → Option Json
  | .response id _ => some id
  | .error id _ _ => some id
  | .notify _ => none

/-- What a connection is waiting for: its next line, the reply to a subscription or an authorization
to go out before its job is pushed, or the answer of the submit handler. -/
inductive Waiting (Ctx : Type) where
  | idle
  | pushing (id : Json)
  | submitting (id : Json) (submission : Submission Ctx)

/-- The side of a `_Connection` its miner sees. -/
structure Session (Ctx : Type) where
  phase : Waiting Ctx := .idle
  sent : List Frame := []
  closing : Bool := false

/-- The ids of the requests answered, in order. -/
def Session.replies (s : Session Ctx) : List Json := s.sent.filterMap Frame.answers

/-- A job builder that may raise, with the text of its exception. -/
abbrev Builder (Ctx : Type) := Option PyStr → PyStr → Except PyStr (Option (Job Ctx))

/-- What the builder answers where it does not raise. -/
def Builder.jobs (b : Builder Ctx) : JobBuilder Ctx := fun address label =>
  match b address label with
  | .ok job => job
  | .error _ => none

/-- The exception of the builder. -/
def Builder.raises (b : Builder Ctx) (address : Option PyStr) (label : PyStr) : Option PyStr :=
  match b address label with
  | .ok _ => none
  | .error text => some text

/-- A server, the exceptions of its job builder, and the sessions of its connections. -/
structure Service (Ctx : Type) where
  server : StratumServer Ctx
  raises : Option PyStr → PyStr → Option PyStr
  session : ℕ → Session Ctx

/-- What can happen. -/
inductive ServiceEvent (Ctx : Type) where
  | connect
  /-- A connection reads a line. -/
  | line (connId : ℕ) (line : Bytes)
  /-- The reply to a subscription or an authorization has been sent. -/
  | pushed (connId : ℕ)
  /-- The submit handler has returned, or raised. -/
  | submitted (connId : ℕ) (result : Except PyStr SubmitResult)
  | refresh
  /-- A send has timed out or failed. -/
  | fail (connId : ℕ)
  /-- `run` is over. -/
  | leave (connId : ℕ)
  | setJobBuilder (builder : Builder Ctx)

namespace Service

/-- A new server with a job builder. -/
def init (builder : Builder Ctx) (jobHistory : ℕ) : Service Ctx :=
  ⟨.init builder.jobs jobHistory, builder.raises, fun _ => {}⟩

/-- An event of the server, where it can happen. -/
def apply (S : Service Ctx) (e : StratumServer.Event Ctx) : Service Ctx :=
  { S with server := (S.server.step e).getD S.server }

/-- A session is changed. -/
def setSession (S : Service Ctx) (connId : ℕ) (s : Session Ctx) : Service Ctx :=
  { S with session := Function.update S.session connId s }

/-- The end of `_on_client`. -/
def leave (S : Service Ctx) (connId : ℕ) : Service Ctx :=
  (S.apply (.disconnect connId)).setSession connId
    { S.session connId with phase := .idle, closing := true }

/-- `send` of a handler, which then waits for `next`; on a closing connection it ends `run`. -/
def reply (S : Service Ctx) (connId : ℕ) (frame : Frame) (next : Waiting Ctx) : Service Ctx :=
  if (S.session connId).closing then S.leave connId
  else S.setSession connId
    { S.session connId with phase := next, sent := (S.session connId).sent ++ [frame] }

/-- `_handle_submit`, up to the call of the submit handler. -/
def handleSubmit (codec : Codec) (S : Service Ctx) (c : Connection Ctx) (req : Request) :
    Service Ctx :=
  match parseSubmit codec.str req.params with
  | .error text => S.reply c.connId (.error req.id invalidParamsCode text) .idle
  | .ok (jobId, proof) =>
      match S.server.findJob jobId with
      | .error (code, text) => S.reply c.connId (.error req.id code text.toList) .idle
      | .ok job =>
          match h : codec.b64decode proof with
          | .error text =>
              S.reply c.connId
                (.error req.id invalidParamsCode ("bad plain_proof: ".toList ++ text)) .idle
          | .ok () =>
              S.setSession c.connId
                { S.session c.connId with
                  phase := .submitting req.id
                    ⟨c.workerAddress, c.workerLabel, job, proof, codec.ascii proof h⟩ }

/-- `_dispatch` of a request: its handler, up to the first await after the reply. -/
def handle (codec : Codec) (S : Service Ctx) (c : Connection Ctx) (req : Request) : Service Ctx :=
  match handlerFor req.method with
  | none => S.reply c.connId (.response req.id (.bool true)) .idle
  | some .configure =>
      (S.apply (.configure c.connId)).reply c.connId
        (.response req.id (.obj [("pearl/v1".toList, .bool true),
          ("pearl/v1.share_format".toList, .str "base64".toList)])) .idle
  | some .subscribe =>
      let tag := hexDigits 8 c.connId
      (S.apply (.subscribe c.connId)).reply c.connId
        (.response req.id (.arr [.arr [.arr [.str "mining.set_difficulty".toList, .str tag],
          .arr [.str "mining.notify".toList, .str tag]], .str [], .int 0])) (.pushing req.id)
  | some .challengeResponse =>
      S.reply c.connId (.response req.id (.obj [("result".toList, .bool true)])) .idle
  | some .authorize =>
      match parseAuthorize codec.str req.params with
      | .error text => S.reply c.connId (.error req.id invalidParamsCode text) .idle
      | .ok (login, worker, dialect) =>
          (S.apply (.authorize c.connId login worker dialect)).reply c.connId
            (.response req.id (.bool true)) (.pushing req.id)
  | some .submit => S.handleSubmit codec c req

/-- `_dispatch`. -/
def dispatch (codec : Codec) (S : Service Ctx) (c : Connection Ctx) (line : Bytes) : Service Ctx :=
  match parseRequest codec line with
  | .error text =>
      S.reply c.connId (.error .null invalidParamsCode ("bad request: ".toList ++ text)) .idle
  | .ok req => S.handle codec c req

/-- The notification `push_job` sends. -/
def notice (S : Service Ctx) (c : Connection Ctx) : Option NotifyParams :=
  if c.ready then (S.server.mintJobFor c).2.map (·.notifyParams c.dialect true) else none

/-- The end of `_handle_subscribe` and `_handle_authorize`: `push_job`, whose exception
`_dispatch` answers with an error. -/
def finishPush (S : Service Ctx) (c : Connection Ctx) (id : Json) : Service Ctx :=
  match S.raises c.workerAddress c.workerLabel with
  | some text => S.reply c.connId (.error id invalidParamsCode text) .idle
  | none =>
      match S.notice c with
      | none =>
          (S.apply (.push c.connId)).setSession c.connId
            { S.session c.connId with phase := .idle }
      | some params => (S.apply (.push c.connId)).reply c.connId (.notify params) .idle

/-- The end of `_handle_submit`: the answer of the submit handler. -/
def finishSubmit (S : Service Ctx) (connId : ℕ) (id : Json) :
    Except PyStr SubmitResult → Service Ctx
  | .error text => S.reply connId (.error id invalidParamsCode text) .idle
  | .ok result =>
      if result.accepted then S.reply connId (.response id (.bool true)) .idle
      else
        let code := match result.errorCode with
          | some code => if code = 0 then lowDiffCode else code
          | none => lowDiffCode
        let reason := match result.errorMessage with
          | some text => if text = "" then "rejected" else text
          | none => "rejected"
        S.reply connId (.error id code reason.toList) .idle

/-- `push` of `_broadcast`, to a ready connection: an exception closes it. -/
def pushOne (S : Service Ctx) (c : Connection Ctx) : Service Ctx :=
  let s := S.session c.connId
  match S.raises c.workerAddress c.workerLabel with
  | some _ => S.setSession c.connId { s with closing := true }
  | none =>
      let S' := { S with server := S.server.pushJob c }
      match S.notice c with
      | none => S'
      | some params =>
          if s.closing then S'
          else S'.setSession c.connId { s with sent := s.sent ++ [.notify params] }

/-- `refresh`. -/
def refresh (S : Service Ctx) : Service Ctx :=
  (S.server.conns.filter (·.ready)).foldl pushOne S

/-- One event, where it can happen. -/
def step (codec : Codec) (S : Service Ctx) : ServiceEvent Ctx → Option (Service Ctx)
  | .connect => some ((S.apply .connect).setSession (S.server.connSeq + 1) {})
  | .line connId line =>
      match S.server.conn? connId, (S.session connId).phase with
      | some c, .idle => some (if isBlank line then S else S.dispatch codec c line)
      | _, _ => none
  | .pushed connId =>
      match S.server.conn? connId, (S.session connId).phase with
      | some c, .pushing id => some (S.finishPush c id)
      | _, _ => none
  | .submitted connId result =>
      match (S.session connId).phase with
      | .submitting id _ => some (S.finishSubmit connId id result)
      | _ => none
  | .refresh => some S.refresh
  | .fail connId => some (S.setSession connId { S.session connId with closing := true })
  | .leave connId => some (S.leave connId)
  | .setJobBuilder builder =>
      some { S.apply (.setJobBuilder builder.jobs) with raises := builder.raises }

end Service

end P2Pearl
