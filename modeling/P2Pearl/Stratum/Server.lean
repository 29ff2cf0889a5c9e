import P2Pearl.Data.Machine
import P2Pearl.Stratum.Registry

/-!
`StratumServer` of `stratum/server.py` with a job builder set: its connections, the jobs it pushes
to them, and how long a miner may submit for the last one.

* `StratumServer.step`: one event between two awaits; `push` is the `push_job` that ends
  `_handle_subscribe` and `_handle_authorize`, and refreshes come at any time between.
* `pushAll_pushes`: what pushing to some connections in turn does; `step_pushes`: a push or a
  refresh does it.
* `Sound`: what holds of a server in every state; `step_cases` is what an event does, and
  `step_quiet` what any but a push or a refresh does.
-/

namespace P2Pearl

variable {Ctx : Type}

/-! ### What the miner sees -/

/-- The dialects a miner may speak. -/
inductive Dialect where
  | object
  | positional
  deriving DecidableEq

/-- The parameters of a `mining.notify`, in either dialect. -/
inductive NotifyParams where
  | object (jobId header target : PyStr) (height : ℕ)
  | positional (jobId prevHash header : PyStr) (reserved : ℕ) (ntime nbits : PyStr) (clean : Bool)

/-- The id a miner submits for. -/
def NotifyParams.jobId : NotifyParams → PyStr
  | .object jobId _ _ _ => jobId
  | .positional jobId _ _ _ _ _ _ => jobId

namespace StratumJob

variable (job : StratumJob Ctx)

/-- `prev_hash_hex`. -/
def prevHashHex : PyStr := Bytes.hex ((job.incompleteHeader.drop 4).take 32)

/-- `ntime_hex`. -/
def ntimeHex : PyStr := hexDigits 8 (leNat ((job.incompleteHeader.drop 68).take 4))

/-- `nbits_hex`. -/
def nbitsHex : PyStr := hexDigits 8 (leNat ((job.incompleteHeader.drop 72).take 4))

/-- `target_hex`, of a 256-bit target. -/
def targetHex : PyStr := hexDigits 64 job.shareTarget

/-- `notify_params`. -/
def notifyParams (dialect : Dialect) (clean : Bool) : NotifyParams :=
  match dialect with
  | .positional => .positional job.jobId job.prevHashHex (Bytes.hex job.incompleteHeader) 0
      job.ntimeHex job.nbitsHex clean
  | .object => .object job.jobId (Bytes.hex job.incompleteHeader) job.targetHex job.height

@[simp] lemma jobId_notifyParams (dialect : Dialect) (clean : Bool) :
    (job.notifyParams dialect clean).jobId = job.jobId := by cases dialect <;> rfl

end StratumJob

/-- `_VALID_HRPS`. -/
def validHrps : List PyStr := ["prl1".toList, "tprl1".toList, "sprl1".toList, "rprl1".toList]

/-- `_BECH32_CHARSET`. -/
def bech32Charset : List Char := "qpzry9x8gf2tvdw0s3jn54khce6mua7l".toList

/-- `parse_worker`: the address and the label of a login. -/
def parseWorker (raw : PyStr) : Option PyStr × PyStr :=
  let addr := raw.takeWhile (· ≠ '.')
  let label := (raw.dropWhile (· ≠ '.')).drop 1
  let label := if label = [] then "default".toList else label
  match validHrps.find? (·.isPrefixOf addr) with
  | none => (none, raw)
  | some hrp =>
      if ¬(50 ≤ addr.length ∧ addr.length ≤ 100) then (none, raw)
      else
        let data := addr.drop hrp.length
        if data ≠ [] ∧ data.all bech32Charset.contains then (some addr, label) else (none, raw)

/-! ### The server -/

/-- The last job a connection was sent: how many had been minted before it, the job, and the
parameters of the notification. -/
structure Pushed (Ctx : Type) where
  serial : ℕ
  job : StratumJob Ctx
  params : NotifyParams

/-- `_Connection`, with a record of the last job it was sent, which the code does not keep. -/
structure Connection (Ctx : Type) where
  connId : ℕ
  dialect : Dialect := .object
  subscribed : Bool := false
  authorized : Bool := false
  workerAddress : Option PyStr := none
  workerLabel : PyStr := "default".toList
  pushed : Option (Pushed Ctx) := none

/-- `ready`. -/
def Connection.ready (c : Connection Ctx) : Bool := c.authorized || c.subscribed

/-- A job builder: what it answers for an address and a label. -/
abbrev JobBuilder (Ctx : Type) := Option PyStr → PyStr → Option (Job Ctx)

/-- `StratumServer`, its connections in the order of their ids, with a record of the jobs it has
minted, oldest first, which the code does not keep. -/
structure StratumServer (Ctx : Type) where
  registry : JobRegistry Ctx
  conns : List (Connection Ctx)
  connSeq : ℕ
  jobBuilder : JobBuilder Ctx
  minted : List (StratumJob Ctx)

/-- `STALE_SHARE_CODE`. -/
def staleShareCode : ℤ := 21

namespace StratumServer

/-- A new server with a job builder. -/
def init (jobBuilder : JobBuilder Ctx) (jobHistory : ℕ) : StratumServer Ctx :=
  ⟨.init jobHistory, [], 0, jobBuilder, []⟩

/-- The look-up of `_handle_submit`: the job of a submission, or the error it is answered with. -/
def findJob (S : StratumServer Ctx) (jobId : PyStr) : Except (ℤ × String) (StratumJob Ctx) :=
  match S.registry.get jobId with
  | none => .error (staleShareCode, "Job not found")
  | some job => .ok job

/-- `_mint_job_for`. -/
def mintJobFor (S : StratumServer Ctx) (c : Connection Ctx) :
    StratumServer Ctx × Option (StratumJob Ctx) :=
  match S.jobBuilder c.workerAddress c.workerLabel with
  | none => (S, none)
  | some spec =>
      let (registry, job) :=
        S.registry.mint spec.header spec.shareTarget spec.height (some spec.context)
      ({ S with registry, minted := S.minted ++ [job] }, some job)

/-- The connections with an id are changed. -/
def modify (S : StratumServer Ctx) (connId : ℕ) (f : Connection Ctx → Connection Ctx) :
    StratumServer Ctx :=
  { S with conns := S.conns.map fun c => if c.connId = connId then f c else c }

/-- `push_job(clean=True)` of a connection. -/
def pushJob (S : StratumServer Ctx) (c : Connection Ctx) : StratumServer Ctx :=
  if c.ready then
    match S.mintJobFor c with
    | (S', none) => S'
    | (S', some job) => S'.modify c.connId fun d =>
        { d with pushed := some ⟨S.minted.length, job, job.notifyParams c.dialect true⟩ }
  else S

/-- `push_job` of several connections in turn. -/
def pushAll (S : StratumServer Ctx) (cs : List (Connection Ctx)) : StratumServer Ctx :=
  cs.foldl pushJob S

/-- `refresh`: the ready connections in the order of their ids; each mints its job before any of
them waits. -/
def refresh (S : StratumServer Ctx) : StratumServer Ctx := S.pushAll (S.conns.filter (·.ready))

/-- The connection with an id. -/
def conn? (S : StratumServer Ctx) (connId : ℕ) : Option (Connection Ctx) :=
  S.conns.find? (·.connId = connId)

/-- What can happen: a miner connects, leaves or sends a request, `push_job` is called at the end
of one, the tip changes, or what the job builder answers. -/
inductive Event (Ctx : Type) where
  | connect
  | disconnect (connId : ℕ)
  | configure (connId : ℕ)
  | subscribe (connId : ℕ)
  /-- With what `parse_authorize` reads. -/
  | authorize (connId : ℕ) (login worker : PyStr) (dialect : Dialect)
  | push (connId : ℕ)
  | refresh
  | setJobBuilder (jobBuilder : JobBuilder Ctx)

/-- One event, where it can happen. -/
def step (S : StratumServer Ctx) : Event Ctx → Option (StratumServer Ctx)
  | .connect =>
      some { S with
        connSeq := S.connSeq + 1
        conns := S.conns ++ [{ connId := S.connSeq + 1 }] }
  | .disconnect connId => some { S with conns := S.conns.filter (·.connId ≠ connId) }
  | .configure connId => some (S.modify connId fun c => { c with dialect := .positional })
  | .subscribe connId =>
      some (S.modify connId fun c => { c with dialect := .positional, subscribed := true })
  | .authorize connId login worker dialect =>
      let raw := if '.' ∈ login ∨ worker = [] then login else login ++ '.' :: worker
      let (workerAddress, workerLabel) := parseWorker raw
      some (S.modify connId fun c =>
        { c with dialect, workerAddress, workerLabel, authorized := true })
  | .push connId => (S.conn? connId).map S.pushJob
  | .refresh => some S.refresh
  | .setJobBuilder jobBuilder => some { S with jobBuilder }

/-! ### Pushing to connections in turn -/

variable {S S' : StratumServer Ctx} {c d : Connection Ctx} {cs : List (Connection Ctx)}

/-- The job builder answers for a ready connection. -/
def Serves (S : StratumServer Ctx) (c : Connection Ctx) : Bool :=
  c.ready && (S.jobBuilder c.workerAddress c.workerLabel).isSome

/-- What holds of a server in every state: its registry holds the last jobs it has minted, what a
connection was sent is one of them, and the ids of the connections are distinct. -/
structure Sound (S : StratumServer Ctx) : Prop where
  keeps : Keeps S.registry S.minted
  ids : (S.conns.map Connection.connId).Nodup
  fresh : ∀ c ∈ S.conns, c.connId ≤ S.connSeq
  ready : ∀ c ∈ S.conns, c.pushed ≠ none → c.ready = true
  pushed : ∀ c ∈ S.conns, ∀ p, c.pushed = some p →
    S.minted[p.serial]? = some p.job ∧ p.params.jobId = p.job.jobId

/-- What `push_job` of the connections `cs`, all of which are served, makes of a server: each gets
the next job, and nothing else changes. -/
structure Pushes (S : StratumServer Ctx) (cs : List (Connection Ctx)) (S' : StratumServer Ctx)
    (f : Connection Ctx → Option (Pushed Ctx)) : Prop where
  max : S'.registry.max = S.registry.max
  keeps : Keeps S'.registry S'.minted
  builder : S'.jobBuilder = S.jobBuilder
  seq : S'.connSeq = S.connSeq
  minted : ∃ jobs, S'.minted = S.minted ++ jobs ∧ jobs.length = cs.length
  conns : S'.conns = S.conns.map fun d => { d with pushed := f d }
  other : ∀ d, d.connId ∉ cs.map Connection.connId → f d = d.pushed
  sent : ∀ d k, (cs.map Connection.connId)[k]? = some d.connId → ∃ p, f d = some p
    ∧ p.serial = S.minted.length + k ∧ S'.minted[p.serial]? = some p.job
    ∧ p.params.jobId = p.job.jobId

lemma serves_of_builder (h : S'.jobBuilder = S.jobBuilder) : S'.Serves c = S.Serves c := by
  rw [Serves, Serves, h]

/-- A connection that is not served costs no job. -/
lemma pushJob_of_not_serves (h : S.Serves c = false) : S.pushJob c = S := by
  rw [pushJob]
  split_ifs with hready
  · have hnone : S.jobBuilder c.workerAddress c.workerLabel = none := by
      simpa [Serves, hready] using h
    rw [mintJobFor, hnone]
  · rfl

/-- A connection that is served gets the next job. -/
lemma pushJob_of_serves (hmax : S.registry.max < 2 ^ 16) (hkeeps : Keeps S.registry S.minted)
    (h : S.Serves c = true) :
    ∃ registry job, registry.max = S.registry.max ∧ Keeps registry (S.minted ++ [job])
      ∧ S.pushJob c = { S with
          registry
          minted := S.minted ++ [job]
          conns := S.conns.map fun d => if d.connId = c.connId then
            { d with pushed := some ⟨S.minted.length, job, job.notifyParams c.dialect true⟩ }
            else d } := by
  obtain ⟨hready, hsome⟩ := Bool.and_eq_true_iff.mp h
  obtain ⟨spec, hspec⟩ := Option.isSome_iff_exists.mp hsome
  refine ⟨(S.registry.mint spec.header spec.shareTarget spec.height (some spec.context)).1, _, rfl,
    hkeeps.mint hmax spec.header spec.shareTarget spec.height (some spec.context), ?_⟩
  rw [pushJob, if_pos hready, mintJobFor, hspec]
  rfl

/-- Nothing is pushed. -/
lemma Pushes.nil (hkeeps : Keeps S.registry S.minted) : Pushes S [] S Connection.pushed where
  max := rfl
  keeps := hkeeps
  builder := rfl
  seq := rfl
  minted := ⟨[], by simp, rfl⟩
  conns := by simp
  other _ _ := rfl
  sent d k h := by simp at h

/-- One more connection. -/
lemma Pushes.concat {f : Connection Ctx → Option (Pushed Ctx)} (h : Pushes S cs S' f)
    (hmax : S.registry.max < 2 ^ 16) (hnew : c.connId ∉ cs.map Connection.connId)
    (hserved : S'.Serves c = true) : ∃ g, Pushes S (cs ++ [c]) (S'.pushJob c) g := by
  obtain ⟨registry, job, hreg, hkeeps, hpush⟩ := pushJob_of_serves (h.max ▸ hmax) h.keeps hserved
  obtain ⟨jobs, hminted, hlen⟩ := h.minted
  have hlength : S'.minted.length = S.minted.length + cs.length := by
    rw [hminted, List.length_append, hlen]
  refine ⟨fun d => if d.connId = c.connId then
    some ⟨S'.minted.length, job, job.notifyParams c.dialect true⟩ else f d, ?_⟩
  rw [hpush]
  refine ⟨hreg.trans h.max, hkeeps, h.builder, h.seq, ⟨jobs ++ [job], ?_, ?_⟩, ?_, fun d hd => ?_,
    fun d k hk => ?_⟩
  · simp only [hminted, List.append_assoc]
  · rw [List.length_append, List.length_append, hlen]; rfl
  · simp only [h.conns, List.map_map]
    refine List.map_congr_left fun d _ => ?_
    simp only [Function.comp_apply]
    split_ifs <;> rfl
  · simp only [List.map_append, List.mem_append, not_or, List.map_cons, List.map_nil,
      List.mem_singleton] at hd
    simp only [if_neg hd.2, h.other d hd.1]
  · rw [List.map_append] at hk
    by_cases hlt : k < (cs.map Connection.connId).length
    · rw [List.getElem?_append_left hlt] at hk
      have hne : d.connId ≠ c.connId := fun e => hnew (e ▸ List.mem_of_getElem? hk)
      obtain ⟨p, hp, hserial, hjob, hid⟩ := h.sent d k hk
      refine ⟨p, by simp only [if_neg hne, hp], hserial, ?_, hid⟩
      have hbound := (List.getElem?_eq_some_iff.mp hjob).1
      simp only [List.getElem?_append_left hbound, hjob]
    · rw [List.getElem?_append_right (not_lt.mp hlt)] at hk
      obtain ⟨hk0, hid⟩ : k - (cs.map Connection.connId).length = 0 ∧ c.connId = d.connId := by
        cases hsub : k - (cs.map Connection.connId).length with
        | zero =>
            rw [hsub] at hk
            exact ⟨rfl, Option.some.inj hk⟩
        | succ i =>
            rw [hsub] at hk
            cases hk
      rw [List.length_map] at hlt hk0
      obtain rfl : k = cs.length := by omega
      refine ⟨⟨S'.minted.length, job, job.notifyParams c.dialect true⟩, if_pos hid.symm, hlength,
        ?_, job.jobId_notifyParams _ _⟩
      exact List.getElem?_concat_length

/-- **Pushing to connections in turn**: those that are served get the next jobs in their order. -/
lemma pushAll_pushes (hmax : S.registry.max < 2 ^ 16) (hkeeps : Keeps S.registry S.minted)
    (hn : (cs.map Connection.connId).Nodup) :
    ∃ f, Pushes S (cs.filter S.Serves) (S.pushAll cs) f := by
  induction cs using List.reverseRecOn with
  | nil => exact ⟨_, Pushes.nil hkeeps⟩
  | append_singleton cs c ih =>
      rw [List.map_append, List.nodup_append] at hn
      obtain ⟨f, hf⟩ := ih hn.1
      have hstep : S.pushAll (cs ++ [c]) = (S.pushAll cs).pushJob c := by
        rw [pushAll, List.foldl_append]; rfl
      have hserves : (S.pushAll cs).Serves c = S.Serves c := serves_of_builder hf.builder
      rw [hstep, List.filter_append]
      cases hc : S.Serves c with
      | false =>
          rw [pushJob_of_not_serves (hserves.trans hc)]
          exact ⟨f, by simpa [hc] using hf⟩
      | true =>
          have hnew : c.connId ∉ (cs.filter S.Serves).map Connection.connId := fun h => by
            obtain ⟨d, hd, hid⟩ := List.mem_map.mp h
            exact hn.2.2 _ (List.mem_map_of_mem (List.mem_filter.mp hd).1) _
              (List.mem_singleton.mpr rfl) hid
          obtain ⟨g, hg⟩ := hf.concat hmax hnew (hserves.trans hc)
          exact ⟨g, by simpa [hc] using hg⟩

/-! ### Every event keeps a server sound -/

/-- The job builder returns a job whatever it is asked for. -/
def Answers (jobBuilder : JobBuilder Ctx) : Prop := ∀ address label, jobBuilder address label ≠ none

lemma serves_of_answers (h : Answers S.jobBuilder) (c : Connection Ctx) :
    S.Serves c = c.ready := by
  rw [Serves, Option.isSome_iff_ne_none.mpr (h _ _), Bool.and_true]

namespace Sound

lemma init (jobBuilder : JobBuilder Ctx) (jobHistory : ℕ) :
    Sound (.init jobBuilder jobHistory) where
  keeps := .init jobHistory
  ids := List.nodup_nil
  fresh _ h := by cases h
  ready _ h := by cases h
  pushed _ h := by cases h

/-- A change of a connection that leaves its id and what it was sent, and does not make it
unready. -/
lemma modify (h : Sound S) (connId : ℕ) {f : Connection Ctx → Connection Ctx}
    (hid : ∀ c, (f c).connId = c.connId) (hpushed : ∀ c, (f c).pushed = c.pushed)
    (hready : ∀ c, c.ready = true → (f c).ready = true) : Sound (S.modify connId f) := by
  have hmem : ∀ d ∈ (S.modify connId f).conns, ∃ c ∈ S.conns,
      d.connId = c.connId ∧ d.pushed = c.pushed ∧ (c.ready = true → d.ready = true) := by
    intro d hd
    obtain ⟨c, hc, rfl⟩ := List.mem_map.mp hd
    refine ⟨c, hc, ?_⟩
    split_ifs
    · exact ⟨hid c, hpushed c, hready c⟩
    · exact ⟨rfl, rfl, id⟩
  refine ⟨h.keeps, ?_, fun d hd => ?_, fun d hd hp => ?_, fun d hd p hp => ?_⟩
  · have hids : (S.modify connId f).conns.map Connection.connId
        = S.conns.map Connection.connId := by
      simp only [StratumServer.modify, List.map_map]
      refine List.map_congr_left fun c _ => ?_
      simp only [Function.comp_apply]
      split_ifs
      · exact hid c
      · rfl
    rw [hids]
    exact h.ids
  · obtain ⟨c, hc, hdc, -, -⟩ := hmem d hd
    exact hdc ▸ h.fresh c hc
  · obtain ⟨c, hc, -, hdp, hdr⟩ := hmem d hd
    exact hdr (h.ready c hc (hdp ▸ hp))
  · obtain ⟨c, hc, -, hdp, -⟩ := hmem d hd
    exact h.pushed c hc p (hdp ▸ hp)

/-- Pushing keeps a server sound. -/
lemma pushes {f : Connection Ctx → Option (Pushed Ctx)} (h : Sound S) (hp : Pushes S cs S' f)
    (hready : ∀ c ∈ cs, ∀ d ∈ S.conns, c.connId = d.connId → d.ready = true) : Sound S' := by
  obtain ⟨jobs, hminted, -⟩ := hp.minted
  have hconns : ∀ d' ∈ S'.conns, ∃ d ∈ S.conns, d' = { d with pushed := f d } := fun d' hd' => by
    rw [hp.conns] at hd'
    obtain ⟨d, hd, rfl⟩ := List.mem_map.mp hd'
    exact ⟨d, hd, rfl⟩
  refine ⟨hp.keeps, ?_, fun d' hd' => ?_, fun d' hd' hne => ?_, fun d' hd' p hpd => ?_⟩
  · rw [hp.conns, List.map_map]
    exact h.ids
  · obtain ⟨d, hd, rfl⟩ := hconns d' hd'
    exact hp.seq ▸ h.fresh d hd
  · obtain ⟨d, hd, rfl⟩ := hconns d' hd'
    by_cases hin : d.connId ∈ cs.map Connection.connId
    · obtain ⟨c, hc, hid⟩ := List.mem_map.mp hin
      exact hready c hc d hd hid
    · exact h.ready d hd (hp.other d hin ▸ hne)
  · obtain ⟨d, hd, rfl⟩ := hconns d' hd'
    by_cases hin : d.connId ∈ cs.map Connection.connId
    · obtain ⟨k, hk⟩ := List.mem_iff_getElem?.mp hin
      obtain ⟨q, hq, -, hjob, hid⟩ := hp.sent d k hk
      obtain rfl : q = p := Option.some.inj (hq.symm.trans hpd)
      exact ⟨hjob, hid⟩
    · obtain ⟨hjob, hid⟩ := h.pushed d hd p (hp.other d hin ▸ hpd)
      refine ⟨?_, hid⟩
      rw [hminted, List.getElem?_append_left (List.getElem?_eq_some_iff.mp hjob).1, hjob]

end Sound

/-- The connections an event pushes to, where the job builder always answers. -/
def targets (S : StratumServer Ctx) : Event Ctx → List (Connection Ctx)
  | .push connId => (S.conn? connId).toList.filter (·.ready)
  | .refresh => S.conns.filter (·.ready)
  | _ => []

/-- A push or a refresh pushes to its targets. -/
lemma step_pushes (h : Sound S) (hmax : S.registry.max < 2 ^ 16) (hb : Answers S.jobBuilder)
    {e : Event Ctx} (he : e = .refresh ∨ ∃ connId, e = .push connId) (hstep : S.step e = some S') :
    ∃ f, Pushes S (S.targets e) S' f := by
  have hserves : S.Serves = fun c => c.ready := funext fun c => serves_of_answers hb c
  rcases he with rfl | ⟨connId, rfl⟩
  · cases hstep
    have hn : ((S.conns.filter (·.ready)).map Connection.connId).Nodup :=
      h.ids.sublist (List.filter_sublist.map _)
    obtain ⟨f, hf⟩ := pushAll_pushes hmax h.keeps hn
    rw [hserves, List.filter_filter] at hf
    exact ⟨f, by simpa [targets, refresh] using hf⟩
  · obtain ⟨c, hc, rfl⟩ := Option.map_eq_some_iff.mp hstep
    have hn : (([c] : List (Connection Ctx)).map Connection.connId).Nodup := List.nodup_singleton _
    obtain ⟨f, hf⟩ := pushAll_pushes hmax h.keeps hn
    rw [hserves] at hf
    exact ⟨f, by rw [targets, hc]; exact hf⟩

lemma mem_targets {e : Event Ctx} (h : c ∈ S.targets e) : c ∈ S.conns ∧ c.ready = true := by
  cases e with
  | push connId =>
      obtain ⟨hc, hready⟩ := List.mem_filter.mp h
      exact ⟨List.mem_of_find?_eq_some (Option.mem_toList.mp hc), hready⟩
  | refresh => exact List.mem_filter.mp h
  | _ => cases h

/-- The server does nothing to the connections but change their requests and settings. -/
structure Quiet (S S' : StratumServer Ctx) : Prop where
  registry : S'.registry = S.registry
  minted : S'.minted = S.minted
  conns : ∀ d ∈ S'.conns, d.pushed = none ∨ ∃ c ∈ S.conns, c.pushed = d.pushed

lemma quiet_modify (S : StratumServer Ctx) (connId : ℕ) {f : Connection Ctx → Connection Ctx}
    (hpushed : ∀ c, (f c).pushed = c.pushed) : Quiet S (S.modify connId f) := by
  refine ⟨rfl, rfl, fun d hd => Or.inr ?_⟩
  obtain ⟨c, hc, rfl⟩ := List.mem_map.mp hd
  refine ⟨c, hc, ?_⟩
  split_ifs
  · exact (hpushed c).symm
  · rfl

/-- Any event but a push or a refresh is quiet and keeps the server sound; what a connection was
sent stays with it. -/
lemma step_quiet (h : Sound S) {e : Event Ctx} (hrefresh : e ≠ .refresh)
    (hpush : ∀ connId, e ≠ .push connId) (hstep : S.step e = some S') :
    Sound S' ∧ Quiet S S' ∧ ∀ d ∈ S'.conns, ∀ p, d.pushed = some p →
      ∃ c ∈ S.conns, c.connId = d.connId ∧ c.pushed = some p := by
  have hmodify : ∀ connId f, (∀ c : Connection Ctx, (f c).connId = c.connId) →
      (∀ c, (f c).pushed = c.pushed) → ∀ d ∈ (S.modify connId f).conns, ∀ p, d.pushed = some p →
        ∃ c ∈ S.conns, c.connId = d.connId ∧ c.pushed = some p := by
    intro connId f hid hpushed d hd p hp
    obtain ⟨c, hc, rfl⟩ := List.mem_map.mp hd
    refine ⟨c, hc, ?_⟩
    split_ifs at hp ⊢
    · exact ⟨(hid c).symm, (hpushed c).symm.trans hp⟩
    · exact ⟨rfl, hp⟩
  cases e with
  | push connId => exact absurd rfl (hpush connId)
  | refresh => exact absurd rfl hrefresh
  | connect =>
      cases hstep
      refine ⟨⟨h.keeps, ?_, fun c hc => ?_, fun c hc hne => ?_, fun c hc p hp => ?_⟩,
        ⟨rfl, rfl, fun c hc => ?_⟩, fun c hc p hp => ?_⟩
      · rw [List.map_append]
        refine List.nodup_append.mpr ⟨h.ids, List.nodup_singleton _, fun i hi j hj => ?_⟩
        obtain ⟨c, hc, rfl⟩ := List.mem_map.mp hi
        have hle := h.fresh c hc
        have hj' : j = S.connSeq + 1 := List.mem_singleton.mp hj
        omega
      all_goals rcases List.mem_append.mp hc with hc | hc
      · exact (h.fresh c hc).trans (Nat.le_succ _)
      · rw [List.mem_singleton.mp hc]
      · exact h.ready c hc hne
      · exact absurd (List.mem_singleton.mp hc ▸ rfl) hne
      · exact h.pushed c hc p hp
      · rw [List.mem_singleton.mp hc] at hp; cases hp
      · exact Or.inr ⟨c, hc, rfl⟩
      · exact Or.inl (List.mem_singleton.mp hc ▸ rfl)
      · exact ⟨c, hc, rfl, hp⟩
      · rw [List.mem_singleton.mp hc] at hp; cases hp
  | disconnect connId =>
      cases hstep
      have hsub : S.conns.filter (·.connId ≠ connId) ⊆ S.conns :=
        List.filter_sublist.subset
      exact ⟨⟨h.keeps, h.ids.sublist (List.filter_sublist.map _), fun c hc => h.fresh c (hsub hc),
        fun c hc => h.ready c (hsub hc), fun c hc => h.pushed c (hsub hc)⟩,
        ⟨rfl, rfl, fun c hc => Or.inr ⟨c, hsub hc, rfl⟩⟩, fun c hc p hp => ⟨c, hsub hc, rfl, hp⟩⟩
  | configure connId =>
      cases hstep
      exact ⟨h.modify connId (fun _ => rfl) (fun _ => rfl) fun _ h => h,
        quiet_modify S connId fun _ => rfl, hmodify connId _ (fun _ => rfl) fun _ => rfl⟩
  | subscribe connId =>
      cases hstep
      exact ⟨h.modify connId (fun _ => rfl) (fun _ => rfl) fun c _ => Bool.or_true _,
        quiet_modify S connId fun _ => rfl, hmodify connId _ (fun _ => rfl) fun _ => rfl⟩
  | authorize connId login worker dialect =>
      cases hstep
      exact ⟨h.modify connId (fun _ => rfl) (fun _ => rfl) fun c _ => Bool.true_or _,
        quiet_modify S connId fun _ => rfl, hmodify connId _ (fun _ => rfl) fun _ => rfl⟩
  | setJobBuilder jobBuilder =>
      cases hstep
      exact ⟨⟨h.keeps, h.ids, h.fresh, h.ready, h.pushed⟩,
        ⟨rfl, rfl, fun c hc => Or.inr ⟨c, hc, rfl⟩⟩, fun c hc p hp => ⟨c, hc, rfl, hp⟩⟩

/-- **One event**: it pushes to its targets, or changes no job and sends none; and it keeps the
server sound. -/
lemma step_cases (h : Sound S) (hmax : S.registry.max < 2 ^ 16) (hb : Answers S.jobBuilder)
    {e : Event Ctx} (hstep : S.step e = some S') :
    Sound S' ∧ ((∃ f, Pushes S (S.targets e) S' f) ∧ (e = .refresh ∨ ∃ connId, e = .push connId)
      ∨ Quiet S S' ∧ e ≠ .refresh ∧ ∀ connId, e ≠ .push connId) := by
  by_cases he : e = .refresh ∨ ∃ connId, e = .push connId
  · obtain ⟨f, hf⟩ := step_pushes h hmax hb he hstep
    refine ⟨h.pushes hf fun c hc d hd hid => ?_, Or.inl ⟨⟨f, hf⟩, he⟩⟩
    obtain ⟨hmem, hready⟩ := mem_targets hc
    rwa [← List.inj_on_of_nodup_map h.ids hmem hd hid]
  · obtain ⟨hrefresh, hpush⟩ := not_or.mp he
    have hpush' : ∀ connId, e ≠ .push connId := fun connId heq => hpush ⟨connId, heq⟩
    obtain ⟨hsound, hquiet, -⟩ := step_quiet h hrefresh hpush' hstep
    exact ⟨hsound, Or.inr ⟨hquiet, hrefresh, hpush'⟩⟩

end StratumServer

end P2Pearl
