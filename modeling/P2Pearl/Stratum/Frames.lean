import P2Pearl.P2P.Connection
import P2Pearl.Stratum.Replies

/-!
The lines of the miners of `stratum/server.py`, from the bytes that arrive: `_read_frame` and `run`.

* `readFrame`: `_read_frame` on what has arrived.
* `ByteService`: the service and the streams of its connections.
* `Reads.step`: a run of it is one of the service, in which every connection reads the complete
  lines of the bytes that have arrived.
* `bytes_answered`: so the requests that arrive are answered, in whatever pieces they come.
-/

namespace P2Pearl

/-! ### `_read_frame` -/

/-- What `_read_frame` does: it waits, a line is there, or `run` is over: at the end of the stream,
within a line or not, or at a line that is too long. -/
inductive FrameRead where
  | wait
  | line (line rest : Bytes)
  | stop
  deriving DecidableEq

/-- `_read_frame`: a byte, and if it is no newline what stands behind it up to one. -/
def readFrame (eof : Bool) : Bytes → FrameRead
  | [] => if eof then .stop else .wait
  | first :: buffer =>
      if first = newline then .line [first] buffer
      else
        match readline newline P2PNode.stratumReadLimit eof buffer with
        | .wait => .wait
        -- a `LimitOverrunError`, which `run` does not catch
        | .overrun => .stop
        -- an `IncompleteReadError` where there is no newline
        | .line line rest => if newline ∈ line then .line (first :: line) rest else .stop

section ReadFrame

variable {eof : Bool} {buffer line rest : Bytes}

/-- A line is in front of what is left. -/
lemma eq_of_readFrame (h : readFrame eof buffer = .line line rest) :
    buffer = line ++ rest ∧ IsLine newline line := by
  cases buffer with
  | nil =>
      rw [readFrame] at h
      split_ifs at h
  | cons first buffer =>
      rw [readFrame] at h
      split_ifs at h with hfirst
      · cases h
        exact ⟨rfl, [], List.not_mem_nil, by rw [hfirst]; rfl⟩
      · cases hfound : readline newline P2PNode.stratumReadLimit eof buffer with
        | wait => rw [hfound] at h; cases h
        | overrun => rw [hfound] at h; cases h
        | line found tail =>
            rw [hfound] at h
            dsimp only at h
            split_ifs at h with hmem
            cases h
            obtain ⟨front, hfront, rfl⟩ := isLine_of_readline hfound hmem
            refine ⟨by rw [eq_of_readline hfound]; rfl, first :: front, ?_, rfl⟩
            exact fun hmem => (List.mem_cons.mp hmem).elim (fun he => hfirst he.symm) hfront

/-- Where it waits, there is no line. -/
lemma newline_notMem_of_wait (h : readFrame eof buffer = .wait) : newline ∉ buffer := by
  cases buffer with
  | nil => exact List.not_mem_nil
  | cons first buffer =>
      rw [readFrame] at h
      split_ifs at h with hfirst
      cases hfound : readline newline P2PNode.stratumReadLimit eof buffer with
      | wait =>
          exact fun hmem => (List.mem_cons.mp hmem).elim (fun he => hfirst he.symm)
            (notMem_of_readline_wait hfound)
      | overrun => rw [hfound] at h; cases h
      | line found tail =>
          rw [hfound] at h
          dsimp only at h
          split_ifs at h

end ReadFrame

/-! ### The service -/

variable {Ctx : Type}

/-- What has arrived on a connection and was not read, and whether the stream has ended. -/
structure MinerStream where
  buffer : Bytes := []
  eof : Bool := false

/-- A service, and the streams of its connections. -/
structure ByteService (Ctx : Type) where
  service : Service Ctx
  stream : ℕ → MinerStream

/-- What can happen: bytes arrive on a connection, or its stream ends; the loop of `run` goes round;
or something happens to the service that is no line. -/
inductive ByteEvent (Ctx : Type) where
  | arrive (connId : ℕ) (bytes : Bytes)
  | finish (connId : ℕ)
  | read (connId : ℕ)
  | other (e : ServiceEvent Ctx)

/-- The bytes of an event, where they arrive on the connection. -/
def ByteEvent.bytesFor (i : ℕ) : ByteEvent Ctx → Bytes
  | .arrive connId bytes => if connId = i then bytes else []
  | _ => []

/-- The bytes that arrive on a connection. -/
def arrivedOn (i : ℕ) (events : List (ByteEvent Ctx)) : Bytes := events.flatMap (·.bytesFor i)

/-- The line of an event, where the connection reads it. -/
def ServiceEvent.lineFor (i : ℕ) : ServiceEvent Ctx → Option Bytes
  | .line connId text => if connId = i then some text else none
  | _ => none

/-- The lines a connection reads. -/
def linesOf (i : ℕ) (es : List (ServiceEvent Ctx)) : List Bytes := es.filterMap (·.lineFor i)

lemma arrivedOn_concat (i : ℕ) (events : List (ByteEvent Ctx)) (e : ByteEvent Ctx) :
    arrivedOn i (events ++ [e]) = arrivedOn i events ++ e.bytesFor i := by
  simp [arrivedOn]

lemma linesOf_concat (i : ℕ) (es : List (ServiceEvent Ctx)) (e : ServiceEvent Ctx) :
    linesOf i (es ++ [e]) = linesOf i es ++ (e.lineFor i).toList := by
  rw [linesOf, linesOf, List.filterMap_append]
  cases h : e.lineFor i <;> simp [h]

/-- The requests of a connection are those of its lines. -/
lemma asked_eq (codec : Codec) (i : ℕ) (es : List (ServiceEvent Ctx)) :
    asked codec i es = (linesOf i es).filterMap (askedBy codec) := by
  rw [asked, linesOf, List.filterMap_filterMap]
  refine List.filterMap_congr fun e _ => ?_
  cases e with
  | line connId line =>
      rw [ServiceEvent.asks, ServiceEvent.lineFor]
      split_ifs <;> rfl
  | _ => rfl

namespace ByteService

/-- A new server with a job builder. -/
def init (builder : Builder Ctx) (jobHistory : ℕ) : ByteService Ctx :=
  ⟨.init builder jobHistory, fun _ => {}⟩

/-- A stream is changed. -/
def setStream (S : ByteService Ctx) (connId : ℕ) (s : MinerStream) : ByteService Ctx :=
  { S with stream := Function.update S.stream connId s }

/-- The service is changed. -/
def withService (S : ByteService Ctx) (service : Service Ctx) : ByteService Ctx :=
  { S with service }

/-- A round of `run`, where it does not wait. -/
def read (codec : Codec) (S : ByteService Ctx) (connId : ℕ) : Option (ByteService Ctx) :=
  match readFrame (S.stream connId).eof (S.stream connId).buffer with
  | .wait => none
  | .line line rest =>
      (S.service.step codec (.line connId line)).map
        (S.setStream connId { S.stream connId with buffer := rest }).withService
  | .stop => (S.service.step codec (.leave connId)).map S.withService

/-- One event, where it can happen: bytes arrive on connections that are there, and `run` reads
between its requests. -/
def step (codec : Codec) (S : ByteService Ctx) : ByteEvent Ctx → Option (ByteService Ctx)
  | .arrive connId bytes =>
      if (S.service.server.conn? connId).isNone ∨ (S.stream connId).eof then none
      else some (S.setStream connId
        { S.stream connId with buffer := (S.stream connId).buffer ++ bytes })
  | .finish connId =>
      if (S.service.server.conn? connId).isNone ∨ (S.stream connId).eof then none
      else some (S.setStream connId { S.stream connId with eof := true })
  | .read connId =>
      match S.service.server.conn? connId, (S.service.session connId).phase with
      | some _, .idle => S.read codec connId
      | _, _ => none
  | .other (.line ..) => none
  | .other e => (S.service.step codec e).map S.withService

variable {codec : Codec} {S S' : ByteService Ctx} {start : Service Ctx} {i : ℕ}
  {events : List (ByteEvent Ctx)}

lemma stream_setStream (s : MinerStream) (j : ℕ) :
    (S.setStream i s).stream j = if j = i then s else S.stream j := by
  exact Function.update_apply ..

lemma stream_withService (service : Service Ctx) (j : ℕ) :
    (S.withService service).stream j = S.stream j := rfl

/-- A run of the service that reads the lines of what has arrived. -/
structure Reads (codec : Codec) (start : Service Ctx) (events : List (ByteEvent Ctx))
    (S : ByteService Ctx) (es : List (ServiceEvent Ctx)) : Prop where
  run : Machine.run (Service.step codec) start es = some S.service
  lines : ∀ i, arrivedOn i events = (linesOf i es).flatten ++ (S.stream i).buffer
  isLine : ∀ i, ∀ line ∈ linesOf i es, IsLine newline line
  builders : ∀ b, .setJobBuilder b ∈ es → .other (.setJobBuilder b) ∈ events

variable {es : List (ServiceEvent Ctx)}

/-- Something has happened to a stream. -/
lemma Reads.setStream (h : Reads codec start events S es) {e : ByteEvent Ctx} {s : MinerStream}
    (hother : ∀ j, j ≠ i → e.bytesFor j = [])
    (hsame : s.buffer = (S.stream i).buffer ++ e.bytesFor i) :
    Reads codec start (events ++ [e]) (S.setStream i s) es := by
  refine ⟨h.run, fun j => ?_, h.isLine, fun b hb => List.mem_append_left _ (h.builders b hb)⟩
  rw [arrivedOn_concat, h.lines, List.append_assoc, stream_setStream]
  split_ifs with hj
  · rw [hj, hsame]
  · rw [hother j hj, List.append_nil]

/-- The service has done something else. -/
lemma Reads.other (h : Reads codec start events S es) {e : ByteEvent Ctx} {e' : ServiceEvent Ctx}
    {service : Service Ctx} (hbytes : ∀ j, e.bytesFor j = []) (hline : ∀ j, e'.lineFor j = none)
    (hbuilder : ∀ b, .setJobBuilder b = e' → e = .other (.setJobBuilder b))
    (hstep : S.service.step codec e' = some service) :
    Reads codec start (events ++ [e]) (S.withService service) (es ++ [e']) := by
  refine ⟨Machine.run_concat_eq_some_iff.mpr ⟨_, h.run, hstep⟩, fun j => ?_, fun j => ?_,
    fun b hb => ?_⟩
  · rw [arrivedOn_concat, linesOf_concat, hbytes, hline, List.append_nil, h.lines]
    simp [withService]
  · rw [linesOf_concat, hline]
    simpa using h.isLine j
  · rcases List.mem_append.mp hb with hb | hb
    · exact List.mem_append_left _ (h.builders b hb)
    · rw [hbuilder b (List.mem_singleton.mp hb)]
      exact List.mem_concat_self

/-- A connection has read a line. -/
lemma Reads.line (h : Reads codec start events S es) {line rest : Bytes} {service : Service Ctx}
    (hfound : readFrame (S.stream i).eof (S.stream i).buffer = .line line rest)
    (hstep : S.service.step codec (.line i line) = some service) :
    Reads codec start (events ++ [.read i])
      ((S.setStream i { S.stream i with buffer := rest }).withService service)
      (es ++ [.line i line]) := by
  obtain ⟨hbuffer, hline⟩ := eq_of_readFrame hfound
  have hlines : ∀ j, linesOf j (es ++ [.line i line])
      = linesOf j es ++ if i = j then [line] else [] := fun j => by
    rw [linesOf_concat, ServiceEvent.lineFor]
    split_ifs <;> rfl
  refine ⟨Machine.run_concat_eq_some_iff.mpr ⟨_, h.run, hstep⟩, fun j => ?_, fun j l hl => ?_,
    fun b hb => ?_⟩
  · rw [arrivedOn_concat, hlines, h.lines, show ByteEvent.bytesFor j (.read i : ByteEvent Ctx) = []
      from rfl, List.append_nil, stream_withService, stream_setStream]
    by_cases hj : i = j
    · subst hj
      rw [if_pos rfl, if_pos rfl, hbuffer]
      simp
    · rw [if_neg hj, List.append_nil, if_neg (Ne.symm hj)]
  · rw [hlines] at hl
    rcases List.mem_append.mp hl with hl | hl
    · exact h.isLine j l hl
    · split_ifs at hl
      · rw [List.mem_singleton.mp hl]
        exact hline
      · cases hl
  · simp only [List.mem_append, List.mem_singleton, reduceCtorEq, or_false] at hb
    exact List.mem_append_left _ (h.builders b hb)

/-- An event. -/
lemma Reads.step (h : Reads codec start events S es) {e : ByteEvent Ctx}
    (hstep : S.step codec e = some S') : ∃ es', Reads codec start (events ++ [e]) S' es' := by
  cases e with
  | arrive connId bytes =>
      rw [ByteService.step] at hstep
      split_ifs at hstep
      cases hstep
      exact ⟨es, h.setStream (fun j hj => if_neg (Ne.symm hj)) (by simp [ByteEvent.bytesFor])⟩
  | finish connId =>
      rw [ByteService.step] at hstep
      split_ifs at hstep
      cases hstep
      exact ⟨es, h.setStream (fun j _ => rfl) (List.append_nil _).symm⟩
  | read connId =>
      rw [ByteService.step] at hstep
      split at hstep
      · rw [read] at hstep
        cases hfound : readFrame (S.stream connId).eof (S.stream connId).buffer with
        | wait => rw [hfound] at hstep; cases hstep
        | line line rest =>
            rw [hfound] at hstep
            obtain ⟨service, hservice, rfl⟩ := Option.map_eq_some_iff.mp hstep
            exact ⟨_, h.line hfound hservice⟩
        | stop =>
            rw [hfound] at hstep
            obtain ⟨service, hservice, rfl⟩ := Option.map_eq_some_iff.mp hstep
            exact ⟨_, h.other (fun _ => rfl) (fun _ => rfl) (fun b hb => by cases hb) hservice⟩
      · cases hstep
  | other e =>
      cases e with
      | line connId line => cases hstep
      | _ =>
          simp only [ByteService.step] at hstep
          obtain ⟨service, hservice, rfl⟩ := Option.map_eq_some_iff.mp hstep
          exact ⟨_, h.other (fun _ => rfl) (fun _ => rfl) (fun b hb => congrArg _ hb.symm) hservice⟩

/-- A run. -/
lemma exists_reads {builder : Builder Ctx} {jobHistory : ℕ}
    (hrun : Machine.run (step codec) (init builder jobHistory) events = some S) :
    ∃ es, Reads codec (.init builder jobHistory) events S es := by
  induction events using List.reverseRecOn generalizing S with
  | nil =>
      cases hrun
      exact ⟨[], rfl, fun i => rfl, fun i line hl => (by cases hl), fun b hb => (by cases hb)⟩
  | append_singleton events e ih =>
      obtain ⟨T, hT, hstep⟩ := Machine.run_concat_eq_some_iff.mp hrun
      obtain ⟨es, hes⟩ := ih hT
      exact hes.step hstep

/-- A job builder of the run raises. -/
def RaisesOn (builder : Builder Ctx) (events : List (ByteEvent Ctx)) : Prop :=
  builder.Raises ∨ ∃ b, .other (.setJobBuilder b) ∈ events ∧ b.Raises

/-- The lines that are read are those that have arrived, up to some of the last. -/
lemma Reads.completeLines (h : Reads codec start events S es) (i : ℕ) :
    completeLines newline (arrivedOn i events)
      = linesOf i es ++ P2Pearl.completeLines newline (S.stream i).buffer := by
  rw [h.lines, completeLines_flatten (h.isLine i)]

/-- Where a connection waits for its next line, there is none. -/
lemma newline_notMem_of_read (h : S.read codec i = none)
    (hconn : (S.service.server.conn? i).isSome) (hidle : (S.service.session i).phase = .idle) :
    newline ∉ (S.stream i).buffer := by
  rw [read] at h
  cases hfound : readFrame (S.stream i).eof (S.stream i).buffer with
  | wait => exact newline_notMem_of_wait hfound
  | line line rest =>
      obtain ⟨c, hc⟩ := Option.isSome_iff_exists.mp hconn
      rw [hfound] at h
      simp [Service.step, hc, hidle] at h
  | stop =>
      rw [hfound] at h
      cases h

/-- **Every request that arrives is answered**: however the bytes of the miners are cut into pieces,
the service reads the complete lines of them, and it answers the requests in order, each with its
own id: on an open connection that waits for its next line all that have arrived, and where no job
builder raises, each exactly once. -/
theorem bytes_answered (codec : Codec) (builder : Builder Ctx) (jobHistory : ℕ)
    (events : List (ByteEvent Ctx)) (S : ByteService Ctx)
    (hrun : Machine.run (step codec) (init builder jobHistory) events = some S) :
    (∃ es, Machine.run (Service.step codec) (.init builder jobHistory) es = some S.service
        ∧ ∀ i, linesOf i es <+: completeLines newline (arrivedOn i events))
      ∧ ∀ i, ∃ done rest,
        (completeLines newline (arrivedOn i events)).filterMap (askedBy codec) = done ++ rest
          ∧ Replied (RaisesOn builder events) done (S.service.session i).replies
          ∧ ((S.service.server.conn? i).isSome → (S.service.session i).closing = false →
            (S.service.session i).phase = .idle → S.read codec i = none → rest = [])
          ∧ (¬RaisesOn builder events →
            (S.service.session i).replies = done.map Prod.fst) := by
  obtain ⟨es, h⟩ := exists_reads hrun
  have hraises : Service.RaisesIn builder es → RaisesOn builder events :=
    Or.imp_right fun ⟨b, hb, hr⟩ => ⟨b, h.builders b hb, hr⟩
  refine ⟨⟨es, h.run, fun i => ?_⟩, fun i => ?_⟩
  · rw [h.completeLines]
    exact List.prefix_append _ _
  · obtain ⟨done, rest, hasked, hdone, hopen⟩ := Service.replied_of_run h.run i
    have hdone' := hdone.mono hraises
    refine ⟨done, rest ++ (P2Pearl.completeLines newline (S.stream i).buffer).filterMap
      (askedBy codec), ?_, hdone', fun hconn hclosing hidle hread => ?_, hdone'.eq_of_not⟩
    · rw [h.completeLines, List.filterMap_append, ← asked_eq, hasked, List.append_assoc]
    · rw [hopen hclosing, hidle,
        completeLines_eq_nil (newline_notMem_of_read hread hconn hidle)]
      rfl

/-- A subscription arrives in two pieces. -/
theorem bytes_answered_first :
    let events : List (ByteEvent Unit) :=
      [.other .connect, .arrive 1 (Service.subscribeLine.take 5),
        .arrive 1 (Service.subscribeLine.drop 5), .read 1, .other (.pushed 1)]
    ∃ S, Machine.run (step Service.subscribeCodec) (init (fun _ _ => .ok none) 16) events = some S
      ∧ (S.service.session 1).replies = [.int 1] := by
  intro events
  obtain ⟨S, hrun, hconn, hclosing, hidle, hread⟩ : ∃ S : ByteService Unit,
      Machine.run (step Service.subscribeCodec) (init (fun _ _ => .ok none) 16) events = some S
        ∧ (S.service.server.conn? 1).isSome ∧ (S.service.session 1).closing = false
        ∧ (S.service.session 1).phase = .idle ∧ S.read Service.subscribeCodec 1 = none :=
    ⟨_, rfl, rfl, rfl, rfl, rfl⟩
  refine ⟨S, hrun, ?_⟩
  obtain ⟨-, h⟩ := bytes_answered Service.subscribeCodec (fun _ _ => .ok none) 16 events S hrun
  obtain ⟨done, rest, hasked, -, hopen, hexact⟩ := h 1
  obtain rfl : rest = [] := hopen hconn hclosing hidle hread
  rw [hexact, ← List.append_nil done, ← hasked]
  · rfl
  · rintro (⟨address, label, h⟩ | ⟨b, hb, -⟩)
    · exact h rfl
    · simp [events] at hb

end ByteService

end P2Pearl
