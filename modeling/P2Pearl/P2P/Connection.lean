import P2Pearl.Data.JsonReader
import P2Pearl.P2P.Lines
import P2Pearl.P2P.RateGate

/-!
A connection, from the bytes that arrive to the handlers: `_run_peer` and `_dispatch`.

* `Incoming.ofJson`: a message as `_dispatch` looks at it.
* `PeerConn.turn`: a round of the loop of `_run_peer`.
* `PeerConn.step`: bytes arrive, the stream ends or breaks, the loop takes a turn.
* `pieces_do_not_matter`: a connection ends as it would have if all bytes had come at once.
-/

namespace P2Pearl

/-! ### Messages -/

/-- What the loop takes from its platform: how bytes that are not plain ASCII are decoded, the
floats and their texts, and the recursion limit. -/
structure Platform where
  decode : Bytes → Option PyStr
  floatOf : PyStr → Option ℚ
  floatText : Option ℚ → PyStr
  depth : ℕ

/-- `json.loads` of a line, where it does not raise. -/
def Platform.loads (R : Platform) (line : Bytes) : Option Json :=
  (if line.all fun b => 0 < b.toNat ∧ b.toNat < 128
    then some (line.map fun b => Char.ofNat b.toNat)
    else R.decode line).bind (Json.loads R.floatOf R.depth)

/-- The keys of `_HANDLERS`, but for `peers`. -/
def handlerKinds : List (String × Kind) :=
  [("hello", .hello), ("share", .share), ("getproof", .getproof), ("proof", .proof),
    ("getshares", .getshares), ("shares", .shares), ("block", .block)]

/-- `_HANDLERS.get` of the type of a message; none where it cannot be hashed. -/
def lookupHandler : Option Json → Option (Option Kind)
  | some (.str t) => some ((handlerKinds.find? fun p => p.1.toList = t).map Prod.snd)
  | some (.arr _) | some (.obj _) => none
  | _ => some none

/-- A message by the fields its handler reads; none where `_dispatch` raises. -/
def Incoming.ofJson : Json → Option Incoming
  | .obj fields =>
      (lookupHandler (dictGet fields "t")).map fun kind => {
        kind
        height := dictGet fields "height"
        share := dictGet fields "share"
        id := dictGet fields "id"
        proof := dictGet fields "proof"
        fromHeight := dictGet fields "from"
        shares := dictGet fields "shares"
        block := dictGet fields "block" }
  | _ => none

/-! ### The loop -/

/-- Why a connection is closed: the stream has ended, a line was too long, there were too many
messages, `_dispatch` raised or returned false, or the connection was lost. -/
inductive Closing where
  | ended
  | oversized
  | flooding
  | raised
  | dropped
  | lost
  deriving DecidableEq

/-- A connection: what has arrived and was not read, whether the stream has ended, the number of
messages, the rate gate, the messages that came to `_dispatch` with what it made of them, and why
the loop has ended. -/
structure PeerConn where
  buffer : Bytes := []
  eof : Bool := false
  count : ℕ := 0
  gate : Peer := {}
  taken : List (Incoming × Outcome) := []
  closed : Option Closing := none

/-- `MAX_MSGS_PER_CONN`. -/
def maxMsgsPerConn : ℕ := 200000

/-- The end of a line. -/
def newline : UInt8 := 10

namespace PeerConn

variable (R : Platform) (C : PeerConn)

/-- `_dispatch`, up to the handler. -/
def dispatch (x : Json) (now : ℚ) : PeerConn :=
  match Incoming.ofJson x with
  | none => { C with closed := some .raised }
  | some msg =>
      let (gate, outcome) := C.gate.dispatch ⟨msg.kind, now⟩
      { C with
        gate
        taken := C.taken ++ [(msg, outcome)]
        closed := if outcome = .dropped then some .dropped else C.closed }

/-- What becomes of a line. -/
def takeLine (line : Bytes) (now : ℚ) : PeerConn :=
  if line = [] then { C with closed := some .ended }
  else if isBlank line then C
  else if maxMsgsPerConn < C.count + 1 then
    { C with count := C.count + 1, closed := some .flooding }
  else
    match R.loads line with
    | none => { C with count := C.count + 1 }
    | some x => { C with count := C.count + 1 }.dispatch x now

/-- A round of the loop, where it does not wait for the rest of a line. -/
def turn (now : ℚ) : Option PeerConn :=
  if C.closed.isSome then none
  else
    match readline newline P2PNode.readLimit C.eof C.buffer with
    | .wait => none
    | .overrun => some { C with closed := some .oversized }
    | .line line rest => some ({ C with buffer := rest }.takeLine R line now)

/-- What can happen: bytes arrive, the stream ends, the loop goes round, or the connection is
lost. -/
inductive Event where
  | arrive (bytes : Bytes)
  | finish
  | turn (now : ℚ)
  | fail
  deriving DecidableEq

/-- One event, where it can happen: nothing happens to a connection that is closed. -/
def step (e : Event) : Option PeerConn :=
  if C.closed.isSome then none
  else
    match e with
    | .arrive bytes => if C.eof then none else some { C with buffer := C.buffer ++ bytes }
    | .finish => if C.eof then none else some { C with eof := true }
    | .turn now => C.turn R now
    | .fail => some { C with closed := some .lost }

/-! ### Pieces -/

namespace Event

/-- Something arrives. -/
def arrives : Event → Bool
  | .arrive _ | .finish => true
  | .turn _ | .fail => false

/-- The bytes that arrive. -/
def bytes : Event → Bytes
  | .arrive bytes => bytes
  | _ => []

/-- The bytes of some events. -/
def stream (events : List Event) : Bytes := events.flatMap bytes

/-- All that arrives, at once. -/
def atOnce (events : List Event) : List Event :=
  .arrive (stream events) :: if .finish ∈ events then [.finish] else []

end Event

/-- More has arrived. -/
def arrived (more : Bytes) (eof : Bool) : PeerConn := { C with buffer := C.buffer ++ more, eof }

variable {R C} {C' : PeerConn} {now : ℚ}

@[simp] lemma count_arrived (more : Bytes) (eof : Bool) :
    (C.arrived more eof).count = C.count := rfl

lemma dispatch_arrived (x : Json) (more : Bytes) (eof : Bool) :
    (C.arrived more eof).dispatch x now = (C.dispatch x now).arrived more eof := by
  unfold dispatch
  cases Incoming.ofJson x <;> rfl

/-- What arrives behind a line has nothing to do with it. -/
lemma takeLine_arrived (line more : Bytes) (eof : Bool) :
    (C.arrived more eof).takeLine R line now = (C.takeLine R line now).arrived more eof := by
  rw [takeLine, takeLine, count_arrived]
  split_ifs
  · rfl
  · rfl
  · rfl
  · cases R.loads line with
    | none => rfl
    | some x => exact dispatch_arrived (C := { C with count := C.count + 1 }) x more eof

lemma eof_takeLine (line : Bytes) : (C.takeLine R line now).eof = C.eof := by
  rw [takeLine]
  split_ifs
  · rfl
  · rfl
  · rfl
  · cases R.loads line with
    | none => rfl
    | some x =>
        dsimp only
        rw [dispatch]
        cases Incoming.ofJson x <;> rfl

/-- A round that leaves the connection open can be taken when more has arrived, and does the
same. -/
lemma turn_arrived (heof : C.eof = false) (h : C.turn R now = some C') (hopen : C'.closed = none)
    (more : Bytes) (eof : Bool) :
    (C.arrived more eof).turn R now = some (C'.arrived more eof) := by
  rw [turn] at h
  split_ifs at h with hclosed
  cases hfound : readline newline P2PNode.readLimit C.eof C.buffer with
  | wait => rw [hfound] at h; cases h
  | overrun =>
      rw [hfound] at h
      cases h
      cases hopen
  | line line rest =>
      rw [hfound] at h
      rw [heof] at hfound
      have hmore : readline newline P2PNode.readLimit (C.arrived more eof).eof
          (C.arrived more eof).buffer = .line line (rest ++ more) := readline_append hfound more
      have hclosed' : ¬(C.arrived more eof).closed.isSome := hclosed
      rw [turn, if_neg hclosed', hmore, ← Option.some.inj h]
      exact congrArg some (takeLine_arrived (C := { C with buffer := rest }) line more eof)

/-- What arrives at an open connection. -/
lemma step_eq_some_iff_of_arrives {e : Event} (he : e.arrives = true) : C.step R e = some C'
    ↔ (C.closed = none ∧ C.eof = false) ∧ C.arrived e.bytes (decide (e = .finish)) = C' := by
  have hclosed : C.closed.isSome = true ↔ C.closed ≠ none := Option.isSome_iff_ne_none
  rw [step.eq_def]
  cases e with
  | arrive bytes => cases heof : C.eof <;> simp [hclosed, arrived, Event.bytes]
  | finish => simp [hclosed, arrived, Event.bytes, and_assoc]
  | turn now => cases he
  | fail => cases he

/-- The loop does not end the stream. -/
lemma eof_of_turn (h : C.turn R now = some C') : C'.eof = C.eof := by
  rw [turn] at h
  split_ifs at h with hclosed
  split at h
  · cases h
  · cases h
    rfl
  · cases h
    exact eof_takeLine _

/-- What a line adds to the messages. -/
lemma taken_takeLine (line : Bytes) : C.taken ⊆ (C.takeLine R line now).taken := by
  rw [takeLine]
  split_ifs
  · exact List.Subset.refl _
  · exact List.Subset.refl _
  · exact List.Subset.refl _
  · cases R.loads line with
    | none => exact List.Subset.refl _
    | some x =>
        dsimp only
        rw [dispatch]
        cases Incoming.ofJson x with
        | none => exact List.Subset.refl _
        | some msg => exact List.subset_append_left _ _

/-- The loop forgets no message. -/
lemma taken_of_turn (h : C.turn R now = some C') : C.taken ⊆ C'.taken := by
  rw [turn] at h
  split_ifs at h with hclosed
  cases hfound : readline newline P2PNode.readLimit C.eof C.buffer with
  | wait => rw [hfound] at h; cases h
  | overrun =>
      rw [hfound] at h
      cases h
      exact List.Subset.refl _
  | line line rest =>
      rw [hfound] at h
      cases h
      exact taken_takeLine (C := { C with buffer := rest }) line

/-- What arrives can arrive before a round. -/
lemma step_swap {d e : Event} {C₁ C₂ : PeerConn} (hd : d.arrives = false)
    (he : e.arrives = true) (h₁ : C.step R d = some C₁) (h₂ : C₁.step R e = some C₂) :
    ∃ C', C.step R e = some C' ∧ C'.step R d = some C₂ := by
  obtain ⟨⟨hopen₁, heof₁⟩, rfl⟩ := (step_eq_some_iff_of_arrives he).mp h₂
  have hclosed : ¬C.closed.isSome := fun hclosed => by
    rw [step.eq_def, if_pos hclosed] at h₁
    cases h₁
  have hopen : C.closed = none := by simpa using hclosed
  rw [step.eq_def, if_neg hclosed] at h₁
  cases d with
  | arrive bytes => cases hd
  | finish => cases hd
  | fail =>
      cases h₁
      cases hopen₁
  | turn now =>
      dsimp only at h₁
      have heof : C.eof = false := (eof_of_turn h₁).symm.trans heof₁
      refine ⟨_, (step_eq_some_iff_of_arrives he).mpr ⟨⟨hopen, heof⟩, rfl⟩, ?_⟩
      have hclosed' : ¬(C.arrived e.bytes (decide (e = .finish))).closed.isSome := hclosed
      rw [step.eq_def, if_neg hclosed']
      exact turn_arrived heof h₁ hopen₁ _ _

/-- What has arrived is in the buffer. -/
lemma run_arrivals {events : List Event} (hevents : ∀ e ∈ events, e.arrives = true)
    (hrun : Machine.run (step R) C events = some C') :
    C' = C.arrived (Event.stream events) (C.eof || decide (.finish ∈ events)) := by
  induction events generalizing C with
  | nil =>
      cases hrun
      simp [arrived, Event.stream]
  | cons e events ih =>
      obtain ⟨C₁, h₁, hrest⟩ := Machine.run_cons_eq_some_iff.mp hrun
      obtain ⟨⟨-, heof⟩, rfl⟩ :=
        (step_eq_some_iff_of_arrives (hevents e List.mem_cons_self)).mp h₁
      rw [ih (fun d hd => hevents d (List.mem_cons_of_mem _ hd)) hrest]
      simp [arrived, Event.stream, heof, eq_comm]

/-- All that arrives can arrive at once. -/
lemma run_atOnce (hopen : C.closed = none) (heof : C.eof = false) (events : List Event) :
    Machine.run (step R) C (Event.atOnce events)
      = some (C.arrived (Event.stream events) (decide (.finish ∈ events))) := by
  have hfirst : C.step R (.arrive (Event.stream events))
      = some (C.arrived (Event.stream events) false) :=
    (step_eq_some_iff_of_arrives rfl).mpr ⟨⟨hopen, heof⟩, rfl⟩
  rw [Event.atOnce, Machine.run, hfirst, Option.bind_some]
  split_ifs with hfinish
  · have hlast : (C.arrived (Event.stream events) false).step R .finish
        = some (C.arrived (Event.stream events) true) :=
      (step_eq_some_iff_of_arrives rfl).mpr ⟨⟨hopen, rfl⟩, by simp [arrived, Event.bytes]⟩
    rw [Machine.run, hlast, decide_eq_true hfinish]
    rfl
  · rw [decide_eq_false hfinish]
    rfl

/-- The arrivals among some events. -/
lemma stream_filter (events : List Event) :
    Event.stream (events.filter Event.arrives) = Event.stream events := by
  induction events with
  | nil => rfl
  | cons e events ih =>
      rw [Event.stream, Event.stream] at ih
      cases e with
      | arrive bytes =>
          rw [List.filter_cons_of_pos rfl, Event.stream, Event.stream, List.flatMap_cons,
            List.flatMap_cons, ih]
      | finish =>
          rw [List.filter_cons_of_pos rfl, Event.stream, Event.stream, List.flatMap_cons,
            List.flatMap_cons, ih]
      | turn now => rw [List.filter_cons_of_neg Bool.false_ne_true, Event.stream, ih]; rfl
      | fail => rw [List.filter_cons_of_neg Bool.false_ne_true, Event.stream, ih]; rfl

/-- **The pieces of a stream do not matter.**  However the bytes of a peer are cut into pieces, and
whenever they arrive between the rounds of the loop, the connection ends as it would have if all
had been there before the first round: with the same messages for the handlers, the same buckets
and strikes, and closed for the same reason, if it is. -/
theorem pieces_do_not_matter (R : Platform) {events : List Event} {C : PeerConn}
    (hrun : Machine.run (step R) {} events = some C) :
    Machine.run (step R) {} (Event.atOnce events ++ events.filter fun e => !e.arrives)
      = some C := by
  have hsorted : Machine.run (step R) {} (events.filter Event.arrives
      ++ events.filter fun e => !e.arrives) = some C :=
    Machine.run_filter_append (fun _ _ _ _ _ hd he h₁ h₂ => step_swap hd he h₁ h₂) hrun
  obtain ⟨C₁, hfirst, hlast⟩ := Machine.run_append_eq_some_iff.mp hsorted
  have harrivals := run_arrivals (fun e he => (List.mem_filter.mp he).2) hfirst
  have hfinish : Event.finish ∈ events.filter Event.arrives ↔ Event.finish ∈ events := by
    simp [Event.arrives]
  rw [stream_filter, Bool.false_or, decide_eq_decide.mpr hfinish] at harrivals
  refine Machine.run_append_eq_some_iff.mpr ⟨C₁, ?_, hlast⟩
  rw [run_atOnce rfl rfl, harrivals]

/-- The line of a message. -/
def lineOf (m : Message) : Bytes := m.encode.map fun c => UInt8.ofNat c.toNat

/-- A platform that decodes ASCII only and has no floats. -/
def plainPlatform : Platform := ⟨fun _ => none, fun _ => none, fun _ => [], 3⟩

/-- A request is cut in two, and comes in before the loop looks at it. -/
theorem pieces_do_not_matter_two :
    let line := lineOf (.getproof [])
    let events : List Event := [.arrive (line.take 5), .arrive (line.drop 5), .turn 0]
    ∃ C, Machine.run (step plainPlatform) {} events = some C
      ∧ C.taken = [((Message.getproof []).incoming, .passed)]
      ∧ Machine.run (step plainPlatform) {}
        (Event.atOnce events ++ events.filter fun e => !e.arrives) = some C :=
  ⟨_, rfl, rfl, pieces_do_not_matter plainPlatform rfl⟩

end PeerConn

end P2Pearl
