import P2Pearl.P2P.Delivery
import P2Pearl.P2P.Wire

/-!
A network of nodes that are connected by streams of bytes.

* `ByteNet`: the nodes and the wires between them; `ByteNet.step`: bytes arrive, a loop goes round,
  or a node does something by itself.
* `Wire.Bears`, `ByteNet.Bears`: the messages that are still to be read are those in flight.
* `ByteNet.Matches.step`: what happens to the bytes happens to the messages, or changes none of
  them.
* `ByteNet.Matches.run`, `ByteNet.Matches.quiet`: so a run over bytes is one over messages, and at
  rest nothing more can happen to them.
-/

namespace P2Pearl

/-! ### What a wire bears -/

/-- The message that is written, if it is one of those in flight. -/
def Sent.message? : Sent → Option Message
  | message _ _ m => some m
  | peers _ => none

lemma Sent.incoming_of_message? {s : Sent} {m : Message} (h : s.message? = some m) :
    s.incoming = m.incoming := by
  cases s with
  | message port tip m' => rw [Option.some.inj h.symm]; rfl
  | peers addrs => cases h

namespace Wire

variable {R : Platform} {W W' : Wire} {msgs : List Message}

/-- The messages that were written and have not been read. -/
def Bears (R : Platform) (W : Wire) (msgs : List Message) : Prop :=
  ∃ unread, Carried R W unread ∧ W.conn.eof = false ∧ unread.filterMap Sent.message? = msgs

lemma bears_nil (R : Platform) : Bears R {} [] :=
  ⟨[], .of_open rfl rfl (by simp) (Or.inl ⟨rfl, rfl⟩), rfl, rfl⟩

lemma Bears.write {s : Sent} (h : W.Bears R msgs) (hs : s.Fits R) :
    (W.write R s).Bears R (msgs ++ s.message?.toList) := by
  obtain ⟨unread, hcarried, heof, rfl⟩ := h
  refine ⟨_, hcarried.write heof hs, heof, ?_⟩
  rw [List.filterMap_append]
  cases s <;> rfl

lemma Bears.arrive {n : ℕ} (h : W.Bears R msgs) (hstep : W.step R (.arrive n) = some W') :
    W'.Bears R msgs := by
  obtain ⟨unread, hcarried, -, rfl⟩ := h
  obtain ⟨C, hC, rfl⟩ := Option.map_eq_some_iff.mp hstep
  obtain ⟨⟨hopen, heof⟩, rfl⟩ := (PeerConn.step_eq_some_iff_of_arrives rfl).mp hC
  exact ⟨_, hcarried.arrived hopen heof (List.take_append_drop n W.transit).symm, rfl, rfl⟩

/-- A round reads the next message, or none. -/
lemma Bears.turn {C : PeerConn} {now : ℚ} (h : W.Bears R msgs) (hdepth : 3 ≤ R.depth)
    (hturn : W.conn.turn R now = some C) :
    C.taken = W.conn.taken ∧ (W.after C).Bears R msgs
      ∨ ∃ (s : Sent) (outcome : Outcome) (left : List Message),
        C.taken = W.conn.taken ++ [(s.incoming, outcome)]
        ∧ (W.after C).Bears R left ∧ msgs = s.message?.toList ++ left := by
  obtain ⟨unread, hcarried, heof, rfl⟩ := h
  have heof' : C.eof = false := (PeerConn.eof_of_turn hturn).trans heof
  obtain ⟨left, hleft, ⟨rfl, htaken⟩ | ⟨s, outcome, rfl, htaken⟩⟩ :=
    hcarried.turn hdepth hturn
  · exact Or.inl ⟨htaken, _, hleft, heof', rfl⟩
  · refine Or.inr ⟨s, outcome, _, htaken, ⟨left, hleft, heof', rfl⟩, ?_⟩
    cases s <;> rfl

/-- All has arrived, the connection is open, and its loop waits. -/
structure Idle (R : Platform) (W : Wire) : Prop where
  transit : W.transit = []
  isOpen : W.conn.closed = none
  waits : W.conn.turn R 0 = none

lemma Bears.eq_nil (h : W.Bears R msgs) (hidle : W.Idle R) : msgs = [] := by
  obtain ⟨unread, hcarried, -, rfl⟩ := h
  rw [hcarried.eq_nil hidle.transit hidle.isOpen hidle.waits, List.filterMap_nil]

end Wire

/-! ### Messages in flight -/

variable {ι : Type} [DecidableEq ι]

/-- The messages in flight to a node from one of its peers. -/
def messagesTo (i : ι) (p : ℕ) (inFlight : List (InFlight ι)) : List Message :=
  (inFlight.filter fun m => m.dest = i ∧ m.peer = p).map InFlight.message

lemma messagesTo_append (i : ι) (p : ℕ) (l l' : List (InFlight ι)) :
    messagesTo i p (l ++ l') = messagesTo i p l ++ messagesTo i p l' := by
  rw [messagesTo, List.filter_append, List.map_append]
  rfl

/-- The next message to a node from a peer can arrive. -/
lemma exists_of_messagesTo {i : ι} {p : ℕ} {l : List (InFlight ι)} {msg : Message}
    {left : List Message} (h : messagesTo i p l = msg :: left) :
    ∃ k m, l[k]? = some m ∧ m.dest = i ∧ m.peer = p ∧ m.message = msg
      ∧ messagesTo i p (l.eraseIdx k) = left
      ∧ ∀ j q, ¬(j = i ∧ q = p) → messagesTo j q (l.eraseIdx k) = messagesTo j q l := by
  obtain ⟨m, rest, hfilter, rfl, rfl⟩ := List.map_eq_cons_iff.mp h
  obtain ⟨before, after, rfl, hbefore, hm, rfl⟩ := List.filter_eq_cons_iff.mp hfilter
  obtain ⟨rfl, rfl⟩ := of_decide_eq_true hm
  have hall : before.filter (fun x => decide (x.dest = m.dest ∧ x.peer = m.peer)) = [] :=
    List.filter_eq_nil_iff.mpr hbefore
  refine ⟨before.length, m, by simp, rfl, rfl, rfl, ?_, fun j q hne => ?_⟩
  · rw [List.eraseIdx_append_of_length_le le_rfl, Nat.sub_self, List.eraseIdx_zero, List.tail_cons,
      messagesTo, List.filter_append, hall, List.nil_append]
  · rw [List.eraseIdx_append_of_length_le le_rfl, Nat.sub_self, List.eraseIdx_zero, List.tail_cons,
      messagesTo_append, messagesTo_append, ← List.singleton_append, messagesTo_append]
    have hnone : messagesTo j q [m] = [] := by
      rw [messagesTo, List.filter_cons_of_neg]
      · rfl
      · exact fun h => hne ((of_decide_eq_true h).imp Eq.symm Eq.symm)
    rw [hnone, List.nil_append]

/-! ### The network -/

/-- Nodes that are connected by streams of bytes: `wire i p` ends at the node `i`, which has the
number `p` for the peer at its other end. -/
structure ByteNet (ι : Type) where
  node : ι → P2PNode
  wire : ι → ℕ → Wire

namespace ByteNet

/-- What can happen: a node does something by itself, or writes the addresses it knows to a peer;
bytes arrive, or the loop of a connection goes round, with the clock of the gate and that of the
handler. -/
inductive Event (ι : Type) where
  | own (i : ι) (e : P2PNode.Event)
  | addresses (i : ι) (p : ℕ) (addrs : List (Json × ℤ))
  | arrive (i : ι) (p n : ℕ)
  | turn (i : ι) (p : ℕ) (now : ℚ) (clock : ℕ → ℚ)

variable (R : Platform) (T : Topology ι) (cfg : ι → P2PConfig) (port : ι → ℕ) (B : ByteNet ι)

/-- Something has happened to a wire. -/
def setWire (i : ι) (p : ℕ) (W : Wire) : ByteNet ι :=
  { B with wire := Function.update B.wire i (Function.update (B.wire i) p W) }

/-- A node writes a line to a peer. -/
def write (i : ι) (p : ℕ) (s : Sent) : ByteNet ι :=
  match T.link i p with
  | none => B
  | some (j, q) => B.setWire j q ((B.wire j q).write R s)

/-- A node writes messages to its peers. -/
def writes (i : ι) (port : ℕ) (tip : Option Hash32) (out : List (ℕ × Message)) : ByteNet ι :=
  out.foldl (fun B m => B.write R T i m.1 (.message port tip m.2)) B

/-- A node has reacted to an event. -/
def after (i : ι) (r : P2PNode × List (ℕ × Message)) : ByteNet ι :=
  { B with node := Function.update B.node i r.1 }.writes R T i (port i) r.1.chain.bestTip r.2

/-- One event, where it can happen. -/
def step : Event ι → Option (ByteNet ι)
  -- the connections stay as they are, and there are no messages but those of the nodes
  | .own _ .connect | .own _ (.disconnect _) | .own _ (.receive ..) => none
  | .own i e => ((B.node i).react (cfg i) e).map (B.after R T port i)
  | .addresses i p addrs => some (B.write R T i p (.peers addrs))
  | .arrive i p n => ((B.wire i p).step R (.arrive n)).map (B.setWire i p)
  | .turn i p now clock =>
      ((B.wire i p).conn.turn R now).bind fun C =>
        let B' := B.setWire i p ((B.wire i p).after C)
        match C.taken[(B.wire i p).conn.taken.length]? with
        | some (msg, .passed) =>
            ((B.node i).react (cfg i) (.receive p msg clock)).map (B'.after R T port i)
        | _ => some B'

/-- Every line fits, and no message has been refused. -/
structure Unhindered : Prop where
  fits : ∀ i p, ∀ s ∈ (B.wire i p).written, s.Fits R
  passed : ∀ i p, ∀ x ∈ (B.wire i p).conn.taken, x.2 = .passed

/-- The messages in flight are those the wires bear. -/
def Bears (inFlight : List (InFlight ι)) : Prop :=
  ∀ i p, (B.wire i p).Bears R (messagesTo i p inFlight)

/-- The network of bytes as one of messages. -/
structure Matches (N : Network ι) : Prop where
  node : N.node = B.node
  bears : B.Bears R N.inFlight

variable {R T cfg port B} {B' : ByteNet ι} {N : Network ι} {inFlight : List (InFlight ι)}
  {i : ι} {p : ℕ}

@[simp] lemma node_setWire (W : Wire) : (B.setWire i p W).node = B.node := rfl

lemma wire_setWire (W : Wire) (j : ι) (q : ℕ) :
    (B.setWire i p W).wire j q = if j = i ∧ q = p then W else B.wire j q := by
  rw [setWire]
  by_cases hj : j = i
  · subst hj
    by_cases hq : q = p
    · simp [hq]
    · simp [hq]
  · simp [hj]

/-! ### Writing -/

lemma node_write (s : Sent) : (B.write R T i p s).node = B.node := by
  rw [write]
  split <;> rfl

/-- What a line is written to. -/
lemma wire_write (s : Sent) (j : ι) (q : ℕ) :
    (B.write R T i p s).wire j q
      = if T.link i p = some (j, q) then (B.wire j q).write R s else B.wire j q := by
  rw [write]
  cases hlink : T.link i p with
  | none => simp
  | some jq =>
      obtain ⟨j', q'⟩ := jq
      dsimp only
      rw [wire_setWire]
      by_cases h : j = j' ∧ q = q'
      · obtain ⟨rfl, rfl⟩ := h
        simp
      · rw [if_neg h, if_neg fun he => h ?_]
        cases he
        exact ⟨rfl, rfl⟩

lemma node_writes (port : ℕ) (tip : Option Hash32) (out : List (ℕ × Message)) :
    (B.writes R T i port tip out).node = B.node := by
  induction out generalizing B with
  | nil => rfl
  | cons m out ih => exact (ih (B := B.write R T i m.1 _)).trans (node_write _)

lemma conn_writes (port : ℕ) (tip : Option Hash32) (out : List (ℕ × Message)) (j : ι) (q : ℕ) :
    ((B.writes R T i port tip out).wire j q).conn = (B.wire j q).conn := by
  induction out generalizing B with
  | nil => rfl
  | cons m out ih =>
      refine (ih (B := B.write R T i m.1 _)).trans ?_
      rw [wire_write]
      split_ifs <;> rfl

lemma written_write (s : Sent) (j : ι) (q : ℕ) :
    (B.wire j q).written ⊆ ((B.write R T i p s).wire j q).written := by
  rw [wire_write]
  split_ifs
  · exact List.subset_append_left _ _
  · exact List.Subset.refl _

lemma written_writes (port : ℕ) (tip : Option Hash32) (out : List (ℕ × Message)) (j : ι) (q : ℕ) :
    (B.wire j q).written ⊆ ((B.writes R T i port tip out).wire j q).written := by
  induction out generalizing B with
  | nil => exact List.Subset.refl _
  | cons m out ih => exact List.Subset.trans (written_write _ j q) (ih (B := B.write R T i m.1 _))

lemma messagesTo_route (msgs : List Message) (j : ι) (q : ℕ) :
    messagesTo j q (T.route i (msgs.map fun m => (p, m)))
      = if T.link i p = some (j, q) then msgs else [] := by
  rw [messagesTo, Topology.route, List.filterMap_map]
  cases hlink : T.link i p with
  | none => simp [hlink]
  | some jq =>
      obtain ⟨j', q'⟩ := jq
      have hone : ((fun m : ℕ × Message => (T.link i m.1).map fun q => InFlight.mk i q.1 q.2 m.2)
          ∘ fun m => (p, m)) = some ∘ InFlight.mk i j' q' := by
        funext m
        simp [hlink]
      rw [hone, List.filterMap_eq_map, List.filter_map, List.map_map]
      split_ifs with h
      · cases h
        simp [Function.comp_def]
      · have hne : ¬(j' = j ∧ q' = q) := fun he => h (by rw [he.1, he.2])
        simp [Function.comp_def, hne]

/-- A line is written. -/
lemma Bears.write {s : Sent} (h : B.Bears R inFlight)
    (hfits : ∀ j q, T.link i p = some (j, q) → s.Fits R) :
    (B.write R T i p s).Bears R
      (inFlight ++ T.route i (s.message?.toList.map fun m => (p, m))) := by
  intro j q
  rw [wire_write, messagesTo_append, messagesTo_route]
  split_ifs with hlink
  · exact (h j q).write (hfits j q hlink)
  · rw [List.append_nil]
    exact h j q

lemma Bears.writes {port : ℕ} {tip : Option Hash32} {out : List (ℕ × Message)}
    (h : B.Bears R inFlight)
    (hfits : ∀ j q, ∀ s ∈ ((B.writes R T i port tip out).wire j q).written, s.Fits R) :
    (B.writes R T i port tip out).Bears R (inFlight ++ T.route i out) := by
  induction out generalizing B inFlight with
  | nil =>
      rw [show T.route i [] = [] from rfl, List.append_nil]
      exact h
  | cons m out ih =>
      have hfirst : (B.write R T i m.1 (.message port tip m.2)).Bears R
          (inFlight ++ T.route i [m]) := h.write fun j q hlink => by
        refine hfits j q _ (written_writes (B := B.write R T i m.1 _) port tip out j q ?_)
        rw [wire_write, if_pos hlink]
        exact List.mem_concat_self
      have hroute : T.route i (m :: out) = T.route i [m] ++ T.route i out :=
        List.filterMap_append (l := [m])
      rw [hroute, ← List.append_assoc]
      exact ih hfirst hfits

/-- A node has reacted. -/
lemma Bears.after {r : P2PNode × List (ℕ × Message)} (h : B.Bears R inFlight)
    (hun : (B.after R T port i r).Unhindered R) :
    (B.after R T port i r).Matches R ⟨Function.update B.node i r.1, inFlight ++ T.route i r.2⟩ :=
  ⟨(node_writes (B := { B with node := Function.update B.node i r.1 }) _ _ _).symm,
    Bears.writes (B := { B with node := Function.update B.node i r.1 }) h hun.fits⟩

/-! ### What stays -/

/-- What is written stays written, and what is read stays read. -/
structure Grows (B B' : ByteNet ι) : Prop where
  written : ∀ j q, (B.wire j q).written ⊆ (B'.wire j q).written
  taken : ∀ j q, (B.wire j q).conn.taken ⊆ (B'.wire j q).conn.taken

omit [DecidableEq ι] in
lemma Grows.trans {B'' : ByteNet ι} (h : Grows B B') (h' : Grows B' B'') : Grows B B'' :=
  ⟨fun j q => List.Subset.trans (h.written j q) (h'.written j q),
    fun j q => List.Subset.trans (h.taken j q) (h'.taken j q)⟩

lemma grows_after (r : P2PNode × List (ℕ × Message)) : Grows B (B.after R T port i r) :=
  ⟨fun j q => written_writes (B := { B with node := Function.update B.node i r.1 }) _ _ _ j q,
    fun j q => by rw [after, conn_writes]; exact List.Subset.refl _⟩

lemma grows_setWire {W : Wire} (hwritten : (B.wire i p).written ⊆ W.written)
    (htaken : (B.wire i p).conn.taken ⊆ W.conn.taken) : Grows B (B.setWire i p W) := by
  constructor <;> intro j q <;> rw [wire_setWire] <;> split_ifs with hjq
  · obtain ⟨rfl, rfl⟩ := hjq
    exact hwritten
  · exact List.Subset.refl _
  · obtain ⟨rfl, rfl⟩ := hjq
    exact htaken
  · exact List.Subset.refl _

lemma grows_of_step {e : Event ι} (hstep : B.step R T cfg port e = some B') : Grows B B' := by
  cases e with
  | own i e =>
      have hafter : ∃ r, B.after R T port i r = B' := by
        cases e with
        | connect | disconnect peer | receive peer msg clock => cases hstep
        | _ =>
            simp only [step] at hstep
            obtain ⟨r, -, hr⟩ := Option.map_eq_some_iff.mp hstep
            exact ⟨r, hr⟩
      obtain ⟨r, rfl⟩ := hafter
      exact grows_after r
  | addresses i p addrs =>
      cases hstep
      exact ⟨written_write _, fun j q => by rw [wire_write]; split_ifs <;> exact List.Subset.refl _⟩
  | arrive i p n =>
      obtain ⟨W, hW, rfl⟩ := Option.map_eq_some_iff.mp hstep
      obtain ⟨C, hC, rfl⟩ := Option.map_eq_some_iff.mp hW
      obtain ⟨-, rfl⟩ := (PeerConn.step_eq_some_iff_of_arrives rfl).mp hC
      exact grows_setWire (List.Subset.refl _) (List.Subset.refl _)
  | turn i p now clock =>
      obtain ⟨C, hC, hB⟩ := Option.bind_eq_some_iff.mp hstep
      have hset : Grows B (B.setWire i p ((B.wire i p).after C)) :=
        grows_setWire (List.Subset.refl _) (PeerConn.taken_of_turn hC)
      dsimp only at hB
      split at hB
      · obtain ⟨r, -, rfl⟩ := Option.map_eq_some_iff.mp hB
        exact hset.trans (grows_after r)
      · cases hB
        exact hset

omit [DecidableEq ι] in
lemma Unhindered.of_grows (h : B'.Unhindered R) (hgrows : Grows B B') : B.Unhindered R :=
  ⟨fun i p s hs => h.fits i p s (hgrows.written i p hs),
    fun i p x hx => h.passed i p x (hgrows.taken i p hx)⟩

/-! ### The refinement -/

lemma Bears.setWire {W : Wire} {inFlight' : List (InFlight ι)} (h : B.Bears R inFlight)
    (hW : W.Bears R (messagesTo i p inFlight'))
    (hother : ∀ j q, ¬(j = i ∧ q = p) → messagesTo j q inFlight' = messagesTo j q inFlight) :
    (B.setWire i p W).Bears R inFlight' := by
  intro j q
  rw [wire_setWire]
  split_ifs with hjq
  · obtain ⟨rfl, rfl⟩ := hjq
    exact hW
  · rw [hother j q hjq]
    exact h j q

end ByteNet

variable {G : GossipNet ι} {R : Platform} {port : ι → ℕ} {B B' : ByteNet ι} {N N' : Network ι}
  {i : ι} {e : P2PNode.Event}

omit [DecidableEq ι] in
/-- What a node may do by itself does not depend on what is in flight. -/
lemma GossipNet.Allows.own_congr (h : G.Allows N (.own i e)) (hnode : N'.node = N.node) :
    G.Allows N' (.own i e) := by
  cases h with
  | relay i k => exact .relay i k
  | submit it now mem later new => exact .submit it now mem later (hnode ▸ new)
  | broadcast it mem has due => exact .broadcast it mem (hnode ▸ has) (hnode ▸ due)

lemma GossipNet.Allows.step_own (h : G.Allows N (.own i e)) :
    G.step N (.own i e)
      = ((N.node i).react (G.cfg i) e).map (N.after G.links i N.inFlight) := by
  cases h <;> rfl

lemma GossipNet.Allows.step_own_bytes (h : G.Allows N (.own i e)) :
    B.step R G.links G.cfg port (.own i e)
      = ((B.node i).react (G.cfg i) e).map (B.after R G.links port i) := by
  cases h <;> rfl

/-- What may happen: bytes arrive and are read, nodes write the addresses they know, and by
themselves they do what they do in a network of messages. -/
inductive GossipNet.AllowsBytes (G : GossipNet ι) (B : ByteNet ι) : ByteNet.Event ι → Prop
  | own (i : ι) (e : P2PNode.Event) (allows : G.Allows ⟨B.node, []⟩ (.own i e)) :
      AllowsBytes G B (.own i e)
  | addresses (i : ι) (p : ℕ) (addrs : List (Json × ℤ)) : AllowsBytes G B (.addresses i p addrs)
  | arrive (i : ι) (p n : ℕ) : AllowsBytes G B (.arrive i p n)
  | turn (i : ι) (p : ℕ) (now : ℚ) (clock : ℕ → ℚ) (later : ∀ n, G.start ≤ clock n) :
      AllowsBytes G B (.turn i p now clock)

namespace ByteNet

/-- What a node reads. -/
lemma Matches.read {k : ℕ} {clock : ℕ → ℚ} {W : Wire} {m : InFlight ι}
    {r : P2PNode × List (ℕ × Message)} (h : B.Matches R N) (hk : N.inFlight[k]? = some m)
    (hW : W.Bears R (messagesTo m.dest m.peer (N.inFlight.eraseIdx k)))
    (hother : ∀ j q, ¬(j = m.dest ∧ q = m.peer) →
      messagesTo j q (N.inFlight.eraseIdx k) = messagesTo j q N.inFlight)
    (hr : (B.node m.dest).react (G.cfg m.dest) (.receive m.peer m.message.incoming clock) = some r)
    (hun : ((B.setWire m.dest m.peer W).after R G.links port m.dest r).Unhindered R) :
    ∃ N', G.step N (.deliver k clock) = some N'
      ∧ ((B.setWire m.dest m.peer W).after R G.links port m.dest r).Matches R N' := by
  refine ⟨N.after G.links m.dest (N.inFlight.eraseIdx k) r, ?_, ?_⟩
  · rw [GossipNet.step, Network.step, hk, Option.bind_some, h.node, hr]
    rfl
  · rw [Network.after, h.node]
    exact (h.bears.setWire hW hother).after hun

/-- **One step**: what happens to the bytes happens to the messages, or changes none of them. -/
lemma Matches.step (h : B.Matches R N) (hdepth : 3 ≤ R.depth) {e : Event ι}
    (hallows : G.AllowsBytes B e) (hstep : B.step R G.links G.cfg port e = some B')
    (hun : B'.Unhindered R) :
    B'.Matches R N ∨ ∃ e' N', G.Allows N e' ∧ G.step N e' = some N' ∧ B'.Matches R N' := by
  cases hallows with
  | own i e allows =>
      rw [allows.step_own_bytes] at hstep
      obtain ⟨r, hr, rfl⟩ := Option.map_eq_some_iff.mp hstep
      have hown : G.Allows N (.own i e) := allows.own_congr h.node
      refine Or.inr ⟨.own i e, N.after G.links i N.inFlight r, hown, ?_, ?_⟩
      · rw [hown.step_own, h.node, hr]
        rfl
      · rw [Network.after, h.node]
        exact h.bears.after hun
  | addresses i p addrs =>
      cases hstep
      have hwrite := h.bears.write (T := G.links) (i := i) (p := p) (s := .peers addrs)
        fun j q hlink => hun.fits j q _ <| by
          rw [wire_write, if_pos hlink]
          exact List.mem_concat_self
      refine Or.inl ⟨h.node.trans (node_write _).symm, ?_⟩
      rw [show G.links.route i (Option.toList (Sent.message? (.peers addrs)) |>.map fun m => (p, m))
        = [] from rfl, List.append_nil] at hwrite
      exact hwrite
  | arrive i p n =>
      obtain ⟨W, hW, rfl⟩ := Option.map_eq_some_iff.mp hstep
      exact Or.inl ⟨h.node, h.bears.setWire ((h.bears i p).arrive hW) fun _ _ _ => rfl⟩
  | turn i p now clock later =>
      obtain ⟨C, hC, hB⟩ := Option.bind_eq_some_iff.mp hstep
      dsimp only at hB
      rcases (h.bears i p).turn hdepth hC with
        ⟨htaken, hbears⟩ | ⟨s, outcome, left, htaken, hbears, hmsgs⟩
      · -- nothing was read
        rw [htaken, List.getElem?_eq_none le_rfl] at hB
        cases hB
        exact Or.inl ⟨h.node, h.bears.setWire hbears fun _ _ _ => rfl⟩
      · rw [htaken, List.getElem?_concat_length] at hB
        have hpassed : outcome = .passed := by
          have hmem : ∀ W : Wire, W = (B.wire i p).after C → (s.incoming, outcome) ∈ W.conn.taken :=
            fun W hW => by rw [hW, Wire.after, htaken]; exact List.mem_concat_self
          cases outcome with
          | passed => rfl
          | ignored | dropped =>
              cases hB
              exact hun.passed i p _ (hmem _ (by rw [wire_setWire, if_pos ⟨rfl, rfl⟩]))
        subst hpassed
        obtain ⟨r, hr, rfl⟩ := Option.map_eq_some_iff.mp hB
        cases hs : s.message? with
        | some msg =>
            rw [hs] at hmsgs
            obtain ⟨k, m, hk, rfl, rfl, rfl, rfl, hother⟩ := exists_of_messagesTo hmsgs
            rw [Sent.incoming_of_message? hs] at hr
            exact Or.inr ⟨.deliver k clock, (h.read hk hbears hother hr hun).imp fun N' hN =>
              ⟨.deliver k clock later, hN⟩⟩
        | none =>
            -- the addresses of nodes, which change nothing
            rw [hs] at hmsgs
            have hset : (B.setWire i p ((B.wire i p).after C)).Bears R N.inFlight :=
              h.bears.setWire (hmsgs ▸ hbears) fun _ _ _ => rfl
            have hnothing : s.incoming = {} := by
              cases s with
              | message port tip m => cases hs
              | peers addrs => rfl
            rw [hnothing] at hr
            cases hr
            have hafter := hset.after hun
            rw [node_setWire, Function.update_eq_self,
              show G.links.route i ([].map fun m => (p, m)) = [] from rfl,
              List.append_nil] at hafter
            exact Or.inl ⟨h.node.trans hafter.node, hafter.bears⟩

end ByteNet

/-! ### What is achieved -/

section Delivery

variable (G R port)

/-- Everything has arrived and been read, and the nodes do nothing by themselves. -/
structure GossipNet.AtRest (B : ByteNet ι) : Prop where
  idle : ∀ i p, (B.wire i p).Idle R
  quiet : ∀ i e, G.Allows ⟨B.node, []⟩ (.own i e) → B.step R G.links G.cfg port (.own i e) = none

/-- Events may follow each other on the wires, and in the end no line was too long for its reader,
and no message was refused by a rate gate. -/
structure GossipNet.RunsBytes (B : ByteNet ι) (events : List (ByteNet.Event ι)) (B' : ByteNet ι) :
    Prop where
  along : Machine.Along (ByteNet.step R G.links G.cfg port) G.AllowsBytes B events
  run : Machine.run (ByteNet.step R G.links G.cfg port) B events = some B'
  unhindered : B'.Unhindered R

variable {G R port}

namespace ByteNet

lemma Matches.inFlight (h : B.Matches R N) (hrest : G.AtRest R port B) : N.inFlight = [] := by
  refine List.eq_nil_iff_forall_not_mem.mpr fun m hm => ?_
  have hnil : messagesTo m.dest m.peer N.inFlight = [] :=
    (h.bears m.dest m.peer).eq_nil (hrest.idle m.dest m.peer)
  have hmem : m.message ∈ messagesTo m.dest m.peer N.inFlight :=
    List.mem_map_of_mem (List.mem_filter.mpr ⟨hm, by simp⟩)
  rw [hnil] at hmem
  cases hmem

/-- At rest nothing more can happen to the messages. -/
lemma Matches.quiet (h : B.Matches R N) (hrest : G.AtRest R port B) : G.Quiet N := by
  intro e hallows
  cases e with
  | deliver k clock =>
      rw [GossipNet.step, Network.step, h.inFlight hrest]
      rfl
  | own i e =>
      have hown : G.Allows ⟨B.node, []⟩ (.own i e) := hallows.own_congr h.node.symm
      have hnone := hrest.quiet i e hown
      rw [hown.step_own_bytes, Option.map_eq_none_iff] at hnone
      rw [hallows.step_own, h.node, hnone]
      rfl

/-- A run over bytes is one over messages. -/
lemma Matches.run {events : List (ByteNet.Event ι)} (h : B.Matches R N) (hdepth : 3 ≤ R.depth)
    (hruns : G.RunsBytes R port B events B') : ∃ es N', G.Runs N es N' ∧ B'.Matches R N' := by
  obtain ⟨-, hun⟩ := Machine.along_of_last (I := Unhindered R)
    (fun s e s' hs hs' => hs'.of_grows (grows_of_step hs)) hruns.run hruns.unhindered
  obtain ⟨es, N', halong, hrun, hmatches⟩ := Machine.run_simulates
    (fun s e s' t hG hs (hsim : s.Matches R t) => hsim.step hdepth hG.1 hs (hG.2 s' hs))
    (hruns.along.and hun) hruns.run h
  exact ⟨es, N', ⟨halong, hrun⟩, hmatches⟩

end ByteNet

end Delivery

end P2Pearl
