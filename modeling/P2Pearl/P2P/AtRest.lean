import P2Pearl.P2P.ByteNet

/-!
A network of streams can always come to rest.

* `Peer.exists_passed`: every message passes a rate gate that has been idle for long enough.
* `Wire.Bears.exists_read`: the next message of an open wire can arrive and be read.
* `Going`: what holds as long as a network of bytes goes on; `Going.exists_quiet`: it goes on until
  nothing more can happen to the messages.
* `Ticks`: the clock of the rate gates does not go back.
* `ByteNet.bytes_deliver`: what gossip achieves with messages it achieves with bytes.
* `bytes_come_to_rest`: a network of bytes can come to rest, and then every node that can be reached
  serves what was mined.
-/

namespace P2Pearl

/-- A message passes, where it comes late enough for a new window. -/
lemma Peer.exists_passed (p : Peer) (kind : Option Kind) :
    ∃ t, ∀ now, t ≤ now → (p.dispatch ⟨kind, now⟩).2 = .passed := by
  cases kind with
  | none => exact ⟨0, fun _ _ => rfl⟩
  | some kind =>
      cases hlimit : rateLimits kind with
      | none => exact ⟨0, fun now _ => by rw [Peer.dispatch]; simp only [hlimit]⟩
      | some r =>
          cases hbucket : p.buckets kind with
          | none =>
              refine ⟨0, fun now _ => ?_⟩
              rw [Peer.dispatch]
              simp only [hlimit, Peer.allow, hbucket, Peer.openBucket]
          | some bucket =>
              obtain ⟨start, count⟩ := bucket
              refine ⟨start + r.window, fun now hnow => ?_⟩
              rw [Peer.dispatch]
              simp only [hlimit, Peer.allow, hbucket, Peer.openBucket,
                if_pos (le_sub_iff_add_le'.mpr hnow)]

namespace Wire

variable {R : Platform} {W W' : Wire} {unread : List Sent} {msgs : List Message} {now : ℚ}

/-- Only messages are written. -/
def Told (W : Wire) : Prop := ∀ s ∈ W.written, ∃ port tip m, s = .message port tip m

/-- What has not been read is a message. -/
lemma Carried.exists_message (h : Carried R W unread) (htold : W.Told) {s : Sent}
    (hs : s ∈ unread) : ∃ port tip m, s = .message port tip m := by
  cases s with
  | message port tip m => exact ⟨port, tip, m, rfl⟩
  | peers addrs =>
      have hmem : Sent.incoming (.peers addrs) ∈ W.written.map Sent.incoming := by
        rw [h.split]
        exact List.mem_append_right _ (List.mem_map_of_mem hs)
      obtain ⟨t, ht, hkind⟩ := List.mem_map.mp hmem
      obtain ⟨port, tip, m, rfl⟩ := htold t ht
      cases m <;> cases congrArg Incoming.kind hkind

/-- The next message is read, where it has arrived and passes the gate. -/
lemma Carried.turn_passed {s : Sent} (h : Carried R W (s :: unread)) (hdepth : 3 ≤ R.depth)
    (hopen : W.conn.closed = none) (heof : W.conn.eof = false) (htransit : W.transit = [])
    (hfew : W.conn.taken.length < maxMsgsPerConn)
    (hgate : (W.conn.gate.dispatch ⟨s.incoming.kind, now⟩).2 = .passed) :
    ∃ C, W.conn.turn R now = some C ∧ C.closed = none
      ∧ C.taken = W.conn.taken ++ [(s.incoming, .passed)] := by
  have hs := h.fits s List.mem_cons_self
  have hshort : ((s.text R).map Sent.byte).length ≤ P2PNode.readLimit := by
    rw [List.length_map]
    exact hs.short
  have hpending : W.Pending R (s :: unread) := (h.pending hopen).resolve_right
    fun hlast => Bool.false_ne_true (heof.symm.trans hlast.1)
  rcases hpending.cases with ⟨rest, hbuffer, -⟩ | ⟨-, hne⟩
  · have hblank : isBlank ((s.text R).map Sent.byte ++ [newline]) = false :=
      Sent.Fits.not_isBlank List.prefix_rfl (by simp [Sent.text, Json.dumps, dumpsDict])
    refine ⟨_, by rw [PeerConn.turn, if_neg (by simp [hopen]), hbuffer,
      readline_line hs.newline_notMem hshort rest], ?_⟩
    have hcount : ¬maxMsgsPerConn < W.conn.count + 1 := by
      rw [hpending.count]
      omega
    rw [PeerConn.takeLine, if_neg (by simp), hblank, if_neg Bool.false_ne_true, if_neg hcount,
      show (s.text R).map Sent.byte ++ [newline] = s.line R from rfl, (hs.loads_text hdepth).2]
    dsimp only
    rw [PeerConn.dispatch, ofJson_dict]
    dsimp only
    rw [hgate, if_neg (by decide)]
    exact ⟨hopen, rfl⟩
  · exact absurd htransit hne

/-- What is on the way arrives, and the next message is read. -/
lemma Bears.exists_read {msg : Message} (h : W.Bears R (msg :: msgs)) (htold : W.Told)
    (hdepth : 3 ≤ R.depth) (hopen : W.conn.closed = none)
    (hfew : W.conn.taken.length < maxMsgsPerConn) (t : ℚ) :
    ∃ n W₁ now C, t ≤ now ∧ W.step R (.arrive n) = some W₁ ∧ W₁.conn.turn R now = some C
      ∧ C.closed = none ∧ C.taken = W.conn.taken ++ [(msg.incoming, .passed)]
      ∧ (W₁.after C).Bears R msgs
      ∧ W₁.written = W.written ∧ W₁.conn.taken = W.conn.taken := by
  obtain ⟨unread, hcarried, heof, hmsgs⟩ := h
  cases unread with
  | nil => cases hmsgs
  | cons s unread =>
      obtain ⟨port, tip, m, rfl⟩ := hcarried.exists_message htold List.mem_cons_self
      obtain ⟨rfl, rfl⟩ := List.cons.inj hmsgs
      let W₁ : Wire := { W with transit := [], conn := W.conn.arrived W.transit false }
      have harrive : W.step R (.arrive W.transit.length) = some W₁ := by
        rw [Wire.step, List.take_length, List.drop_length,
          (PeerConn.step_eq_some_iff_of_arrives rfl).mpr ⟨⟨hopen, heof⟩, rfl⟩]
        rfl
      have hcarried₁ : Carried R W₁ (.message port tip m :: unread) :=
        hcarried.arrived hopen heof (List.append_nil _).symm
      obtain ⟨t', hgate⟩ := W₁.conn.gate.exists_passed m.incoming.kind
      obtain ⟨C, hturn, hclosed, htaken⟩ :=
        hcarried₁.turn_passed hdepth hopen rfl rfl hfew (hgate (max t t') (le_max_right t t'))
      have hbears : W₁.Bears R (m :: unread.filterMap Sent.message?) :=
        ⟨_, hcarried₁, rfl, rfl⟩
      refine ⟨_, W₁, _, C, le_max_left t t', harrive, hturn, hclosed, htaken, ?_, rfl, rfl⟩
      obtain ⟨left, hleft, ⟨rfl, hsame⟩ | ⟨s, outcome, hunread, -⟩⟩ :=
        hcarried₁.turn hdepth hturn
      · rw [htaken] at hsame
        exact absurd (congrArg List.length hsame) (by simp [W₁, PeerConn.arrived])
      · obtain ⟨-, rfl⟩ := List.cons.inj hunread
        exact ⟨_, hleft, (PeerConn.eof_of_turn hturn).trans rfl, rfl⟩

/-- A wire that bears nothing waits. -/
lemma Bears.idle (h : W.Bears R []) (htold : W.Told) (hopen : W.conn.closed = none) :
    W.Idle R := by
  obtain ⟨unread, hcarried, heof, hmsgs⟩ := h
  cases unread with
  | cons s unread =>
      obtain ⟨port, tip, m, rfl⟩ := hcarried.exists_message htold List.mem_cons_self
      cases hmsgs
  | nil =>
      have hpending : W.Pending R [] := (hcarried.pending hopen).resolve_right
        fun hlast => Bool.false_ne_true (heof.symm.trans hlast.1)
      obtain ⟨hbuffer, htransit⟩ := List.append_eq_nil_iff.mp hpending.stream
      refine ⟨htransit, hopen, ?_⟩
      rw [PeerConn.turn, if_neg (by simp [hopen]), hbuffer, heof]
      rfl

end Wire

/-! ### Sizes -/

/-- The length of a text with one field besides the type. -/
lemma length_dumpsDict_pair (kind key : String) (v : PyStr) :
    (dumpsDict [("t", dumpsStr kind.toList), (key, dumpsStr v)]).length
      = jsonLength kind.toList + jsonLength key.toList + jsonLength v + 14 := by
  have ht : jsonLength "t".toList = 1 := by decide
  simp only [dumpsDict, List.map_cons, List.map_nil, List.length_append, List.length_cons,
    List.length_nil, length_joinComma, length_dumpsStr, ht, List.sum_cons, List.sum_nil]
  omega

lemma length_encode_share (wire : PyStr) :
    (Message.share wire).encode.length = jsonLength wire + 25 := by
  have hshare : jsonLength "share".toList = 5 := by decide
  rw [Message.encode, List.length_append, Message.fields, length_dumpsDict_pair, hshare,
    List.length_singleton]
  omega

lemma length_encode_getproof (id : PyStr) :
    (Message.getproof id).encode.length = jsonLength id + 25 := by
  have hkind : jsonLength "getproof".toList = 8 := by decide
  have hid : jsonLength "id".toList = 2 := by decide
  rw [Message.encode, List.length_append, Message.fields, length_dumpsDict_pair, hkind, hid,
    List.length_singleton]
  omega

/-- The length of the text of a message but a `hello`. -/
lemma Sent.length_text (R : Platform) (port : ℕ) (tip : Option Hash32) {m : Message}
    (hm : ∀ height, m ≠ .hello height) :
    ((Sent.message port tip m).text R).length + 1 = m.encode.length := by
  simpa [Sent.line, PeerConn.lineOf] using congrArg List.length (line_eq_lineOf R port tip hm)

/-! ### Going on -/

variable {ι : Type} [DecidableEq ι] {G : GossipNet ι} {R : Platform} {port : ι → ℕ}
  {B B' : ByteNet ι} {N N' : Network ι} {inFlight : List (InFlight ι)}

namespace ByteNet

variable {T : Topology ι} {i : ι}

/-- What was written is what had been, or one of the messages. -/
lemma mem_written_writes {port : ℕ} {tip : Option Hash32} {out : List (ℕ × Message)} {j : ι} {q : ℕ}
    {s : Sent} (hs : s ∈ ((B.writes R T i port tip out).wire j q).written) :
    s ∈ (B.wire j q).written
      ∨ ∃ m, s = .message port tip m ∧ ∃ x ∈ T.route i out, x.message = m := by
  induction out generalizing B with
  | nil => exact Or.inl hs
  | cons m out ih =>
      rcases ih (B := B.write R T i m.1 (.message port tip m.2)) hs with
        hs | ⟨m', rfl, x, hx, rfl⟩
      · rw [wire_write] at hs
        split_ifs at hs with hlink
        · rcases List.mem_append.mp hs with hs | hs
          · exact Or.inl hs
          · refine Or.inr ⟨m.2, List.mem_singleton.mp hs, ⟨i, j, q, m.2⟩, ?_, rfl⟩
            exact List.mem_filterMap.mpr ⟨m, List.mem_cons_self, by rw [hlink]; rfl⟩
        · exact Or.inl hs
      · refine Or.inr ⟨_, rfl, x, ?_, rfl⟩
        obtain ⟨y, hy, hyx⟩ := List.mem_filterMap.mp hx
        exact List.mem_filterMap.mpr ⟨y, List.mem_cons_of_mem _ hy, hyx⟩

lemma setWire_setWire {p : ℕ} (W W' : Wire) :
    (B.setWire i p W).setWire i p W' = B.setWire i p W' := by
  simp [setWire]

/-- What holds of all wires still does. -/
lemma forall_setWire {p : ℕ} {W : Wire} {P : Wire → Prop} (hW : P W)
    (h : ∀ j q, P (B.wire j q)) (j : ι) (q : ℕ) : P ((B.setWire i p W).wire j q) := by
  rw [wire_setWire]
  split_ifs
  · exact hW
  · exact h j q

end ByteNet

/-- The shares and the proofs of the items are short enough for the lines they are sent on. -/
def GossipNet.SizesFit (G : GossipNet ι) : Prop :=
  ∀ it ∈ G.items, 2 * it.share.wire.length + 24 ≤ P2PNode.readLimit
    ∧ jsonLength it.proof + 96 ≤ P2PNode.readLimit

omit [DecidableEq ι] in
/-- Then the messages about them can be read. -/
lemma GossipNet.SizesFit.fits (h : G.SizesFit) {it : Item ι} (hit : it ∈ G.items) {m : Message}
    (habout : it.Says m) (port : ℕ) (tip : Option Hash32) : (Sent.message port tip m).Fits R := by
  obtain ⟨hshare, hproof⟩ := h it hit
  have hlong : 1000 ≤ P2PNode.readLimit := by decide
  cases habout with
  | share =>
      have htext := Sent.length_text R port tip (m := .share (Bytes.hex it.share.wire)) (by simp)
      rw [length_encode_share, jsonLength_hex] at htext
      refine ⟨.obj _ _ (show ["t".toList, "share".toList].Nodup by decide) fun p hp => ?_, by omega⟩
      rcases List.mem_pair.mp hp with rfl | rfl <;> exact .str _ _
  | getproof =>
      have htext := Sent.length_text R port tip (m := .getproof it.sid.hex) (by simp)
      rw [length_encode_getproof, jsonLength_sid] at htext
      refine ⟨.obj _ _ (show ["t".toList, "id".toList].Nodup by decide) fun p hp => ?_, by omega⟩
      rcases List.mem_pair.mp hp with rfl | rfl <;> exact .str _ _
  | proof =>
      have htext := Sent.length_text R port tip (m := .proof it.sid.hex it.proof) (by simp)
      rw [length_encode_proof, jsonLength_sid] at htext
      refine ⟨.obj _ _ (show ["t".toList, "id".toList, "proof".toList].Nodup by decide)
        fun p hp => ?_, by omega⟩
      rcases List.mem_cons.mp hp with rfl | hp
      · exact .str _ _
      · rcases List.mem_pair.mp hp with rfl | rfl <;> exact .str _ _

variable [Fintype ι]

/-- What holds as long as a network of bytes goes on: it is one of messages, no connection has been
closed, and there is room for as many messages as there will be. -/
structure Going (G : GossipNet ι) (R : Platform) (B : ByteNet ι) (N : Network ι) : Prop where
  matching : B.Matches R N
  carries : Carries G N
  unhindered : B.Unhindered R
  isOpen : ∀ i p, (B.wire i p).conn.closed = none
  told : ∀ i p, (B.wire i p).Told
  room : ∀ i p, (B.wire i p).conn.taken.length + G.rank N ≤ maxMsgsPerConn

/-- A node has reacted. -/
lemma Going.after {i : ι} {r : P2PNode × List (ℕ × Message)}
    (hN : N' = ⟨Function.update B.node i r.1, inFlight ++ G.links.route i r.2⟩)
    (hbears : B.Bears R inFlight) (hun : B.Unhindered R)
    (hopen : ∀ i p, (B.wire i p).conn.closed = none) (htold : ∀ i p, (B.wire i p).Told)
    (hcarries : Carries G N') (hsizes : G.SizesFit)
    (hroom : ∀ i p, (B.wire i p).conn.taken.length + G.rank N' ≤ maxMsgsPerConn) :
    Going G R (B.after R G.links port i r) N' := by
  have hconn : ∀ j q, ((B.after R G.links port i r).wire j q).conn = (B.wire j q).conn :=
    fun j q => ByteNet.conn_writes _ _ _ j q
  have hwritten : ∀ j q, ∀ s ∈ ((B.after R G.links port i r).wire j q).written,
      s ∈ (B.wire j q).written
        ∨ ∃ port tip m, s = .message port tip m ∧ ∃ x ∈ N'.inFlight, x.message = m := by
    intro j q s hs
    refine (ByteNet.mem_written_writes hs).imp id ?_
    rintro ⟨m, rfl, x, hx, rfl⟩
    exact ⟨_, _, _, rfl, x, hN ▸ List.mem_append_right _ hx, rfl⟩
  have hun' : (B.after R G.links port i r).Unhindered R := by
    refine ⟨fun j q s hs => ?_, fun j q x hx => hun.passed j q x (hconn j q ▸ hx)⟩
    rcases hwritten j q s hs with hs | ⟨port, tip, m, rfl, x, hx, rfl⟩
    · exact hun.fits j q s hs
    · obtain ⟨-, it, hit, habout⟩ := hcarries.flight x hx
      exact hsizes.fits hit habout _ _
  refine ⟨hN ▸ hbears.after hun', hcarries, hun', fun j q => ?_, fun j q s hs => ?_, fun j q => ?_⟩
  · rw [hconn]
    exact hopen j q
  · rcases hwritten j q s hs with hs | ⟨port, tip, m, rfl, -⟩
    · exact htold j q s hs
    · exact ⟨_, _, _, rfl⟩
  · rw [hconn]
    exact hroom j q

/-- The readings of the clock of the rate gates. -/
def clockOf (events : List (ByteNet.Event ι)) : List ℚ :=
  events.filterMap fun e => match e with
    | .turn _ _ now _ => some now
    | _ => none

/-- The clock goes on, from one time to another. -/
structure Ticks (t t' : ℚ) (events : List (ByteNet.Event ι)) : Prop where
  le : t ≤ t'
  within : ∀ now ∈ clockOf events, t ≤ now ∧ now ≤ t'
  mono : (clockOf events).Pairwise (· ≤ ·)

omit [DecidableEq ι] [Fintype ι] in
lemma Ticks.append {t t' t'' : ℚ} {past future : List (ByteNet.Event ι)} (h : Ticks t t' past)
    (h' : Ticks t' t'' future) : Ticks t t'' (past ++ future) := by
  have hclock : clockOf (past ++ future) = clockOf past ++ clockOf future :=
    List.filterMap_append
  refine ⟨h.le.trans h'.le, fun now hnow => ?_, ?_⟩
  · rw [hclock] at hnow
    rcases List.mem_append.mp hnow with hnow | hnow
    · exact ⟨(h.within now hnow).1, (h.within now hnow).2.trans h'.le⟩
    · exact ⟨h.le.trans (h'.within now hnow).1, (h'.within now hnow).2⟩
  · rw [hclock, List.pairwise_append]
    exact ⟨h.mono, h'.mono, fun a ha b hb => (h.within a ha).2.trans (h'.within b hb).1⟩

/-- What happens to the bytes from some time on can lead to such a state of the messages. -/
def GossipNet.Leads (G : GossipNet ι) (R : Platform) (port : ι → ℕ) (B : ByteNet ι) (t : ℚ)
    (p : Network ι → Prop) : Prop :=
  ∃ events B' N' t', Ticks t t' events
    ∧ Machine.Along (ByteNet.step R G.links G.cfg port) G.AllowsBytes B events
    ∧ Machine.run (ByteNet.step R G.links G.cfg port) B events = some B' ∧ Going G R B' N' ∧ p N'

/-- A node does something by itself. -/
lemma Going.exists_own (hG : G.Fair) (h : Going G R B N) (hsizes : G.SizesFit) {i : ι}
    {e : P2PNode.Event} (hallows : G.Allows N (.own i e)) (hstep : G.step N (.own i e) = some N')
    (t : ℚ) : G.Leads R port B t fun N' => G.rank N' < G.rank N := by
  obtain ⟨hcarries, it, hmoves⟩ := flood_step hG h.carries hallows hstep
  have hlt : G.rank N' < G.rank N := rank_lt h.carries hmoves
  rw [hallows.step_own, h.matching.node] at hstep
  obtain ⟨r, hr, rfl⟩ := Option.map_eq_some_iff.mp hstep
  have hbytes : G.Allows ⟨B.node, []⟩ (.own i e) := hallows.own_congr h.matching.node.symm
  refine ⟨[.own i e], B.after R G.links port i r, _, t, ⟨le_rfl, nofun, .nil⟩,
    ⟨.own i e hbytes, fun _ _ => trivial⟩,
    Machine.run_cons_eq_some_iff.mpr ⟨_, ?_, rfl⟩,
    Going.after (by rw [Network.after, h.matching.node]) h.matching.bears h.unhindered h.isOpen
      h.told hcarries hsizes fun j q => ?_, hlt⟩
  · rw [hbytes.step_own_bytes, hr]
    rfl
  · exact (Nat.add_le_add_left hlt.le _).trans (h.room j q)

/-- A message that is in flight arrives, and is read. -/
lemma Going.exists_deliver (hG : G.Fair) (h : Going G R B N) (hsizes : G.SizesFit)
    (hdepth : 3 ≤ R.depth) (hne : N.inFlight ≠ []) (t : ℚ) :
    G.Leads R port B t fun N' => G.rank N' < G.rank N := by
  obtain ⟨m, hm⟩ := List.exists_mem_of_ne_nil _ hne
  have hmem : m.message ∈ messagesTo m.dest m.peer N.inFlight :=
    List.mem_map_of_mem (List.mem_filter.mpr ⟨hm, by simp⟩)
  obtain ⟨msg, left, hmsgs⟩ := List.exists_cons_of_ne_nil (List.ne_nil_of_mem hmem)
  generalize m.dest = i at hmsgs
  generalize m.peer = p at hmsgs
  obtain ⟨k, x, hk, rfl, rfl, rfl, hleft, hother⟩ := exists_of_messagesTo hmsgs
  -- what happens to the messages
  obtain ⟨r, hr⟩ : ∃ r, (B.node x.dest).react (G.cfg x.dest)
      (.receive x.peer x.message.incoming fun _ => G.start) = some r := ⟨_, rfl⟩
  have hstep : G.step N (.deliver k fun _ => G.start)
      = some (N.after G.links x.dest (N.inFlight.eraseIdx k) r) := by
    rw [GossipNet.step, Network.step, hk, Option.bind_some, h.matching.node, hr]
    rfl
  obtain ⟨hcarries, it, hmoves⟩ := flood_step hG h.carries (.deliver k _ fun _ => le_rfl) hstep
  have hlt := rank_lt h.carries hmoves
  have hroom := h.room x.dest x.peer
  -- what happens to the bytes
  have hbears := h.matching.bears x.dest x.peer
  rw [hmsgs] at hbears
  obtain ⟨n, W, now, C, hnow, harrive, hturn, hclosed, htaken, hrest, hwritten, hsame⟩ :=
    hbears.exists_read (h.told _ _) hdepth (h.isOpen _ _) (by omega) t
  let B₁ := B.setWire x.dest x.peer W
  let B₂ := B.setWire x.dest x.peer (W.after C)
  have h₁ : B.step R G.links G.cfg port (.arrive x.dest x.peer n) = some B₁ := by
    rw [ByteNet.step, harrive]
    rfl
  have h₂ : B₁.step R G.links G.cfg port (.turn x.dest x.peer now fun _ => G.start)
      = some (B₂.after R G.links port x.dest r) := by
    have hwire : B₁.wire x.dest x.peer = W := by rw [ByteNet.wire_setWire, if_pos ⟨rfl, rfl⟩]
    rw [ByteNet.step, hwire, hturn, Option.bind_some]
    dsimp only
    rw [htaken, hsame, List.getElem?_concat_length, ByteNet.setWire_setWire]
    exact congrArg (Option.map (B₂.after R G.links port x.dest)) hr
  have hticks : Ticks t now
      [.arrive x.dest x.peer n, .turn x.dest x.peer now fun _ => G.start] := by
    refine ⟨hnow, fun a ha => ?_, List.pairwise_singleton _ _⟩
    rw [List.mem_singleton.mp ha]
    exact ⟨hnow, le_rfl⟩
  refine ⟨_, B₂.after R G.links port x.dest r, _, now, hticks,
    ⟨.arrive .., fun _ _ => ⟨.turn _ _ _ _ fun _ => le_rfl, fun _ _ => trivial⟩⟩,
    Machine.run_cons_eq_some_iff.mpr ⟨_, h₁, Machine.run_cons_eq_some_iff.mpr ⟨_, h₂, rfl⟩⟩,
    Going.after (by rw [Network.after, h.matching.node]; rfl)
      (h.matching.bears.setWire (hleft ▸ hrest) hother) ⟨?_, ?_⟩ ?_ ?_ hcarries hsizes ?_, hlt⟩
  · exact ByteNet.forall_setWire (P := fun W => ∀ s ∈ W.written, s.Fits R)
      (fun s hs => h.unhindered.fits _ _ s (hwritten ▸ hs)) h.unhindered.fits
  · refine ByteNet.forall_setWire (P := fun W => ∀ y ∈ W.conn.taken, y.2 = .passed)
      (fun y hy => ?_) h.unhindered.passed
    rw [Wire.after, htaken] at hy
    rcases List.mem_append.mp hy with hy | hy
    · exact h.unhindered.passed _ _ y hy
    · rw [List.mem_singleton.mp hy]
  · exact ByteNet.forall_setWire (P := fun W => W.conn.closed = none) hclosed h.isOpen
  · exact ByteNet.forall_setWire (P := Wire.Told)
      (fun s hs => h.told _ _ s (hwritten ▸ hs)) h.told
  · refine ByteNet.forall_setWire (P := fun W => W.conn.taken.length + G.rank _ ≤ maxMsgsPerConn)
      ?_ fun j q => (Nat.add_le_add_left hlt.le _).trans (h.room j q)
    rw [Wire.after, htaken, List.length_append, List.length_singleton]
    omega

/-- It goes on until nothing more can happen to the messages. -/
lemma Going.exists_quiet (hG : G.Fair) (h : Going G R B N) (hsizes : G.SizesFit)
    (hdepth : 3 ≤ R.depth) (t : ℚ) : G.Leads R port B t G.Quiet := by
  induction hn : G.rank N using Nat.strong_induction_on generalizing B N t with
  | _ n ih =>
      by_cases hquiet : G.Quiet N
      · exact ⟨[], B, N, t, ⟨le_rfl, nofun, .nil⟩, trivial, rfl, h, hquiet⟩
      · have hnext : G.Leads R port B t fun N' => G.rank N' < G.rank N := by
          obtain ⟨e, he⟩ := not_forall.mp hquiet
          obtain ⟨hallows, hne⟩ := Classical.not_imp.mp he
          obtain ⟨N₁, hstep⟩ := Option.ne_none_iff_exists'.mp hne
          cases e with
          | own i e => exact h.exists_own hG hsizes hallows hstep t
          | deliver k clock =>
              refine h.exists_deliver hG hsizes hdepth (fun hnil => hne ?_) t
              rw [GossipNet.step, Network.step, hnil]
              rfl
        obtain ⟨past, B₁, N₁, t₁, hticks, halong, hrun, h₁, hlt⟩ := hnext
        obtain ⟨future, B₂, N₂, t₂, hticks₂, halong₂, hrun₂, h₂, hquiet₂⟩ :=
          ih _ (hn ▸ hlt) h₁ t₁ rfl
        refine ⟨past ++ future, B₂, N₂, t₂, hticks.append hticks₂, halong.append fun m hm => ?_,
          Machine.run_append_eq_some_iff.mpr ⟨B₁, hrun, hrun₂⟩, h₂, hquiet₂⟩
        cases hrun.symm.trans hm
        exact halong₂

/-- Then it has come to rest. -/
lemma Going.atRest (h : Going G R B N) (hquiet : G.Quiet N) : G.AtRest R port B := by
  refine ⟨fun i p => ?_, fun i e hallows => ?_⟩
  · have hbears := h.matching.bears i p
    rw [hquiet.inFlight] at hbears
    exact hbears.idle (h.told i p) (h.isOpen i p)
  · have hown : G.Allows N (.own i e) := hallows.own_congr h.matching.node
    have hnone := hquiet _ hown
    rw [hown.step_own, Option.map_eq_none_iff, h.matching.node] at hnone
    rw [hallows.step_own_bytes, hnone]
    rfl

/-- A network that starts as it does can go on until it has come to rest. -/
lemma exists_going (hG : G.Fair) (hsizes : G.SizesFit) (hdepth : 3 ≤ R.depth)
    (hfew : G.items.length * ∑ i, ((G.near i).card + 3) ≤ maxMsgsPerConn) (port : ι → ℕ)
    (hB : G.Starts ⟨B.node, []⟩) (hwires : ∀ i p, B.wire i p = {}) (t : ℚ) :
    ∃ events t' B' N, Ticks t t' events ∧ G.RunsBytes R port B events B' ∧ Going G R B' N
      ∧ G.Quiet N := by
  have hstart : Going G R B ⟨B.node, []⟩ := by
    refine ⟨⟨rfl, fun i p => hwires i p ▸ Wire.bears_nil R⟩, carries_of_starts hG hB,
      ⟨fun i p => ?_, fun i p => ?_⟩, fun i p => ?_, fun i p => ?_, fun i p => ?_⟩
    · simp [hwires]
    · simp [hwires]
    · simp [hwires]
    · simp [hwires, Wire.Told]
    · rw [hwires, rank_of_starts hG hB]
      simpa using hfew
  obtain ⟨events, B', N, t', hticks, halong, hrun, h, hquiet⟩ :=
    hstart.exists_quiet hG hsizes hdepth t
  exact ⟨events, t', B', N, hticks, ⟨halong, hrun, h.unhindered⟩, h, hquiet⟩

/-! ### What is achieved -/

namespace ByteNet

/-- **Gossip over bytes**: let the nodes of a network start as they do, with nothing on the wires.
Whatever happens to the bytes, in whatever pieces they arrive and whenever the loops of the
connections go round: as long as no line is too long and no message refused, the nodes are in a
state that a run of messages leads to.  Once all is read and no node does anything by itself,
nothing more can happen to the messages either, and every node that can be reached from the origin
of an item has it and serves its proof. -/
theorem bytes_deliver (R : Platform) (hdepth : 3 ≤ R.depth) (G : GossipNet ι)
    (hG : G.Fair) (port : ι → ℕ) (B B' : ByteNet ι) (hB : G.Starts ⟨B.node, []⟩)
    (hwires : ∀ i p, B.wire i p = {}) (events : List (ByteNet.Event ι))
    (hruns : G.RunsBytes R port B events B') :
    (∃ es N, G.Runs ⟨B.node, []⟩ es N ∧ N.node = B'.node
        ∧ (G.AtRest R port B' → G.Quiet N))
      ∧ (G.AtRest R port B' →
        ∀ it ∈ G.items, ∀ i, G.Reaches it.origin i → (B'.node i).Serves it) := by
  have hstart : B.Matches R ⟨B.node, []⟩ := ⟨rfl, fun i p => hwires i p ▸ Wire.bears_nil R⟩
  obtain ⟨es, N, hN, hmatches⟩ := hstart.run hdepth hruns
  refine ⟨⟨es, N, hN, hmatches.node, hmatches.quiet⟩, fun hrest it hit i hpath => ?_⟩
  rw [← hmatches.node]
  exact ((carries_of_starts hG hB).run hG hN).serves_of_quiet (hmatches.quiet hrest) hit hpath

/-- The nodes of `lineNet` with nothing on the wires between them. -/
def lineBytes : ByteNet (Fin 3) := ⟨lineStart.node, fun _ _ => {}⟩

lemma lineNet_sizesFit : lineNet.SizesFit := by
  have hsizes : ∀ it ∈ lineNet.items, 2 * it.share.wire.length + 24 ≤ P2PNode.readLimit
      ∧ jsonLength it.proof + 96 ≤ P2PNode.readLimit := by decide +kernel
  exact hsizes

/-- On a platform that reads ASCII only, the shares that the outer nodes mine come to all three over
the bytes. -/
theorem bytes_deliver_line : ∃ events B',
    lineNet.RunsBytes PeerConn.plainPlatform (fun _ => 37900) lineBytes events B'
      ∧ (∃ es N, lineNet.Runs ⟨lineBytes.node, []⟩ es N ∧ N.node = B'.node ∧ lineNet.Quiet N)
      ∧ ∀ it ∈ lineNet.items, ∀ i, (B'.node i).Serves it := by
  obtain ⟨events, t', B', M, -, hruns, hgoing, hquiet⟩ :=
    exists_going (R := PeerConn.plainPlatform) (B := lineBytes) lineNet_fair lineNet_sizesFit le_rfl
      (by decide) (fun _ => 37900) lineNet_starts (fun _ _ => rfl) 0
  have hrest : lineNet.AtRest PeerConn.plainPlatform (fun _ => 37900) B' := hgoing.atRest hquiet
  obtain ⟨⟨es, N, hN, hnode, hstill⟩, hserves⟩ := bytes_deliver PeerConn.plainPlatform le_rfl
    lineNet lineNet_fair _ lineBytes B' lineNet_starts (fun _ _ => rfl) events hruns
  exact ⟨events, B', hruns, ⟨es, N, hN, hnode, hstill hrest⟩,
    fun it hit i => hserves hrest it hit i (lineNet_reaches _ _)⟩

end ByteNet

end P2Pearl
