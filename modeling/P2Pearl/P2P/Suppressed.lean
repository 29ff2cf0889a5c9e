import P2Pearl.P2P.Gossip

/-!
Whether one peer can suppress the share of another.

* `Offer`: a share with a proof that verifies, as an honest peer has them; `Link`: the node and
  that peer, with the messages on the way between them, while anything else happens to the node.
* `Stays`: the share is stored or a valid successor; `Unimpeded`: no one else's messages get in
  its way.
* `Due`: the share is stored, announced, or pending with its proof on the way; `Sound.step` says
  that unimpeded events keep it so.
* `announced_share_stored`: once everything is delivered, the share is in the sharechain.
* `suppressed_by_silence`: an announcement without a proof keeps it out.
-/

namespace P2Pearl

/-- The message is a proof for the id. -/
def Message.isProofOf (id : PyStr) : Message → Bool
  | .proof i _ => i = id
  | _ => false

namespace P2PNode

/-- The event is a message of the peer, or its disconnection. -/
def Event.isOf (peer : ℕ) : Event → Bool
  | .receive p _ _ => p = peer
  | .disconnect p => p = peer
  | _ => false

/-! ### The node and an honest peer -/

/-- A share with its id and its text, and a proof of it that is accepted. -/
structure Offer (cfg : P2PConfig) where
  share : ShareBlock
  sid : Hash32
  wire : PyStr
  proof : PyStr
  bytes : Bytes
  id : share.shareId = .ok sid
  read : readShare (.str wire) = some share
  encoded : encodeAscii proof = .ok bytes
  verified : cfg.verifyIncoming share (.str proof) = .ok true

/-- The node, with the messages on the way from the honest peer and to it. -/
structure Link where
  node : P2PNode
  toNode : List Message
  toPeer : List Message

namespace Link

/-- What can happen: the honest peer announces the share, sends some other message, or takes the
next message and answers a request for the proof; the node takes its next message; or something
else happens to the node. -/
inductive Event where
  | announce
  | send (msg : Message)
  | answer
  | deliver (clock : ℕ → ℚ)
  | elsewhere (e : P2PNode.Event)

/-- A new node, and no message on the way. -/
def init : Link := ⟨.init, [], []⟩

variable {cfg : P2PConfig} (o : Offer cfg) (peer : ℕ) (L : Link)

/-- One event, where it can happen.  The honest peer, of the given number, gives no other proof of
its share, and stays connected. -/
def step : Event → Option Link
  | .announce => some { L with toNode := L.toNode ++ [.share o.wire] }
  | .send msg =>
      if msg.isProofOf o.sid.hex then none else some { L with toNode := L.toNode ++ [msg] }
  | .answer =>
      match L.toPeer with
      | [] => none
      | msg :: rest =>
          some { L with
            toPeer := rest
            toNode := if msg = .getproof o.sid.hex then
              L.toNode ++ [.proof o.sid.hex o.proof] else L.toNode }
  | .deliver clock =>
      match L.toNode with
      | [] => none
      | msg :: rest =>
          let (node, replies) := L.node.handle cfg peer msg.incoming clock
          some { node, toNode := rest, toPeer := L.toPeer ++ replies }
  | .elsewhere e =>
      if e.isOf peer then none
      else (L.node.react cfg e).map fun r =>
        { L with node := r.1, toPeer := L.toPeer ++ (r.2.filter (·.1 = peer)).map Prod.snd }

/-- The first clock reading of the handler an event runs. -/
def Event.reading : Event → Option ℚ
  | .deliver clock => some (clock 0)
  | .elsewhere (.receive _ _ clock) => some (clock 0)
  | _ => none

/-! ### What keeps the share on its way -/

/-- The request for the proof, or the proof, is on the way. -/
def Asked : Prop :=
  .getproof o.sid.hex ∈ L.toPeer ∨ .proof o.sid.hex o.proof ∈ L.toNode

/-- The share is pending, and its proof is on the way. -/
def Awaits : Prop := L.node.pending.get o.sid.hex = some o.share ∧ L.Asked o

/-- The share is stored, or its announcement is on the way, or its proof is awaited. -/
def Due : Prop := L.node.Has o.sid ∨ .share o.wire ∈ L.toNode ∨ L.Awaits o

/-- The share is stored, or a valid successor of the sharechain. -/
def Stays (e : Event) : Prop :=
  ∀ now, e.reading = some now → L.node.Has o.sid
    ∨ Valid cfg.params L.node.chain.entries.get o.share now o.sid

/-- Nothing gets in the way of the share. -/
structure Unimpeded (e : Event) : Prop where
  /-- It is not pruned. -/
  kept : ∀ L', L.step o peer e = some L' → L.node.Has o.sid → L'.node.Has o.sid
  /-- When its announcement is taken, no other announcement has made it pending. -/
  heard : ∀ clock rest, e = .deliver clock → L.toNode = .share o.wire :: rest →
    L.node.Has o.sid ∨ L.node.pending.get o.sid.hex = none ∨ L.Awaits o
  /-- While its proof is awaited, no other peer sends one that fails. -/
  fair : ∀ p msg clock, e = .elsewhere (.receive p msg clock) → msg.kind = some .proof →
    msg.id.getD (.str []) = .str o.sid.hex → L.Awaits o → .share o.wire ∉ L.toNode →
      ∃ text bytes, msg.proof = some (.str text) ∧ encodeAscii text = .ok bytes
        ∧ cfg.verifyIncoming o.share (.str text) = .ok true

/-- What holds of a link in every state: the node is kept, and the honest peer gives no other proof
of its share. -/
structure Sound : Prop where
  kept : Kept cfg L.node
  honest : ∀ b64, .proof o.sid.hex b64 ∈ L.toNode → b64 = o.proof

variable {o peer} {L L' : Link} {e : Event}

/-! ### One event -/

lemma step_send {msg : Message} (hstep : L.step o peer (.send msg) = some L') :
    ¬msg.isProofOf o.sid.hex ∧ L' = { L with toNode := L.toNode ++ [msg] } := by
  rw [step] at hstep
  split_ifs at hstep with hproof
  exact ⟨hproof, (Option.some.inj hstep).symm⟩

lemma step_answer (hstep : L.step o peer .answer = some L') :
    ∃ msg rest, L.toPeer = msg :: rest ∧ L' = { L with
      toPeer := rest
      toNode := if msg = .getproof o.sid.hex then
        L.toNode ++ [.proof o.sid.hex o.proof] else L.toNode } := by
  rw [step] at hstep
  split at hstep
  · cases hstep
  · rename_i msg rest hto
    exact ⟨msg, rest, hto, (Option.some.inj hstep).symm⟩

lemma step_deliver {clock : ℕ → ℚ} (hstep : L.step o peer (.deliver clock) = some L') :
    ∃ msg rest, L.toNode = msg :: rest ∧ L' = ⟨(L.node.handle cfg peer msg.incoming clock).1, rest,
      L.toPeer ++ (L.node.handle cfg peer msg.incoming clock).2⟩ := by
  rw [step] at hstep
  split at hstep
  · cases hstep
  · rename_i msg rest hto
    exact ⟨msg, rest, hto, (Option.some.inj hstep).symm⟩

lemma step_elsewhere {x : P2PNode.Event} (hstep : L.step o peer (.elsewhere x) = some L') :
    ∃ N out, L.node.react cfg x = some (N, out)
      ∧ L' = { L with
        node := N
        toPeer := L.toPeer ++ (out.filter (·.1 = peer)).map Prod.snd } := by
  rw [step] at hstep
  split_ifs at hstep
  obtain ⟨⟨N, out⟩, hreact, hend⟩ := Option.map_eq_some_iff.mp hstep
  exact ⟨N, out, hreact, hend.symm⟩

lemma Asked.mono (h : L.Asked o) (hpeer : ∀ m ∈ L.toPeer, m ∈ L'.toPeer)
    (hnode : ∀ m ∈ L.toNode, m ∈ L'.toNode) : L'.Asked o :=
  h.imp (hpeer _) (hnode _)

/-- An event of the node leaves the pending share alone, unless it is a proof for its id. -/
lemma get_pending_of_react {N N' : P2PNode} (htip : N.chain.TipStored) {e : P2PNode.Event}
    {out : List (ℕ × Message)} (hreact : N.react cfg e = some (N', out)) {id : PyStr}
    {share : ShareBlock} (hget : N.pending.get id = some share)
    (hno : ∀ p msg clock, e = .receive p msg clock → msg.kind = some .proof →
      msg.id.getD (.str []) ≠ .str id) :
    N'.pending.get id = some share := by
  rcases pending_cases htip hreact with
    hsame | ⟨p, msg, clock, share', sid, -, -, -, hnew, hset⟩
      | ⟨p, msg, clock, id', rfl, hkind, hid, herase⟩
  · rw [hsame]; exact hget
  · have hne : id ≠ sid.hex := by
      rintro rfl
      exact Option.some_ne_none _ (hget.symm.trans hnew.fresh)
    rw [hset, OrderedMap.get_set, if_neg hne]
    exact hget
  · have hne : id ≠ id' := by
      rintro rfl
      exact hno p msg clock rfl hkind hid
    rw [herase, OrderedMap.get_erase, if_neg hne]
    exact hget

namespace Sound

/-- A link is sound after every event. -/
lemma step (h : Sound o L) (hstep : L.step o peer e = some L') : Sound o L' := by
  cases e with
  | announce =>
      cases hstep
      refine ⟨h.kept, fun b64 hb => h.honest b64 ?_⟩
      simpa using hb
  | send msg =>
      obtain ⟨hproof, rfl⟩ := step_send hstep
      refine ⟨h.kept, fun b64 hb => h.honest b64 ?_⟩
      rcases List.mem_append.mp hb with hb | hb
      · exact hb
      · rw [← List.mem_singleton.mp hb] at hproof
        simp [Message.isProofOf] at hproof
  | answer =>
      obtain ⟨msg, rest, -, rfl⟩ := step_answer hstep
      refine ⟨h.kept, fun b64 hb => ?_⟩
      dsimp only at hb
      split_ifs at hb
      · rcases List.mem_append.mp hb with hb | hb
        · exact h.honest b64 hb
        · cases List.mem_singleton.mp hb
          rfl
      · exact h.honest b64 hb
  | deliver clock =>
      obtain ⟨msg, rest, hto, rfl⟩ := step_deliver hstep
      refine ⟨h.kept.step (e := .receive peer msg.incoming clock) rfl, fun b64 hb => ?_⟩
      exact h.honest b64 (hto ▸ List.mem_cons_of_mem _ hb)
  | elsewhere x =>
      obtain ⟨N, out, hreact, rfl⟩ := step_elsewhere hstep
      exact ⟨h.kept.step (Option.map_eq_some_iff.mpr ⟨_, hreact, rfl⟩), h.honest⟩

end Sound

/-- The node takes the announcement of the share: it asks for the proof, unless it has done so. -/
lemma due_of_share {clock : ℕ → ℚ} {rest : List Message}
    (hto : L.toNode = .share o.wire :: rest)
    (hstep : L.step o peer (.deliver clock) = some L') (hstays : L.Stays o (.deliver clock))
    (hclear : L.Unimpeded o peer (.deliver clock)) : L'.Due o := by
  rcases hclear.heard clock rest rfl hto with hhas | hnone | hawaits
  · exact Or.inl (hclear.kept L' hstep hhas)
  · rcases hstays (clock 0) rfl with hhas | hvalid
    · exact Or.inl (hclear.kept L' hstep hhas)
    · have hreply : L.node.hShare cfg (Message.share o.wire).incoming (clock 0) = _ :=
        hShare_of_unheard o.read ⟨o.id, hnone, hvalid⟩
      simp only [Link.step, hto, handle, Message.incoming] at hstep hreply
      rw [hreply] at hstep
      cases hstep
      refine Or.inr (Or.inr ⟨?_, Or.inl (List.mem_append_right _ (List.mem_singleton.mpr rfl))⟩)
      show (L.node.pending.set o.sid.hex o.share).get o.sid.hex = some o.share
      rw [OrderedMap.get_set, if_pos rfl]
  · have hreply : L.node.hShare cfg (Message.share o.wire).incoming (clock 0) = _ :=
      hShare_of_heard o.read o.id (Or.inr (hawaits.1 ▸ Option.some_ne_none o.share))
    simp only [Link.step, hto, handle, Message.incoming] at hstep hreply
    rw [hreply] at hstep
    cases hstep
    refine Or.inr (Or.inr ⟨hawaits.1, hawaits.2.imp (List.mem_append_left _) fun hproof => ?_⟩)
    rw [hto] at hproof
    exact (List.mem_cons.mp hproof).resolve_left (by simp)

/-- The node takes the proof it awaits: it stores the share. -/
lemma has_of_proof (h : Sound o L) {clock : ℕ → ℚ} {rest : List Message}
    (hto : L.toNode = .proof o.sid.hex o.proof :: rest)
    (hpending : L.node.pending.get o.sid.hex = some o.share)
    (hvalid : Valid cfg.params L.node.chain.entries.get o.share (clock 0) o.sid)
    (hstep : L.step o peer (.deliver clock) = some L') : L'.node.Has o.sid := by
  simp only [Link.step, hto, handle, Message.incoming] at hstep
  cases hstep
  exact hProof_of_verified h.kept.tipStored peer rfl rfl hpending o.id o.verified o.encoded hvalid

/-- Nothing but the node takes a message from the honest peer off its way. -/
lemma toNode_mono (hstep : L.step o peer e = some L') (hno : ∀ clock, e ≠ .deliver clock) :
    ∀ m ∈ L.toNode, m ∈ L'.toNode := by
  intro m hm
  cases e with
  | announce => cases hstep; exact List.mem_append_left _ hm
  | send msg =>
      obtain ⟨-, rfl⟩ := step_send hstep
      exact List.mem_append_left _ hm
  | answer =>
      obtain ⟨msg, rest, -, rfl⟩ := step_answer hstep
      dsimp only
      split_ifs
      · exact List.mem_append_left _ hm
      · exact hm
  | deliver clock => exact absurd rfl (hno clock)
  | elsewhere x =>
      obtain ⟨N, out, -, rfl⟩ := step_elsewhere hstep
      exact hm

/-- The node takes a message from the honest peer while it awaits the proof. -/
lemma due_of_deliver (h : Sound o L) (hawaits : L.Awaits o) {clock : ℕ → ℚ}
    (hstep : L.step o peer (.deliver clock) = some L') (hstays : L.Stays o (.deliver clock))
    (hclear : L.Unimpeded o peer (.deliver clock)) : L'.Due o := by
  obtain ⟨msg, rest, hto, heq⟩ := step_deliver hstep
  by_cases hmsg : msg.isProofOf o.sid.hex
  · obtain rfl : msg = .proof o.sid.hex o.proof := by
      cases msg with
      | proof id b64 =>
          obtain rfl : id = o.sid.hex := by simpa [Message.isProofOf] using hmsg
          rw [h.honest b64 (hto ▸ List.mem_cons_self)]
      | _ => cases hmsg
    rcases hstays (clock 0) rfl with hhas | hvalid
    · exact Or.inl (hclear.kept L' hstep hhas)
    · exact Or.inl (has_of_proof h hto hawaits.1 hvalid hstep)
  · have hget : (L.node.handle cfg peer msg.incoming clock).1.pending.get o.sid.hex
        = some o.share := by
      refine get_pending_of_react (e := .receive peer msg.incoming clock) h.kept.tipStored
        rfl hawaits.1 ?_
      rintro p msg' clock' he hkind hid
      cases he
      cases msg with
      | proof id b64 => exact hmsg (by simpa [Message.isProofOf, Message.incoming] using hid)
      | _ => cases hkind
    rw [heq]
    refine Or.inr (Or.inr ⟨hget, hawaits.2.imp (List.mem_append_left _) fun hproof => ?_⟩)
    refine (List.mem_cons.mp (hto ▸ hproof)).resolve_left ?_
    rintro rfl
    exact hmsg (by simp [Message.isProofOf])

/-- Something else happens to the node while it awaits the proof. -/
lemma due_of_elsewhere (h : Sound o L) (hawaits : L.Awaits o) (hshare : .share o.wire ∉ L.toNode)
    {x : P2PNode.Event} (hstep : L.step o peer (.elsewhere x) = some L')
    (hstays : L.Stays o (.elsewhere x)) (hclear : L.Unimpeded o peer (.elsewhere x)) :
    L'.Due o := by
  obtain ⟨N, out, hreact, heq⟩ := step_elsewhere hstep
  by_cases hproof : ∃ p msg clock, x = .receive p msg clock ∧ msg.kind = some .proof
      ∧ msg.id.getD (.str []) = .str o.sid.hex
  · obtain ⟨p, msg, clock, rfl, hkind, hid⟩ := hproof
    obtain ⟨text, bytes, htext, henc, hverify⟩ :=
      hclear.fair p msg clock rfl hkind hid hawaits hshare
    rcases hstays (clock 0) rfl with hhas | hvalid
    · exact Or.inl (hclear.kept L' hstep hhas)
    · have hstored := hProof_of_verified h.kept.tipStored p hid htext hawaits.1 o.id hverify
        henc hvalid
      simp only [react, handle, hkind] at hreact
      cases hreact
      rw [heq]
      exact Or.inl hstored
  · have hget := get_pending_of_react h.kept.tipStored hreact hawaits.1
      fun p msg clock he hkind hid => hproof ⟨p, msg, clock, he, hkind, hid⟩
    rw [heq]
    exact Or.inr (Or.inr ⟨hget, hawaits.2.imp (List.mem_append_left _) id⟩)

/-- An awaited proof is still awaited after an event, or the share is stored. -/
lemma due_of_awaits (h : Sound o L) (hawaits : L.Awaits o) (hshare : .share o.wire ∉ L.toNode)
    (hstep : L.step o peer e = some L') (hstays : L.Stays o e) (hclear : L.Unimpeded o peer e) :
    L'.Due o := by
  cases e with
  | announce =>
      cases hstep
      exact Or.inr (Or.inl (List.mem_append_right _ (List.mem_singleton.mpr rfl)))
  | send msg =>
      obtain ⟨-, rfl⟩ := step_send hstep
      exact Or.inr (Or.inr ⟨hawaits.1, hawaits.2.imp id (List.mem_append_left _)⟩)
  | answer =>
      obtain ⟨msg, rest, hto, rfl⟩ := step_answer hstep
      refine Or.inr (Or.inr ⟨hawaits.1, ?_⟩)
      dsimp only [Asked]
      rcases hawaits.2 with hask | hproof
      · rcases List.mem_cons.mp (hto ▸ hask) with rfl | hask
        · rw [if_pos rfl]
          exact Or.inr (List.mem_append_right _ (List.mem_singleton.mpr rfl))
        · exact Or.inl hask
      · refine Or.inr ?_
        split_ifs
        · exact List.mem_append_left _ hproof
        · exact hproof
  | deliver clock => exact due_of_deliver h hawaits hstep hstays hclear
  | elsewhere x => exact due_of_elsewhere h hawaits hshare hstep hstays hclear

/-- **Every unimpeded event** keeps the share due. -/
lemma Due.step (hdue : L.Due o) (h : Sound o L) (hstep : L.step o peer e = some L')
    (hstays : L.Stays o e) (hclear : L.Unimpeded o peer e) : L'.Due o := by
  by_cases hshare : .share o.wire ∈ L.toNode
  · by_cases hdeliver : ∃ clock, e = .deliver clock
    · obtain ⟨clock, rfl⟩ := hdeliver
      obtain ⟨msg, rest, hto, heq⟩ := step_deliver hstep
      rcases List.mem_cons.mp (hto ▸ hshare) with rfl | hrest
      · exact due_of_share hto hstep hstays hclear
      · rw [heq]
        exact Or.inr (Or.inl hrest)
    · exact Or.inr (Or.inl (toNode_mono hstep (fun clock he => hdeliver ⟨clock, he⟩) _ hshare))
  · rcases hdue with hhas | hshare' | hawaits
    · exact Or.inl (hclear.kept L' hstep hhas)
    · exact absurd hshare' hshare
    · exact due_of_awaits h hawaits hshare hstep hstays hclear

/-! ### Runs -/

/-- **An announced share arrives.**  In every run in which an honest peer announces a share that
stays a valid successor until it is stored, and in which nothing gets in its way, the share is in
the sharechain once every message between the node and that peer is delivered. -/
theorem announced_share_stored (cfg : P2PConfig) (o : Offer cfg) (peer : ℕ) (events : List Event)
    (L : Link) (hrun : Machine.run (step o peer) .init events = some L)
    (halong : Machine.Along (step o peer) (fun L e => L.Stays o e ∧ L.Unimpeded o peer e) .init
      events)
    (hannounced : .announce ∈ events) (hnode : L.toNode = []) (hpeer : L.toPeer = []) :
    L.node.Has o.sid := by
  obtain ⟨past, future, rfl⟩ := List.append_of_mem hannounced
  obtain ⟨L₁, hpast, hrest⟩ := Machine.run_append_eq_some_iff.mp hrun
  obtain ⟨L₂, hstep, hfuture⟩ := Machine.run_cons_eq_some_iff.mp hrest
  have hsound : Sound o L₁ := by
    refine Machine.run_preserves (fun _ _ _ hstep h => h.step hstep) ?_ hpast
    exact ⟨Kept.init, fun _ h => by cases h⟩
  have hdue : L₂.Due o := by
    cases hstep
    exact Or.inr (Or.inl (List.mem_append_right _ (List.mem_singleton.mpr rfl)))
  have hend : Sound o L ∧ L.Due o := by
    refine Machine.run_invariant (I := fun L => Sound o L ∧ L.Due o) ?_
      ((halong.of_append hpast).2 L₂ hstep) ⟨hsound.step hstep, hdue⟩ hfuture
    exact fun _ _ _ hG hstep h => ⟨h.1.step hstep, h.2.step h.1 hstep hG.1 hG.2⟩
  rcases hend.2 with hhas | hshare | ⟨-, hask | hproof⟩
  · exact hhas
  · rw [hnode] at hshare; cases hshare
  · rw [hpeer] at hask; cases hask
  · rw [hnode] at hproof; cases hproof

/-! ### An announcement among others -/

/-- Another peer sends no proof under the id of the share. -/
def Event.spares (o : Offer cfg) : Event → Bool
  | .elsewhere (.receive _ msg _) =>
      match msg.kind, msg.id with
      | some .proof, some (.str id) => id ≠ o.sid.hex
      | some .proof, _ => false
      | _, _ => true
  | _ => true

/-- As long as the share is not stored: it is a valid successor, it is not pending when its
announcement is taken, and no other peer proves it. -/
def Clear (o : Offer cfg) (L : Link) (e : Event) : Prop :=
  ¬L.node.Has o.sid
    ∧ (∀ now ∈ e.reading, verdict cfg.params L.node.chain.entries.get o.share now o.sid = none)
    ∧ (L.toNode.head? = some (.share o.wire) → L.node.pending.get o.sid.hex = none)
    ∧ e.spares o = true

instance (o : Offer cfg) (L : Link) (e : Event) : Decidable (L.Clear o e) :=
  inferInstanceAs (Decidable (_ ∧ _))

lemma Clear.unimpeded {o : Offer cfg} (h : L.Clear o e) :
    L.Stays o e ∧ L.Unimpeded o peer e := by
  obtain ⟨hnew, hvalid, hunheard, hspares⟩ := h
  refine ⟨fun now hnow => Or.inr (verdict_eq_none_iff.mp (hvalid now hnow)),
    fun _ _ hhas => absurd hhas hnew, fun clock rest _ hto => Or.inr (Or.inl (hunheard ?_)), ?_⟩
  · rw [hto]
    rfl
  · rintro p msg clock rfl hkind hid - -
    simp only [Event.spares, hkind] at hspares
    cases hmsg : msg.id with
    | none => simp [hmsg] at hspares
    | some id =>
        rw [hmsg, Option.getD_some] at hid
        simp [hmsg, hid] at hspares

/-- The second share of a chain, with a proof of it. -/
def pacedOffer : Offer (easygoing shortParams) where
  share := pacedChain 1
  sid := doubleSha256 (pacedChain 1).wire
  wire := Bytes.hex (pacedChain 1).wire
  proof := zeroProof
  bytes := [65, 65, 65, 65]
  id := pacedChain_one_id
  read := by decide +kernel
  encoded := encodeAscii_zeroProof
  verified := rfl

/-- The node has the first share.  While peer 1 announces the second one and proves it, peer 2
announces and proves another one of that height. -/
def amongOthers : List Event :=
  [.elsewhere (.submit (verifiedCall (pacedChain 0))), .announce,
    .elsewhere (.receive 2 (Message.share (Bytes.hex (rivalChain 1).wire)).incoming fun _ => 0),
    .deliver fun _ => 0,
    .elsewhere (.receive 2
      (Message.proof (doubleSha256 (rivalChain 1).wire).hex zeroProof).incoming fun _ => 0),
    .answer, .deliver fun _ => 0]

/-- Both shares of that height are stored. -/
theorem announced_share_stored_second : ∃ L : Link,
    Machine.run (step pacedOffer 1) .init amongOthers = some L
      ∧ L.node.Has (doubleSha256 (rivalChain 1).wire) ∧ L.node.Has pacedOffer.sid := by
  have hcomputed : ∃ L ∈ Machine.run (step pacedOffer 1) .init amongOthers,
      L.toNode = [] ∧ L.toPeer = [] ∧ L.node.Has (doubleSha256 (rivalChain 1).wire) := by
    decide +kernel
  have hclear : Machine.Along (step pacedOffer 1) (fun L e => L.Clear pacedOffer e) .init
      amongOthers := by
    decide +kernel
  obtain ⟨L, hrun, hnode, hpeer, hother⟩ := hcomputed
  exact ⟨L, hrun, hother, announced_share_stored _ pacedOffer 1 amongOthers L hrun
    (hclear.mono fun _ _ h => h.unimpeded) (by simp [amongOthers]) hnode hpeer⟩

/-! ### A first share, announced -/

section First

variable {cfg : P2PConfig} (o : Offer cfg)

/-- A new node that has been told of the share. -/
def told : P2PNode :=
  { P2PNode.init with pending := OrderedMap.empty.set o.sid.hex o.share }

lemma get_told : (told o).pending.get o.sid.hex = some o.share := by
  show (OrderedMap.empty.set o.sid.hex o.share).get _ = _
  rw [OrderedMap.get_set, if_pos rfl]

lemma hShare_told : (told o).hShare cfg (Message.share o.wire).incoming 0 = (told o, []) :=
  hShare_of_heard o.read o.id (Or.inr (get_told o ▸ Option.some_ne_none o.share))

/-- Peer 2 announces the share and stays silent, and peer 1 announces it too. -/
def silence : List Event :=
  [.elsewhere (.receive 2 (Message.share o.wire).incoming fun _ => 0), .announce,
    .deliver fun _ => 0]

variable (hvalid : Valid cfg.params (fun _ => none) o.share 0 o.sid)

include hvalid

lemma hShare_init : P2PNode.init.hShare cfg (Message.share o.wire).incoming 0
    = (told o, [.getproof o.sid.hex]) :=
  hShare_of_unheard o.read ⟨o.id, rfl, hvalid⟩

lemma stays_of_empty {L : Link} {e : Event} (hempty : L.node.chain = .empty)
    (hzero : ∀ now, e.reading = some now → now = 0) : L.Stays o e := by
  intro now hnow
  rw [hzero now hnow, hempty]
  exact Or.inr hvalid

lemma run_silence : Machine.run (step o 1) .init (silence o) = some ⟨told o, [], []⟩
    ∧ Machine.Along (step o 1) (fun L e => L.Stays o e) .init (silence o) := by
  have hfirst : Link.init.step o 1 (.elsewhere (.receive 2 (Message.share o.wire).incoming
      fun _ => 0)) = some ⟨told o, [], []⟩ := by
    have hreply := hShare_init o hvalid
    simp only [Message.incoming] at hreply
    simp [step, init, P2PNode.Event.isOf, react, handle, Message.incoming, hreply]
  have hlast : step o 1 ⟨told o, [.share o.wire], []⟩ (.deliver fun _ => 0)
      = some ⟨told o, [], []⟩ := by
    have hreply := hShare_told o
    simp only [Message.incoming] at hreply
    simp [step, handle, Message.incoming, hreply]
  constructor
  · refine Machine.run_cons_eq_some_iff.mpr ⟨_, hfirst, ?_⟩
    refine Machine.run_cons_eq_some_iff.mpr ⟨⟨told o, [.share o.wire], []⟩, rfl, ?_⟩
    exact Machine.run_cons_eq_some_iff.mpr ⟨_, hlast, rfl⟩
  · refine ⟨stays_of_empty o hvalid rfl fun now h => (Option.some.inj h).symm, fun L₁ h₁ => ?_⟩
    cases hfirst.symm.trans h₁
    refine ⟨stays_of_empty o hvalid rfl (fun now h => by cases h), fun L₂ h₂ => ?_⟩
    cases h₂
    exact ⟨stays_of_empty o hvalid rfl fun now h => (Option.some.inj h).symm, fun _ _ => trivial⟩

end First

/-- A first share, with an empty proof for a node that accepts every proof. -/
def firstOffer : Offer credulous where
  share := genesisShare 0 0 [] genesisPrev
  sid := doubleSha256 (genesisShare 0 0 [] genesisPrev).wire
  wire := Bytes.hex (genesisShare 0 0 [] genesisPrev).wire
  proof := []
  bytes := []
  id := (genesisShare_encodable 0 0 [] genesisPrev (by norm_num) (by norm_num) (by decide)
    (by norm_num)).shareId
  read := readShare_hex (genesisShare_encodable 0 0 [] genesisPrev (by norm_num) (by norm_num)
    (by decide) (by norm_num)) le_rfl
  encoded := rfl
  verified := rfl

lemma firstOffer_valid : Valid credulous.params (fun _ => none) firstOffer.share 0 firstOffer.sid :=
  genesisShare_valid 0 0 [] genesisPrev le_rfl _

/-- A peer that announces the share first and stays silent keeps it out of the sharechain. -/
theorem suppressed_by_silence : ¬∀ (cfg : P2PConfig) (o : Offer cfg) (peer : ℕ)
    (events : List Event) (L : Link), Machine.run (step o peer) .init events = some L →
      Machine.Along (step o peer) (fun L e => L.Stays o e) .init events → .announce ∈ events →
        L.toNode = [] → L.toPeer = [] → L.node.Has o.sid := by
  intro h
  obtain ⟨hrun, hstays⟩ := run_silence firstOffer firstOffer_valid
  exact h credulous firstOffer 1 (silence firstOffer) _ hrun hstays
    (List.mem_cons_of_mem _ List.mem_cons_self) rfl rfl rfl

end Link

end P2PNode

end P2Pearl
