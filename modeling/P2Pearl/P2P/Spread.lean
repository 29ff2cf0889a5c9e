import P2Pearl.P2P.Broadcast

/-!
Shares that are broadcast reach every node.

* `GossipNet.Allows`: what happens in the network: messages arrive in any order, handlers go on
  after their callbacks, and nodes mine items, add them and broadcast them.
* `Network.flood`: the network as a flood of an item; `Carries`: what holds in every state.
* `flood_step`: each event is one step of the flood of one item, and none of the others.
-/

namespace P2Pearl

variable {ι : Type}

/-! ### Messages about an item -/

namespace Item

/-- The message is about the item. -/
inductive Says (it : Item ι) : Message → Prop
  | share : Says it (.share (Bytes.hex it.share.wire))
  | getproof : Says it (.getproof it.sid.hex)
  | proof : Says it (.proof it.sid.hex it.proof)

/-- What a message in flight is for the item, if it is about it. -/
def packet (it : Item ι) (m : InFlight ι) : Option (FloodPacket ι) :=
  match m.message with
  | .share wire =>
      if wire = Bytes.hex it.share.wire then some (.announce m.source m.dest) else none
  | .getproof id => if id = it.sid.hex then some (.ask m.source m.dest) else none
  | .proof id _ => if id = it.sid.hex then some (.answer m.source m.dest) else none
  | _ => none

variable {it jt : Item ι}

lemma hex_eq (it : Item ι) : it.share.hex = .ok (Bytes.hex it.share.wire) := by
  rw [ShareBlock.hex, (ShareBlock.shareId_eq_ok_iff.mp it.id).1.serialize]
  rfl

@[simp] lemma packet_share (i j : ι) (q : ℕ) :
    it.packet ⟨i, j, q, .share (Bytes.hex it.share.wire)⟩ = some (.announce i j) := if_pos rfl

@[simp] lemma packet_getproof (i j : ι) (q : ℕ) :
    it.packet ⟨i, j, q, .getproof it.sid.hex⟩ = some (.ask i j) := if_pos rfl

@[simp] lemma packet_proof (i j : ι) (q : ℕ) (text : PyStr) :
    it.packet ⟨i, j, q, .proof it.sid.hex text⟩ = some (.answer i j) := if_pos rfl

end Item

namespace GossipNet.Fair

variable {G : GossipNet ι} (h : G.Fair) {it jt : Item ι}

include h

/-- An item is read back from its wire format. -/
lemma read (hit : it ∈ G.items) :
    readShare (.str (Bytes.hex it.share.wire)) = some it.share := by
  obtain ⟨sid, e, hadm⟩ := ((h.ready it.origin).accepts it hit).admits
  have hversion : it.share.version = sidechainVersion := hadm.valid.version
  exact readShare_hex (ShareBlock.shareId_eq_ok_iff.mp it.id).1 hversion.ge

/-- A message is about one item only. -/
lemma packet_of_ne (hit : it ∈ G.items) (hjt : jt ∈ G.items) (hne : jt ≠ it) {m : InFlight ι}
    (hm : it.Says m.message) : jt.packet m = none := by
  rw [Item.packet]
  generalize m.message = message at hm
  cases hm with
  | share =>
      refine if_neg fun he => hne ?_
      have hread := h.read hit
      rw [he, h.read hjt] at hread
      exact h.eq_of_share hjt hit (Option.some.inj hread)
  | getproof => exact if_neg fun he => hne (h.eq_of_hex hjt hit he.symm)
  | proof => exact if_neg fun he => hne (h.eq_of_hex hjt hit he.symm)

end GossipNet.Fair

/-! ### What happens -/

variable [DecidableEq ι]

/-- The nodes a node is connected to. -/
def GossipNet.near (G : GossipNet ι) : ι → Multiset ι := G.links.near G.peers

/-- The step function of the network. -/
def GossipNet.step (G : GossipNet ι) (W : Network ι) (e : Network.Event ι) : Option (Network ι) :=
  W.step G.links G.cfg e

/-- What may happen: a message arrives, a handler goes on, a node adds an item it has mined, or
broadcasts it. -/
inductive GossipNet.Allows (G : GossipNet ι) (W : Network ι) : Network.Event ι → Prop
  | deliver (k : ℕ) (clock : ℕ → ℚ) (later : ∀ n, G.start ≤ clock n) : Allows G W (.deliver k clock)
  | relay (i : ι) (k : ℕ) : Allows G W (.own i (.relay k))
  | submit (it : Item ι) (now : ℚ) (mem : it ∈ G.items) (later : G.start ≤ now)
      (new : ¬(W.node it.origin).Has it.sid) :
      Allows G W (.own it.origin (.submit (it.call now)))
  | broadcast (it : Item ι) (mem : it ∈ G.items) (has : (W.node it.origin).Has it.sid)
      (due : ¬(W.node it.origin).Announced it.share) :
      Allows G W (.own it.origin (.broadcastShare it.share it.proof))

/-- The state the network starts in: the nodes have their past, and nothing is under way. -/
structure GossipNet.Starts (G : GossipNet ι) (W : Network ι) : Prop where
  quiet : W.inFlight = []
  chain : ∀ i, (W.node i).chain = (run (G.cfg i).params (G.base i)).chain
  peers : ∀ i, (W.node i).peers = G.peers i
  pending : ∀ i id, (W.node i).pending.get id = none
  relaying : ∀ i, (W.node i).relaying = []
  cached : ∀ i id, (W.node i).proofs.get id ≠ none → id ∈ G.cached i
  announced : ∀ i, ∀ it ∈ G.items, ¬(W.node i).Announced it.share

/-! ### The network as a flood -/

section Flood

variable [Fintype ι] (T : Topology ι) (W : Network ι)

open Classical in
/-- The nodes of which something holds. -/
noncomputable def Network.nodesWith (p : P2PNode → Prop) : Finset ι :=
  Finset.univ.filter fun i => p (W.node i)

/-- The flood of an item. -/
noncomputable def Network.flood (it : Item ι) : Flood ι where
  has := W.nodesWith fun N => N.Has it.sid
  due := W.nodesWith fun N => N.Has it.sid ∧ ¬N.Announced it.share
  asking := W.nodesWith fun N => N.pending.get it.sid.hex ≠ none
  packets := (W.inFlight.filterMap it.packet : List (FloodPacket ι))

variable {T W} {i j : ι} {p : P2PNode → Prop} {N : P2PNode} {rest : List (InFlight ι)}
  {out : List (ℕ × Message)}

omit [DecidableEq ι] in
@[simp] lemma Network.mem_nodesWith : i ∈ W.nodesWith p ↔ p (W.node i) := by
  simp [Network.nodesWith]

omit [Fintype ι] in
lemma Network.node_after : (W.after T i rest (N, out)).node j
    = if j = i then N else W.node j := Function.update_apply ..

lemma Network.nodesWith_of_iff (h : p N ↔ p (W.node i)) :
    (W.after T i rest (N, out)).nodesWith p = W.nodesWith p := by
  ext j
  rw [mem_nodesWith, mem_nodesWith, node_after]
  split_ifs with he
  · rw [he, h]
  · rfl

lemma Network.nodesWith_of_pos (h : p N) :
    (W.after T i rest (N, out)).nodesWith p = insert i (W.nodesWith p) := by
  ext j
  rw [Finset.mem_insert, mem_nodesWith, mem_nodesWith, node_after]
  split_ifs with he <;> simp [he, h]

lemma Network.nodesWith_of_neg (h : ¬p N) :
    (W.after T i rest (N, out)).nodesWith p = (W.nodesWith p).erase i := by
  ext j
  rw [Finset.mem_erase, mem_nodesWith, mem_nodesWith, node_after]
  split_ifs with he <;> simp [he, h]

/-- The flood of an item once a node has reacted to something. -/
lemma Network.flood_after (it : Item ι) {F : Flood ι}
    (has : (W.after T i rest (N, out)).nodesWith (fun N => N.Has it.sid) = F.has)
    (due : (W.after T i rest (N, out)).nodesWith
      (fun N => N.Has it.sid ∧ ¬N.Announced it.share) = F.due)
    (asking : (W.after T i rest (N, out)).nodesWith
      (fun N => N.pending.get it.sid.hex ≠ none) = F.asking)
    (packets : (rest.filterMap it.packet : Multiset (FloodPacket ι))
      + ((T.route i out).filterMap it.packet : List _) = F.packets) :
    (W.after T i rest (N, out)).flood it = F := by
  refine Flood.ext has due asking ?_
  rw [← packets, Multiset.coe_add, ← List.filterMap_append]
  rfl

end Flood

/-! ### What a node sends -/

section Route

variable {T : Topology ι} {i j : ι} {p q : ℕ}

omit [DecidableEq ι]

/-- The nodes at the other end of some connections. -/
def Topology.ends (T : Topology ι) (i : ι) (ps : List ℕ) : List ι :=
  ps.filterMap fun p => (T.link i p).map Prod.fst

lemma Topology.mem_route {out : List (ℕ × Message)} {m : InFlight ι} (hm : m ∈ T.route i out) :
    ∃ p, (p, m.message) ∈ out ∧ m.source = i ∧ T.link m.dest m.peer = some (i, p) := by
  obtain ⟨⟨p, message⟩, hin, he⟩ := List.mem_filterMap.mp hm
  obtain ⟨⟨j, q⟩, hlink, rfl⟩ := Option.map_eq_some_iff.mp he
  exact ⟨p, hin, rfl, T.symm i p j q hlink⟩

lemma Topology.route_singleton (h : T.link i p = some (j, q)) (m : Message) :
    T.route i [(p, m)] = [⟨i, j, q, m⟩] := by
  simp [route, h]

/-- An announcement to some peers, for the item it is about. -/
lemma Item.packets_announce (it : Item ι) (ps : List ℕ) :
    (T.route i (ps.map fun p => (p, .share (Bytes.hex it.share.wire)))).filterMap it.packet
      = (T.ends i ps).map (.announce i) := by
  induction ps with
  | nil => rfl
  | cons p ps ih =>
      rw [Topology.route, Topology.ends] at ih ⊢
      cases h : T.link i p with
      | none => simpa [h] using ih
      | some q => simpa [h] using ih

/-- All the nodes around but one hear of an announcement. -/
lemma Topology.mem_ends_of_near {peers : ι → List ℕ} {exclude : Option ℕ}
    (h : j ∈ T.near peers i) :
    j ∈ T.ends i ((peers i).filter fun p => some p ≠ exclude)
      ∨ ∃ p q, exclude = some p ∧ T.link i p = some (j, q) := by
  obtain ⟨p, hp, he⟩ := List.mem_filterMap.mp (Multiset.mem_coe.mp h)
  obtain ⟨⟨k, q⟩, hlink, rfl⟩ := Option.map_eq_some_iff.mp he
  by_cases hx : some p = exclude
  · exact Or.inr ⟨p, q, hx.symm, hlink⟩
  · exact Or.inl (List.mem_filterMap.mpr
      ⟨p, List.mem_filter.mpr ⟨hp, by simpa using hx⟩, by rw [hlink]; rfl⟩)

lemma Topology.ends_le_near (T : Topology ι) (i : ι) (peers : ι → List ℕ) (f : ℕ → Bool) :
    (T.ends i ((peers i).filter f) : Multiset ι) ≤ T.near peers i :=
  Multiset.coe_le.mpr (List.filter_sublist.filterMap _).subperm

end Route

/-! ### What holds in every state -/

variable [Fintype ι] {G : GossipNet ι} {W W' : Network ι}

/-- What holds in every state of the network. -/
structure Carries (G : GossipNet ι) (W : Network ι) : Prop where
  node : ∀ i, P2PNode.Spreads G i (W.node i)
  flight : ∀ m ∈ W.inFlight, (∃ p, G.links.link m.dest m.peer = some (m.source, p))
    ∧ ∃ it ∈ G.items, it.Says m.message
  /-- Who a proof came from has the item. -/
  senders : ∀ i, ∀ r ∈ (W.node i).relaying, ∀ it ∈ G.items, r.1 = it.share →
    ∀ j q, G.links.link i r.2 = some (j, q) → (W.node j).Has it.sid
  flood : ∀ it ∈ G.items, Flood.Sound G.near it.origin (W.flood it)

/-- An event is a step of the flood of one item, and changes nothing for the others. -/
structure FloodMoves (G : GossipNet ι) (it : Item ι) (W W' : Network ι) : Prop where
  mem : it ∈ G.items
  step : Flood.Step G.near it.origin (W.flood it) (W'.flood it)
  others : ∀ jt ∈ G.items, jt ≠ it → W'.flood jt = W.flood jt

lemma carries_of_starts (hG : G.Fair) (h : G.Starts W) : Carries G W := by
  have hnot : ∀ i, ∀ it ∈ G.items, ¬(W.node i).Has it.sid := fun i it hit => by
    obtain ⟨sid, e, hadm⟩ := ((hG.ready i).accepts it hit).admits
    cases Except.ok.inj (hadm.id.symm.trans it.id)
    rw [P2PNode.Has, h.chain, not_not]
    exact Store.get_eq_none_iff.mp hadm.valid.fresh
  refine ⟨fun i => ⟨⟨[], by simp [AddItems], by rw [List.append_nil, h.chain]⟩, h.peers i,
    fun id share hp => ?_, fun id hid => List.mem_append_left _ (h.cached i id hid),
    fun it hit ha => absurd ha (h.announced i it hit), fun r hr => ?_, ?_,
    fun it hit hhas => absurd hhas (hnot i it hit)⟩, fun m hm => ?_, fun i r hr => ?_,
    fun it hit => ?_⟩
  · rw [h.pending] at hp; cases hp
  · rw [h.relaying] at hr; cases hr
  · rw [h.relaying]; exact List.nodup_nil
  · rw [h.quiet] at hm; cases hm
  · rw [h.relaying] at hr; cases hr
  · have he : W.flood it = Flood.empty := by
      refine Flood.ext ?_ ?_ ?_ ?_
      · exact Finset.eq_empty_of_forall_notMem fun i => by simp [Network.flood, hnot i it hit]
      · exact Finset.eq_empty_of_forall_notMem fun i => by simp [Network.flood, hnot i it hit]
      · exact Finset.eq_empty_of_forall_notMem fun i => by simp [Network.flood, h.pending]
      · simp [Network.flood, h.quiet, Flood.empty]
    rw [he]
    exact Flood.sound_empty

/-- A node has reacted to something about an item. -/
lemma Carries.after (h : Carries G W) {it : Item ι} {i : ι} {N : P2PNode}
    {rest : List (InFlight ι)} {out : List (ℕ × Message)} (hrest : rest ⊆ W.inFlight)
    (hN : P2PNode.Spreads G i N) (hout : ∀ m ∈ out, it.Says m.2)
    (hhas : ∀ jt ∈ G.items, (W.node i).Has jt.sid → N.Has jt.sid)
    (hsenders : ∀ r ∈ N.relaying, r ∈ (W.node i).relaying ∨ r.1 = it.share
      ∧ ∀ j q, G.links.link i r.2 = some (j, q) → (W.node j).Has it.sid)
    (hG : G.Fair) (hmoves : FloodMoves G it W (W.after G.links i rest (N, out))) :
    Carries G (W.after G.links i rest (N, out)) := by
  have hkeeps : ∀ j, ∀ jt ∈ G.items, (W.node j).Has jt.sid →
      ((W.after G.links i rest (N, out)).node j).Has jt.sid := fun j jt hjt hj => by
    rw [Network.node_after]
    split_ifs with he
    · exact hhas jt hjt (he ▸ hj)
    · exact hj
  refine ⟨fun j => ?_, fun m hm => ?_, fun k r hr jt hjt hr1 j q hlink => ?_, fun jt hjt => ?_⟩
  · rw [Network.node_after]
    split_ifs with he
    · exact he ▸ hN
    · exact h.node j
  · rcases List.mem_append.mp hm with hm | hm
    · exact h.flight m (hrest hm)
    · obtain ⟨p, hin, rfl, hlink⟩ := Topology.mem_route hm
      exact ⟨⟨p, hlink⟩, it, hmoves.mem, hout _ hin⟩
  · refine hkeeps j jt hjt ?_
    rw [Network.node_after] at hr
    split_ifs at hr with he
    · subst he
      rcases hsenders r hr with hr | ⟨hit, hj⟩
      · exact h.senders k r hr jt hjt hr1 j q hlink
      · rw [hG.eq_of_share hjt hmoves.mem (hr1.symm.trans hit)]
        exact hj j q hlink
    · exact h.senders k r hr jt hjt hr1 j q hlink
  · by_cases he : jt = it
    · rw [he]
      exact (h.flood it hmoves.mem).step hmoves.step
    · rw [hmoves.others jt hjt he]
      exact h.flood jt hjt

/-! ### Events as steps of a flood -/

/-- A node is what it was, for an item. -/
structure P2PNode.Alike (jt : Item ι) (N N' : P2PNode) : Prop where
  has : N'.Has jt.sid ↔ N.Has jt.sid
  announced : N'.Announced jt.share ↔ N.Announced jt.share
  pending : N'.pending.get jt.sid.hex ≠ none ↔ N.pending.get jt.sid.hex ≠ none

omit [DecidableEq ι] [Fintype ι] in
/-- A node that sends nothing says nothing about anything else. -/
lemma Item.says_nil (it : Item ι) : ∀ m ∈ ([] : List (ℕ × Message)), it.Says m.2 := by simp

section FloodMoves

variable {it : Item ι} {i j : ι} {N : P2PNode} {taken rest : List (InFlight ι)}
  {out : List (ℕ × Message)} (hG : G.Fair) (hit : it ∈ G.items)
  (hperm : (taken ++ rest).Perm W.inFlight)

include hG hit hperm

/-- What does not concern an item leaves its flood as it is. -/
lemma FloodMoves.of_step (htaken : ∀ m ∈ taken, it.Says m.message) (hout : ∀ m ∈ out, it.Says m.2)
    (hsame : ∀ jt ∈ G.items, jt ≠ it → (W.node i).Alike jt N)
    (hstep : Flood.Step G.near it.origin (W.flood it)
      ((W.after G.links i rest (N, out)).flood it)) :
    FloodMoves G it W (W.after G.links i rest (N, out)) := by
  refine ⟨hit, hstep, fun jt hjt hne => ?_⟩
  obtain ⟨hhas, hann, hpend⟩ := hsame jt hjt hne
  have htake : taken.filterMap jt.packet = [] := by
    rw [List.filterMap_eq_nil_iff]
    exact fun m hm => hG.packet_of_ne hit hjt hne (htaken m hm)
  have hroute : (G.links.route i out).filterMap jt.packet = [] := by
    rw [List.filterMap_eq_nil_iff]
    intro m hm
    obtain ⟨p, hin, -, -⟩ := Topology.mem_route hm
    exact hG.packet_of_ne hit hjt hne (hout _ hin)
  refine Network.flood_after jt (Network.nodesWith_of_iff hhas)
    (Network.nodesWith_of_iff (and_congr hhas (not_congr hann))) (Network.nodesWith_of_iff hpend) ?_
  have hpackets := hperm.filterMap jt.packet
  rw [List.filterMap_append, htake, List.nil_append] at hpackets
  rw [hroute, Multiset.coe_nil, add_zero]
  exact Multiset.coe_eq_coe.mpr hpackets

end FloodMoves

omit [DecidableEq ι] in
/-- A message that arrives takes a packet from the flood of its item. -/
lemma packets_eq_cons (it : Item ι) {m : InFlight ι} {p : FloodPacket ι}
    {rest : List (InFlight ι)} (hperm : (m :: rest).Perm W.inFlight) (hm : it.packet m = some p) :
    (W.flood it).packets = p ::ₘ (rest.filterMap it.packet : Multiset (FloodPacket ι)) := by
  have hpackets := hperm.filterMap it.packet
  rw [List.filterMap_cons_some hm] at hpackets
  exact (Multiset.coe_eq_coe.mpr hpackets).symm

/-- A node adds an item it has mined. -/
lemma Carries.submit (hG : G.Fair) (h : Carries G W) {it : Item ι} (hit : it ∈ G.items) {now : ℚ}
    (hnow : G.start ≤ now) (hnew : ¬(W.node it.origin).Has it.sid)
    (hs : G.step W (.own it.origin (.submit (it.call now))) = some W') :
    Carries G W' ∧ FloodMoves G it W W' := by
  obtain rfl := Option.some.inj hs
  have hN := h.node it.origin
  have hempty : W.flood it = Flood.empty :=
    (h.flood it hit).origin fun hin => hnew (Network.mem_nodesWith.mp hin)
  have hidle : (W.node it.origin).pending.get it.sid.hex = none := by
    by_contra hne
    have hin : it.origin ∈ (W.flood it).asking := Network.mem_nodesWith.mpr hne
    rw [hempty] at hin
    exact absurd hin (Finset.notMem_empty _)
  obtain ⟨-, hhas⟩ := hN.chain_after hG hit hnew hnow
  have hmoves := FloodMoves.of_step (N := { W.node it.origin with
      chain := (addShare (G.cfg it.origin).params (W.node it.origin).chain (it.call now)).1
      calls := (W.node it.origin).calls ++ [(.own, it.call now)] })
    hG hit (List.Perm.refl ([] ++ W.inFlight)) (by simp) it.says_nil
    (fun jt hjt hne => ⟨(hhas jt hjt).trans (or_iff_right hne), Iff.rfl, Iff.rfl⟩) (by
      have hpos : (addShare (G.cfg it.origin).params (W.node it.origin).chain
          (it.call now)).1.entries it.sid ≠ none := (hhas it hit).mpr (Or.inl rfl)
      have hdue : ¬(W.node it.origin).Announced it.share := fun ha =>
        hnew (hN.announced it hit ha).1
      convert (Flood.Step.originate (F := W.flood it)
        (fun hin => hnew (Network.mem_nodesWith.mp hin)) :
        Flood.Step G.near it.origin _ _) using 1
      exact Network.flood_after it (Network.nodesWith_of_pos hpos)
        (Network.nodesWith_of_pos ⟨hpos, hdue⟩) (Network.nodesWith_of_iff Iff.rfl) (add_zero _))
  exact ⟨h.after (fun m hm => hm) (hN.submit hG hit rfl hnew hidle hnow _) (by simp)
    (fun jt hjt hj => (hhas jt hjt).mpr (Or.inr hj)) (fun r hr => Or.inl hr) hG hmoves, hmoves⟩

omit [DecidableEq ι] [Fintype ι] in
/-- What `_announce` does with an item. -/
lemma P2PNode.announce_eq (N : P2PNode) (it : Item ι) (exclude : Option ℕ) :
    N.announce it.share exclude = ({ N with announced := N.announced
        ++ [⟨it.share, exclude, N.peers.filter fun p => some p ≠ exclude⟩] },
      (N.peers.filter fun p => some p ≠ exclude).map fun p =>
        (p, .share (Bytes.hex it.share.wire))) := by
  rw [announce, it.hex_eq]

/-- A node announces an item to its peers, but to those that have it. -/
lemma Carries.announce (exclude : Option ℕ) (hG : G.Fair) (h : Carries G W) {it : Item ι}
    (hit : it ∈ G.items) {i : ι} {N : P2PNode} (hN : P2PNode.Spreads G i
      (N.announce it.share exclude).1) (hchain : N.chain = (W.node i).chain)
    (hpeers : N.peers = G.peers i) (hpending : N.pending = (W.node i).pending)
    (hann : N.announced = (W.node i).announced) (hrel : N.relaying ⊆ (W.node i).relaying)
    (hhas : (W.node i).Has it.sid) (hdue : ¬(W.node i).Announced it.share)
    (hexclude : ∀ p, exclude = some p → ∀ j q, G.links.link i p = some (j, q) →
      (W.node j).Has it.sid) :
    Carries G (W.after G.links i W.inFlight (N.announce it.share exclude))
      ∧ FloodMoves G it W (W.after G.links i W.inFlight (N.announce it.share exclude)) := by
  rw [P2PNode.announce_eq] at hN ⊢
  have hkeep : ∀ sid, N.Has sid ↔ (W.node i).Has sid := fun sid => by
    rw [P2PNode.Has, P2PNode.Has, hchain]
  have hsays : ∀ m ∈ (N.peers.filter fun p => some p ≠ exclude).map fun p =>
      (p, Message.share (Bytes.hex it.share.wire)), it.Says m.2 := by
    intro m hm
    obtain ⟨p, -, rfl⟩ := List.mem_map.mp hm
    exact .share
  have hnow : ∀ share, P2PNode.Announced { N with announced := N.announced
      ++ [⟨it.share, exclude, N.peers.filter fun p => some p ≠ exclude⟩] } share
      ↔ share = it.share ∨ (W.node i).Announced share := fun share =>
    P2PNode.announced_concat (N := W.node i) (a := ⟨it.share, exclude, _⟩)
      (congrArg (fun l => l ++ [_]) hann)
  have hmoves := FloodMoves.of_step (N := { N with announced := N.announced
      ++ [⟨it.share, exclude, N.peers.filter fun p => some p ≠ exclude⟩] })
    hG hit (List.Perm.refl ([] ++ W.inFlight)) (by simp) hsays
    (fun jt hjt hne => ⟨hkeep jt.sid, (hnow jt.share).trans (or_iff_right fun he =>
      hne (hG.eq_of_share hjt hit he)), by rw [← hpending]⟩) (by
      convert (Flood.Step.announce (F := W.flood it) (i := i)
        (Network.mem_nodesWith.mpr ⟨hhas, hdue⟩)
        (show G.links.ends i (N.peers.filter fun p => some p ≠ exclude) ≤ G.near i by
          rw [hpeers]; exact G.links.ends_le_near i G.peers _)
        (fun j hj => by
          rw [hpeers]
          refine (Topology.mem_ends_of_near hj).imp_right fun hx => ?_
          obtain ⟨p, q, hp, hlink⟩ := hx
          exact Network.mem_nodesWith.mpr (hexclude p hp j q hlink)) :
        Flood.Step G.near it.origin _ _) using 1
      refine Network.flood_after it (Network.nodesWith_of_iff (hkeep it.sid))
        (Network.nodesWith_of_neg fun hd => hd.2 ((hnow it.share).mpr (Or.inl rfl)))
        (Network.nodesWith_of_iff (by rw [← hpending])) ?_
      rw [it.packets_announce]
      rfl)
  exact ⟨h.after (fun m hm => hm) hN hsays (fun jt _ hj => (hkeep jt.sid).mpr hj)
    (fun r hr => Or.inl (hrel hr)) hG hmoves, hmoves⟩

/-- A node broadcasts an item it has mined. -/
lemma Carries.broadcast (hG : G.Fair) (h : Carries G W) {it : Item ι} (hit : it ∈ G.items)
    (hhas : (W.node it.origin).Has it.sid) (hdue : ¬(W.node it.origin).Announced it.share)
    (hs : G.step W (.own it.origin (.broadcastShare it.share it.proof)) = some W') :
    Carries G W' ∧ FloodMoves G it W W' := by
  have hreact : (W.node it.origin).react (G.cfg it.origin) (.broadcastShare it.share it.proof)
      = some (P2PNode.announce { W.node it.origin with
          proofs := (W.node it.origin).storeProof it.sid.hex it.proof
          broadcasts := (W.node it.origin).broadcasts ++ [(it.sid.hex, it.proof)] }
        it.share none) := by
    rw [P2PNode.react, it.id]
  obtain ⟨result, hresult, rfl⟩ := Option.map_eq_some_iff.mp hs
  obtain rfl := Option.some.inj (hreact.symm.trans hresult)
  have hN := h.node it.origin
  refine h.announce none hG hit ?_ rfl hN.peers rfl rfl (fun r hr => hr) hhas hdue (by simp)
  rw [P2PNode.announce_eq]
  exact hN.broadcast hG hit rfl hhas _ rfl

/-- A handler announces the item it waited with. -/
lemma Carries.relay (hG : G.Fair) (h : Carries G W) {i : ι} {k : ℕ}
    (hs : G.step W (.own i (.relay k)) = some W') :
    Carries G W' ∧ ∃ it, FloodMoves G it W W' := by
  obtain ⟨result, hreact, rfl⟩ := Option.map_eq_some_iff.mp hs
  obtain ⟨r, hr, rfl⟩ := Option.map_eq_some_iff.mp hreact
  have hN := h.node i
  have hmem := List.mem_of_getElem? hr
  obtain ⟨it, hit, hr1, hserves, hdue, -⟩ := hN.relaying r hmem
  have hann := h.announce (N := { W.node i with relaying := (W.node i).relaying.eraseIdx k })
    (some r.2) hG hit (by
      rw [P2PNode.announce_eq]
      exact hN.relay hG hr hr1.symm) rfl hN.peers rfl rfl List.eraseIdx_subset hserves.1 hdue
    (fun p hp j q hlink => h.senders i r hmem it hit hr1 j q (Option.some.inj hp ▸ hlink))
  rw [← hr1] at hann
  exact ⟨hann.1, it, hann.2⟩

/-! ### Messages that arrive -/

section Deliver

variable {k : ℕ} {clock : ℕ → ℚ} {m : InFlight ι} {it : Item ι}

omit [Fintype ι] in
/-- A message arrives. -/
lemma step_deliver (hs : G.step W (.deliver k clock) = some W') :
    ∃ m, W.inFlight[k]? = some m ∧ (m :: W.inFlight.eraseIdx k).Perm W.inFlight
      ∧ W.after G.links m.dest (W.inFlight.eraseIdx k)
        (((W.node m.dest).handle (G.cfg m.dest) m.peer m.message.incoming clock).1,
          ((W.node m.dest).handle (G.cfg m.dest) m.peer m.message.incoming clock).2.map
            fun r => (m.peer, r)) = W' := by
  obtain ⟨m, hm, hmap⟩ := Option.bind_eq_some_iff.mp hs
  obtain ⟨hlt, rfl⟩ := List.getElem?_eq_some_iff.mp hm
  exact ⟨_, hm, List.getElem_cons_eraseIdx_perm hlt, Option.some.inj hmap⟩

variable {i j : ι} {p q : ℕ} {rest : List (InFlight ι)} (hG : G.Fair) (h : Carries G W)
  (hit : it ∈ G.items)

include hG h hit

/-- A share that is announced is asked for where it is new. -/
lemma Carries.hears (hlink : G.links.link j q = some (i, p))
    (hperm : (⟨i, j, q, .share (Bytes.hex it.share.wire)⟩ :: rest).Perm W.inFlight) {now : ℚ}
    (hnow : G.start ≤ now) {N : P2PNode} {replies : List Message}
    (hr : (W.node j).hShare (G.cfg j) (Message.share (Bytes.hex it.share.wire)).incoming now
      = (N, replies)) :
    Carries G (W.after G.links j rest (N, replies.map fun r => (q, r)))
      ∧ FloodMoves G it W (W.after G.links j rest (N, replies.map fun r => (q, r))) := by
  have hN := h.node j
  have hshare : (Message.share (Bytes.hex it.share.wire)).incoming.share.bind readShare
      = some it.share := hG.read hit
  have hpacket := packets_eq_cons it hperm (it.packet_share i j q)
  have hrest : rest ⊆ W.inFlight := fun m hm => hperm.subset (List.mem_cons_of_mem _ hm)
  have htaken : ∀ m ∈ [(⟨i, j, q, .share (Bytes.hex it.share.wire)⟩ : InFlight ι)],
      it.Says m.message := by
    intro m hm
    rw [List.mem_singleton.mp hm]
    exact .share
  by_cases hheard : (W.node j).Has it.sid ∨ (W.node j).pending.get it.sid.hex ≠ none
  · rw [P2PNode.hShare_of_heard hshare it.id hheard] at hr
    cases hr
    have hmoves := FloodMoves.of_step (i := j) (N := W.node j) hG hit hperm htaken it.says_nil
      (fun jt _ _ => ⟨Iff.rfl, Iff.rfl, Iff.rfl⟩) (by
        convert (Flood.Step.ignore hpacket
          (hheard.imp Network.mem_nodesWith.mpr Network.mem_nodesWith.mpr) :
          Flood.Step G.near it.origin _ _) using 1
        exact Network.flood_after it (Network.nodesWith_of_iff Iff.rfl)
          (Network.nodesWith_of_iff Iff.rfl) (Network.nodesWith_of_iff Iff.rfl) (add_zero _))
    exact ⟨h.after hrest hN (by simp) (fun jt _ hj => hj) (fun r hr => Or.inl hr) hG hmoves, hmoves⟩
  · rw [not_or, not_not] at hheard
    obtain ⟨hnot, hidle⟩ := hheard
    rw [P2PNode.hShare_of_unheard hshare ⟨it.id, hidle, hN.valid hG hit hnot hnow⟩] at hr
    cases hr
    have hpend : ∀ jt ∈ G.items, jt ≠ it →
        ((((W.node j).pending.set it.sid.hex it.share).get jt.sid.hex ≠ none)
          ↔ (W.node j).pending.get jt.sid.hex ≠ none) := fun jt hjt hne => by
      rw [OrderedMap.get_set, if_neg fun he => hne (hG.eq_of_hex hjt hit he)]
    have hsays : ∀ m ∈ [(q, Message.getproof it.sid.hex)], it.Says m.2 := by
      intro m hm
      rw [List.mem_singleton.mp hm]
      exact .getproof
    have hmoves := FloodMoves.of_step (i := j)
      (N := { W.node j with pending := (W.node j).pending.set it.sid.hex it.share })
      hG hit hperm htaken hsays
      (fun jt hjt hne => ⟨Iff.rfl, Iff.rfl, hpend jt hjt hne⟩) (by
        convert (Flood.Step.ask hpacket (fun hin => hnot (Network.mem_nodesWith.mp hin))
          (fun hin => Network.mem_nodesWith.mp hin hidle) :
          Flood.Step G.near it.origin _ _) using 1
        refine Network.flood_after it (Network.nodesWith_of_iff Iff.rfl)
          (Network.nodesWith_of_iff Iff.rfl) (Network.nodesWith_of_pos ?_) ?_
        · rw [OrderedMap.get_set, if_pos rfl]
          exact Option.some_ne_none _
        · rw [Topology.route_singleton hlink, List.filterMap_cons_some (it.packet_getproof j i p),
            add_comm]
          rfl)
    exact ⟨h.after hrest (hN.ask hit hnot) hsays (fun jt _ hj => hj) (fun r hr => Or.inl hr) hG
      hmoves, hmoves⟩

/-- A node that is asked for a proof has it. -/
lemma Carries.serves (hlink : G.links.link j q = some (i, p))
    (hperm : (⟨i, j, q, .getproof it.sid.hex⟩ :: rest).Perm W.inFlight) {replies : List Message}
    (hr : (W.node j).hGetproof (Message.getproof it.sid.hex).incoming = replies) :
    Carries G (W.after G.links j rest (W.node j, replies.map fun r => (q, r)))
      ∧ FloodMoves G it W (W.after G.links j rest (W.node j, replies.map fun r => (q, r))) := by
  have hN := h.node j
  have hpacket := packets_eq_cons it hperm (it.packet_getproof i j q)
  have hrest : rest ⊆ W.inFlight := fun m hm => hperm.subset (List.mem_cons_of_mem _ hm)
  have hasked := (h.flood it hit).holder (.ask i j) (hpacket ▸ Multiset.mem_cons_self _ _)
  have hann : (W.node j).Announced it.share := by
    by_contra hnot
    exact hasked.2 rfl (Network.mem_nodesWith.mpr ⟨Network.mem_nodesWith.mp hasked.1, hnot⟩)
  obtain rfl : [.proof it.sid.hex it.proof] = replies := by
    rw [← hr, P2PNode.hGetproof, Message.incoming]
    simp [(hN.announced it hit hann).2]
  have hsays : ∀ m ∈ [(q, Message.proof it.sid.hex it.proof)], it.Says m.2 := by
    intro m hm
    rw [List.mem_singleton.mp hm]
    exact .proof
  have htaken : ∀ m ∈ [(⟨i, j, q, .getproof it.sid.hex⟩ : InFlight ι)], it.Says m.message := by
    intro m hm
    rw [List.mem_singleton.mp hm]
    exact .getproof
  have hmoves := FloodMoves.of_step (i := j) (N := W.node j) hG hit hperm htaken hsays
    (fun jt _ _ => ⟨Iff.rfl, Iff.rfl, Iff.rfl⟩) (by
      convert (Flood.Step.answer hpacket : Flood.Step G.near it.origin _ _) using 1
      refine Network.flood_after it (Network.nodesWith_of_iff Iff.rfl)
        (Network.nodesWith_of_iff Iff.rfl) (Network.nodesWith_of_iff Iff.rfl) ?_
      rw [Topology.route_singleton hlink, List.filterMap_cons_some (it.packet_proof j i p _),
        add_comm]
      rfl)
  exact ⟨h.after hrest hN hsays (fun jt _ hj => hj) (fun r hr => Or.inl hr) hG hmoves, hmoves⟩

/-- A node that gets the proof of an item adds it. -/
lemma Carries.learns (hlink : G.links.link j q = some (i, p))
    (hperm : (⟨i, j, q, .proof it.sid.hex it.proof⟩ :: rest).Perm W.inFlight) {now : ℚ}
    (hnow : G.start ≤ now) {N : P2PNode}
    (hr : (W.node j).hProof (G.cfg j) q (Message.proof it.sid.hex it.proof).incoming now = N) :
    Carries G (W.after G.links j rest (N, []))
      ∧ FloodMoves G it W (W.after G.links j rest (N, [])) := by
  have hN := h.node j
  have hF := h.flood it hit
  have hpacket := packets_eq_cons it hperm (it.packet_proof i j q it.proof)
  have hrest : rest ⊆ W.inFlight := fun m hm => hperm.subset (List.mem_cons_of_mem _ hm)
  have hin : FloodPacket.answer i j ∈ (W.flood it).packets := hpacket ▸ Multiset.mem_cons_self _ _
  have hasking : j ∈ (W.flood it).asking := hF.asks hin rfl
  have hholder := (hF.holder _ hin).1
  have hnot : ¬(W.node j).Has it.sid := fun hj => hF.asking j hasking (Network.mem_nodesWith.mpr hj)
  have ho : it.origin ≠ j := fun he => hF.asking j hasking (he ▸ hF.origin_mem hholder)
  have hpending : (W.node j).pending.get it.sid.hex = some it.share := by
    obtain ⟨share, hshare⟩ := Option.ne_none_iff_exists'.mp (Network.mem_nodesWith.mp hasking)
    obtain ⟨jt, hjt, hhex, rfl, -⟩ := hN.pending _ _ hshare
    rw [hshare, hG.eq_of_hex hit hjt hhex]
  rw [P2PNode.hProof_eq_of_verified hN.tipStored q rfl rfl hpending it.id (hG.verifies j it hit)
    it.encoded (hN.valid hG hit hnot hnow)] at hr
  subst hr
  obtain ⟨-, hhas⟩ := hN.chain_after hG hit hnot hnow
  have htaken : ∀ m ∈ [(⟨i, j, q, .proof it.sid.hex it.proof⟩ : InFlight ι)],
      it.Says m.message := by
    intro m hm
    rw [List.mem_singleton.mp hm]
    exact .proof
  have hpend : ∀ jt ∈ G.items, jt ≠ it →
      ((((W.node j).pending.erase it.sid.hex).get jt.sid.hex ≠ none)
        ↔ (W.node j).pending.get jt.sid.hex ≠ none) := fun jt hjt hne => by
    rw [OrderedMap.get_erase, if_neg fun he => hne (hG.eq_of_hex hjt hit he)]
  have hfresh : ¬(W.node j).Announced it.share := fun ha => hnot (hN.announced it hit ha).1
  have hpos : (addShare (G.cfg j).params (W.node j).chain (it.call now)).1.entries it.sid ≠ none :=
    (hhas it hit).mpr (Or.inl rfl)
  have hmoves := FloodMoves.of_step (i := j) (N := { W.node j with
      pending := (W.node j).pending.erase it.sid.hex
      chain := (addShare (G.cfg j).params (W.node j).chain (it.call now)).1
      calls := (W.node j).calls ++ [(.gossip it.proof, it.call now)]
      proofs := (W.node j).storeProof it.sid.hex it.proof
      relaying := (W.node j).relaying ++ [(it.share, q)]
      accepted := (W.node j).accepted ++ [(it.share, q)] }) hG hit hperm htaken it.says_nil
    (fun jt hjt hne => ⟨(hhas jt hjt).trans (or_iff_right hne), Iff.rfl, hpend jt hjt hne⟩) (by
      convert (Flood.Step.learn hpacket hasking : Flood.Step G.near it.origin _ _) using 1
      refine Network.flood_after it (Network.nodesWith_of_pos hpos)
        (Network.nodesWith_of_pos ⟨hpos, hfresh⟩) (Network.nodesWith_of_neg ?_) (add_zero _)
      rw [OrderedMap.get_erase, if_pos rfl, not_not])
  refine ⟨h.after hrest (hN.learn hG hit ho hnot hnow _ _) (by simp)
    (fun jt hjt hj => (hhas jt hjt).mpr (Or.inr hj)) (fun r hr => ?_) hG hmoves, hmoves⟩
  refine (List.mem_append.mp hr).imp_right fun hr => ?_
  rw [List.mem_singleton.mp hr]
  refine ⟨rfl, fun k q' hk => ?_⟩
  rw [hlink] at hk
  cases hk
  exact Network.mem_nodesWith.mp hholder

end Deliver

/-- **Every event** is a step of the flood of one item, and changes nothing for the others. -/
theorem flood_step (hG : G.Fair) (h : Carries G W) {e : Network.Event ι} (ha : G.Allows W e)
    (hs : G.step W e = some W') : Carries G W' ∧ ∃ it, FloodMoves G it W W' := by
  cases ha with
  | relay i k => exact h.relay hG hs
  | submit it now mem later new => exact (h.submit hG mem later new hs).imp_right fun hm => ⟨it, hm⟩
  | broadcast it mem has due => exact (h.broadcast hG mem has due hs).imp_right fun hm => ⟨it, hm⟩
  | deliver k clock later =>
      obtain ⟨⟨i, j, q, message⟩, hm, hperm, rfl⟩ := step_deliver hs
      obtain ⟨⟨p, hlink⟩, it, hit, hsays⟩ := h.flight _ (List.mem_of_getElem? hm)
      dsimp only at hlink hsays
      cases hsays with
      | share =>
          exact (h.hears hG hit hlink hperm (later 0) rfl).imp_right fun hm => ⟨it, hm⟩
      | getproof =>
          exact (h.serves hG hit hlink hperm rfl).imp_right fun hm => ⟨it, hm⟩
      | proof =>
          exact (h.learns hG hit hlink hperm (later 0) rfl).imp_right fun hm => ⟨it, hm⟩

end P2Pearl
