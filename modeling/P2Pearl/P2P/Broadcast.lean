import P2Pearl.Consensus.Persistence
import P2Pearl.Consensus.Readmission
import P2Pearl.Data.Flood
import P2Pearl.P2P.Network

/-!
Shares that are broadcast in a network of honest nodes.

* `Item`: a share with the node that mines it and its proof.
* `Ready`: a sharechain that would accept every item, so that no item builds on another;
  `valid_of_not_stored`: what it has not stored yet is still valid, whatever other items it has
  accepted.
* `GossipNet`: the nodes, how they are connected, and the items; `Fair`: every node is ready for
  every item, verifies its proof and has room for it.
* `Spreads`: what holds of a node in every state, with one lemma for each thing a node does with an
  item: `Spreads.submit`, `.broadcast`, `.relay`, `.ask` and `.learn`.
-/

namespace P2Pearl

variable {ι : Type} {P : Params}

/-! ### Items -/

/-- A share, the node that mines it, and its proof. -/
structure Item (ι : Type) where
  share : ShareBlock
  sid : Hash32
  origin : ι
  proof : PyStr
  bytes : Bytes
  id : share.shareId = .ok sid
  encoded : encodeAscii proof = .ok bytes

/-- The call of `add_share` that adds the item. -/
def Item.call (it : Item ι) (now : ℚ) : Call := P2PNode.admission it.share it.bytes now

/-! ### The sharechain of a node -/

/-- A sharechain with the past `base` that would accept every item, and all of them lie within the
window of each other and of its highest tip.  No item builds on another: what a child needs is in
the past. -/
structure Ready (P : Params) (items : List (Item ι)) (start : ℚ) (base : List Call) : Prop where
  look_back : 1 ≤ P.retargetWindow
  window : P.retargetWindow ≤ P.window
  distinct : CollisionFree (base.map Call.share ++ items.map Item.share)
  accepts : ∀ it ∈ items, Accepts P (run P base).chain (it.call start)
  recent : ∀ it ∈ items, Recent P (run P base) it.share
  level : ∀ it ∈ items, ∀ jt ∈ items,
    jt.share.sidechainHeight ≤ it.share.sidechainHeight + P.window

/-- The calls add items only. -/
def AddItems (items : List (Item ι)) (added : List Call) : Prop :=
  ∀ call ∈ added, ∃ it ∈ items, call.share = it.share

lemma AddItems.shares_subset {items : List (Item ι)} {added : List Call}
    (h : AddItems items added) (base : List Call) :
    (base ++ added).map Call.share ⊆ base.map Call.share ++ items.map Item.share := by
  intro s hs
  rw [List.map_append, List.mem_append] at hs
  refine List.mem_append.mpr (hs.imp_right fun hs => ?_)
  obtain ⟨call, hcall, rfl⟩ := List.mem_map.mp hs
  obtain ⟨it, hit, he⟩ := h call hcall
  exact he ▸ List.mem_map_of_mem hit

lemma AddItems.concat {items : List (Item ι)} {added : List Call} (h : AddItems items added)
    {it : Item ι} (hit : it ∈ items) (now : ℚ) : AddItems items (added ++ [it.call now]) := by
  intro call hcall
  rcases List.mem_append.mp hcall with hcall | hcall
  · exact h call hcall
  · exact ⟨it, hit, by rw [List.mem_singleton.mp hcall]; rfl⟩

/-- The peak stays below a bound on the heights that are added. -/
lemma peak_le_of_added {base added : List Call} {bound : ℕ} (hbase : (run P base).peak ≤ bound)
    (hadded : ∀ call ∈ added, call.share.sidechainHeight ≤ bound) :
    (run P (base ++ added)).peak ≤ bound := by
  induction added using List.reverseRecOn with
  | nil => rwa [List.append_nil]
  | append_singleton added call ih =>
      have hpast := ih fun c hc => hadded c (List.mem_append_left _ hc)
      have hcall := hadded call (by simp)
      rw [← List.append_assoc, run_append]
      rcases step_cases (P := P) (run_tipStored (base ++ added)) call with
        ⟨hsame, -⟩ | ⟨sid, e, hadm, hgrow⟩
      · rwa [hsame]
      · rw [← hadm.share] at hcall
        exact hgrow.peak_le_max.trans (max_le hpast hcall)

namespace Ready

variable {items : List (Item ι)} {start now : ℚ} {base added : List Call} {it jt : Item ι}
  (h : Ready P items start base) (hadded : AddItems items added)

include h hadded

/-- An item stays recent. -/
lemma stays_recent (hit : it ∈ items) : Recent P (run P (base ++ added)) it.share := by
  refine peak_le_of_added (h.recent it hit) fun call hcall => ?_
  obtain ⟨jt, hjt, he⟩ := hadded call hcall
  rw [he]
  exact h.level it hit jt hjt

/-- What is on record under the id of an item is the item. -/
lemma record_eq (hit : it ∈ items) {x : Entry}
    (hx : (run P (base ++ added)).record it.sid = some x) : x.share = it.share := by
  obtain ⟨hid, hmem⟩ := mem_accepted _ (mem_of_recordOf hx)
  exact h.distinct _ (hadded.shares_subset base hmem) _
    (List.mem_append_right _ (List.mem_map_of_mem hit)) _ hid it.id

/-- An item is stored exactly when it has been accepted. -/
lemma stored_iff (hit : it ∈ items) :
    (run P (base ++ added)).chain.entries it.sid ≠ none
      ↔ it.sid ∈ (run P (base ++ added)).ids := by
  rw [← not_iff_not, not_not, ← record_eq_none_iff]
  constructor
  · intro hnone
    rw [Option.eq_none_iff_forall_ne_some]
    intro x hx
    have hrecent := h.stays_recent hadded hit
    have hpeak : (run P (base ++ added)).peak ≤ it.share.sidechainHeight + P.window := hrecent
    have hr : P.retention = 2 * P.window + P.uncleDepth := rfl
    have hstored := stored_of_record _ _ _ hx (by rw [h.record_eq hadded hit hx]; omega)
    rw [hnone] at hstored
    cases hstored
  · intro hnone
    rw [Option.eq_none_iff_forall_ne_some]
    intro x hx
    rw [subMap_record _ _ _ hx] at hnone
    cases hnone

/-- An item that is not stored is still valid. -/
lemma valid_of_not_stored (hit : it ∈ items) (hnow : start ≤ now)
    (hnot : (run P (base ++ added)).chain.entries it.sid = none) :
    Valid P (run P (base ++ added)).chain.entries.get it.share now it.sid := by
  have hcf : CollisionFree (it.share :: (base ++ added).map Call.share) :=
    h.distinct.mono (List.cons_subset.mpr
      ⟨List.mem_append_right _ (List.mem_map_of_mem hit), hadded.shares_subset base⟩)
  obtain ⟨sid, e, hadm⟩ := (h.accepts it hit).admits
  cases Except.ok.inj (hadm.id.symm.trans it.id)
  refine valid_later hcf it.id h.look_back h.window (h.stays_recent hadded hit) hnow hadm.valid ?_
  exact fun hin => (h.stored_iff hadded hit).mpr hin hnot

/-- An item that is accepted is stored, and so is what was stored before. -/
lemma stored_after (hit : it ∈ items) (hnow : start ≤ now)
    (hnot : (run P (base ++ added)).chain.entries it.sid = none) (hjt : jt ∈ items) :
    (addShare P (run P (base ++ added)).chain (it.call now)).1.entries jt.sid ≠ none
      ↔ jt.sid = it.sid ∨ (run P (base ++ added)).chain.entries jt.sid ≠ none := by
  have hvalid := h.valid_of_not_stored hadded hit hnow hnot
  obtain ⟨isBestTip, hr⟩ := addShare_of_valid (run_tipStored (base ++ added)) (it.call now) rfl
    (validate_eq_ok_none_iff.mpr ⟨it.sid, it.id, hvalid⟩)
  obtain ⟨sid, e, hadm⟩ := Accepts.admits ⟨isBestTip, "", hr⟩
  cases Except.ok.inj (hadm.id.symm.trans it.id)
  rw [← step_chain, ← run_append, List.append_assoc,
    h.stored_iff (hadded.concat hit now) hjt, ← List.append_assoc, ids_of_admits hadm,
    List.mem_cons, h.stored_iff hadded hjt]

end Ready

/-! ### The network -/

/-- Nodes that are connected to each other, the items they mine, the time from which they do, what
each has in its sharechain and in its proof cache before, and whom it is connected to. -/
structure GossipNet (ι : Type) where
  links : Topology ι
  cfg : ι → P2PConfig
  items : List (Item ι)
  start : ℚ
  base : ι → List Call
  cached : ι → List PyStr
  peers : ι → List ℕ

/-- Every node is ready for the items, which are different shares, verifies their proofs, has room
for them in its cache, and has a node at the other end of each connection. -/
structure GossipNet.Fair (G : GossipNet ι) : Prop where
  ready : ∀ i, Ready (G.cfg i).params G.items G.start (G.base i)
  nodup : (G.items.map Item.sid).Nodup
  verifies : ∀ i, ∀ it ∈ G.items,
    (G.cfg i).verifyIncoming it.share (.str it.proof) = .ok true
  room : ∀ i, (G.cached i).length + G.items.length ≤ maxStoredProofs
  connected : ∀ i, ∀ p ∈ G.peers i, G.links.link i p ≠ none

namespace GossipNet.Fair

variable {G : GossipNet ι} (h : G.Fair) {it jt : Item ι}

include h

lemma eq_of_sid (hit : it ∈ G.items) (hjt : jt ∈ G.items) (he : it.sid = jt.sid) : it = jt :=
  List.inj_on_of_nodup_map h.nodup hit hjt he

lemma eq_of_share (hit : it ∈ G.items) (hjt : jt ∈ G.items) (he : it.share = jt.share) :
    it = jt :=
  h.eq_of_sid hit hjt (Except.ok.inj (it.id.symm.trans (he ▸ jt.id)))

lemma eq_of_hex (hit : it ∈ G.items) (hjt : jt ∈ G.items) (he : it.sid.hex = jt.sid.hex) :
    it = jt := h.eq_of_sid hit hjt (Hash32.hex_inj he)

end GossipNet.Fair

/-! ### A node -/

namespace P2PNode

variable {G : GossipNet ι} {i : ι} {N : P2PNode} {it jt : Item ι}

/-- The share has been announced. -/
def Announced (N : P2PNode) (share : ShareBlock) : Prop := ∃ a ∈ N.announced, a.share = share

lemma announced_concat {M : P2PNode} {a : Announcement} {share : ShareBlock}
    (h : M.announced = N.announced ++ [a]) :
    M.Announced share ↔ share = a.share ∨ N.Announced share := by
  rw [Announced, Announced, h]
  simp [or_and_right, exists_or, or_comm, eq_comm]

/-- The share is accepted and its proof is in the cache. -/
def Serves (N : P2PNode) (it : Item ι) : Prop :=
  N.Has it.sid ∧ N.proofs.get it.sid.hex = some it.proof

/-- Where a cache has room, a proof is put into it and none is dropped. -/
lemma get_storeProof_of_room {sid proof : PyStr} {keys : List PyStr}
    (hkeys : ∀ k, N.proofs.get k ≠ none → k ∈ keys) (hsid : sid ∈ keys)
    (hroom : keys.length ≤ maxStoredProofs) (k : PyStr) :
    (N.storeProof sid proof).get k = if k = sid then some proof else N.proofs.get k := by
  have hget : ((N.proofs.set sid proof).moveToEnd sid).get k
      = if k = sid then some proof else N.proofs.get k := by
    rw [OrderedMap.get_moveToEnd, OrderedMap.get_set]
  have hsize : ((N.proofs.set sid proof).moveToEnd sid).size ≤ keys.length := by
    refine OrderedMap.size_le_of_keys fun j hj => ?_
    rw [OrderedMap.get_moveToEnd, OrderedMap.get_set] at hj
    split_ifs at hj with he
    · exact he ▸ hsid
    · exact hkeys j hj
  rw [storeProof, OrderedMap.trim_of_size_le (hsize.trans hroom), hget]

/-- What holds of a node in every state: its sharechain has the items added to what it was; an item
is pending until it is stored; an item that is announced, or that waits to be, is served. -/
structure Spreads (G : GossipNet ι) (i : ι) (N : P2PNode) : Prop where
  chain : ∃ added, AddItems G.items added
    ∧ N.chain = (run (G.cfg i).params (G.base i ++ added)).chain
  peers : N.peers = G.peers i
  pending : ∀ id share, N.pending.get id = some share →
    ∃ it ∈ G.items, id = it.sid.hex ∧ share = it.share ∧ ¬N.Has it.sid
  cached : ∀ id, N.proofs.get id ≠ none → id ∈ G.cached i ++ G.items.map fun it => it.sid.hex
  announced : ∀ it ∈ G.items, N.Announced it.share → N.Serves it
  relaying : ∀ r ∈ N.relaying, ∃ it ∈ G.items,
    r.1 = it.share ∧ N.Serves it ∧ ¬N.Announced it.share ∧ it.origin ≠ i
  nodup : (N.relaying.map Prod.fst).Nodup
  due : ∀ it ∈ G.items, N.Has it.sid → N.Announced it.share ∨ it.origin = i
    ∨ it.share ∈ N.relaying.map Prod.fst

namespace Spreads

variable (hG : G.Fair) (h : Spreads G i N) (hit : it ∈ G.items)

include h

lemma tipStored : N.chain.TipStored := by
  obtain ⟨added, -, he⟩ := h.chain
  exact he ▸ run_tipStored _

/-- The proof of an item goes into the cache, and none is dropped. -/
lemma get_storeProof (hG : G.Fair) (hit : it ∈ G.items) (k : PyStr) :
    (N.storeProof it.sid.hex it.proof).get k
      = if k = it.sid.hex then some it.proof else N.proofs.get k :=
  get_storeProof_of_room h.cached
    (List.mem_append_right _ (List.mem_map_of_mem (f := fun it => it.sid.hex) hit))
    (by rw [List.length_append, List.length_map]; exact hG.room i) k

lemma cached_storeProof (hG : G.Fair) (hit : it ∈ G.items) {k : PyStr}
    (hk : (N.storeProof it.sid.hex it.proof).get k ≠ none) :
    k ∈ G.cached i ++ G.items.map fun it => it.sid.hex := by
  rw [h.get_storeProof hG hit] at hk
  split_ifs at hk with he
  · exact he ▸ List.mem_append_right _ (List.mem_map_of_mem (f := fun it => it.sid.hex) hit)
  · exact h.cached k hk

/-- What is served is still served with another proof in the cache. -/
lemma serves_storeProof (hG : G.Fair) (hit : it ∈ G.items) (hjt : jt ∈ G.items)
    (hs : N.proofs.get jt.sid.hex = some jt.proof) :
    (N.storeProof it.sid.hex it.proof).get jt.sid.hex = some jt.proof := by
  rw [h.get_storeProof hG hit]
  split_ifs with he
  · rw [hG.eq_of_hex hjt hit he]
  · exact hs

include hG hit

/-- An item that a node has not got is a valid successor there. -/
lemma valid {now : ℚ} (hnot : ¬N.Has it.sid) (hnow : G.start ≤ now) :
    Valid (G.cfg i).params N.chain.entries.get it.share now it.sid := by
  obtain ⟨added, hadded, he⟩ := h.chain
  rw [Has, he, not_not] at hnot
  rw [he]
  exact (hG.ready i).valid_of_not_stored hadded hit hnow hnot

/-- The sharechain once it is added. -/
lemma chain_after {now : ℚ} (hnot : ¬N.Has it.sid) (hnow : G.start ≤ now) :
    (∃ added, AddItems G.items added
        ∧ (addShare (G.cfg i).params N.chain (it.call now)).1
          = (run (G.cfg i).params (G.base i ++ added)).chain)
      ∧ ∀ jt ∈ G.items, (addShare (G.cfg i).params N.chain (it.call now)).1.entries jt.sid ≠ none
        ↔ jt = it ∨ N.Has jt.sid := by
  obtain ⟨added, hadded, he⟩ := h.chain
  rw [Has, he, not_not] at hnot
  refine ⟨⟨added ++ [it.call now], hadded.concat hit now, ?_⟩, fun jt hjt => ?_⟩
  · rw [← List.append_assoc, run_append, step_chain, he]
  · rw [Has, he, (hG.ready i).stored_after hadded hit hnow hnot hjt]
    exact or_congr_left ⟨fun hsid => hG.eq_of_sid hjt hit hsid, congrArg Item.sid⟩

/-- The daemon adds an item it has mined. -/
lemma submit {now : ℚ} (ho : it.origin = i) (hnot : ¬N.Has it.sid)
    (hidle : N.pending.get it.sid.hex = none) (hnow : G.start ≤ now)
    (calls : List (Source × Call)) : Spreads G i { N with
      chain := (addShare (G.cfg i).params N.chain (it.call now)).1
      calls } := by
  obtain ⟨hchain, hhas⟩ := h.chain_after hG hit hnot hnow
  refine ⟨hchain, h.peers, fun id share hp => ?_, h.cached, fun jt hjt ha => ?_, fun r hr => ?_,
    h.nodup, fun jt hjt hj => ?_⟩
  · obtain ⟨jt, hjt, rfl, rfl, hj⟩ := h.pending id share hp
    refine ⟨jt, hjt, rfl, rfl, fun hin => ?_⟩
    rcases (hhas jt hjt).mp hin with rfl | hin
    · rw [hidle] at hp; cases hp
    · exact hj hin
  · obtain ⟨hj, hproof⟩ := h.announced jt hjt ha
    exact ⟨(hhas jt hjt).mpr (Or.inr hj), hproof⟩
  · obtain ⟨jt, hjt, hr1, hs, hna, hne⟩ := h.relaying r hr
    exact ⟨jt, hjt, hr1, ⟨(hhas jt hjt).mpr (Or.inr hs.1), hs.2⟩, hna, hne⟩
  · rcases (hhas jt hjt).mp hj with rfl | hj
    · exact Or.inr (Or.inl ho)
    · exact h.due jt hjt hj

/-- The daemon broadcasts an item it has mined. -/
lemma broadcast (ho : it.origin = i) (hhas : N.Has it.sid) (broadcasts : List (PyStr × PyStr))
    {a : Announcement} (ha : a.share = it.share) : Spreads G i { N with
      proofs := N.storeProof it.sid.hex it.proof
      broadcasts
      announced := N.announced ++ [a] } := by
  refine ⟨h.chain, h.peers, h.pending, fun id hid => h.cached_storeProof hG hit hid,
    fun jt hjt hj => ?_, fun r hr => ?_, h.nodup, fun jt hjt hj => ?_⟩
  · rcases (announced_concat (N := N) rfl).mp hj with hshare | hj
    · obtain rfl := hG.eq_of_share hjt hit (hshare.trans ha)
      exact ⟨hhas, by rw [h.get_storeProof hG hit, if_pos rfl]⟩
    · have hs := h.announced jt hjt hj
      exact ⟨hs.1, h.serves_storeProof hG hit hjt hs.2⟩
  · obtain ⟨jt, hjt, hr1, hs, hna, hne⟩ := h.relaying r hr
    refine ⟨jt, hjt, hr1, ⟨hs.1, h.serves_storeProof hG hit hjt hs.2⟩, fun hj => ?_, hne⟩
    rcases (announced_concat (N := N) rfl).mp hj with hshare | hj
    · exact hne (hG.eq_of_share hjt hit (hshare.trans ha) ▸ ho)
    · exact hna hj
  · exact (h.due jt hjt hj).imp_left fun hj => (announced_concat (N := N) rfl).mpr (Or.inr hj)

omit hit

/-- A handler announces the share it waited with. -/
lemma relay {k : ℕ} {r : ShareBlock × ℕ} (hr : N.relaying[k]? = some r) {a : Announcement}
    (ha : a.share = r.1) : Spreads G i { N with
      relaying := N.relaying.eraseIdx k
      announced := N.announced ++ [a] } := by
  obtain ⟨hlt, hget⟩ := List.getElem?_eq_some_iff.mp hr
  have hperm : (r.1 :: (N.relaying.eraseIdx k).map Prod.fst).Perm (N.relaying.map Prod.fst) := by
    rw [← List.map_cons, ← hget]
    exact (List.getElem_cons_eraseIdx_perm hlt).map Prod.fst
  have hnodup := hperm.nodup_iff.mpr h.nodup
  obtain ⟨it, hit, hr1, hs, -, -⟩ := h.relaying r (List.mem_of_getElem? hr)
  refine ⟨h.chain, h.peers, h.pending, h.cached, fun jt hjt hj => ?_, fun q hq => ?_,
    (List.nodup_cons.mp hnodup).2, fun jt hjt hj => ?_⟩
  · rcases (announced_concat (N := N) rfl).mp hj with hshare | hj
    · obtain rfl := hG.eq_of_share hjt hit (hshare.trans (ha.trans hr1))
      exact hs
    · exact h.announced jt hjt hj
  · obtain ⟨jt, hjt, hq1, hs', hna, hne⟩ := h.relaying q (List.eraseIdx_subset hq)
    refine ⟨jt, hjt, hq1, hs', fun hj => ?_, hne⟩
    rcases (announced_concat (N := N) rfl).mp hj with hshare | hj
    · -- each share waits once
      refine (List.nodup_cons.mp hnodup).1 (List.mem_map.mpr ⟨q, hq, ?_⟩)
      rw [hq1, hshare, ha]
    · exact hna hj
  · rcases h.due jt hjt hj with hj | ho | hw
    · exact Or.inl ((announced_concat (N := N) rfl).mpr (Or.inr hj))
    · exact Or.inr (Or.inl ho)
    · rcases List.mem_cons.mp (hperm.mem_iff.mpr hw) with hshare | hw
      · exact Or.inl ((announced_concat (N := N) rfl).mpr (Or.inl (hshare.trans ha.symm)))
      · exact Or.inr (Or.inr hw)

include hit

omit hG in
/-- A handler asks for the proof of an item. -/
lemma ask (hnot : ¬N.Has it.sid) :
    Spreads G i { N with pending := N.pending.set it.sid.hex it.share } := by
  refine ⟨h.chain, h.peers, fun id share hp => ?_, h.cached, h.announced, h.relaying, h.nodup,
    h.due⟩
  dsimp only at hp
  rw [OrderedMap.get_set] at hp
  split_ifs at hp with he
  · exact ⟨it, hit, he, (Option.some.inj hp).symm, hnot⟩
  · exact h.pending id share hp

/-- A handler adds an item with its proof, and waits to announce it. -/
lemma learn {now : ℚ} {peer : ℕ} (ho : it.origin ≠ i) (hnot : ¬N.Has it.sid)
    (hnow : G.start ≤ now) (calls : List (Source × Call)) (accepted : List (ShareBlock × ℕ)) :
    Spreads G i { N with
      pending := N.pending.erase it.sid.hex
      chain := (addShare (G.cfg i).params N.chain (it.call now)).1
      calls
      proofs := N.storeProof it.sid.hex it.proof
      relaying := N.relaying ++ [(it.share, peer)]
      accepted } := by
  obtain ⟨hchain, hhas⟩ := h.chain_after hG hit hnot hnow
  have hfresh : ¬N.Announced it.share := fun ha => hnot (h.announced it hit ha).1
  refine ⟨hchain, h.peers, fun id share hp => ?_, fun id hid => h.cached_storeProof hG hit hid,
    fun jt hjt ha => ?_, fun r hr => ?_, ?_, fun jt hjt hj => ?_⟩
  · dsimp only at hp
    rw [OrderedMap.get_erase] at hp
    split_ifs at hp with he
    obtain ⟨jt, hjt, rfl, rfl, hj⟩ := h.pending id share hp
    refine ⟨jt, hjt, rfl, rfl, fun hin => ?_⟩
    rcases (hhas jt hjt).mp hin with rfl | hin
    · exact he rfl
    · exact hj hin
  · obtain ⟨hj, hproof⟩ := h.announced jt hjt ha
    exact ⟨(hhas jt hjt).mpr (Or.inr hj), h.serves_storeProof hG hit hjt hproof⟩
  · rcases List.mem_append.mp hr with hr | hr
    · obtain ⟨jt, hjt, hr1, hs, hna, hne⟩ := h.relaying r hr
      exact ⟨jt, hjt, hr1, ⟨(hhas jt hjt).mpr (Or.inr hs.1),
        h.serves_storeProof hG hit hjt hs.2⟩, hna, hne⟩
    · cases List.mem_singleton.mp hr
      exact ⟨it, hit, rfl, ⟨(hhas it hit).mpr (Or.inl rfl),
        by rw [h.get_storeProof hG hit, if_pos rfl]⟩, hfresh, ho⟩
  · rw [List.map_append, List.map_singleton, ← List.concat_eq_append, List.nodup_concat]
    refine ⟨fun hin => ?_, h.nodup⟩
    obtain ⟨r, hr, he⟩ := List.mem_map.mp hin
    obtain ⟨jt, hjt, hr1, hs, -, -⟩ := h.relaying r hr
    exact hnot (hG.eq_of_share hjt hit (hr1.symm.trans he) ▸ hs.1)
  · rw [List.map_append, List.mem_append]
    rcases (hhas jt hjt).mp hj with rfl | hj
    · exact Or.inr (Or.inr (Or.inr (List.mem_singleton_self _)))
    · exact (h.due jt hjt hj).imp_right (Or.imp_right Or.inl)

end Spreads

end P2PNode

end P2Pearl
