import P2Pearl.Data.Machine
import P2Pearl.P2P.Spread

/-!
Gossip delivers, and the nodes agree.

* `GossipNet.Quiet`: nothing more can happen; `Carries.settled`: every item is announced by its
  origin then, and nothing is in flight.
* `rank_lt`: every event lowers the sum of the ranks of the floods.
* `gossip_delivers`: however messages and callbacks are ordered, a run has a bounded number of
  events, can be continued until it is quiet, and then every node that can be reached from the
  origin of an item has accepted it and serves its proof.
* `gossip_agrees`: then the best tips of the nodes weigh the same.
-/

namespace P2Pearl

variable {ι : Type} [DecidableEq ι] {G : GossipNet ι} {W W' : Network ι}

/-! ### Quiet states -/

/-- Nothing more can happen. -/
def GossipNet.Quiet (G : GossipNet ι) (W : Network ι) : Prop :=
  ∀ e, G.Allows W e → G.step W e = none

/-- Who can be reached. -/
def GossipNet.Reaches (G : GossipNet ι) : ι → ι → Prop :=
  Relation.ReflTransGen fun i j => j ∈ G.near i

/-- Events may follow each other. -/
def GossipNet.Runs (G : GossipNet ι) (W : Network ι) (events : List (Network.Event ι))
    (W' : Network ι) : Prop :=
  Machine.Along G.step G.Allows W events ∧ Machine.run G.step W events = some W'

lemma GossipNet.Quiet.inFlight (h : G.Quiet W) : W.inFlight = [] := by
  have hnone := h (.deliver 0 fun _ => G.start) (.deliver 0 _ fun _ => le_rfl)
  by_contra hne
  obtain ⟨m, rest, he⟩ := List.exists_cons_of_ne_nil hne
  rw [GossipNet.step, Network.step, he] at hnone
  simp [P2PNode.react] at hnone

lemma GossipNet.Quiet.relaying (h : G.Quiet W) (i : ι) : (W.node i).relaying = [] := by
  have hnone := h (.own i (.relay 0)) (.relay i 0)
  by_contra hne
  obtain ⟨r, rest, he⟩ := List.exists_cons_of_ne_nil hne
  change (((W.node i).relaying[0]?.map _).map _) = none at hnone
  simp [he] at hnone

/-- Every item has been mined and announced. -/
lemma GossipNet.Quiet.announced (h : G.Quiet W) {it : Item ι} (hit : it ∈ G.items) :
    (W.node it.origin).Has it.sid ∧ (W.node it.origin).Announced it.share := by
  have hhas : (W.node it.origin).Has it.sid := by
    by_contra hnew
    exact Option.some_ne_none _ (h _ (.submit it G.start hit le_rfl hnew))
  refine ⟨hhas, ?_⟩
  by_contra hdue
  have hnone := h _ (.broadcast it hit hhas hdue)
  obtain ⟨result, hr⟩ : ∃ result, (W.node it.origin).react (G.cfg it.origin)
      (.broadcastShare it.share it.proof) = some result := by
    rw [P2PNode.react, it.id]
    exact ⟨_, rfl⟩
  change ((W.node it.origin).react _ _).map _ = none at hnone
  rw [hr] at hnone
  cases hnone

variable [Fintype ι]

/-- In a quiet state the flood of an item is over. -/
lemma Carries.settled (h : Carries G W) (hquiet : G.Quiet W) {it : Item ι} (hit : it ∈ G.items) :
    (W.flood it).packets = 0 ∧ (W.flood it).due = ∅ := by
  constructor
  · simp [Network.flood, hquiet.inFlight]
  · refine Finset.eq_empty_of_forall_notMem fun i hi => ?_
    obtain ⟨hhas, hdue⟩ := Network.mem_nodesWith.mp hi
    rcases (h.node i).due it hit hhas with ha | rfl | hw
    · exact hdue ha
    · exact hdue (hquiet.announced hit).2
    · rw [hquiet.relaying] at hw
      cases hw

/-- Then whoever can be reached from its origin serves it. -/
lemma Carries.serves_of_quiet (h : Carries G W) (hquiet : G.Quiet W) {it : Item ι}
    (hit : it ∈ G.items) {i : ι} (hpath : G.Reaches it.origin i) : (W.node i).Serves it := by
  obtain ⟨hpackets, hdue⟩ := h.settled hquiet hit
  have hin := (h.flood it hit).reaches (Network.mem_nodesWith.mpr (hquiet.announced hit).1)
    hpackets hdue hpath
  refine (h.node i).announced it hit ?_
  by_contra hnot
  have hmem : i ∈ (W.flood it).due :=
    Network.mem_nodesWith.mpr ⟨Network.mem_nodesWith.mp hin, hnot⟩
  rw [hdue] at hmem
  exact Finset.notMem_empty i hmem

/-! ### Runs -/

/-- What is left to do for all items. -/
noncomputable def GossipNet.rank (G : GossipNet ι) (W : Network ι) : ℕ :=
  (G.items.map fun it => (W.flood it).rank G.near).sum

/-- An event lowers the rank. -/
lemma rank_lt (h : Carries G W) {it : Item ι} (hmoves : FloodMoves G it W W') :
    G.rank W' < G.rank W := by
  refine List.sum_lt_sum _ _ (fun jt hjt => ?_) ⟨it, hmoves.mem, ?_⟩
  · by_cases he : jt = it
    · rw [he]
      exact (Flood.rank_lt_of_step (h.flood it hmoves.mem) hmoves.step).le
    · rw [hmoves.others jt hjt he]
  · exact Flood.rank_lt_of_step (h.flood it hmoves.mem) hmoves.step

/-- At the start there is as much to do for each item. -/
lemma rank_of_starts (hG : G.Fair) (h : G.Starts W) :
    G.rank W = G.items.length * ∑ i, ((G.near i).card + 3) := by
  have hempty : ∀ it ∈ G.items,
      (W.flood it).rank G.near = ∑ i, ((G.near i).card + 3) := fun it hit => by
    have hnot : it.origin ∉ (W.flood it).has := fun hin => by
      obtain ⟨sid, e, hadm⟩ := ((hG.ready it.origin).accepts it hit).admits
      cases Except.ok.inj (hadm.id.symm.trans it.id)
      refine Network.mem_nodesWith.mp hin ?_
      rw [h.chain]
      exact Store.get_eq_none_iff.mp hadm.valid.fresh
    rw [((carries_of_starts hG h).flood it hit).origin hnot, Flood.rank_empty]
  rw [GossipNet.rank, List.map_congr_left hempty, List.map_const', List.sum_replicate,
    smul_eq_mul]

lemma Carries.run (hG : G.Fair) (h : Carries G W) {events : List (Network.Event ι)}
    (hruns : G.Runs W events W') : Carries G W' :=
  Machine.run_invariant (fun _ _ _ ha hs h => (flood_step hG h ha hs).1) hruns.1 h hruns.2

/-- A run can be continued until nothing more can happen. -/
lemma Carries.exists_quiet (hG : G.Fair) (h : Carries G W) :
    ∃ events W', G.Runs W events W' ∧ G.Quiet W' := by
  induction hn : G.rank W using Nat.strong_induction_on generalizing W with
  | _ n ih =>
      by_cases hquiet : G.Quiet W
      · exact ⟨[], W, ⟨trivial, rfl⟩, hquiet⟩
      · obtain ⟨e, he⟩ := not_forall.mp hquiet
        obtain ⟨ha, hne⟩ := Classical.not_imp.mp he
        obtain ⟨W₁, hs⟩ := Option.ne_none_iff_exists'.mp hne
        obtain ⟨h₁, it, hmoves⟩ := flood_step hG h ha hs
        obtain ⟨events, W', hruns, hq⟩ := ih _ (hn ▸ rank_lt h hmoves) h₁ rfl
        refine ⟨e :: events, W', ⟨⟨ha, fun s hs' => ?_⟩, ?_⟩, hq⟩
        · cases hs.symm.trans hs'
          exact hruns.1
        · exact Machine.run_cons_eq_some_iff.mpr ⟨W₁, hs, hruns.2⟩

/-- **Gossip delivers**: let honest nodes start with what they have, mine the items, none of which
builds on another, and broadcast them, while messages and callbacks come in any order.  Then no run
has more events than three for each node and each item, and one for each neighbour; a run can be
continued until nothing more can happen; and then every node that can be reached from the origin of
an item has it in its sharechain and serves its proof. -/
theorem gossip_delivers (G : GossipNet ι) (hG : G.Fair) (W W' : Network ι) (hW : G.Starts W)
    (events : List (Network.Event ι)) (hruns : G.Runs W events W') :
    events.length ≤ G.items.length * ∑ i, ((G.near i).card + 3)
      ∧ (∃ more W'', G.Runs W' more W'' ∧ G.Quiet W'')
      ∧ (G.Quiet W' → ∀ it ∈ G.items, ∀ i, G.Reaches it.origin i → (W'.node i).Serves it) := by
  have h := carries_of_starts hG hW
  have h' := h.run hG hruns
  refine ⟨?_, h'.exists_quiet hG, fun hquiet it hit i hpath => h'.serves_of_quiet hquiet hit hpath⟩
  have hlt : ∀ s e s', G.Allows s e → G.step s e = some s' → Carries G s → G.rank s' < G.rank s :=
    fun s e s' ha hs hI => (flood_step hG hI ha hs).2.elim fun it hm => rank_lt hI hm
  have hle := Machine.length_add_rank_le (fun s e s' ha hs hI => (flood_step hG hI ha hs).1) hlt
    hruns.1 h hruns.2
  rw [rank_of_starts hG hW] at hle
  exact (Nat.le_add_right _ _).trans hle

/-! ### A network of three -/

/-- A share mined by one of three nodes. -/
def lineItem (share : ShareBlock) (origin : Fin 3)
    (id : share.shareId = .ok (doubleSha256 share.wire)) : Item (Fin 3) where
  share := share
  sid := doubleSha256 share.wire
  origin := origin
  proof := zeroProof
  bytes := [65, 65, 65, 65]
  id := id
  encoded := encodeAscii_zeroProof

/-- Three nodes in a line. -/
def lineLink : Fin 3 → ℕ → Option (Fin 3 × ℕ)
  | 0, 1 => some (1, 1)
  | 1, 1 => some (0, 1)
  | 1, 2 => some (2, 1)
  | 2, 1 => some (1, 2)
  | _, _ => none

lemma lineLink_symm (i : Fin 3) (p : ℕ) (j : Fin 3) (q : ℕ) (h : lineLink i p = some (j, q)) :
    lineLink j q = some (i, p) := by
  unfold lineLink at h
  split at h <;> cases h <;> rfl

/-- They have the first share of a pool, and the outer ones mine two shares on it.  All of them
verify everything. -/
def lineNet : GossipNet (Fin 3) where
  links := ⟨lineLink, lineLink_symm⟩
  cfg _ := ⟨shortParams, fun _ _ => .ok true, fun _ => .error .typeError⟩
  items := [lineItem (pacedChain 1) 0 pacedChain_one_id,
    lineItem (rivalChain 1) 2 rivalChain_one_id]
  start := 0
  base _ := [verifiedCall (pacedChain 0)]
  cached _ := []
  peers i := if i = 1 then [1, 2] else [1]

lemma lineNet_fair : lineNet.Fair where
  ready i := by
    have haccepts : ∀ it ∈ lineNet.items,
        (addShare shortParams (run shortParams [verifiedCall (pacedChain 0)]).chain
          (it.call 0)).2 = .ok ⟨true, true, ""⟩ := by decide +kernel
    have hrecent : ∀ it ∈ lineNet.items,
        (run shortParams [verifiedCall (pacedChain 0)]).peak
          ≤ it.share.sidechainHeight + shortParams.window := by decide +kernel
    refine ⟨show 1 ≤ shortParams.retargetWindow by decide,
      show shortParams.retargetWindow ≤ shortParams.window by decide, ?_,
      fun it hit => ⟨true, "", haccepts it hit⟩, hrecent, ?_⟩
    · change CollisionFree ([verifiedCall (pacedChain 0)].map Call.share
        ++ lineNet.items.map Item.share)
      decide +kernel
    · change ∀ it ∈ lineNet.items, ∀ jt ∈ lineNet.items,
        jt.share.sidechainHeight ≤ it.share.sidechainHeight + shortParams.window
      decide +kernel
  nodup := by decide +kernel
  verifies _ _ _ := rfl
  room _ := show 0 + 2 ≤ maxStoredProofs by decide
  connected := by decide

/-- Three nodes with the first share and nothing else but each other. -/
def lineStart : Network (Fin 3) :=
  ⟨fun i => { P2PNode.init with
    chain := (run shortParams [verifiedCall (pacedChain 0)]).chain
    peers := lineNet.peers i
    peerSeq := 2 }, []⟩

lemma lineNet_starts : lineNet.Starts lineStart where
  quiet := rfl
  chain _ := rfl
  peers _ := rfl
  pending _ _ := rfl
  relaying _ := rfl
  cached _ _ h := absurd rfl h
  announced _ _ _ h := by
    obtain ⟨a, ha, -⟩ := h
    cases ha

/-- Each of them can be reached from the others. -/
lemma lineNet_reaches (i j : Fin 3) : lineNet.Reaches i j := by
  have hnear : ∀ i j : Fin 3, i = 1 ∨ j = 1 → i ≠ j → j ∈ lineNet.near i := by decide
  by_cases hij : i = j
  · exact hij ▸ .refl
  · by_cases hmid : i = 1 ∨ j = 1
    · exact .single (hnear i j hmid hij)
    · obtain ⟨hi, hj⟩ := not_or.mp hmid
      exact .tail (.single (hnear i 1 (Or.inr rfl) hi)) (hnear 1 j (Or.inl rfl) (Ne.symm hj))

/-- The shares that the outer nodes mine come to all three, over the one in the middle. -/
theorem gossip_delivers_line : ∃ events W', lineNet.Runs lineStart events W'
    ∧ ∀ it ∈ lineNet.items, ∀ i, (W'.node i).Serves it := by
  obtain ⟨events, W', hruns, hquiet⟩ :=
    (carries_of_starts lineNet_fair lineNet_starts).exists_quiet lineNet_fair
  have hdelivers := (gossip_delivers lineNet lineNet_fair lineStart W' lineNet_starts events
    hruns).2.2 hquiet
  exact ⟨events, W', hruns, fun it hit i => hdelivers it hit i (lineNet_reaches _ _)⟩

/-! ### The best tips -/

/-- Who has accepted more has a best tip of no less work. -/
lemma bestWork_le_of_ids {P : Params} {pool : List ShareBlock} (hpool : CollisionFree pool)
    {calls calls' : List Call} (hcalls : calls.map Call.share ⊆ pool)
    (hcalls' : calls'.map Call.share ⊆ pool)
    (h : ∀ k ∈ (run P calls).ids, k ∈ (run P calls').ids) :
    (run P calls).chain.bestWork ≤ (run P calls').chain.bestWork := by
  rcases run_firstMax P calls with ⟨hnone, -⟩ | ⟨tip, e, ht, he, hmax⟩
  · simp [Sharechain.bestWork, hnone]
  · rw [bestWork_of_tip ht he]
    have hrec := subMap_record calls _ _ he
    obtain ⟨e', he'⟩ := Option.ne_none_iff_exists'.mp
      (mt record_eq_none_iff.mp (not_not.mpr (h tip (List.mem_map_of_mem hmax.mem))))
    rw [← cumulative_agree hpool hcalls hcalls' hrec he']
    exact le_bestWork (mem_of_recordOf he')

omit [DecidableEq ι] [Fintype ι] in
/-- What a sharechain accepts after its past are items. -/
lemma AddItems.mem_ids {P : Params} {items : List (Item ι)} {base added : List Call}
    (h : AddItems items added) {k : Hash32} (hk : k ∈ (run P (base ++ added)).ids) :
    k ∈ (run P base).ids ∨ ∃ it ∈ items, it.sid = k := by
  induction added using List.reverseRecOn with
  | nil => exact Or.inl (by rwa [List.append_nil] at hk)
  | append_singleton added call ih =>
      have hpast := ih fun c hc => h c (List.mem_append_left _ hc)
      rw [← List.append_assoc, run_append] at hk
      rcases step_cases (P := P) (run_tipStored (base ++ added)) call with
        ⟨hsame, -⟩ | ⟨sid, e, hadm, -⟩
      · rw [hsame] at hk
        exact hpast hk
      · rw [← run_append, ids_of_admits hadm, List.mem_cons] at hk
        rcases hk with rfl | hk
        · obtain ⟨it, hit, he⟩ := h call (by simp)
          exact Or.inr ⟨it, hit, Except.ok.inj (it.id.symm.trans (he ▸ hadm.id))⟩
        · exact hpast hk

/-- **Gossip agrees**: once nothing more can happen, two nodes that can be reached from the origins
of all items, and that started with the same shares, have best tips of the same work. -/
theorem gossip_agrees (G : GossipNet ι) (hG : G.Fair) (W W' : Network ι) (hW : G.Starts W)
    (events : List (Network.Event ι)) (hruns : G.Runs W events W') (hquiet : G.Quiet W') (i j : ι)
    (hi : ∀ it ∈ G.items, G.Reaches it.origin i) (hj : ∀ it ∈ G.items, G.Reaches it.origin j)
    (hparams : (G.cfg i).params = (G.cfg j).params)
    (hbase : ∀ k, k ∈ (run (G.cfg i).params (G.base i)).ids
      ↔ k ∈ (run (G.cfg j).params (G.base j)).ids)
    (hpool : CollisionFree ((G.base i ++ G.base j).map Call.share ++ G.items.map Item.share)) :
    (W'.node i).chain.bestWork = (W'.node j).chain.bestWork := by
  have h' := (carries_of_starts hG hW).run hG hruns
  -- one direction, between any two such nodes
  have hle : ∀ i j, (∀ it ∈ G.items, G.Reaches it.origin j) →
      (G.cfg i).params = (G.cfg j).params →
      (∀ k, k ∈ (run (G.cfg i).params (G.base i)).ids
        → k ∈ (run (G.cfg j).params (G.base j)).ids) →
      CollisionFree ((G.base i ++ G.base j).map Call.share ++ G.items.map Item.share) →
      (W'.node i).chain.bestWork ≤ (W'.node j).chain.bestWork := by
    intro i j hj hparams hbase hpool
    obtain ⟨added, hadded, hchain⟩ := (h'.node i).chain
    obtain ⟨added', hadded', hchain'⟩ := (h'.node j).chain
    rw [hchain, hchain', hparams]
    rw [hparams] at hbase
    refine bestWork_le_of_ids hpool (fun s hs => ?_) (fun s hs => ?_) fun k hk => ?_
    · refine (List.mem_append.mp (hadded.shares_subset _ hs)).elim (fun hs => ?_)
        (List.mem_append_right _)
      exact List.mem_append_left _ (by rw [List.map_append]; exact List.mem_append_left _ hs)
    · refine (List.mem_append.mp (hadded'.shares_subset _ hs)).elim (fun hs => ?_)
        (List.mem_append_right _)
      exact List.mem_append_left _ (by rw [List.map_append]; exact List.mem_append_right _ hs)
    · rcases hadded.mem_ids hk with hold | ⟨it, hit, rfl⟩
      · exact ((accepted_suffix (G.base j) added').map Prod.fst).subset (hbase k hold)
      · have hserves := h'.serves_of_quiet hquiet hit (hj it hit)
        refine ((hG.ready j).stored_iff hadded' hit).mp ?_
        rw [← hchain']
        exact hserves.1
  refine le_antisymm (hle i j hj hparams (fun k => (hbase k).mp) hpool)
    (hle j i hi hparams.symm (fun k => (hbase k).mpr) (hpool.mono fun s hs => ?_))
  simpa [or_assoc, or_left_comm] using hs

/-- Of the two shares, every node has the one it was given first for its best tip; their work is the
same. -/
theorem gossip_agrees_line : ∃ events W', lineNet.Runs lineStart events W'
    ∧ ∀ i j, (W'.node i).chain.bestWork = (W'.node j).chain.bestWork := by
  obtain ⟨events, W', hruns, hquiet⟩ :=
    (carries_of_starts lineNet_fair lineNet_starts).exists_quiet lineNet_fair
  have hcf : CollisionFree ((lineNet.base 0 ++ lineNet.base 0).map Call.share
      ++ lineNet.items.map Item.share) := by decide +kernel
  exact ⟨events, W', hruns, fun i j => gossip_agrees lineNet lineNet_fair lineStart W'
    lineNet_starts events hruns hquiet i j (fun it _ => lineNet_reaches it.origin i)
    (fun it _ => lineNet_reaches it.origin j) rfl (fun _ => Iff.rfl) hcf⟩

end P2Pearl
