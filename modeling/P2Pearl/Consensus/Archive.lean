import P2Pearl.Consensus.Selection
import P2Pearl.Consensus.TargetLimit
import P2Pearl.Consensus.Work

/-!
The sharechain as a ledger that forgets nothing.

* `Archives`: what a sharechain is for, without a store, a tip or pruning: a share is entered where
  it is valid over everything entered before.
* `Recent`: a share is presented no more than the window below the highest tip so far;
  `valid_record_iff`: over such a share the pruned store and the record judge alike.
* `refines_archive`: so a sharechain that is only presented recent shares is such a ledger: its
  decisions, its best tip, and the weights and the target there are those of the ledger.
-/

namespace P2Pearl

variable {P : Params}

/-! ### The ledger -/

/-- The ledger after a sequence of calls, newest entry first. -/
inductive Archives (P : Params) : List Call → List (Hash32 × Entry) → Prop
  | nil : Archives P [] []
  /-- A verified share that is valid over the ledger is entered. -/
  | enter {calls : List Call} {ledger : List (Hash32 × Entry)} {call : Call} {sid : Hash32}
      {e : Entry} (past : Archives P calls ledger)
      (admits : Admits P (recordOf ledger) call sid e) :
      Archives P (calls ++ [call]) ((sid, e) :: ledger)
  /-- Any other is not. -/
  | refuse {calls : List Call} {ledger : List (Hash32 × Entry)} {call : Call}
      (past : Archives P calls ledger)
      (refused : ¬∃ sid e, Admits P (recordOf ledger) call sid e) :
      Archives P (calls ++ [call]) ledger

/-- The share is no more than the window below the highest tip so far. -/
def Recent (P : Params) (H : History) (share : ShareBlock) : Prop :=
  H.peak ≤ share.sidechainHeight + P.window

/-- Every share of a run is presented while it is recent. -/
def AllRecent (P : Params) (calls : List Call) : Prop :=
  ∀ past call, past ++ [call] <+: calls → Recent P (run P past) call.share

/-! ### What is recent is stored -/

/-- An admission raises the peak to the height of the new share at most. -/
lemma Grows.peak_le_max {H H' : History} {sid : Hash32} {e : Entry} (h : Grows P H sid e H') :
    H'.peak ≤ max H.peak e.share.sidechainHeight := by
  cases h with
  | best => exact le_rfl
  | side => exact le_max_left _ _

/-- What was accepted within the retention of the peak is stored. -/
lemma stored_of_record (calls : List Call) :
    ∀ k x, (run P calls).record k = some x →
      (run P calls).peak ≤ x.share.sidechainHeight + P.retention →
      (run P calls).chain.entries k = some x := by
  refine run_induction (motive := fun H => ∀ k x, H.record k = some x →
    H.peak ≤ x.share.sidechainHeight + P.retention → H.chain.entries k = some x) calls
    (fun _ _ h => by cases h) fun past call sid e H' _ ih _ hgrow k x hx hpeak => ?_
  refine hgrow.entries.2 ?_ hpeak
  rw [hgrow.record] at hx
  rcases Store.set_eq_some_iff.mp hx with ⟨rfl, rfl⟩ | ⟨hne, hold⟩
  · exact Store.set_self
  · exact (Store.set_of_ne hne).trans (ih k x hold (hgrow.peak_le.trans hpeak))

section Recent

variable {H : History} {share : ShareBlock} {pe : Entry} (hret : Retained P H)
  (hpos : 1 ≤ P.retargetWindow) (hrw : P.retargetWindow ≤ P.window)
  (hpe : H.chain.entries share.prevShareId = some pe)
  (hheight : share.sidechainHeight = pe.share.sidechainHeight + 1) (hrecent : Recent P H share)

include hret hpe hheight hrecent

/-- The scan for uncles from a recent share is unbroken. -/
lemma scan_unbroken (hwindow : 1 ≤ P.window) :
    Unbroken H.chain.entries.get ShareBlock.up (P.uncleDepth + 1) (some share.prevShareId) := by
  refine unbroken_of_depth (fun s => s.sidechainHeight) hret.link (Store.get_of_some hpe) ?_
  have hpeak : H.peak ≤ share.sidechainHeight + P.window := hrecent
  have hr : P.retention = 2 * P.window + P.uncleDepth := rfl
  omega

include hpos hrw

/-- Any larger store derives the same target for a recent share. -/
lemma target_of_subMap {E : Store} (hsub : SubMap H.chain.entries E) (t : Option ℕ) :
    expectedTarget P E.get share.prevShareId t
      = expectedTarget P H.chain.entries.get share.prevShareId t := by
  have hpeak : H.peak ≤ share.sidechainHeight + P.window := hrecent
  exact expectedTarget_congr ((lookBack_unbroken hret hpe (by omega) hpos hrw).agreeAlong
    (Store.subMap_get hsub)) t

/-- Any larger store scans the same ancestors for a recent share. -/
lemma scanned_of_subMap {E : Store} (hsub : SubMap H.chain.entries E) :
    scanned P E.get share = scanned P H.chain.entries.get share := by
  by_cases hg : share.prevShareId = genesisPrev
  · rw [scanned, scanned, ShareBlock.up, hg, link_genesisPrev, trail_none, trail_none]
  · rw [scanned, scanned, ShareBlock.up, link_of_ne hg]
    exact trail_eq_of_unbroken (Store.subMap_get hsub)
      (scan_unbroken hret hpe hheight hrecent (hpos.trans hrw))

end Recent

/-! ### The store judges like the record -/

section Judge

variable {calls : List Call} {share : ShareBlock} {now : ℚ} {sid : Hash32}
  (hpos : 1 ≤ P.retargetWindow) (hrw : P.retargetWindow ≤ P.window)
  (hrecent : Recent P (run P calls) share)

include hpos hrw hrecent

/-- A recent share that extends a stored parent extends it over the record. -/
lemma Extends.record {parent : ShareBlock}
    (h : Extends P (run P calls).chain.entries.get share parent) :
    Extends P (run P calls).record.get share parent := by
  have hsub := subMap_record (P := P) calls
  obtain ⟨pe, hpe, rfl⟩ := Store.get_eq_some_iff.mp h.stored
  have hret := run_retained P calls
  have hscan := scanned_of_subMap hret hpos hrw hpe h.height hrecent hsub
  refine ⟨h.prev, Store.subMap_get hsub _ _ h.stored, h.height, h.timestamp, h.parentHeight,
    fun t ht => h.target t ?_, fun uid huid => ?_⟩
  · rwa [target_of_subMap hret hpos hrw hpe h.height hrecent hsub] at ht
  · obtain ⟨uncle, hu⟩ := h.uncles uid huid
    exact ⟨uncle, Store.subMap_get hsub _ _ hu.stored, hscan ▸ hu.off_chain,
      hscan ▸ hu.unreferenced, hu.within, hu.below, hscan ▸ hu.sibling⟩

/-- A recent share that extends a parent over the record extends it in the store. -/
lemma Extends.of_record {parent : ShareBlock}
    (h : Extends P (run P calls).record.get share parent) :
    Extends P (run P calls).chain.entries.get share parent := by
  have hsub := subMap_record (P := P) calls
  have hpeak : (run P calls).peak ≤ share.sidechainHeight + P.window := hrecent
  have hr : P.retention = 2 * P.window + P.uncleDepth := rfl
  obtain ⟨pe, hrec, rfl⟩ := Store.get_eq_some_iff.mp h.stored
  have hheight := h.height
  have hpe := stored_of_record calls _ _ hrec (by omega)
  have hret := run_retained P calls
  have hscan := scanned_of_subMap hret hpos hrw hpe h.height hrecent hsub
  refine ⟨h.prev, Store.get_of_some hpe, h.height, h.timestamp, h.parentHeight,
    fun t ht => h.target t ?_, fun uid huid => ?_⟩
  · rwa [target_of_subMap hret hpos hrw hpe h.height hrecent hsub]
  · obtain ⟨uncle, hu⟩ := h.uncles uid huid
    obtain ⟨ue, hue, rfl⟩ := Store.get_eq_some_iff.mp hu.stored
    have hwithin := hu.within
    exact ⟨ue.share, Store.get_of_some (stored_of_record calls _ _ hue (by omega)),
      hscan.symm ▸ hu.off_chain, hscan.symm ▸ hu.unreferenced, hu.within, hu.below,
      hscan.symm ▸ hu.sibling⟩

/-- **The store judges a recent share like the record** of everything ever accepted. -/
lemma valid_record_iff
    (hsame : ∀ x, (run P calls).record sid = some x → x.share = share) :
    Valid P (run P calls).chain.entries.get share now sid
      ↔ Valid P (run P calls).record.get share now sid := by
  have hsub := subMap_record (P := P) calls
  have hpeak : (run P calls).peak ≤ share.sidechainHeight + P.window := hrecent
  have hr : P.retention = 2 * P.window + P.uncleDepth := rfl
  constructor
  · intro h
    refine ⟨?_, h.version, h.drift, h.coinbase, h.nodup, h.not_self, h.linked.imp_right
      fun ⟨parent, hx⟩ => ⟨parent, hx.record hpos hrw hrecent⟩⟩
    rw [Store.get_eq_none_iff, Option.eq_none_iff_forall_ne_some]
    intro x hx
    have hstored := stored_of_record calls _ _ hx (by rw [hsame x hx]; omega)
    rw [Store.get_eq_none_iff.mp h.fresh] at hstored
    cases hstored
  · intro h
    refine ⟨?_, h.version, h.drift, h.coinbase, h.nodup, h.not_self, h.linked.imp_right
      fun ⟨parent, hx⟩ => ⟨parent, hx.of_record hpos hrw hrecent⟩⟩
    rw [Store.get_eq_none_iff, Option.eq_none_iff_forall_ne_some]
    intro x hx
    have hrec := hsub _ _ hx
    rw [Store.get_eq_none_iff.mp h.fresh] at hrec
    cases hrec

end Judge

/-- Where ids do not collide, the record holds under the id of a share that share or nothing. -/
lemma record_share_eq {calls past : List Call} {call : Call} {sid : Hash32} {x : Entry}
    (hcf : CollisionFree (calls.map Call.share)) (hpre : past ++ [call] <+: calls)
    (hid : call.share.shareId = .ok sid) (hx : (run P past).record sid = some x) :
    x.share = call.share := by
  obtain ⟨hxid, hmem⟩ := mem_accepted past (mem_of_recordOf hx)
  have hsub : past.map Call.share ⊆ calls.map Call.share :=
    (((List.prefix_append _ _).trans hpre).map _).subset
  exact hcf _ (hsub hmem) _ ((hpre.map Call.share).subset (by simp)) sid hxid hid

/-- The work of a share that is valid over a store is the same over a larger one. -/
lemma cumulativeAfter_of_subMap {E E' : Store} (hsub : SubMap E E') {share : ShareBlock}
    {now : ℚ} {sid : Hash32} (h : Valid P E.get share now sid) :
    cumulativeAfter E' share = cumulativeAfter E share := by
  rw [cumulativeAfter, cumulativeAfter]
  rcases h.linked with hf | ⟨parent, hx⟩
  · rw [if_pos hf.prev, if_pos hf.prev]
  · obtain ⟨pe, hpe, -⟩ := Store.get_eq_some_iff.mp hx.stored
    have huncles : ∀ us : List Hash32, us ⊆ share.uncleIds →
        us.mapM E'.lookup = us.mapM E.lookup := by
      intro us hus
      induction us with
      | nil => rfl
      | cons uid us ih =>
          obtain ⟨hin, hrest⟩ := List.cons_subset.mp hus
          obtain ⟨uncle, hu⟩ := hx.uncles uid hin
          obtain ⟨ue, hue, -⟩ := Store.get_eq_some_iff.mp hu.stored
          rw [List.mapM_cons, List.mapM_cons, Store.lookup_of_some hue,
            Store.lookup_of_some (hsub _ _ hue), ih hrest]
    rw [if_neg hx.prev, if_neg hx.prev, Store.lookup_of_some hpe,
      Store.lookup_of_some (hsub _ _ hpe), huncles _ (List.Subset.refl _)]

/-- **The store admits a recent share like the record.** -/
lemma admits_record_iff {calls past : List Call} {call : Call} {sid : Hash32} {e : Entry}
    (hpos : 1 ≤ P.retargetWindow) (hrw : P.retargetWindow ≤ P.window)
    (hcf : CollisionFree (calls.map Call.share)) (hpre : past ++ [call] <+: calls)
    (hrecent : Recent P (run P past) call.share) :
    Admits P (run P past).chain.entries call sid e ↔ Admits P (run P past).record call sid e := by
  have hvalid : call.share.shareId = .ok sid →
      (Valid P (run P past).chain.entries.get call.share call.now sid
        ↔ Valid P (run P past).record.get call.share call.now sid) := fun hid =>
    valid_record_iff hpos hrw hrecent fun x hx => record_share_eq hcf hpre hid hx
  have hsub := subMap_record (P := P) past
  constructor
  · intro h
    exact ⟨h.verified, h.id, (hvalid h.id).mp h.valid,
      (cumulativeAfter_of_subMap hsub h.valid).trans h.cumulative, h.share, h.proof⟩
  · intro h
    have hstored := (hvalid h.id).mpr h.valid
    exact ⟨h.verified, h.id, hstored,
      (cumulativeAfter_of_subMap hsub hstored).symm.trans h.cumulative, h.share, h.proof⟩

/-! ### Runs -/

lemma AllRecent.of_prefix {past calls : List Call} (h : AllRecent P calls) (hpre : past <+: calls) :
    AllRecent P past := fun past' call hp => h past' call (hp.trans hpre)

/-- A run whose shares are at most the window below each share before them presents all of them
while they are recent. -/
lemma allRecent_of_heights {calls : List Call} (h : calls.Pairwise fun before call =>
      before.share.sidechainHeight ≤ call.share.sidechainHeight + P.window) :
    AllRecent P calls := by
  intro past call hpre
  refine peak_le past fun k e he => ?_
  obtain ⟨before, hbefore, hshare⟩ := List.mem_map.mp (mem_accepted past he).2
  rw [← hshare]
  exact (List.pairwise_append.mp (h.sublist hpre.sublist)).2.2 before hbefore call
    (List.mem_singleton.mpr rfl)

/-- What is in the ledger of a run is what the sharechain has accepted. -/
lemma archives_accepted (hpos : 1 ≤ P.retargetWindow) (hrw : P.retargetWindow ≤ P.window)
    {calls : List Call} (hcf : CollisionFree (calls.map Call.share)) (hall : AllRecent P calls) :
    ∀ past, past <+: calls → Archives P past (run P past).accepted := by
  intro past hpre
  induction past using List.reverseRecOn with
  | nil => exact .nil
  | append_singleton past call ih =>
      have ih := ih ((List.prefix_append _ _).trans hpre)
      have hiff (sid : Hash32) (e : Entry) : Admits P (run P past).chain.entries call sid e
          ↔ Admits P (run P past).record call sid e :=
        admits_record_iff hpos hrw hcf hpre (hall past call hpre)
      rw [run_append]
      rcases step_cases (P := P) (run_tipStored past) call with
        ⟨hsame, hno⟩ | ⟨sid, e, hadm, hgrow⟩
      · rw [hsame]
        exact ih.refuse fun ⟨sid, e, h⟩ => hno ⟨sid, e, (hiff sid e).mpr h⟩
      · rw [hgrow.accepted]
        exact ih.enter ((hiff sid e).mp hadm)

/-- The best tip is recent. -/
lemma tip_recent {calls : List Call} (hall : AllRecent P calls) :
    ∀ tip e, (run P calls).chain.bestTip = some tip → (run P calls).chain.entries tip = some e →
      Recent P (run P calls) e.share := by
  refine run_induction (motive := fun H => ∀ tip e, H.chain.bestTip = some tip →
    H.chain.entries tip = some e → Recent P H e.share) calls (fun _ _ h => by cases h)
    fun past call sid e H' hpre ih hadm hgrow tip x htip hx => ?_
  have hnew := hgrow.peak_le_max
  have hcall : (run P past).peak ≤ e.share.sidechainHeight + P.window := by
    rw [hadm.share]; exact hall past call hpre
  rcases Store.set_eq_some_iff.mp (hgrow.entries.1 hx) with ⟨-, rfl⟩ | ⟨hne, hold⟩
  · change H'.peak ≤ _
    omega
  · -- a tip that stays was recent before, and the peak has not moved
    cases hgrow with
    | best =>
        rw [prune_bestTip] at htip
        exact absurd (Option.some.inj htip).symm hne
    | side best b tip' => exact ih tip x (tip'.trans htip) hold

/-- What has been accepted stays on record. -/
lemma accepted_suffix (calls more : List Call) :
    (run P calls).accepted <:+ (run P (calls ++ more)).accepted := by
  induction more using List.reverseRecOn with
  | nil => rw [List.append_nil]
  | append_singleton more call ih =>
      rw [← List.append_assoc, run_append]
      rcases step_cases (P := P) (run_tipStored (calls ++ more)) call with
        ⟨hsame, -⟩ | ⟨sid, e, -, hgrow⟩
      · rw [hsame]
        exact ih
      · rw [hgrow.accepted]
        exact ih.trans (List.suffix_cons _ _)

/-- A call is accepted exactly when its share is admitted. -/
lemma accepts_iff {C : Sharechain} (htip : C.TipStored) {call : Call} :
    Accepts P C call ↔ ∃ sid e, Admits P C.entries call sid e := by
  refine ⟨Accepts.admits, fun ⟨sid, e, h⟩ => ?_⟩
  obtain ⟨isBestTip, hr⟩ := addShare_of_valid htip call h.verified
    (validate_eq_ok_none_iff.mpr ⟨sid, h.id, h.valid⟩)
  exact ⟨isBestTip, "", hr⟩

/-- **Refinement.**  A sharechain that is presented every share while it is recent stands for the
ledger of the same calls: it has accepted what the ledger has entered, in the same order; each call
is accepted exactly when the ledger enters it; the best tip is the first of the heaviest entries;
and the weights and the target at the tip, which the next job and the next check are made of, are
those of the whole ledger. -/
theorem refines_archive (P : Params) (hpos : 1 ≤ P.retargetWindow)
    (hrw : P.retargetWindow ≤ P.window) (calls : List Call)
    (hcf : CollisionFree (calls.map Call.share)) (hall : AllRecent P calls) :
    ∃ ledger, Archives P calls ledger
      ∧ (∀ past call, past ++ [call] <+: calls → ∃ before, Archives P past before
          ∧ before <:+ ledger
          ∧ (Accepts P (run P past).chain call
            ↔ ∃ sid e, Admits P (recordOf before) call sid e))
      ∧ ((run P calls).chain.bestTip = none ↔ ledger = [])
      ∧ ∀ tip, (run P calls).chain.bestTip = some tip →
          (∃ e, IsFirstMax workOf ledger (tip, e))
            ∧ (run P calls).chain.pplnsWeights P none
              = windowWeights P (recordOf ledger).get (some tip)
            ∧ ∀ t, expectedTarget P (run P calls).chain.entries.get tip t
              = expectedTarget P (recordOf ledger).get tip t := by
  have harchives := archives_accepted hpos hrw hcf hall
  have hselected := run_firstMax P calls
  refine ⟨_, harchives calls List.prefix_rfl, fun past call hpre => ?_, ?_, fun tip htip => ?_⟩
  · have hpast := (List.prefix_append _ _).trans hpre
    refine ⟨_, harchives past hpast, ?_, ?_⟩
    · obtain ⟨more, rfl⟩ := hpast
      exact accepted_suffix past more
    · rw [accepts_iff (run_tipStored past)]
      exact exists_congr fun sid => exists_congr fun e =>
        admits_record_iff hpos hrw hcf hpre (hall past call hpre)
  · rcases hselected with ⟨hnone, hnil⟩ | ⟨tip, e, htip, -, hmax⟩
    · exact iff_of_true hnone hnil
    · refine iff_of_false (by simp [htip]) fun hnil => ?_
      rw [hnil] at hmax
      exact List.not_mem_nil hmax.mem
  · obtain ⟨e, he, hmax⟩ : ∃ e, (run P calls).chain.entries tip = some e
        ∧ IsFirstMax workOf (run P calls).accepted (tip, e) := by
      rcases hselected with ⟨hnone, -⟩ | ⟨tip', e, htip', he, hmax⟩
      · rw [hnone] at htip; cases htip
      · cases htip'.symm.trans htip
        exact ⟨e, he, hmax⟩
    have hnear : (run P calls).peak ≤ e.share.sidechainHeight + P.window :=
      tip_recent hall tip e htip he
    have hret := run_retained P calls
    have hsub := subMap_record (P := P) calls
    refine ⟨⟨e, hmax⟩, ?_, fun t => ?_⟩
    · rw [Sharechain.pplnsWeights, htip]
      exact (windowWeights_of_subMap hret he (by omega) hsub).symm
    · exact (expectedTarget_congr ((lookBack_unbroken hret he (by omega) hpos hrw).agreeAlong
        (Store.subMap_get hsub)) t).symm

/-- Two branches, of which the second comes with an uncle and a share that is presented before its
parent, and six more shares, which prune the first one: the ledger still has it, and the heaviest
share, the weights and the target are those of the ledger. -/
theorem refines_archive_forked :
    let calls := ([pacedChain 0, pacedChain 1, rivalChain 1, pacedChain 3, nephewShare]
      ++ (List.range 5).map fun n => pacedChain (n + 2)).map verifiedCall
    let first := doubleSha256 (pacedChain 0).wire
    let tip := doubleSha256 (pacedChain 6).wire
    (run uncleParams calls).chain.entries first = none
      ∧ ∃ ledger, Archives uncleParams calls ledger ∧ (∃ e, IsFirstMax workOf ledger (tip, e))
        ∧ (run uncleParams calls).chain.pplnsWeights uncleParams none
          = windowWeights uncleParams (recordOf ledger).get (some tip)
        ∧ ∀ t, expectedTarget uncleParams (run uncleParams calls).chain.entries.get tip t
          = expectedTarget uncleParams (recordOf ledger).get tip t := by
  intro calls first tip
  have hrun : CollisionFree (calls.map Call.share)
      ∧ (run uncleParams calls).chain.entries first = none
      ∧ (run uncleParams calls).chain.bestTip = some tip := by
    decide +kernel
  obtain ⟨hcf, hpruned, htip⟩ := hrun
  obtain ⟨ledger, hledger, -, -, hselected⟩ := refines_archive uncleParams (by decide) (by decide)
    calls hcf (allRecent_of_heights (by decide +kernel))
  exact ⟨hpruned, ledger, hledger, hselected tip htip⟩

end P2Pearl
