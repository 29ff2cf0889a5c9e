import P2Pearl.Consensus.Agreement
import P2Pearl.Consensus.TargetLimit
import P2Pearl.Daemon.Acceptable

/-!
Whether a raced share is picked up.

* `Raced`: a stored share that `_validate` admits as an uncle of a child of the best tip.
* `uncleIds_of_job`: the candidate of `build_job_for` references no uncle;
  `valid_with_uncles`: it would be admitted just as well with any raced shares.
* `only_main_chain_counts`: so where all shares come from `build_job_for`, a share off the main
  chain counts for nothing.
* `raced_picked_up_iff`: raced shares are picked up exactly where there are none.
-/

namespace P2Pearl

variable {P : Params} {Ctx : Type}

/-- A stored share that `_validate` admits as an uncle of a child of the best tip. -/
def Raced (P : Params) (C : Sharechain) (uid : Hash32) : Prop :=
  ∃ child tip uncle : ShareBlock, C.bestTip = some child.prevShareId ∧ C.tip = some tip
    ∧ child.sidechainHeight = tip.sidechainHeight + 1
    ∧ AdmitsUncle P C.entries.get child uid uncle

/-- What `_validate` demands of an uncle depends on the height and the predecessor of the share. -/
lemma AdmitsUncle.congr {S : Shares} {s s' uncle : ShareBlock} {uid : Hash32}
    (h : AdmitsUncle P S s uid uncle) (hprev : s'.prevShareId = s.prevShareId)
    (hheight : s'.sidechainHeight = s.sidechainHeight) : AdmitsUncle P S s' uid uncle := by
  have hscan : scanned P S s' = scanned P S s := by
    rw [scanned, scanned, ShareBlock.up, hprev, ShareBlock.up]
  exact ⟨h.stored, by rw [hscan]; exact h.off_chain, by rw [hscan]; exact h.unreferenced,
    by rw [hheight]; exact h.within, by rw [hheight]; exact h.below,
    by rw [hscan]; exact h.sibling⟩

/-- The candidate of a job references no uncle. -/
lemma uncleIds_of_job {C : Sharechain} {template : Option ParentTemplate} {minPayout : ℕ}
    {makeHeader : MakeHeader Ctx} {factor : ℕ+} {now : ℚ} {addr : PyStr} {job : Job Ctx}
    (h : buildJobFor P C template minPayout makeHeader factor now addr = .ok (some job)) :
    job.context.candidate.uncleIds = [] := by
  obtain ⟨t, -, hjob⟩ := jobFor_of_buildJobFor h
  obtain ⟨prev, limit, payoutSet, sid, -, -, -, hdata, -⟩ := jobFor_eq_ok_iff.mp hjob
  rw [hdata]
  rfl

/-- A valid share on the best tip is as valid with any raced shares for uncles. -/
lemma valid_with_uncles {C : Sharechain} {s s' tip : ShareBlock} {now : ℚ} {sid sid' : Hash32}
    (h : Valid P C.entries.get s now sid) (htip : C.tip = some tip)
    (hbest : C.bestTip = some s.prevShareId) (hheight : s.sidechainHeight = tip.sidechainHeight + 1)
    (hsame : s'.toShareData = { s.toShareData with uncleIds := s'.uncleIds })
    (hnodup : s'.uncleIds.Nodup) (hraced : ∀ uid ∈ s'.uncleIds, Raced P C uid)
    (hfresh : C.entries.get sid' = none) (hself : sid' ∉ s'.uncleIds) :
    Valid P C.entries.get s' now sid' := by
  have hprev : s'.prevShareId = s.prevShareId := by rw [hsame]
  have hheight' : s'.sidechainHeight = s.sidechainHeight := by rw [hsame]
  have hstamp : s'.timestamp = s.timestamp := by rw [hsame]
  have hparent : s'.parentHeight = s.parentHeight := by rw [hsame]
  have hlimit : s'.targetLimit = s.targetLimit := by rw [hsame]
  have hvalue : s'.coinbaseValue = s.coinbaseValue := by rw [hsame]
  refine ⟨hfresh, by rw [hsame]; exact h.version, by rw [hstamp]; exact h.drift,
    by rw [hvalue, hparent]; exact h.coinbase, hnodup, hself, ?_⟩
  rcases h.linked with hf | ⟨parent, hx⟩
  · exact absurd hf.height (by omega)
  · refine Or.inr ⟨parent, by rw [hprev]; exact hx.prev, by rw [hprev]; exact hx.stored,
      by rw [hheight']; exact hx.height, by rw [hstamp]; exact hx.timestamp,
      by rw [hparent]; exact hx.parentHeight, by rw [hprev, hstamp, hlimit]; exact hx.target,
      fun uid hu => ?_⟩
    obtain ⟨child, tip', uncle, hbest', htip', hchild, hadmits⟩ := hraced uid hu
    cases htip.symm.trans htip'
    have hlink : s.prevShareId = child.prevShareId := Option.some.inj (hbest.symm.trans hbest')
    exact ⟨uncle, hadmits.congr (hprev.trans hlink) (by rw [hheight', hheight, hchild])⟩

/-! ### Shares without uncles -/

/-- Where no accepted share references an uncle, no walk meets one. -/
lemma uncleRefs_eq_nil {S : Shares} (h : ∀ k s, S k = some s → s.uncleIds = []) (n : ℕ)
    (start : Option Hash32) : uncleRefs (trail S ShareBlock.up n start) = [] :=
  List.flatMap_eq_nil_iff.mpr fun p hp => h p.1 p.2 (stored_of_mem_trail hp)

/-- What a walk without uncles contributes. -/
lemma contributions_of_no_uncles {S : Shares} {t : List (Hash32 × ShareBlock)}
    (h : ∀ p ∈ t, p.2.uncleIds = []) : contributions P S t
      = t.map fun p => (p.1, p.2.minerAddress, (p.2.difficulty : ℤ)) := by
  induction t with
  | nil => rfl
  | cons p t ih =>
      rw [contributions_cons, h p List.mem_cons_self,
        ih fun q hq => h q (List.mem_cons_of_mem _ hq)]
      rfl

/-- **Only the main chain counts** in a run whose shares reference no uncle: the cumulative
difficulty of a stored share is the work of its main-chain ancestors alone, and an address is
weighed with its shares on the walked main chain alone. -/
theorem only_main_chain_counts {calls : List Call} (hcf : CollisionFree (calls.map Call.share))
    (hnone : ∀ c ∈ calls, c.share.uncleIds = []) {k : Hash32} {e : Entry}
    (he : (run P calls).chain.entries k = some e) :
    let S := (run P calls).chain.entries.get
    e.cumulativeDifficulty
        = ((ancestry (run P calls).record.get k e.share).map fun p => p.2.difficulty).sum
      ∧ ∀ a, sumAt ((run P calls).chain.pplnsWeights P (some k)) a
        = sumAt ((trail S ShareBlock.up P.window (some k)).map fun p =>
            (p.2.minerAddress, (p.2.difficulty : ℤ))) a := by
  intro S
  have hrecord : ∀ k s, (run P calls).record.get k = some s → s.uncleIds = [] := by
    intro k s hs
    obtain ⟨call, hcall, hshare⟩ := List.mem_map.mp (mem_record hs).2
    rw [← hshare]
    exact hnone call hcall
  have hstored : ∀ k s, S k = some s → s.uncleIds = [] := fun k s hs =>
    hrecord k s (Store.subMap_get (subMap_record calls) k s hs)
  have hrefs := uncleRefs_eq_nil hstored P.window (some k)
  have hcontributions := contributions_of_no_uncles (P := P) (S := S)
    (t := trail S ShareBlock.up P.window (some k)) fun p hp =>
      hstored p.1 p.2 (stored_of_mem_trail hp)
  constructor
  · rw [(run_ledger (P := P) calls hcf).work k e (subMap_record calls k e he), workOver, ancestry,
      uncleRefs_eq_nil hrecord]
    rfl
  · intro a
    change sumAt (sortByWeight (creditWindow P S P.window (some k) (Tally.empty, [])).items) a = _
    rw [creditWindow_eq (by rw [hrefs]; exact List.nodup_nil), hcontributions,
      sumAt_sortByWeight]
    change sumAt (Tally.ofList _).items a = _
    rw [Tally.sumAt_ofList, List.map_map]
    rfl

/-! ### The pick-up -/

/-- The predecessor and the height of the candidate of a job. -/
lemma linked_of_job {calls : List Call} {template : Option ParentTemplate} {minPayout : ℕ}
    {makeHeader : MakeHeader Ctx} {factor : ℕ+} {now : ℚ} {addr : PyStr} {job : Job Ctx}
    {tip : ShareBlock}
    (h : buildJobFor P (run P calls).chain template minPayout makeHeader factor now addr
      = .ok (some job)) (htip : (run P calls).chain.tip = some tip) :
    (run P calls).chain.bestTip = some job.context.candidate.prevShareId
      ∧ job.context.candidate.sidechainHeight = tip.sidechainHeight + 1 := by
  obtain ⟨t, -, hjob⟩ := jobFor_of_buildJobFor h
  obtain ⟨prev, limit, payoutSet, sid, hprev, -, -, hdata, -⟩ := jobFor_eq_ok_iff.mp hjob
  have hlink : job.context.candidate.prevShareId = prev := by rw [hdata]; rfl
  have hheight : job.context.candidate.sidechainHeight = (run P calls).chain.nextHeight := by
    rw [hdata]; rfl
  refine ⟨?_, hheight.trans (Sharechain.nextHeight_of_tip htip)⟩
  cases hb : (run P calls).chain.bestTip with
  | none =>
      rw [Sharechain.tip, hb] at htip
      cases htip
  | some tipId =>
      rw [nextPrev_run, hb] at hprev
      rw [hlink, ← Except.ok.inj hprev]
      rfl

/-- **Raced shares are never picked up.**  In every reachable chain, the candidate of the job
references every share `_validate` admits as an uncle of a child of the best tip, and is accepted,
exactly where there is no such share.  The candidate references none; with any of them, each once,
it would be accepted wherever it is without. -/
theorem raced_picked_up_iff (P : Params) (calls : List Call) (template : ParentTemplate)
    (minPayout : ℕ) (makeHeader : MakeHeader Ctx) (factor : ℕ+) (now : ℚ) (addr : PyStr) :
    let C := (run P calls).chain
    ((∀ uid, Raced P C uid → ∃ job,
          buildJobFor P C (some template) minPayout makeHeader factor now addr = .ok (some job)
          ∧ uid ∈ job.context.candidate.uncleIds
          ∧ validate P C.entries.get job.context.candidate now = .ok none)
        ↔ ∀ uid, ¬Raced P C uid)
      ∧ ∀ job, buildJobFor P C (some template) minPayout makeHeader factor now addr
          = .ok (some job) → job.context.candidate.uncleIds = []
        ∧ ∀ (s : ShareBlock) (sid : Hash32), C.bestTip ≠ none →
          validate P C.entries.get job.context.candidate now = .ok none →
          s.toShareData = { job.context.candidate.toShareData with uncleIds := s.uncleIds } →
          s.uncleIds.Nodup → (∀ uid ∈ s.uncleIds, Raced P C uid) →
          s.shareId = .ok sid → sid ∉ s.uncleIds → C.entries sid = none →
          validate P C.entries.get s now = .ok none := by
  intro C
  refine ⟨⟨fun h uid hraced => ?_, fun h uid hraced => absurd hraced (h uid)⟩,
    fun job hjob => ⟨uncleIds_of_job hjob, ?_⟩⟩
  · obtain ⟨job, hjob, hmem, -⟩ := h uid hraced
    rw [uncleIds_of_job hjob] at hmem
    cases hmem
  · intro s sid hbest hval hsame hnodup hraced hid hself hfresh
    obtain ⟨tipId, hb⟩ := Option.ne_none_iff_exists'.mp hbest
    obtain ⟨e, -, htip, -⟩ := tip_of_bestTip hb
    obtain ⟨hlink, hheight⟩ := linked_of_job hjob htip
    obtain ⟨sid', -, hvalid⟩ := validate_eq_ok_none_iff.mp hval
    exact validate_eq_ok_none_iff.mpr ⟨sid, hid, valid_with_uncles hvalid htip hlink hheight hsame
      hnodup hraced (Store.get_eq_none_iff.mpr hfresh) hself⟩

/-- Two children of the first share race, and the job does not reference the one that lost. -/
theorem raced_share_left_out : ¬∀ (P : Params) (calls : List Call) (template : ParentTemplate)
    (factor : ℕ+) (now : ℚ) (addr : PyStr) (uid : Hash32), addr ≠ [] → IsAscii addr →
    1 ≤ template.height → template.height < 2 ^ 32 → (template.curtime : ℚ) ≤ now →
    Raced P (run P calls).chain uid → ∃ job : Job Unit,
      buildJobFor P (run P calls).chain (some template) minPayoutGrains (fun _ _ _ => .ok ([], ()))
        factor now addr = .ok (some job)
      ∧ uid ∈ job.context.candidate.uncleIds
      ∧ validate P (run P calls).chain.entries.get job.context.candidate now = .ok none := by
  intro h
  let P : Params := { shortParams with uncleDepth := 3 }
  let lost : ShareBlock := { pacedChain 1 with minerAddress := ['b'] }
  let calls := [pacedChain 0, pacedChain 1, lost].map verifiedCall
  let uid := doubleSha256 lost.wire
  have hrun : (run P calls).chain.bestTip = some (pacedChain 2).prevShareId
      ∧ (run P calls).chain.tip = some (pacedChain 1)
      ∧ (run P calls).chain.entries.get uid = some lost
      ∧ uid ∉ (scanned P (run P calls).chain.entries.get (pacedChain 2)).map Prod.fst
      ∧ uid ∉ uncleRefs (scanned P (run P calls).chain.entries.get (pacedChain 2))
      ∧ lost.prevShareId
        ∈ (scanned P (run P calls).chain.entries.get (pacedChain 2)).map Prod.fst := by
    decide +kernel
  obtain ⟨hbest, htip, hstored, hoff, hnew, hsibling⟩ := hrun
  obtain ⟨job, hjob, hmem, -⟩ := h P calls firstTemplate 1 0 ['a'] uid (by decide) (by decide)
    (by decide) (by decide) (by simp [firstTemplate])
    ⟨pacedChain 2, pacedChain 1, lost, hbest, htip, rfl,
      ⟨hstored, hoff, hnew, by decide, by decide, hsibling⟩⟩
  rw [uncleIds_of_job hjob] at hmem
  cases hmem

end P2Pearl
