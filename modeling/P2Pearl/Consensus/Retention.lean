import P2Pearl.Consensus.History

/-!
Pruning is invisible to consensus near the tip.

* `Retained`: the shares a stored share links to are stored too, as long as they lie within the
  retention of the peak, the largest height any best tip has had; `run_retained` establishes it
  for every run.
* `window_unbroken`: so every walk the rules make from a share at most `window + 1` below the peak
  finds all it asks for.
* `pruning_invisible`: on such a share the weights and the expected target are the ones the record
  of everything ever accepted gives, hence functions of the share's own ancestry.
-/

namespace P2Pearl

variable {P : Params}

/-- The parents and uncles of stored shares are stored within the retention of the peak. -/
structure Retained (P : Params) (H : History) : Prop where
  parent : ∀ k e, H.chain.entries k = some e → e.share.prevShareId ≠ genesisPrev →
    H.peak < e.share.sidechainHeight + P.retention →
    ∃ pe, H.chain.entries e.share.prevShareId = some pe
      ∧ e.share.sidechainHeight = pe.share.sidechainHeight + 1
  uncles : ∀ k e, H.chain.entries k = some e → ∀ uid ∈ e.share.uncleIds,
    H.peak + P.uncleDepth ≤ e.share.sidechainHeight + P.retention →
    ∃ u, H.chain.entries uid = some u
      ∧ e.share.sidechainHeight ≤ u.share.sidechainHeight + P.uncleDepth

/-- The retention survives an admission: what the new share links to was just found, and pruning
stays below the retention of the peak. -/
lemma Retained.grow {H H' : History} {call : Call} {sid : Hash32} {e : Entry}
    (ih : Retained P H) (hadm : Admits P H.chain.entries call sid e) (hgrow : Grows P H sid e H') :
    Retained P H' := by
  have hpeak := hgrow.peak_le
  have hsub := Store.subMap_set (e := e) hadm.fresh
  constructor
  · intro k x hx hne hp
    rcases Store.set_eq_some_iff.mp (hgrow.entries.1 hx) with ⟨-, rfl⟩ | ⟨-, hold⟩
    · rw [hadm.share] at hne hp ⊢
      rcases hadm.valid.linked with hf | ⟨parent, hext⟩
      · exact absurd hf.prev hne
      · obtain ⟨pe, hpe, rfl⟩ := Store.get_eq_some_iff.mp hext.stored
        have hh := hext.height
        exact ⟨pe, hgrow.entries.2 (hsub _ _ hpe) (by omega), hh⟩
    · obtain ⟨pe, hpe, hh⟩ := ih.parent k x hold hne (by omega)
      exact ⟨pe, hgrow.entries.2 (hsub _ _ hpe) (by omega), hh⟩
  · intro k x hx uid huid hp
    rcases Store.set_eq_some_iff.mp (hgrow.entries.1 hx) with ⟨-, rfl⟩ | ⟨-, hold⟩
    · rw [hadm.share] at huid hp ⊢
      rcases hadm.valid.linked with hf | ⟨parent, hext⟩
      · rw [hf.uncles] at huid; exact absurd huid List.not_mem_nil
      · obtain ⟨uncle, hu⟩ := hext.uncles uid huid
        obtain ⟨ue, hue, rfl⟩ := Store.get_eq_some_iff.mp hu.stored
        have hw := hu.within
        exact ⟨ue, hgrow.entries.2 (hsub _ _ hue) (by omega), hw⟩
    · obtain ⟨ue, hue, hw⟩ := ih.uncles k x hold uid huid (by omega)
      exact ⟨ue, hgrow.entries.2 (hsub _ _ hue) (by omega), hw⟩

/-- Every run retains. -/
lemma run_retained (P : Params) (calls : List Call) : Retained P (run P calls) :=
  run_induction calls ⟨fun _ _ h => (by cases h), fun _ _ h => (by cases h)⟩
    fun _ _ _ _ _ _ ih hadm hgrow => ih.grow hadm hgrow

/-- The retention, on the shares of the store. -/
lemma Retained.link {H : History} (h : Retained P H) (k : Hash32) (s : ShareBlock) (j : Hash32)
    (hs : H.chain.entries.get k = some s) (hp : H.peak < s.sidechainHeight + P.retention)
    (hup : s.up = some j) : ∃ w, H.chain.entries.get j = some w
      ∧ s.sidechainHeight = w.sidechainHeight + 1 := by
  obtain ⟨e, he, rfl⟩ := Store.get_eq_some_iff.mp hs
  obtain ⟨hne, rfl⟩ := ShareBlock.up_eq_some_iff.mp hup
  obtain ⟨pe, hpe, hh⟩ := h.parent k e he hne hp
  exact ⟨pe.share, Store.get_of_some hpe, hh⟩

section Near

variable {H : History} {p : Hash32} {e : Entry} (hret : Retained P H)
  (he : H.chain.entries p = some e)
  (hnear : H.peak ≤ e.share.sidechainHeight + P.window + 1)

include hret he hnear

/-- A walk over the window from a share near the tip meets no missing share. -/
lemma window_unbroken {n : ℕ} (hn : n ≤ P.window) :
    Unbroken H.chain.entries.get ShareBlock.up n (some p) := by
  refine unbroken_of_depth (fun s => s.sidechainHeight) hret.link (Store.get_of_some he) ?_
  have hr : P.retention = 2 * P.window + P.uncleDepth := rfl
  omega

/-- Every uncle the window of a share near the tip references is stored. -/
lemma window_uncles_stored {uid : Hash32}
    (huid : uid ∈ uncleRefs (trail H.chain.entries.get ShareBlock.up P.window (some p))) :
    ∃ u, H.chain.entries.get uid = some u := by
  obtain ⟨⟨j, s⟩, hq, hu⟩ := mem_uncleRefs.mp huid
  have hr : P.retention = 2 * P.window + P.uncleDepth := rfl
  have hdepth := rank_le_of_mem_trail (fun s => s.sidechainHeight) hret.link
    (Store.get_of_some he) (by omega) hq
  obtain ⟨x, hx, rfl⟩ := Store.get_eq_some_iff.mp (stored_of_mem_trail hq)
  obtain ⟨u, hu, -⟩ := hret.uncles j x hx uid hu (by simp only at hdepth; omega)
  exact ⟨u.share, Store.get_of_some hu⟩

/-- Any larger store agrees with the store on the window of a share near the tip. -/
lemma windowWeights_of_subMap {E : Store} (hsub : SubMap H.chain.entries E) :
    windowWeights P E.get (some p) = windowWeights P H.chain.entries.get (some p) := by
  have hget := Store.subMap_get hsub
  refine windowWeights_congr ((window_unbroken hret he hnear le_rfl).agreeAlong hget) ?_
  intro uid huid
  obtain ⟨u, hu⟩ := window_uncles_stored hret he hnear huid
  rw [hu, hget uid u hu]

/-- The look-back from a share near the tip is unbroken. -/
lemma lookBack_unbroken (hpos : 1 ≤ P.retargetWindow) (hrw : P.retargetWindow ≤ P.window) :
    Unbroken H.chain.entries.get ShareBlock.up (max 1 P.retargetWindow) (link p) := by
  by_cases hg : p = genesisPrev
  · rw [hg, link_genesisPrev]; exact unbroken_none _
  · rw [link_of_ne hg]
    exact window_unbroken hret he hnear (by omega)

end Near

/-- Two stores hold the same shares on the window of `p`: its main-chain ancestors and the uncles
they reference. -/
def SameAncestry (P : Params) (S S' : Shares) (p : Hash32) : Prop :=
  AgreeAlong S S' ShareBlock.up P.window (some p)
    ∧ ∀ uid ∈ uncleRefs (trail S ShareBlock.up P.window (some p)), S' uid = S uid

instance (P : Params) (S S' : Shares) (p : Hash32) : Decidable (SameAncestry P S S' p) :=
  inferInstanceAs (Decidable (_ ∧ _))

/-- The weights and the target are functions of the ancestry. -/
lemma SameAncestry.agree {S S' : Shares} {p : Hash32} (h : SameAncestry P S S' p)
    (hpos : 1 ≤ P.retargetWindow) (hrw : P.retargetWindow ≤ P.window) :
    windowWeights P S' (some p) = windowWeights P S (some p)
      ∧ ∀ t, expectedTarget P S' p t = expectedTarget P S p t := by
  refine ⟨windowWeights_congr h.1 h.2, expectedTarget_congr ?_⟩
  by_cases hg : p = genesisPrev
  · rw [hg, link_genesisPrev]; cases max 1 P.retargetWindow <;> trivial
  · rw [link_of_ne hg]; exact h.1.of_le (by omega)

/-- **Pruning is invisible near the tip.**  Take a stored share `p` at most `window + 1` below the
largest height any best tip has had.  Its weights and its expected target are those of the record
of everything ever accepted, and the target is derivable.  Two runs that accepted the same
ancestry of `p` agree on both. -/
theorem pruning_invisible (P : Params) (hpos : 1 ≤ P.retargetWindow)
    (hrw : P.retargetWindow ≤ P.window) (calls : List Call) (p : Hash32) (e : Entry)
    (he : (run P calls).chain.entries p = some e)
    (hnear : (run P calls).peak ≤ e.share.sidechainHeight + P.window + 1) :
    (run P calls).chain.pplnsWeights P (some p) = windowWeights P (run P calls).record.get (some p)
      ∧ (∀ t, expectedTarget P (run P calls).chain.entries.get p t ≠ none
          ∧ expectedTarget P (run P calls).chain.entries.get p t
            = expectedTarget P (run P calls).record.get p t)
      ∧ ∀ calls' e', (run P calls').chain.entries p = some e' →
          (run P calls').peak ≤ e'.share.sidechainHeight + P.window + 1 →
          SameAncestry P (run P calls).record.get (run P calls').record.get p →
          (run P calls').chain.pplnsWeights P (some p) = (run P calls).chain.pplnsWeights P (some p)
            ∧ ∀ t, expectedTarget P (run P calls').chain.entries.get p t
                = expectedTarget P (run P calls).chain.entries.get p t := by
  have hweights : ∀ calls e, (run P calls).chain.entries p = some e →
      (run P calls).peak ≤ e.share.sidechainHeight + P.window + 1 →
      (run P calls).chain.pplnsWeights P (some p)
        = windowWeights P (run P calls).record.get (some p) := fun calls e he hnear =>
    (windowWeights_of_subMap (run_retained P calls) he hnear (subMap_record calls)).symm
  have htarget : ∀ calls e, (run P calls).chain.entries p = some e →
      (run P calls).peak ≤ e.share.sidechainHeight + P.window + 1 → ∀ t,
      expectedTarget P (run P calls).chain.entries.get p t
        = expectedTarget P (run P calls).record.get p t := fun calls e he hnear t =>
    (expectedTarget_congr ((lookBack_unbroken (run_retained P calls) he hnear hpos hrw).agreeAlong
      (Store.subMap_get (subMap_record calls))) t).symm
  refine ⟨hweights calls e he hnear, fun t => ⟨?_, htarget calls e he hnear t⟩, ?_⟩
  · exact expectedTarget_ne_none (lookBack_unbroken (run_retained P calls) he hnear hpos hrw) t
  · intro calls' e' he' hnear' hsame
    obtain ⟨hw, ht⟩ := hsame.agree hpos hrw
    refine ⟨?_, fun t => ?_⟩
    · rw [hweights calls' e' he' hnear', hw, hweights calls e he hnear]
    · rw [htarget calls' e' he' hnear', ht, htarget calls e he hnear]

/-- Six shares prune the first one.  The third is at the bottom of the bound then; its weights and
its target are those of the record, and those of a run in which another branch came first. -/
theorem pruning_invisible_pruned :
    let calls := (List.range 6).map fun n => verifiedCall (pacedChain n)
    let calls' := [pacedChain 0, rivalChain 1, pacedChain 1, rivalChain 2, pacedChain 2].map
      verifiedCall
    let first := doubleSha256 (pacedChain 0).wire
    let p := doubleSha256 (pacedChain 2).wire
    (run shortParams calls).chain.entries first = none
      ∧ (run shortParams calls).record first ≠ none
      ∧ (run shortParams calls).chain.pplnsWeights shortParams (some p)
        = windowWeights shortParams (run shortParams calls).record.get (some p)
      ∧ (∀ t, expectedTarget shortParams (run shortParams calls).chain.entries.get p t ≠ none
        ∧ expectedTarget shortParams (run shortParams calls).chain.entries.get p t
          = expectedTarget shortParams (run shortParams calls).record.get p t)
      ∧ (run shortParams calls').chain.pplnsWeights shortParams (some p)
        = (run shortParams calls).chain.pplnsWeights shortParams (some p) := by
  intro calls calls' first p
  have hrun : (run shortParams calls).chain.entries first = none
      ∧ (run shortParams calls).record first ≠ none
      ∧ (run shortParams calls).chain.entries.get p = some (pacedChain 2)
      ∧ (run shortParams calls).peak = 5
      ∧ (run shortParams calls').chain.entries.get p = some (pacedChain 2)
      ∧ (run shortParams calls').peak = 2
      ∧ SameAncestry shortParams (run shortParams calls).record.get
        (run shortParams calls').record.get p := by
    decide +kernel
  obtain ⟨hpruned, hrecord, hget, hpeak, hget', hpeak', hsame⟩ := hrun
  obtain ⟨e, he, hshare⟩ := Store.get_eq_some_iff.mp hget
  obtain ⟨e', he', hshare'⟩ := Store.get_eq_some_iff.mp hget'
  have hheight : (pacedChain 2).sidechainHeight = 2 := rfl
  have hwindow : shortParams.window = 2 := rfl
  obtain ⟨hweights, htarget, hfunction⟩ := pruning_invisible shortParams (by decide) (by decide)
    calls p e he (by rw [hpeak, hshare, hheight, hwindow])
  exact ⟨hpruned, hrecord, hweights, htarget, (hfunction calls' e' he'
    (by rw [hpeak', hshare', hheight, hwindow]; norm_num) hsame).1⟩

end P2Pearl
