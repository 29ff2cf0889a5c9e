import P2Pearl.Consensus.Retention

/-!
Whether target limits are negotiable.

* `demandedTarget`: the limit consensus derives for the position of a share, over everything ever
  accepted, pruned or not.
* `Cut`: the look-back for a share meets a share that is not stored, so `_validate` skips the check
  of its limit; `cut_below`: only near the bottom of the stored history.
* `Forges`: a share that passes every check is presented at a cut with another limit.
* `target_limits_iff`: every accepted share carries the limit its position demands exactly when no
  such share is presented.
* `target_limit_forged`: a fork at the bottom of the stored history may carry any limit.
-/

namespace P2Pearl

variable {P : Params}

/-- `add_share` accepts the share of the call. -/
def Accepts (P : Params) (C : Sharechain) (call : Call) : Prop :=
  ∃ isBestTip reason, (addShare P C call).2 = .ok ⟨true, isBestTip, reason⟩

/-- The limit consensus derives for the position of a share: the bootstrap target for a genesis
share, otherwise the retarget over its last accepted ancestors. -/
def demandedTarget (P : Params) (H : History) (share : ShareBlock) : Option ℕ :=
  expectedTarget P H.record.get share.prevShareId (some share.timestamp)

/-- The share carries the limit its position demands. -/
def OnTarget (P : Params) (H : History) (share : ShareBlock) : Prop :=
  demandedTarget P H share = some share.targetLimit

instance (P : Params) (H : History) (share : ShareBlock) : Decidable (OnTarget P H share) :=
  inferInstanceAs (Decidable (_ = _))

/-- The look-back for the share meets an ancestor that is not stored. -/
def Cut (P : Params) (S : Shares) (share : ShareBlock) : Prop :=
  expectedTarget P S share.prevShareId (some share.timestamp) = none

/-- The call presents a share that passes every check, but whose look-back is cut and whose limit
is not the one its position demands. -/
structure Forges (P : Params) (H : History) (call : Call) : Prop where
  verified : call.verified = true
  valid : validate P H.chain.entries.get call.share call.now = .ok none
  cut : Cut P H.chain.entries.get call.share
  off : ¬OnTarget P H call.share

/-- An accepted share was admitted. -/
lemma Accepts.admits {C : Sharechain} {call : Call} (h : Accepts P C call) :
    ∃ sid e, Admits P C.entries call sid e := by
  obtain ⟨isBestTip, reason, h⟩ := h
  rcases addShare_cases P C call with ⟨r, hr, hnot, -⟩ | ⟨sid, e, hadm, -⟩
  · rw [hr] at h
    cases (hnot _ h).1
  · exact ⟨sid, e, hadm⟩

/-- A share on target is not graded below the difficulty its position demands. -/
lemma OnTarget.graded {H : History} {share : ShareBlock} (h : OnTarget P H share) :
    ∃ t, demandedTarget P H share = some t ∧ share.shareTarget ≤ t
      ∧ maxTarget / t ≤ share.difficulty :=
  ⟨share.targetLimit, h, share.shareTarget_le,
    Nat.div_le_div_left share.shareTarget_le share.shareTarget_pos⟩

/-! ### The look-back in a larger set of shares -/

lemma lookBack_mono {S S' : Shares} (hsub : SubMap S S') {n : ℕ} {cur : Hash32}
    {shares : List ShareBlock} (h : lookBack S n cur = some shares) :
    lookBack S' n cur = some shares := by
  induction n generalizing cur shares with
  | zero => exact h
  | succ n ih =>
      rw [lookBack] at h ⊢
      split_ifs at h ⊢ with hg
      · exact h
      · cases hs : S cur with
        | none => rw [hs] at h; cases h
        | some s =>
            rw [hs] at h
            obtain ⟨older, holder, rfl⟩ := Option.map_eq_some_iff.mp h
            rw [hsub cur s hs]
            simp only [ih holder]
            rfl

/-- A derived target is the one a larger set of shares derives. -/
lemma expectedTarget_mono {S S' : Shares} (hsub : SubMap S S') {prev : Hash32}
    {timestamp : Option ℕ} {t : ℕ} (h : expectedTarget P S prev timestamp = some t) :
    expectedTarget P S' prev timestamp = some t := by
  rw [expectedTarget] at h ⊢
  split_ifs at h ⊢ with hg
  · exact h
  · cases hs : S prev with
    | none => rw [hs] at h; cases h
    | some newest =>
        rw [hs] at h
        obtain ⟨older, holder, rfl⟩ := Option.map_eq_some_iff.mp h
        rw [hsub prev newest hs]
        simp only [lookBack_mono hsub holder]
        rfl

/-! ### Where the look-back is cut -/

/-- The look-back from a share is cut only near the bottom of the stored history. -/
lemma cut_below {H : History} (hret : Retained P H) {share : ShareBlock} {e : Entry}
    (he : H.chain.entries share.prevShareId = some e) (hcut : Cut P H.chain.entries.get share) :
    e.share.sidechainHeight + P.retention + 1 < H.peak + max 1 P.retargetWindow := by
  by_contra hdeep
  refine expectedTarget_ne_none ?_ _ hcut
  by_cases hg : share.prevShareId = genesisPrev
  · rw [hg, link_genesisPrev]
    exact unbroken_none _
  · rw [link_of_ne hg]
    exact unbroken_of_depth (fun s => s.sidechainHeight) hret.link (Store.get_of_some he)
      (by omega)

/-- A valid share whose look-back is not cut is on target. -/
lemma onTarget_of_valid {past : List Call} {share : ShareBlock} {now : ℚ} {sid : Hash32}
    (h : Valid P (run P past).chain.entries.get share now sid)
    (hcut : ¬Cut P (run P past).chain.entries.get share) : OnTarget P (run P past) share := by
  obtain ⟨t, ht⟩ := Option.ne_none_iff_exists'.mp hcut
  have hdemanded := expectedTarget_mono (Store.subMap_get (subMap_record past)) ht
  have hlimit : share.targetLimit = t := by
    rcases h.linked with hf | ⟨parent, hx⟩
    · rw [expectedTarget, if_pos hf.prev, Option.some.injEq] at ht
      rw [hf.target, ht]
    · exact hx.target t ht
  rw [OnTarget, hlimit]
  exact hdemanded

/-! ### The limits of a run -/

/-- **Where target limits are not negotiable.**  In every run, every accepted share carries the
limit its position demands if and only if no forged one is presented; no accepted share is then
graded below the difficulty its position demands.  A look-back is cut only where the parent stands
less than the retarget window above the bottom of the retained history. -/
theorem target_limits_iff (P : Params) (calls : List Call) :
    ((∀ past call, past ++ [call] <+: calls → Accepts P (run P past).chain call →
          OnTarget P (run P past) call.share)
        ↔ ∀ past call, past ++ [call] <+: calls → ¬Forges P (run P past) call)
      ∧ ((∀ past call, past ++ [call] <+: calls → ¬Forges P (run P past) call) →
        ∀ past call, past ++ [call] <+: calls → Accepts P (run P past).chain call →
          ∃ t, demandedTarget P (run P past) call.share = some t ∧ call.share.shareTarget ≤ t
            ∧ maxTarget / t ≤ call.share.difficulty)
      ∧ ∀ past call, past ++ [call] <+: calls →
        validate P (run P past).chain.entries.get call.share call.now = .ok none →
        Cut P (run P past).chain.entries.get call.share →
        ∃ parent, (run P past).chain.entries.get call.share.prevShareId = some parent
          ∧ parent.sidechainHeight + P.retention + 1
            < (run P past).peak + max 1 P.retargetWindow := by
  have honest : (∀ past call, past ++ [call] <+: calls → ¬Forges P (run P past) call) →
      ∀ past call, past ++ [call] <+: calls → Accepts P (run P past).chain call →
        OnTarget P (run P past) call.share := by
    intro h past call hpre hacc
    obtain ⟨sid, e, hadm⟩ := hacc.admits
    by_cases hcut : Cut P (run P past).chain.entries.get call.share
    · by_contra hoff
      exact h past call hpre
        ⟨hadm.verified, validate_eq_ok_none_iff.mpr ⟨sid, hadm.id, hadm.valid⟩, hcut, hoff⟩
    · exact onTarget_of_valid hadm.valid hcut
  refine ⟨⟨fun h past call hpre hforges => ?_, honest⟩,
    fun h past call hpre hacc => (honest h past call hpre hacc).graded,
    fun past call _ hvalid hcut => ?_⟩
  · obtain ⟨isBestTip, hok⟩ :=
      addShare_of_valid (run_tipStored past) call hforges.verified hforges.valid
    exact hforges.off (h past call hpre ⟨isBestTip, "", hok⟩)
  · obtain ⟨sid, -, hval⟩ := validate_eq_ok_none_iff.mp hvalid
    rcases hval.linked with hf | ⟨parent, hx⟩
    · rw [Cut, expectedTarget, if_pos hf.prev] at hcut
      cases hcut
    · obtain ⟨pe, hpe, rfl⟩ := Store.get_eq_some_iff.mp hx.stored
      exact ⟨pe.share, hx.stored, cut_below (run_retained P past) hpe hcut⟩

/-- Six shares prune the first one; a second child of the next one is then accepted at half the
difficulty its position demands. -/
theorem target_limit_forged : ¬∀ (P : Params) (calls : List Call), P.retargetWindow ≤ P.window →
    ∀ past call, past ++ [call] <+: calls → Accepts P (run P past).chain call →
      OnTarget P (run P past) call.share := by
  intro h
  let past := (List.range 6).map fun n => verifiedCall (pacedChain n)
  let forged := pacedShare 2 (doubleSha256 (pacedChain 1).wire) maxTarget (by decide) le_rfl
  have hrun : (addShare shortParams (run shortParams past).chain (verifiedCall forged)).2
        = .ok ⟨true, false, ""⟩
      ∧ ¬OnTarget shortParams (run shortParams past) forged := by decide +kernel
  exact hrun.2 (h shortParams (past ++ [verifiedCall forged]) le_rfl past (verifiedCall forged)
    List.prefix_rfl ⟨false, "", hrun.1⟩)

end P2Pearl
