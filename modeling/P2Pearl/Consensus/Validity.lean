import P2Pearl.Data.Trail
import P2Pearl.Consensus.Sharechain

/-!
What the walks and the checks of `Sharechain` amount to.

* `recent_eq`, `lookBack_eq`: the walks of the source are trails along the predecessor link.
* `expectedTarget_congr`, `creditWindow_congr`: a walk depends on the shares it asks for only.
* `Valid`: what `_validate` demands of a share; `verdict_eq_none_iff` says that it accepts exactly
  the valid shares.
-/

namespace P2Pearl

/-! ### The walks are trails -/

/-- The uncle ids the shares of a walk reference, in order. -/
def uncleRefs (t : List (Hash32 × ShareBlock)) : List Hash32 := t.flatMap fun p => p.2.uncleIds

@[simp] lemma uncleRefs_nil : uncleRefs [] = [] := rfl

@[simp] lemma uncleRefs_cons (p : Hash32 × ShareBlock) (t : List (Hash32 × ShareBlock)) :
    uncleRefs (p :: t) = p.2.uncleIds ++ uncleRefs t := rfl

lemma mem_uncleRefs {t : List (Hash32 × ShareBlock)} {uid : Hash32} :
    uid ∈ uncleRefs t ↔ ∃ p ∈ t, uid ∈ p.2.uncleIds := List.mem_flatMap

@[simp] lemma link_genesisPrev : link genesisPrev = none := if_pos rfl

lemma link_of_ne {k : Hash32} (h : k ≠ genesisPrev) : link k = some k := if_neg h

lemma link_eq_some_iff {k j : Hash32} : link k = some j ↔ k ≠ genesisPrev ∧ k = j := by
  rw [link]; split_ifs with h <;> simp [h]

lemma ShareBlock.up_eq_some_iff {s : ShareBlock} {j : Hash32} :
    s.up = some j ↔ s.prevShareId ≠ genesisPrev ∧ s.prevShareId = j := link_eq_some_iff

variable {P : Params} {S S' : Shares}

lemma recent_eq (S : Shares) (n : ℕ) (cur : Hash32) :
    recent S n cur = ((trail S ShareBlock.up n (link cur)).map Prod.fst,
      uncleRefs (trail S ShareBlock.up n (link cur))) := by
  induction n generalizing cur with
  | zero => rfl
  | succ n ih =>
      by_cases h : cur = genesisPrev
      · rw [recent, if_pos h, h, link_genesisPrev]; rfl
      · rw [recent, if_neg h, link_of_ne h]
        cases hk : S cur with
        | none => rw [trail_missing hk]; rfl
        | some s => rw [trail_succ hk]; simp only [ih]; rfl

lemma lookBack_eq {n : ℕ} {cur : Hash32} (h : Unbroken S ShareBlock.up n (link cur)) :
    lookBack S n cur = some ((trail S ShareBlock.up n (link cur)).map Prod.snd) := by
  induction n generalizing cur with
  | zero => rfl
  | succ n ih =>
      by_cases hg : cur = genesisPrev
      · rw [lookBack, if_pos hg, hg, link_genesisPrev]; rfl
      · rw [link_of_ne hg] at h ⊢
        obtain ⟨s, hs, h⟩ := h
        rw [lookBack, if_neg hg, hs, trail_succ hs]
        simp only [ih h]
        rfl

lemma lookBack_congr {n : ℕ} {cur : Hash32} (h : AgreeAlong S S' ShareBlock.up n (link cur)) :
    lookBack S' n cur = lookBack S n cur := by
  induction n generalizing cur with
  | zero => rfl
  | succ n ih =>
      by_cases hg : cur = genesisPrev
      · rw [lookBack, lookBack, if_pos hg, if_pos hg]
      · rw [link_of_ne hg] at h
        rw [lookBack, lookBack, if_neg hg, if_neg hg, h.1]
        cases hs : S cur with
        | none => rfl
        | some s => simp only [ih (h.2 s hs)]

/-- The target depends on the shares of the look-back window only. -/
lemma expectedTarget_congr {prev : Hash32}
    (h : AgreeAlong S S' ShareBlock.up (max 1 P.retargetWindow) (link prev))
    (timestamp : Option ℕ) :
    expectedTarget P S' prev timestamp = expectedTarget P S prev timestamp := by
  by_cases hg : prev = genesisPrev
  · rw [expectedTarget, expectedTarget, if_pos hg, if_pos hg]
  · have hwin : max 1 P.retargetWindow = P.retargetWindow - 1 + 1 := by omega
    rw [link_of_ne hg, hwin] at h
    rw [expectedTarget, expectedTarget, if_neg hg, if_neg hg, h.1]
    cases hs : S prev with
    | none => rfl
    | some s => simp only [lookBack_congr (h.2 s hs)]

/-- An unbroken look-back derives a target. -/
lemma expectedTarget_ne_none {prev : Hash32}
    (h : Unbroken S ShareBlock.up (max 1 P.retargetWindow) (link prev)) (timestamp : Option ℕ) :
    expectedTarget P S prev timestamp ≠ none := by
  by_cases hg : prev = genesisPrev
  · rw [expectedTarget, if_pos hg]; simp
  · have hwin : max 1 P.retargetWindow = P.retargetWindow - 1 + 1 := by omega
    rw [link_of_ne hg, hwin] at h
    obtain ⟨s, hs, h⟩ := h
    rw [expectedTarget, if_neg hg, hs]
    simp only [lookBack_eq h]
    simp

lemma creditUncles_congr {us : List Hash32} (h : ∀ uid ∈ us, S' uid = S uid)
    (acc : Tally PyStr ℤ × List Hash32) : creditUncles P S' us acc = creditUncles P S us acc := by
  induction us generalizing acc with
  | nil => rfl
  | cons uid us ih =>
      obtain ⟨weights, seenUncles⟩ := acc
      have ih' := fun acc => ih (fun u hu => h u (List.mem_cons_of_mem _ hu)) acc
      simp only [creditUncles, h uid List.mem_cons_self, ih']

/-- The weights depend on the shares of the window and the uncles they reference only. -/
lemma creditWindow_congr {n : ℕ} {start : Option Hash32}
    (h : AgreeAlong S S' ShareBlock.up n start)
    (hu : ∀ uid ∈ uncleRefs (trail S ShareBlock.up n start), S' uid = S uid)
    (acc : Tally PyStr ℤ × List Hash32) :
    creditWindow P S' n start acc = creditWindow P S n start acc := by
  induction n generalizing start acc with
  | zero => rfl
  | succ n ih =>
      obtain ⟨weights, seenUncles⟩ := acc
      cases start with
      | none => rfl
      | some cur =>
          rw [creditWindow, creditWindow, h.1]
          cases hs : S cur with
          | none => rfl
          | some s =>
              rw [trail_succ hs, uncleRefs_cons] at hu
              simp only
              rw [creditUncles_congr fun uid hi => hu uid (List.mem_append_left _ hi)]
              exact ih (h.2 s hs) (fun uid hi => hu uid (List.mem_append_right _ hi)) _

lemma windowWeights_congr {start : Option Hash32}
    (h : AgreeAlong S S' ShareBlock.up P.window start)
    (hu : ∀ uid ∈ uncleRefs (trail S ShareBlock.up P.window start), S' uid = S uid) :
    windowWeights P S' start = windowWeights P S start := by
  rw [windowWeights, windowWeights, creditWindow_congr h hu]

/-- Only miners of shares in the set are weighed. -/
lemma mem_creditUncles {us : List Hash32} {acc : Tally PyStr ℤ × List Hash32} {a : PyStr}
    (h : a ∈ (creditUncles P S us acc).1.keys) :
    a ∈ acc.1.keys ∨ ∃ k s, S k = some s ∧ s.minerAddress = a := by
  induction us generalizing acc with
  | nil => exact Or.inl h
  | cons uid us ih =>
      obtain ⟨weights, seenUncles⟩ := acc
      rw [creditUncles] at h
      split_ifs at h
      · exact ih h
      · cases hu : S uid with
        | none => rw [hu] at h; exact ih h
        | some u =>
            rw [hu] at h
            rcases ih h with h | h
            · rcases (Tally.mem_keys_add _ _ _ _).mp h with h | rfl
              · exact Or.inl h
              · exact Or.inr ⟨uid, u, hu, rfl⟩
            · exact Or.inr h

lemma mem_creditWindow {n : ℕ} {start : Option Hash32} {acc : Tally PyStr ℤ × List Hash32}
    {a : PyStr} (h : a ∈ (creditWindow P S n start acc).keys) :
    a ∈ acc.1.keys ∨ ∃ k s, S k = some s ∧ s.minerAddress = a := by
  induction n generalizing start acc with
  | zero => exact Or.inl h
  | succ n ih =>
      obtain ⟨weights, seenUncles⟩ := acc
      cases start with
      | none => exact Or.inl h
      | some cur =>
          rw [creditWindow] at h
          cases hs : S cur with
          | none => rw [hs] at h; exact Or.inl h
          | some s =>
              rw [hs] at h
              rcases ih h with h | h
              · rcases mem_creditUncles h with h | h
                · rcases (Tally.mem_keys_add _ _ _ _).mp h with h | rfl
                  · exact Or.inl h
                  · exact Or.inr ⟨cur, s, hs, rfl⟩
                · exact Or.inr h
              · exact Or.inr h

/-- Every weighed address is the miner of a share in the set. -/
lemma mem_windowWeights {start : Option Hash32} {a : PyStr}
    (h : a ∈ (windowWeights P S start).map Prod.fst) :
    ∃ k s, S k = some s ∧ s.minerAddress = a := by
  rw [windowWeights, ((sortByWeight_perm _).map Prod.fst).mem_iff] at h
  exact (mem_creditWindow h).resolve_left List.not_mem_nil

/-- No address is weighed twice. -/
lemma nodup_windowWeights (start : Option Hash32) :
    ((windowWeights P S start).map Prod.fst).Nodup := by
  rw [windowWeights, ((sortByWeight_perm _).map Prod.fst).nodup_iff]
  exact (creditWindow P S P.window start (Tally.empty, [])).nodup

/-! ### The rules -/

/-- What `_validate` demands of a genesis share. -/
structure Founds (P : Params) (share : ShareBlock) : Prop where
  prev : share.prevShareId = genesisPrev
  height : share.sidechainHeight = 0
  uncles : share.uncleIds = []
  target : share.targetLimit = P.bootstrapTarget

/-- The main-chain ancestors `_validate` scans for a share. -/
def scanned (P : Params) (S : Shares) (share : ShareBlock) : List (Hash32 × ShareBlock) :=
  trail S ShareBlock.up (P.uncleDepth + 1) share.up

/-- What `_validate` demands of a stored uncle of a share. -/
structure AdmitsUncle (P : Params) (S : Shares) (share : ShareBlock) (uid : Hash32)
    (uncle : ShareBlock) : Prop where
  stored : S uid = some uncle
  off_chain : uid ∉ (scanned P S share).map Prod.fst
  unreferenced : uid ∉ uncleRefs (scanned P S share)
  within : share.sidechainHeight ≤ uncle.sidechainHeight + P.uncleDepth
  below : uncle.sidechainHeight < share.sidechainHeight
  sibling : uncle.prevShareId ∈ (scanned P S share).map Prod.fst

/-- What `_validate` demands of a share that extends a stored parent. -/
structure Extends (P : Params) (S : Shares) (share parent : ShareBlock) : Prop where
  prev : share.prevShareId ≠ genesisPrev
  stored : S share.prevShareId = some parent
  height : share.sidechainHeight = parent.sidechainHeight + 1
  timestamp : parent.timestamp ≤ share.timestamp
  parentHeight : parent.parentHeight ≤ share.parentHeight
  target : ∀ t, expectedTarget P S share.prevShareId share.timestamp = some t →
    share.targetLimit = t
  uncles : ∀ uid ∈ share.uncleIds, ∃ uncle, AdmitsUncle P S share uid uncle

/-- What `_validate` demands of a share with the id `sid`. -/
structure Valid (P : Params) (S : Shares) (share : ShareBlock) (now : ℚ) (sid : Hash32) :
    Prop where
  fresh : S sid = none
  version : share.version = sidechainVersion
  drift : share.timestamp ≤ now + maxTimestampDriftSeconds
  coinbase : share.coinbaseValue = blockSubsidy share.parentHeight
  nodup : share.uncleIds.Nodup
  not_self : sid ∉ share.uncleIds
  linked : Founds P share ∨ ∃ parent, Extends P S share parent

lemma checkGenesis_eq_none_iff {share : ShareBlock} (hp : share.prevShareId = genesisPrev) :
    checkGenesis P share = none ↔ Founds P share := by
  rw [checkGenesis]
  split_ifs with h₁ h₂ h₃
  · exact iff_of_false (by simp) fun h => h₁ h.height
  · exact iff_of_false (by simp) fun h => h₂ h.uncles
  · exact iff_of_false (by simp) fun h => h₃ h.target
  · exact iff_of_true rfl ⟨hp, not_not.mp h₁, not_not.mp h₂, not_not.mp h₃⟩

lemma checkUncles_eq_none_iff {height : ℕ} {ancestors ancestorUncles us : List Hash32} :
    checkUncles P S height ancestors ancestorUncles us = none
      ↔ ∀ uid ∈ us, ∃ uncle, S uid = some uncle ∧ uid ∉ ancestors ∧ uid ∉ ancestorUncles
          ∧ height ≤ uncle.sidechainHeight + P.uncleDepth ∧ uncle.sidechainHeight < height
          ∧ uncle.prevShareId ∈ ancestors := by
  induction us with
  | nil => simp [checkUncles]
  | cons uid us ih =>
      rw [List.forall_mem_cons, ← ih, checkUncles]
      cases hu : S uid with
      | none => simp
      | some uncle =>
          simp only [Option.some.injEq, exists_eq_left']
          split_ifs with h₁ h₂ h₃ h₄
          · exact iff_of_false (by simp) fun h => h.1.1 h₁
          · exact iff_of_false (by simp) fun h => h.1.2.1 h₂
          · exact ⟨fun h => ⟨⟨h₁, h₂, by omega, by omega, h₄⟩, h⟩, fun h => h.2⟩
          · exact iff_of_false (by simp) fun h => h₄ h.1.2.2.2.2
          · exact iff_of_false (by simp) fun h => h₃ (by omega)

lemma checkLinked_eq_none_iff {share parent : ShareBlock} (hp : share.prevShareId ≠ genesisPrev)
    (hs : S share.prevShareId = some parent) :
    checkLinked P S share parent = none ↔ Extends P S share parent := by
  have hup : share.up = link share.prevShareId := rfl
  rw [checkLinked]
  split_ifs with h₁ h₂ h₃ h₄
  · exact iff_of_false (by simp) fun h => h₁ h.height
  · exact iff_of_false (by simp) fun h => absurd h.timestamp (by omega)
  · exact iff_of_false (by simp) fun h => absurd h.parentHeight (by omega)
  · refine iff_of_false (by simp) fun h => ?_
    obtain ⟨t, ht⟩ := Option.ne_none_iff_exists'.mp h₄.1
    exact h₄.2 (by rw [ht, h.target t ht])
  · simp only [recent_eq, checkUncles_eq_none_iff, ← hup]
    constructor
    · intro h
      refine ⟨hp, hs, not_not.mp h₁, by omega, by omega, fun t ht => ?_, fun uid hu => ?_⟩
      · by_contra hne
        exact h₄ ⟨by simp [ht], fun e => hne (Option.some.inj (ht.symm.trans e)).symm⟩
      · obtain ⟨uncle, hst, hoff, hun, hw, hb, hsib⟩ := h uid hu
        exact ⟨uncle, hst, hoff, hun, hw, hb, hsib⟩
    · intro h uid hu
      obtain ⟨uncle, hst, hoff, hun, hw, hb, hsib⟩ := h.uncles uid hu
      exact ⟨uncle, hst, hoff, hun, hw, hb, hsib⟩

/-- `_validate` accepts exactly the valid shares. -/
lemma verdict_eq_none_iff {share : ShareBlock} {now : ℚ} {sid : Hash32} :
    verdict P S share now sid = none ↔ Valid P S share now sid := by
  rw [verdict]
  split_ifs with h₁ h₂ h₃ h₄ h₅ h₆ h₇
  · exact iff_of_false (by simp) fun h => h₁ h.fresh
  · exact iff_of_false (by simp) fun h => h₂ h.version
  · exact iff_of_false (by simp) fun h => absurd h.drift (not_le.mpr h₃)
  · exact iff_of_false (by simp) fun h => h₄ h.coinbase
  · exact iff_of_false (by simp) fun h => h.not_self h₆
  · rw [checkGenesis_eq_none_iff h₇]
    refine ⟨fun h => ⟨not_not.mp h₁, not_not.mp h₂, not_lt.mp h₃, not_not.mp h₄, h₅, h₆,
      Or.inl h⟩, fun h => ?_⟩
    exact h.linked.resolve_right fun ⟨_, hx⟩ => hx.prev h₇
  · cases hs : S share.prevShareId with
    | none =>
        refine iff_of_false (by simp) fun h => ?_
        rcases h.linked with hf | ⟨_, hx⟩
        · exact h₇ hf.prev
        · exact absurd hx.stored (by simp [hs])
    | some parent =>
        simp only [checkLinked_eq_none_iff h₇ hs]
        refine ⟨fun h => ⟨not_not.mp h₁, not_not.mp h₂, not_lt.mp h₃, not_not.mp h₄, h₅, h₆,
          Or.inr ⟨parent, h⟩⟩, fun h => ?_⟩
        rcases h.linked with hf | ⟨_, hx⟩
        · exact absurd hf.prev h₇
        · cases Option.some.inj (hs.symm.trans hx.stored)
          exact hx
  · exact iff_of_false (by simp) fun h => h₅ h.nodup

lemma validate_eq_ok_none_iff {share : ShareBlock} {now : ℚ} :
    validate P S share now = .ok none
      ↔ ∃ sid, share.shareId = .ok sid ∧ Valid P S share now sid := by
  simp only [validate, map_eq_ok_iff, verdict_eq_none_iff]

end P2Pearl
