import P2Pearl.Consensus.Agreement
import P2Pearl.Consensus.Retention

/-!
How deep a reorganisation can go.

* `MeetAbove`: two shares have a common ancestor within the retention of a height.
* `meetAbove_stored`: within the retention of the peak, the pruned store shows all of an ancestry.
* `stored_within`: as long as no genesis share comes late, nothing below that height is stored.
* `Attached`: pruning has not cut the branch that a share extends off from the active chain.
* `reorg_bounded_iff`: the depth is bounded in every run in which all shares that come late are
  attached; without late genesis shares it is bounded exactly where those are that take over.
* `reorg_unbounded`: a branch kept alive beside the active chain replaces all that is retained.
-/

namespace P2Pearl

variable {P : Params}

/-- The shares stored under `a` and `b` have a common ancestor at most the retention below
`height`. -/
def MeetAbove (P : Params) (S : Shares) (height : ℕ) (a b : Hash32) : Prop :=
  ∃ s t p, S a = some s ∧ S b = some t ∧ p ∈ ancestry S a s ∧ p ∈ ancestry S b t
    ∧ height ≤ p.2.sidechainHeight + P.retention

/-- A set that holds more shows no fewer ancestors. -/
lemma MeetAbove.mono {S S' : Shares} {height : ℕ} {a b : Hash32} (h : MeetAbove P S height a b)
    (hsub : SubMap S S') : MeetAbove P S' height a b := by
  obtain ⟨s, t, p, hs, ht, hps, hpt, hheight⟩ := h
  exact ⟨s, t, p, hsub a s hs, hsub b t ht, (trail_prefix_of_subMap hsub _ _).subset hps,
    (trail_prefix_of_subMap hsub _ _).subset hpt, hheight⟩

/-- Within the retention of the peak, the store shows the ancestors of its shares. -/
lemma mem_ancestry_stored {H : History} {S : Shares} (hret : Retained P H) (hS : Lawful S)
    (hsub : SubMap H.chain.entries.get S) {k : Hash32} {s : ShareBlock} {p : Hash32 × ShareBlock}
    (hs : H.chain.entries.get k = some s) (hp : p ∈ ancestry S k s)
    (hheight : H.peak ≤ p.2.sidechainHeight + P.retention) :
    p ∈ ancestry H.chain.entries.get k s := by
  induction hn : s.sidechainHeight generalizing k s with
  | zero =>
      by_cases hg : s.prevShareId = genesisPrev
      · rw [Lawful.ancestry_of_genesis (hsub k s hs) hg] at hp
        rwa [Lawful.ancestry_of_genesis hs hg]
      · obtain ⟨q, -, hh⟩ := hS.parent k s (hsub k s hs) hg
        omega
  | succ n ih =>
      by_cases hg : s.prevShareId = genesisPrev
      · rw [Lawful.ancestry_of_genesis (hsub k s hs) hg] at hp
        rwa [Lawful.ancestry_of_genesis hs hg]
      · obtain ⟨q, hq, hh⟩ := hS.parent k s (hsub k s hs) hg
        rw [Lawful.ancestry_of_parent (hsub k s hs) hg hh] at hp
        rcases List.mem_cons.mp hp with rfl | hp
        · rw [ancestry, trail_succ hs]
          exact List.mem_cons_self
        · -- the parent is no lower than `p`, so it is still stored
          have hle := hS.height_le_of_mem_ancestry hq hp
          obtain ⟨w, hw, -⟩ := hret.link k s s.prevShareId hs (by omega)
            (ShareBlock.up_eq_some_iff.mpr ⟨hg, rfl⟩)
          cases (hsub _ _ hw).symm.trans hq
          rw [Lawful.ancestry_of_parent hs hg hh]
          exact List.mem_cons_of_mem _ (ih hw hp (by omega))

/-- Two stored shares that meet within the retention of the peak meet in the store. -/
lemma meetAbove_stored {H : History} {S : Shares} (hret : Retained P H) (hS : Lawful S)
    (hsub : SubMap H.chain.entries.get S) {a b : Hash32} (ha : H.chain.entries.get a ≠ none)
    (hb : H.chain.entries.get b ≠ none) (h : MeetAbove P S H.peak a b) :
    MeetAbove P H.chain.entries.get H.peak a b := by
  obtain ⟨s, t, p, hs, ht, hps, hpt, hheight⟩ := h
  obtain ⟨s', hs'⟩ := Option.ne_none_iff_exists'.mp ha
  obtain ⟨t', ht'⟩ := Option.ne_none_iff_exists'.mp hb
  cases (hsub a s' hs').symm.trans hs
  cases (hsub b t' ht').symm.trans ht
  exact ⟨s, t, p, hs', ht', mem_ancestry_stored hret hS hsub hs' hps hheight,
    mem_ancestry_stored hret hS hsub ht' hpt hheight, hheight⟩

/-! ### Taking over -/

/-- The call moves the best tip from `a` to `b`. -/
def Moves (P : Params) (past : List Call) (call : Call) (a b : Hash32) : Prop :=
  (run P past).chain.bestTip = some a ∧ (run P (past ++ [call])).chain.bestTip = some b ∧ a ≠ b

/-- A call moves the best tip to a share that it admits and that is heavier. -/
lemma Moves.admits {past : List Call} {call : Call} {a b : Hash32} (h : Moves P past call a b) :
    ∃ e, Admits P (run P past).chain.entries call b e
      ∧ Grows P (run P past) b e (run P (past ++ [call]))
      ∧ ∀ x, (run P past).chain.entries a = some x →
        x.cumulativeDifficulty < e.cumulativeDifficulty := by
  obtain ⟨ha, hb, hne⟩ := h
  rw [run_append] at hb ⊢
  rcases step_cases (P := P) (run_tipStored past) call with ⟨hsame, -⟩ | ⟨sid, e, hadm, hgrow⟩
  · rw [hsame, ha] at hb
    exact absurd (Option.some.inj hb) hne
  · generalize (run P past).step P call = H' at hb hgrow ⊢
    cases hgrow with
    | best heavier =>
        rw [prune_bestTip] at hb
        cases hb
        exact ⟨e, hadm, .best heavier, fun x hx => heavier a x ha hx⟩
    | side best b' tip stored lighter =>
        cases hb
        exact absurd (Option.some.inj (ha.symm.trans tip)) hne

/-- The call adds a share of more work than the best tip has. -/
def TakesOver (P : Params) (H : History) (call : Call) : Prop :=
  ∃ tip sid e, Admits P H.chain.entries call sid e ∧ H.chain.bestTip = some tip
    ∧ ∀ x, H.chain.entries tip = some x → x.cumulativeDifficulty < e.cumulativeDifficulty

lemma Moves.takesOver {past : List Call} {call : Call} {a b : Hash32} (h : Moves P past call a b) :
    TakesOver P (run P past) call := by
  obtain ⟨e, hadm, -, heavier⟩ := h.admits
  exact ⟨a, b, e, hadm, h.1, heavier⟩

/-- A share that takes over becomes the best tip. -/
lemma TakesOver.moves {past : List Call} {call : Call} (h : TakesOver P (run P past) call) :
    ∃ a b x e, Moves P past call a b ∧ (run P past).chain.entries a = some x
      ∧ Admits P (run P past).chain.entries call b e
      ∧ Grows P (run P past) b e (run P (past ++ [call]))
      ∧ x.cumulativeDifficulty < e.cumulativeDifficulty := by
  obtain ⟨a, b, e, hadm, htip, heavier⟩ := h
  obtain ⟨x, hx⟩ := run_tipStored past a htip
  have hgrow : Grows P (run P past) b e (run P (past ++ [call])) := by
    rw [run_append]
    rcases step_cases (P := P) (run_tipStored past) call with ⟨-, hno⟩ | ⟨sid, e', hadm', hgrow⟩
    · exact absurd ⟨b, e, hadm⟩ hno
    · cases Except.ok.inj (hadm'.id.symm.trans hadm.id)
      rwa [hadm.entry_eq hadm.cumulative, ← hadm'.entry_eq hadm.cumulative]
  have hne : a ≠ b := fun heq => by
    have hfresh := hadm.fresh
    rw [← heq, hx] at hfresh
    cases hfresh
  refine ⟨a, b, x, e, ⟨htip, ?_, hne⟩, hx, hadm, hgrow, heavier x hx⟩
  generalize run P (past ++ [call]) = H' at hgrow
  cases hgrow with
  | best heavier => exact prune_bestTip _
  | side best b' tip stored lighter =>
      cases htip.symm.trans tip
      exact absurd (heavier b' stored) (not_lt.mpr lighter)

/-- The depth of the move from `a` to `b` is bounded: once the peak is beyond the retention, the two
have a common ancestor among everything accepted at most the retention below the peak. -/
def ReorgBounded (P : Params) (past : List Call) (call : Call) : Prop :=
  ∀ a b, Moves P past call a b → P.retention < (run P past).peak →
    MeetAbove P (run P (past ++ [call])).record.get (run P past).peak a b

section Call

variable {calls past : List Call} {call : Call} (hcf : CollisionFree (calls.map Call.share))
  (hpre : past ++ [call] <+: calls)

include hcf hpre

/-- A share on a branch that meets the active chain in the store, at most the retention below the
peak, keeps the bound. -/
lemma bounded_of_meetAbove
    (h : ∀ a, (run P past).chain.bestTip = some a → call.share.prevShareId ≠ genesisPrev
      ∧ MeetAbove P (run P past).chain.entries.get (run P past).peak a call.share.prevShareId)
    {a b : Hash32} (hmove : Moves P past call a b) :
    MeetAbove P (run P (past ++ [call])).record.get (run P past).peak a b := by
  obtain ⟨e, hadm, hgrow, -⟩ := hmove.admits
  obtain ⟨hne, hmeet⟩ := h a hmove.1
  have hsub := (Store.subMap_get (subMap_record (P := P) past)).trans
    (subMap_record_grow hcf hpre hadm hgrow)
  obtain ⟨s, t, p, hs, ht, hps, hpt, hheight⟩ := hmeet.mono hsub
  have hb : (run P (past ++ [call])).record.get b = some call.share := by
    rw [hgrow.record, Store.set_get, Function.update_self, hadm.share]
  refine ⟨s, call.share, p, hs, hb, hps, ?_, hheight⟩
  -- the parent is one below the share
  obtain ⟨q, hext⟩ := hadm.valid.linked.resolve_left fun hf => hne hf.prev
  cases (hsub _ _ hext.stored).symm.trans ht
  rw [Lawful.ancestry_of_parent hb hne hext.height]
  exact List.mem_cons_of_mem _ hpt

/-- Where the bound is kept, the branch of a share that takes over meets the active chain in the
store. -/
lemma meetAbove_of_bounded (h : ReorgBounded P past call) (hover : TakesOver P (run P past) call)
    (hpeak : P.retention < (run P past).peak) :
    call.share.prevShareId ≠ genesisPrev
      ∧ ∀ a, (run P past).chain.bestTip = some a →
        MeetAbove P (run P past).chain.entries.get (run P past).peak a
          call.share.prevShareId := by
  obtain ⟨a, b, x, e, hmove, hx, hadm, hgrow, heavier⟩ := hover.moves
  obtain ⟨s, t, p, hs, ht, hps, hpt, hheight⟩ := h a b hmove hpeak
  have hledger := run_ledger (P := P) (past ++ [call])
    (hcf.mono (hpre.map Call.share).subset)
  have hsub := (Store.subMap_get (subMap_record (P := P) past)).trans
    (subMap_record_grow hcf hpre hadm hgrow)
  have hne : a ≠ b := hmove.2.2
  have hb : (run P (past ++ [call])).record b = some e := by
    rw [hgrow.record, Store.set_self]
  have ha : (run P (past ++ [call])).record a = some x := by
    rw [hgrow.record, Store.set_of_ne hne]
    exact subMap_record past a x hx
  cases (Store.get_of_some ha).symm.trans hs
  cases (Store.get_of_some hb).symm.trans ht
  -- the share that takes over is heavier than the ancestors of the best tip
  have hpb : p.1 ≠ b := fun heq => by
    have hlt := hledger.work_lt_of_mem_ancestry ha hps (heq ▸ hne.symm) (heq ▸ hb)
    exact absurd heavier (not_lt.mpr hlt.le)
  rw [hadm.share] at hpt
  have hshare := Store.get_of_some hb
  rw [hadm.share] at hshare
  rcases hadm.valid.linked with hf | ⟨q, hext⟩
  · rw [Lawful.ancestry_of_genesis hshare hf.prev, List.mem_singleton] at hpt
    exact absurd (congrArg Prod.fst hpt) hpb
  · rw [Lawful.ancestry_of_parent hshare hext.prev hext.height] at hpt
    rcases List.mem_cons.mp hpt with heq | hpt
    · exact absurd (congrArg Prod.fst heq) hpb
    · refine ⟨hext.prev, fun a' ha' => ?_⟩
      cases hmove.1.symm.trans ha'
      refine meetAbove_stored (run_retained P past) hledger.lawful hsub ?_ ?_
        ⟨x.share, q, p, Store.get_of_some ha, hsub _ _ hext.stored, hps, hpt, hheight⟩
      · rw [Store.get_of_some hx]
        simp
      · rw [hext.stored]
        simp

end Call

/-! ### Late genesis shares -/

/-- No genesis share is accepted once the peak is beyond the retention. -/
def NoLateGenesis (P : Params) (calls : List Call) : Prop :=
  ∀ past call sid e, past ++ [call] <+: calls → call.share.prevShareId = genesisPrev →
    Admits P (run P past).chain.entries call sid e → (run P past).peak ≤ P.retention

/-- As long as no genesis share comes late, nothing is stored more than the retention below the
peak. -/
lemma stored_within {calls : List Call} (h : NoLateGenesis P calls) {k : Hash32} {x : Entry}
    (hx : (run P calls).chain.entries k = some x) :
    (run P calls).peak ≤ x.share.sidechainHeight + P.retention := by
  refine run_induction (P := P)
    (motive := fun H => ∀ k x, H.chain.entries k = some x →
      H.peak ≤ x.share.sidechainHeight + P.retention) calls (fun _ _ h => by cases h)
    (fun past call sid e H' hpre ih hadm hgrow => ?_) k x hx
  -- the new share stands above a stored one, or the peak is still low
  have hnew : (run P past).peak ≤ e.share.sidechainHeight + P.retention := by
    rw [hadm.share]
    rcases hadm.valid.linked with hf | ⟨parent, hext⟩
    · have := h past call sid e hpre hf.prev hadm
      omega
    · obtain ⟨pe, hpe, rfl⟩ := Store.get_eq_some_iff.mp hext.stored
      have := ih _ _ hpe
      have := hext.height
      omega
  have hall : ∀ j y, ((run P past).chain.entries.set sid e) j = some y →
      (run P past).peak ≤ y.share.sidechainHeight + P.retention := by
    intro j y hy
    rcases Store.set_eq_some_iff.mp hy with ⟨-, rfl⟩ | ⟨-, hold⟩
    · exact hnew
    · exact ih j y hold
  intro j y hy
  have hold := hall j y (hgrow.entries.1 hy)
  cases hgrow with
  | best heavier =>
      have hkept := ((prune_entries (P := P) (tip_of_set _ sid e)).mp hy).2
      exact max_le hold hkept
  | side best b tip stored lighter => exact hold

/-! ### Branches that pruning has cut off -/

/-- The walks from `a` and from `b` through the stored shares meet. -/
def WalksMeet (S : Shares) (a b : Hash32) : Prop :=
  ∃ limit, ∃ p ∈ trail S ShareBlock.up limit (some a), p ∈ trail S ShareBlock.up limit (some b)

/-- The share is no genesis share, and pruning has not cut the branch that it extends off from the
active chain. -/
def Attached (H : History) (share : ShareBlock) : Prop :=
  share.prevShareId ≠ genesisPrev
    ∧ ∀ tip, H.chain.bestTip = some tip → WalksMeet H.chain.entries.get tip share.prevShareId

/-- Once the peak is beyond the retention, every share that is accepted is attached. -/
def AllAttached (P : Params) (calls : List Call) : Prop :=
  ∀ past call sid e, past ++ [call] <+: calls → Admits P (run P past).chain.entries call sid e →
    P.retention < (run P past).peak → Attached (run P past) call.share

lemma AllAttached.noLateGenesis {calls : List Call} (h : AllAttached P calls) :
    NoLateGenesis P calls := fun past call sid e hpre hgenesis hadm => by
  by_contra hlate
  exact (h past call sid e hpre hadm (not_le.mp hlate)).1 hgenesis

/-- A walk through a part of the shares does not go below the first of them. -/
lemma mem_ancestry_of_mem_trail {S S' : Shares} (hS : Lawful S') (hsub : SubMap S S') {n : ℕ}
    {k : Hash32} {p : Hash32 × ShareBlock} (h : p ∈ trail S ShareBlock.up n (some k)) :
    ∃ s, S k = some s ∧ p ∈ ancestry S k s := by
  induction n generalizing k with
  | zero => cases h
  | succ n ih =>
      cases hs : S k with
      | none =>
          rw [trail_missing hs] at h
          cases h
      | some s =>
          refine ⟨s, rfl, ?_⟩
          rw [trail_succ hs] at h
          rcases List.mem_cons.mp h with rfl | h
          · rw [ancestry, trail_succ hs]
            exact List.mem_cons_self
          · cases hup : s.up with
            | none =>
                rw [hup, trail_none] at h
                cases h
            | some j =>
                obtain ⟨hne, rfl⟩ := ShareBlock.up_eq_some_iff.mp hup
                rw [hup] at h
                obtain ⟨q, hq, hp⟩ := ih h
                obtain ⟨q', hq', hheight⟩ := hS.parent k s (hsub k s hs) hne
                cases (hsub _ _ hq).symm.trans hq'
                rw [Lawful.ancestry_of_parent hs hne hheight]
                exact List.mem_cons_of_mem _ hp

/-- Where nothing is stored far below the peak, walks that meet do so within the retention. -/
lemma meetAbove_of_walksMeet {H : History} {S : Shares} (hS : Lawful S)
    (hsub : SubMap H.chain.entries.get S)
    (hwithin : ∀ k x, H.chain.entries k = some x → H.peak ≤ x.share.sidechainHeight + P.retention)
    {a b : Hash32} (h : WalksMeet H.chain.entries.get a b) :
    MeetAbove P H.chain.entries.get H.peak a b := by
  obtain ⟨limit, p, hpa, hpb⟩ := h
  obtain ⟨s, hs, hps⟩ := mem_ancestry_of_mem_trail hS hsub hpa
  obtain ⟨t, ht, hpt⟩ := mem_ancestry_of_mem_trail hS hsub hpb
  obtain ⟨x, hx, he⟩ := Store.get_eq_some_iff.mp (stored_of_mem_trail hpa)
  exact ⟨s, t, p, hs, ht, hps, hpt, he ▸ hwithin _ x hx⟩

lemma MeetAbove.walksMeet {S : Shares} {height : ℕ} {a b : Hash32}
    (h : MeetAbove P S height a b) : WalksMeet S a b := by
  obtain ⟨s, t, p, -, -, hps, hpt, -⟩ := h
  exact ⟨max (s.sidechainHeight + 1) (t.sidechainHeight + 1), p,
    (trail_prefix_of_le (le_max_left _ _) _).subset hps,
    (trail_prefix_of_le (le_max_right _ _) _).subset hpt⟩

/-- **How deep a reorganisation goes.**  In every run in which all shares that are accepted once the
peak is beyond the retention are attached, every move of the best tip stays within the retention of
the peak.  As long as no genesis share comes late, every move does so if and only if the shares that
take over then are attached; and what they extend stands within the retention of the peak. -/
theorem reorg_bounded_iff (P : Params) (calls : List Call)
    (hcf : CollisionFree (calls.map Call.share)) :
    (AllAttached P calls → ∀ past call, past ++ [call] <+: calls → ReorgBounded P past call)
      ∧ (NoLateGenesis P calls →
        ((∀ past call, past ++ [call] <+: calls → ReorgBounded P past call)
          ↔ ∀ past call, past ++ [call] <+: calls → TakesOver P (run P past) call →
            P.retention < (run P past).peak → Attached (run P past) call.share)
        ∧ ∀ past call a b, past ++ [call] <+: calls →
          Moves P past call a b → P.retention < (run P past).peak →
          ∃ parent, (run P past).chain.entries.get call.share.prevShareId = some parent
            ∧ (run P past).peak ≤ parent.sidechainHeight + P.retention) := by
  -- nothing that is stored is far below the peak
  have hwithin (hlate : NoLateGenesis P calls) {past : List Call} (hpast : past <+: calls)
      {k : Hash32} {x : Entry} (hx : (run P past).chain.entries k = some x) :
      (run P past).peak ≤ x.share.sidechainHeight + P.retention :=
    stored_within (fun past' call' sid e hpre => hlate past' call' sid e (hpre.trans hpast)) hx
  have hbounded (hlate : NoLateGenesis P calls)
      (h : ∀ past call, past ++ [call] <+: calls → TakesOver P (run P past) call →
        P.retention < (run P past).peak → Attached (run P past) call.share) :
      ∀ past call, past ++ [call] <+: calls → ReorgBounded P past call := by
    intro past call hpre a b hmove hpeak
    have hpast : past <+: calls := (List.prefix_append _ _).trans hpre
    obtain ⟨hne, hmeet⟩ := h past call hpre hmove.takesOver hpeak
    have hledger := run_ledger (P := P) past (hcf.mono (hpast.map Call.share).subset)
    refine bounded_of_meetAbove hcf hpre (fun a ha => ⟨hne, ?_⟩) hmove
    exact meetAbove_of_walksMeet hledger.lawful (Store.subMap_get (subMap_record past))
      (fun k x => hwithin hlate hpast) (hmeet a ha)
  refine ⟨fun hall => hbounded hall.noLateGenesis fun past call hpre hover hpeak => ?_,
    fun hlate => ⟨⟨fun h past call hpre hover hpeak => ?_, hbounded hlate⟩, ?_⟩⟩
  · obtain ⟨tip, sid, e, hadm, -⟩ := hover
    exact hall past call sid e hpre hadm hpeak
  · obtain ⟨hne, hmeet⟩ := meetAbove_of_bounded hcf hpre (h past call hpre) hover hpeak
    exact ⟨hne, fun a ha => (hmeet a ha).walksMeet⟩
  · intro past call a b hpre hmove hpeak
    obtain ⟨e, hadm, -, -⟩ := hmove.admits
    rcases hadm.valid.linked with hf | ⟨parent, hext⟩
    · exact absurd (hlate past call b e hpre hf.prev hadm) (not_le.mpr hpeak)
    · obtain ⟨pe, hpe, rfl⟩ := Store.get_eq_some_iff.mp hext.stored
      exact ⟨pe.share, hext.stored, hwithin hlate ((List.prefix_append _ _).trans hpre) hpe⟩

/-- A share beside the fourth one of a chain. -/
def lateRival : ShareBlock := { pacedChain 3 with minerAddress := ['b'] }

/-- The share that follows it. -/
def lateTip : ShareBlock :=
  { pacedShare 4 (doubleSha256 lateRival.wire) (maxTarget / 2) half_maxTarget_pos
      half_maxTarget_le with minerAddress := ['b'] }

/-- Four shares prune the first one.  Then the share that follows a rival of the fourth one takes
over; the two branches meet in the third one, which the bound allows. -/
theorem reorg_bounded_late :
    let past := [pacedChain 0, pacedChain 1, pacedChain 2, pacedChain 3, lateRival].map verifiedCall
    let call := verifiedCall lateTip
    let a := doubleSha256 (pacedChain 3).wire
    let b := doubleSha256 lateTip.wire
    (run narrowParams past).chain.entries (doubleSha256 (pacedChain 0).wire) = none
      ∧ narrowParams.retention < (run narrowParams past).peak
      ∧ Moves narrowParams past call a b
      ∧ MeetAbove narrowParams (run narrowParams (past ++ [call])).record.get
        (run narrowParams past).peak a b := by
  intro past call a b
  let calls := past ++ [call]
  let walk (calls : List Call) (k : Hash32) :=
    trail (run narrowParams calls).chain.entries.get ShareBlock.up 4 (some k)
  have hrun : CollisionFree (calls.map Call.share)
      ∧ (run narrowParams past).chain.entries (doubleSha256 (pacedChain 0).wire) = none
      ∧ narrowParams.retention < (run narrowParams past).peak
      ∧ (run narrowParams past).chain.bestTip = some a
      ∧ (run narrowParams calls).chain.bestTip = some b
      ∧ a ≠ b := by decide +kernel
  -- the walks from the best tip and from the parent of each share that comes late
  have hwalks : ∀ n < 6, narrowParams.retention < (run narrowParams (calls.take n)).peak →
      ∀ c ∈ calls[n]?, c.share.prevShareId ≠ genesisPrev
        ∧ ∀ tip ∈ (run narrowParams (calls.take n)).chain.bestTip,
          ∃ p ∈ walk (calls.take n) tip, p ∈ walk (calls.take n) c.share.prevShareId := by
    decide +kernel
  obtain ⟨hcf, hpruned, hpeak, ha, hb, hne⟩ := hrun
  have hmove : Moves narrowParams past call a b := ⟨ha, hb, hne⟩
  refine ⟨hpruned, hpeak, hmove, (reorg_bounded_iff narrowParams calls hcf).1 ?_
    past call List.prefix_rfl a b hmove hpeak⟩
  intro before c sid e hpre hadm hlate
  -- the call is the one at the index that the earlier calls reach
  have hlen : before.length < 6 := by
    have hle := hpre.length_le
    rw [List.length_append, List.length_singleton] at hle
    exact hle
  have htake : calls.take before.length = before :=
    (List.prefix_iff_eq_take.mp ((List.prefix_append _ _).trans hpre)).symm
  have hget : calls[before.length]? = some c := by
    rw [List.prefix_iff_getElem?.mp hpre before.length (by simp)]
    simp
  have hwalk := hwalks before.length hlen
  rw [htake, hget] at hwalk
  obtain ⟨hprev, htip⟩ := hwalk hlate c rfl
  exact ⟨hprev, fun tip ht => ⟨4, htip tip ht⟩⟩

/-! ### A branch beside the active chain -/

/-- Two branches grow side by side until the share they have in common is pruned; then the second
one takes over. -/
theorem reorg_unbounded : ¬∀ (P : Params) (calls : List Call),
    CollisionFree (calls.map Call.share) →
    ∀ past call, past ++ [call] <+: calls → ReorgBounded P past call := by
  intro h
  let past := [pacedChain 0, pacedChain 1, rivalChain 1, pacedChain 2, rivalChain 2, pacedChain 3,
    rivalChain 3].map verifiedCall
  let call := verifiedCall (rivalChain 4)
  let a := doubleSha256 (pacedChain 3).wire
  let b := doubleSha256 (rivalChain 4).wire
  have hrun : CollisionFree ((past ++ [call]).map Call.share)
      ∧ a ≠ b
      ∧ (run narrowParams past).chain.bestTip = some a
      ∧ (run narrowParams (past ++ [call])).chain.bestTip = some b
      ∧ narrowParams.retention < (run narrowParams past).peak
      ∧ (run narrowParams (past ++ [call])).record.get a = some (pacedChain 3)
      ∧ (run narrowParams (past ++ [call])).record.get b = some (rivalChain 4)
      ∧ ∀ p ∈ ancestry (run narrowParams (past ++ [call])).record.get a (pacedChain 3),
        p ∈ ancestry (run narrowParams (past ++ [call])).record.get b (rivalChain 4) →
        p.2.sidechainHeight + narrowParams.retention < (run narrowParams past).peak := by
    decide +kernel
  obtain ⟨hcf, hne, ha, hb, hpeak, hsa, hsb, hlow⟩ := hrun
  obtain ⟨s, t, p, hs, ht, hps, hpt, hheight⟩ := h narrowParams (past ++ [call]) hcf past call
    List.prefix_rfl a b ⟨ha, hb, hne⟩ hpeak
  cases hsa.symm.trans hs
  cases hsb.symm.trans ht
  exact absurd hheight (not_le.mpr (hlow p hps hpt))

end P2Pearl
