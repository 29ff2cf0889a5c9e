import P2Pearl.Consensus.Agreement

/-!
Whether a share is accepted twice.

* `Revives`: a call offers a genesis share that was accepted before and has been pruned since.
* `Collides`: a share is admitted under the id of another.
* `ClosedBelow`: where a share is not stored, its parent is not stored either; it holds of every
  run in which neither happens (`run_closed`), since a share is pruned after its parent and a
  genesis share alone can be admitted without one.
* `accepted_nodup_iff`: so ids are accepted once exactly in these runs.
-/

namespace P2Pearl

variable {P : Params}

/-- The ids ever accepted, newest first. -/
def History.ids (H : History) : List Hash32 := H.accepted.map Prod.fst

lemma Grows.ids {H H' : History} {sid : Hash32} {e : Entry} (h : Grows P H sid e H') :
    H'.ids = sid :: H.ids := by rw [History.ids, h.accepted, List.map_cons]; rfl

/-- An id that is not in the record was not accepted. -/
lemma record_eq_none_iff {H : History} {k : Hash32} : H.record k = none ↔ k ∉ H.ids :=
  recordOf_eq_none_iff

/-- What a run has accepted is at the end of what a longer run has accepted. -/
lemma ids_suffix (calls more : List Call) : (run P calls).ids <:+ (run P (calls ++ more)).ids := by
  induction more using List.reverseRecOn with
  | nil => rw [List.append_nil]
  | append_singleton more call ih =>
      rw [← List.append_assoc, run_append]
      rcases step_cases (P := P) (run_tipStored (calls ++ more)) call with
        ⟨hsame, -⟩ | ⟨sid, e, -, hgrow⟩
      · rw [hsame]
        exact ih
      · rw [hgrow.ids]
        exact ih.trans (List.suffix_cons _ _)

/-- An admitted share adds its id. -/
lemma ids_of_admits {calls : List Call} {call : Call} {sid : Hash32} {e : Entry}
    (h : Admits P (run P calls).chain.entries call sid e) :
    (run P (calls ++ [call])).ids = sid :: (run P calls).ids := by
  rw [run_append]
  rcases step_cases (P := P) (run_tipStored calls) call with ⟨-, hno⟩ | ⟨sid', e', hadm, hgrow⟩
  · exact absurd ⟨sid, e, h⟩ hno
  · rw [hgrow.ids, Except.ok.inj (hadm.id.symm.trans h.id)]

/-- In a run that has accepted no id twice, an admission is of a new id. -/
lemma record_eq_none_of_nodup {calls past : List Call} {call : Call} {sid : Hash32} {e : Entry}
    (h : (run P calls).ids.Nodup) (hpre : past ++ [call] <+: calls)
    (hadm : Admits P (run P past).chain.entries call sid e) : (run P past).record sid = none := by
  obtain ⟨more, rfl⟩ := hpre
  have honce := h.sublist (ids_suffix (P := P) (past ++ [call]) more).sublist
  rw [ids_of_admits hadm] at honce
  exact record_eq_none_iff.mpr (List.nodup_cons.mp honce).1

/-- A verified genesis share that was accepted before is offered again after it was pruned, and
its timestamp is not too far ahead of the clock. -/
structure Revives (P : Params) (H : History) (call : Call) : Prop where
  verified : call.verified = true
  genesis : call.share.prevShareId = genesisPrev
  drift : (call.share.timestamp : ℚ) ≤ call.now + maxTimestampDriftSeconds
  pruned : ∃ sid x, (sid, x) ∈ H.accepted ∧ x.share = call.share ∧ H.chain.entries sid = none

/-- The share of the call is admitted under the id of another, accepted before: the two are a
collision of `double_sha256`. -/
def Collides (P : Params) (H : History) (call : Call) : Prop :=
  ∃ sid e x, Admits P H.chain.entries call sid e ∧ (sid, x) ∈ H.accepted ∧ x.share ≠ call.share

/-- No call of the run revives a genesis share or collides with a share accepted before. -/
def NoRevival (P : Params) (calls : List Call) : Prop :=
  ∀ past call, past ++ [call] <+: calls →
    ¬Revives P (run P past) call ∧ ¬Collides P (run P past) call

/-- The parent of an accepted share that is not stored is not stored. -/
def ClosedBelow (H : History) : Prop :=
  ∀ k s, H.record.get k = some s → H.chain.entries k = none → s.prevShareId ≠ genesisPrev →
    H.chain.entries s.prevShareId = none

/-- An admission is of a new id, unless it revives a genesis share or collides. -/
lemma record_eq_none_of_admits {H : History} {call : Call} {sid : Hash32} {e : Entry}
    (hadm : Admits P H.chain.entries call sid e) (hclosed : ClosedBelow H)
    (hrev : ¬Revives P H call) (hcol : ¬Collides P H call) : H.record sid = none := by
  by_contra hold
  obtain ⟨x, hx⟩ := Option.ne_none_iff_exists'.mp hold
  have hmem := mem_of_recordOf hx
  have hshare : x.share = call.share := by
    by_contra hne
    exact hcol ⟨sid, e, x, hadm, hmem, hne⟩
  rcases hadm.valid.linked with hf | ⟨parent, hext⟩
  · exact hrev ⟨hadm.verified, hf.prev, hadm.valid.drift, sid, x, hmem, hshare, hadm.fresh⟩
  · -- the parent was pruned before the share was, and is stored again
    have hgone := hclosed sid x.share (Store.get_of_some hx) hadm.fresh (hshare ▸ hext.prev)
    obtain ⟨pe, hpe, -⟩ := Store.get_eq_some_iff.mp hext.stored
    rw [hshare, hpe] at hgone
    cases hgone

/-- The admission of a new id leaves the chain closed: what pruning takes out, it takes out with
all that stands below. -/
lemma ClosedBelow.grow {past : List Call} {call : Call} {sid : Hash32} {e : Entry} {H' : History}
    (h : ClosedBelow (run P past)) (hlawful : Lawful (run P past).record.get)
    (hadm : Admits P (run P past).chain.entries call sid e)
    (hgrow : Grows P (run P past) sid e H') (hnew : (run P past).record sid = none) :
    ClosedBelow H' := by
  intro k s hs hpruned hne
  have hsub := subMap_record (P := P) past
  rw [hgrow.record, Store.set_get] at hs
  rcases eq_or_old rfl hs with ⟨rfl, rfl⟩ | hs
  · -- the admitted share is stored
    exfalso
    cases hgrow with
    | best heavier =>
        have hkept := (prune_entries (P := P) (tip_of_set (run P past).chain.entries k e)).mpr
          ⟨Store.set_self, Nat.le_add_right _ _⟩
        rw [hpruned] at hkept
        cases hkept
    | side best b tip stored lighter =>
        have hkept : ((run P past).chain.entries.set k e) k = none := hpruned
        rw [Store.set_self] at hkept
        cases hkept
  · obtain ⟨p, hp, hheight⟩ := hlawful.parent k s hs hne
    have hparent : s.prevShareId ≠ sid := fun heq => by
      rw [heq] at hp
      obtain ⟨x, hx, -⟩ := Store.get_eq_some_iff.mp hp
      rw [hnew] at hx
      cases hx
    by_contra hstored
    obtain ⟨y, hy⟩ := Option.ne_none_iff_exists'.mp hstored
    have hold := hgrow.entries.1 hy
    rw [Store.set_of_ne hparent] at hold
    have hyp : y.share = p := by
      have := Store.get_of_some (hsub _ _ hold)
      rw [hp] at this
      exact (Option.some.inj this).symm
    cases hx : (run P past).chain.entries k with
    | none =>
        have := h k s hs hx hne
        rw [hold] at this
        cases this
    | some x =>
        have hxs : x.share = s := by
          have := Store.get_of_some (hsub _ _ hx)
          rw [hs] at this
          exact (Option.some.inj this).symm
        have hset := Store.subMap_set (e := e) hadm.fresh _ _ hx
        cases hgrow with
        | best heavier =>
            -- the share is below the cutoff, and its parent one lower
            have hkept := ((prune_entries (P := P) (tip_of_set _ sid e)).mp hy).2
            have hlow : ¬e.share.sidechainHeight ≤ x.share.sidechainHeight + P.retention := by
              intro hle
              have := (prune_entries (P := P) (tip_of_set _ sid e)).mpr ⟨hset, hle⟩
              rw [hpruned] at this
              cases this
            rw [hyp] at hkept
            rw [hxs] at hlow
            omega
        | side best b tip stored lighter =>
            have : ((run P past).chain.entries.set sid e) k = none := hpruned
            rw [hset] at this
            cases this

/-- Where no genesis share is revived and no ids collide, the chain stays closed and accepts no id
twice. -/
lemma run_closed {calls : List Call} (h : NoRevival P calls) :
    ClosedBelow (run P calls) ∧ (run P calls).ids.Nodup := by
  refine run_induction (motive := fun H => ClosedBelow H ∧ H.ids.Nodup) calls
    ⟨fun _ _ h => (by cases h), List.nodup_nil⟩ fun past call sid e H' hpre ih hadm hgrow => ?_
  obtain ⟨hrev, hcol⟩ := h past call hpre
  have hnew := record_eq_none_of_admits hadm ih.1 hrev hcol
  have hledger := ledger_of_same past fun past' call' sid' e' x hpre' hadm' hx => by
    rw [record_eq_none_of_nodup ih.2 hpre' hadm'] at hx
    cases hx
  refine ⟨ih.1.grow hledger.lawful hadm hgrow hnew, ?_⟩
  rw [hgrow.ids]
  exact List.nodup_cons.mpr ⟨record_eq_none_iff.mp hnew, ih.2⟩

/-- A revived genesis share is admitted again: nothing else of what `_validate` demands of it
depends on the chain. -/
lemma Revives.admits {past : List Call} {call : Call} (h : Revives P (run P past) call) :
    ∃ sid e, sid ∈ (run P past).ids ∧ Admits P (run P past).chain.entries call sid e := by
  obtain ⟨sid, x, hx, hsame, hpruned⟩ := h.pruned
  obtain ⟨past', call', -, hadm⟩ := admits_of_accepted past hx
  have hid := hadm.id
  have hvalid := hadm.valid
  rw [← hadm.share, hsame] at hid hvalid
  have hfounds : Founds P call.share := hvalid.linked.resolve_right fun ⟨_, hext⟩ =>
    hext.prev h.genesis
  refine ⟨sid, ⟨call.share, call.share.difficulty, call.proof⟩, List.mem_map_of_mem hx, h.verified,
    hid, ?_, if_pos h.genesis, rfl, rfl⟩
  exact ⟨Store.get_eq_none_iff.mpr hpruned, hvalid.version, h.drift, hvalid.coinbase,
    hvalid.nodup, hvalid.not_self, Or.inl hfounds⟩

/-- **Ids are accepted once** exactly in the runs that revive no genesis share and in which no ids
collide. -/
lemma accepted_nodup_iff {calls : List Call} : (run P calls).ids.Nodup ↔ NoRevival P calls := by
  refine ⟨fun hnodup past call hpre => ?_, fun h => (run_closed h).2⟩
  have hnew : ∀ sid e, Admits P (run P past).chain.entries call sid e → sid ∉ (run P past).ids :=
    fun sid e hadm => record_eq_none_iff.mp (record_eq_none_of_nodup hnodup hpre hadm)
  refine ⟨fun hrev => ?_, fun ⟨sid, e, x, hadm, hmem, _⟩ => ?_⟩
  · obtain ⟨sid, e, hold, hadm⟩ := hrev.admits
    exact hnew sid e hadm hold
  · exact hnew sid e hadm (List.mem_map_of_mem hmem)

end P2Pearl
