import P2Pearl.Consensus.History

/-!
No share's work is counted twice.

* `Lawful`: a set of shares in which every share stands one above its stored parent, every genesis
  share at height zero, and every referenced uncle below the share that references it.
* `ancestry S k s`: the share `s` with all its main-chain ancestors; `uncleRefs` are the uncles it
  references.
* `Ledger`: over the record of a run, an ancestry with its uncles repeats no id, and the stored
  cumulative difficulty is the work of the two; `run_ledger` establishes it under collision-free
  ids.  The step is `uncles_fresh`: the depth-bounded scan of `_validate` catches every earlier
  mention of an uncle, since a sibling hangs below the scanned part of the chain.
* `work_counted_once`: the ledger, and what it says of the PPLNS weights.
-/

namespace P2Pearl

variable {P : Params}

/-! ### Lawful sets of shares -/

/-- Heights follow the links. -/
structure Lawful (S : Shares) : Prop where
  genesis : ∀ k s, S k = some s → s.prevShareId = genesisPrev → s.sidechainHeight = 0
  parent : ∀ k s, S k = some s → s.prevShareId ≠ genesisPrev →
    ∃ p, S s.prevShareId = some p ∧ s.sidechainHeight = p.sidechainHeight + 1
  uncle : ∀ k s, S k = some s → ∀ uid ∈ s.uncleIds,
    ∃ u, S uid = some u ∧ u.sidechainHeight < s.sidechainHeight

/-- The share `s`, stored under `k`, with all its main-chain ancestors. -/
def ancestry (S : Shares) (k : Hash32) (s : ShareBlock) : List (Hash32 × ShareBlock) :=
  trail S ShareBlock.up (s.sidechainHeight + 1) (some k)

/-- Every id that takes part in a walk: the main-chain shares, each with its uncles. -/
def participants (t : List (Hash32 × ShareBlock)) : List Hash32 :=
  t.flatMap fun p => p.1 :: p.2.uncleIds

@[simp] lemma participants_cons (p : Hash32 × ShareBlock) (t : List (Hash32 × ShareBlock)) :
    participants (p :: t) = p.1 :: p.2.uncleIds ++ participants t := rfl

lemma participants_perm (t : List (Hash32 × ShareBlock)) :
    (t.map Prod.fst ++ uncleRefs t).Perm (participants t) :=
  List.map_append_flatMap_perm t Prod.fst fun p => p.2.uncleIds

/-- The work of the share stored under an id. -/
def workAt (S : Shares) (k : Hash32) : ℕ := ((S k).map ShareBlock.difficulty).getD 0

/-- The work of a walk: its shares and the uncles they reference, both in full. -/
def workOver (S : Shares) (t : List (Hash32 × ShareBlock)) : ℕ :=
  (t.map fun p => p.2.difficulty).sum + ((uncleRefs t).map (workAt S)).sum

@[simp] lemma workOver_cons (S : Shares) (p : Hash32 × ShareBlock)
    (t : List (Hash32 × ShareBlock)) : workOver S (p :: t)
      = p.2.difficulty + (p.2.uncleIds.map (workAt S)).sum + workOver S t := by
  simp only [workOver, uncleRefs_cons, List.map_cons, List.sum_cons, List.map_append,
    List.sum_append]
  omega

namespace Lawful

variable {S S' : Shares} {k : Hash32} {s : ShareBlock}

lemma descending (h : Lawful S) : Descending S ShareBlock.up fun s => s.sidechainHeight := by
  intro k v j w hv hup hw
  obtain ⟨hne, rfl⟩ := ShareBlock.up_eq_some_iff.mp hup
  obtain ⟨p, hp, hh⟩ := h.parent k v hv hne
  cases hp.symm.trans hw
  simp only
  omega

lemma unbroken (h : Lawful S) (n : ℕ) (hs : S k = some s) :
    Unbroken S ShareBlock.up n (some k) := by
  refine unbroken_of_closed (fun j v i hv hup => ?_) n hs
  obtain ⟨hne, rfl⟩ := ShareBlock.up_eq_some_iff.mp hup
  exact (h.parent j v hv hne).imp fun p hp => hp.1

lemma ancestry_of_genesis (hs : S k = some s) (hg : s.prevShareId = genesisPrev) :
    ancestry S k s = [(k, s)] := by
  rw [ancestry, trail_succ hs, ShareBlock.up, hg, link_genesisPrev, trail_none]

lemma ancestry_of_parent {p : ShareBlock} (hs : S k = some s) (hne : s.prevShareId ≠ genesisPrev)
    (hh : s.sidechainHeight = p.sidechainHeight + 1) :
    ancestry S k s = (k, s) :: ancestry S s.prevShareId p := by
  rw [ancestry, trail_succ hs, ShareBlock.up, link_of_ne hne, hh]; rfl

/-- A larger set gives the same ancestry. -/
lemma ancestry_of_subMap (h : Lawful S) (hsub : SubMap S S') (hs : S k = some s) :
    ancestry S' k s = ancestry S k s :=
  trail_eq_of_unbroken hsub (h.unbroken _ hs)

/-- The ancestry ends at a genesis share. -/
lemma ancestry_founded (h : Lawful S) (hs : S k = some s) :
    ∃ g ∈ ancestry S k s, g.2.prevShareId = genesisPrev := by
  induction hn : s.sidechainHeight generalizing k s with
  | zero =>
      by_cases hg : s.prevShareId = genesisPrev
      · exact ⟨(k, s), by rw [ancestry_of_genesis hs hg]; simp, hg⟩
      · obtain ⟨p, -, hh⟩ := h.parent k s hs hg
        omega
  | succ n ih =>
      by_cases hg : s.prevShareId = genesisPrev
      · exact ⟨(k, s), by rw [ancestry_of_genesis hs hg]; simp, hg⟩
      · obtain ⟨p, hp, hh⟩ := h.parent k s hs hg
        obtain ⟨g, hg', hgp⟩ := ih hp (by omega)
        refine ⟨g, ?_, hgp⟩
        rw [ancestry_of_parent hs hg hh]
        exact List.mem_cons_of_mem _ hg'

/-- No walk goes beyond the ancestry. -/
lemma trail_eq_ancestry (h : Lawful S) (hs : S k = some s) {n : ℕ}
    (hn : s.sidechainHeight + 1 ≤ n) : trail S ShareBlock.up n (some k) = ancestry S k s := by
  induction hm : s.sidechainHeight generalizing k s n with
  | zero =>
      obtain ⟨n, rfl⟩ : ∃ n', n = n' + 1 := ⟨n - 1, by omega⟩
      by_cases hg : s.prevShareId = genesisPrev
      · rw [ancestry_of_genesis hs hg, trail_succ hs, ShareBlock.up, hg, link_genesisPrev,
          trail_none]
      · obtain ⟨p, -, hh⟩ := h.parent k s hs hg
        omega
  | succ m ih =>
      obtain ⟨n, rfl⟩ : ∃ n', n = n' + 1 := ⟨n - 1, by omega⟩
      by_cases hg : s.prevShareId = genesisPrev
      · have := h.genesis k s hs hg
        omega
      · obtain ⟨p, hp, hh⟩ := h.parent k s hs hg
        rw [ancestry_of_parent hs hg hh, trail_succ hs, ShareBlock.up, link_of_ne hg,
          ih hp (by omega) (by omega)]

/-- Everything that takes part in the ancestry of a share is stored no higher than the share. -/
lemma height_le_of_mem_participants (h : Lawful S) (hs : S k = some s) {j : Hash32}
    (hj : j ∈ participants (ancestry S k s)) :
    ∃ t, S j = some t ∧ t.sidechainHeight ≤ s.sidechainHeight := by
  obtain ⟨⟨i, t⟩, ht, hj⟩ := List.mem_flatMap.mp hj
  have hstored := stored_of_mem_trail ht
  have hle : t.sidechainHeight ≤ s.sidechainHeight := by
    rw [ancestry, trail_succ hs] at ht
    rcases List.mem_cons.mp ht with heq | ht
    · cases heq; exact le_rfl
    · exact (rank_lt_of_mem_trail h.descending hs ht).le
  rcases List.mem_cons.mp hj with rfl | hj
  · exact ⟨t, hstored, hle⟩
  · obtain ⟨u, hu, hlt⟩ := h.uncle i t hstored j hj
    exact ⟨u, hu, (hlt.le).trans hle⟩

/-- Nothing in the ancestry of a share is higher. -/
lemma height_le_of_mem_ancestry (h : Lawful S) (hs : S k = some s) {p : Hash32 × ShareBlock}
    (hp : p ∈ ancestry S k s) : p.2.sidechainHeight ≤ s.sidechainHeight := by
  obtain ⟨t, ht, hle⟩ := h.height_le_of_mem_participants hs
    (List.mem_flatMap.mpr ⟨p, hp, List.mem_cons_self⟩)
  cases (stored_of_mem_trail hp).symm.trans ht
  exact hle

/-- Every walk from a share stays in its ancestry. -/
lemma mem_ancestry_of_mem_trail (h : Lawful S) (hs : S k = some s) {n : ℕ}
    {p : Hash32 × ShareBlock} (hp : p ∈ trail S ShareBlock.up n (some k)) :
    p ∈ ancestry S k s := by
  rw [← h.trail_eq_ancestry hs (le_max_right n _)]
  exact (trail_prefix_of_le (le_max_left n _) _).subset hp

/-- A larger set gives the same work. -/
lemma workOver_of_subMap (h : Lawful S) (hsub : SubMap S S') (k : Hash32) (s : ShareBlock) :
    workOver S' (ancestry S k s) = workOver S (ancestry S k s) := by
  rw [workOver, workOver]
  congr 2
  refine List.map_congr_left fun uid huid => ?_
  obtain ⟨⟨i, t⟩, ht, hu⟩ := mem_uncleRefs.mp huid
  obtain ⟨u, hu, -⟩ := h.uncle i t (stored_of_mem_trail ht) uid hu
  rw [workAt, workAt, hu, hsub uid u hu]

end Lawful

/-! ### The uncles of an admitted share -/

/-- A scan never names the genesis predecessor. -/
lemma ne_genesisPrev_of_mem_trail {S : Shares} {n : ℕ} {j k : Hash32}
    (h : k ∈ (trail S ShareBlock.up n (link j)).map Prod.fst) : k ≠ genesisPrev := by
  induction n generalizing j with
  | zero => exact absurd h List.not_mem_nil
  | succ n ih =>
      by_cases hg : j = genesisPrev
      · rw [hg, link_genesisPrev] at h; exact absurd h List.not_mem_nil
      · rw [link_of_ne hg] at h
        cases hs : S j with
        | none => rw [trail_missing hs] at h; exact absurd h List.not_mem_nil
        | some s =>
            rw [trail_succ hs, List.map_cons] at h
            rcases List.mem_cons.mp h with rfl | h
            · exact hg
            · exact ih h

/-- **The scan suffices.**  Let a share extend a parent in a store `C` that is part of a lawful
set `S`.  No uncle it references takes part in the full ancestry of the parent: the predecessor
of the uncle was scanned, so everything of the chain above it was. -/
lemma uncles_fresh {C S : Shares} {share parent : ShareBlock} (hS : Lawful S) (hsub : SubMap C S)
    (hext : Extends P C share parent) {uid : Hash32} (huid : uid ∈ share.uncleIds) :
    uid ∉ participants (ancestry S share.prevShareId parent) := by
  obtain ⟨uncle, hu⟩ := hext.uncles uid huid
  have hstored := hsub uid uncle hu.stored
  -- the predecessor of the uncle is a scanned share one below it
  have hne : uncle.prevShareId ≠ genesisPrev := ne_genesisPrev_of_mem_trail hu.sibling
  obtain ⟨⟨i, q⟩, hq, hqi⟩ := List.mem_map.mp hu.sibling
  obtain ⟨p, hp, hh⟩ := hS.parent uid uncle hstored hne
  have hqp : q = p := by
    have := hsub i q (stored_of_mem_trail hq)
    rw [show i = uncle.prevShareId from hqi, hp] at this
    exact (Option.some.inj this).symm
  have hup : share.up = some share.prevShareId := link_of_ne hext.prev
  rw [scanned, hup] at hq
  intro hmem
  obtain ⟨⟨j, t⟩, ht, hj⟩ := List.mem_flatMap.mp hmem
  -- so every share of the ancestry at least as high as the uncle was scanned
  have hscan : uncle.sidechainHeight ≤ t.sidechainHeight → (j, t) ∈ scanned P C share := by
    intro hle
    rw [scanned, hup]
    refine mem_trail_of_rank_le hS.descending hsub ht hq ?_
    simp only [hqp]
    omega
  rcases List.mem_cons.mp hj with rfl | hj
  · cases hstored.symm.trans (stored_of_mem_trail ht)
    exact hu.off_chain (List.mem_map_of_mem (hscan le_rfl))
  · obtain ⟨u, hu', hlt⟩ := hS.uncle j t (stored_of_mem_trail ht) uid hj
    cases hstored.symm.trans hu'
    exact hu.unreferenced (mem_uncleRefs.mpr ⟨(j, t), hscan hlt.le, hj⟩)

/-! ### The ledger -/

/-- The books of a history balance. -/
structure Ledger (H : History) : Prop where
  lawful : Lawful H.record.get
  nodup : ∀ k s, H.record.get k = some s → (participants (ancestry H.record.get k s)).Nodup
  work : ∀ k e, H.record k = some e →
    e.cumulativeDifficulty = workOver H.record.get (ancestry H.record.get k e.share)

section Admission

variable {C : Store} {S S' : Shares} {call : Call} {sid : Hash32} {e : Entry}
  (hadm : Admits P C call sid e) (hS : Lawful S) (hsub : SubMap C.get S) (hsub' : SubMap S S')
  (hset : S' = Function.update S sid (some e.share))

include hset in
lemma eq_or_old {k : Hash32} {s : ShareBlock} (h : S' k = some s) :
    k = sid ∧ s = e.share ∨ S k = some s := by
  rw [hset] at h
  by_cases hk : k = sid
  · subst hk
    rw [Function.update_self] at h
    exact Or.inl ⟨rfl, (Option.some.inj h).symm⟩
  · rw [Function.update_of_ne hk] at h
    exact Or.inr h

include hadm hS hsub hsub' hset

/-- An admission keeps the record lawful. -/
lemma Lawful.grow : Lawful S' := by
  have hparent := fun j p (h : C.get j = some p) => hsub' j p (hsub j p h)
  refine ⟨fun k s h hg => ?_, fun k s h hne => ?_, fun k s h uid huid => ?_⟩
  · rcases eq_or_old hset h with ⟨rfl, rfl⟩ | h
    · rw [hadm.share] at hg ⊢
      rcases hadm.valid.linked with hf | ⟨p, hx⟩
      · exact hf.height
      · exact absurd hg hx.prev
    · exact hS.genesis k s h hg
  · rcases eq_or_old hset h with ⟨rfl, rfl⟩ | h
    · rw [hadm.share] at hne ⊢
      rcases hadm.valid.linked with hf | ⟨p, hx⟩
      · exact absurd hf.prev hne
      · exact ⟨p, hparent _ _ hx.stored, hx.height⟩
    · obtain ⟨p, hp, hh⟩ := hS.parent k s h hne
      exact ⟨p, hsub' _ _ hp, hh⟩
  · rcases eq_or_old hset h with ⟨rfl, rfl⟩ | h
    · rw [hadm.share] at huid ⊢
      rcases hadm.valid.linked with hf | ⟨p, hx⟩
      · rw [hf.uncles] at huid; exact absurd huid List.not_mem_nil
      · obtain ⟨u, hu⟩ := hx.uncles uid huid
        exact ⟨u, hparent _ _ hu.stored, hu.below⟩
    · obtain ⟨u, hu, hlt⟩ := hS.uncle k s h uid huid
      exact ⟨u, hsub' _ _ hu, hlt⟩

/-- The ancestry of an admitted share repeats no id. -/
lemma participants_nodup_grow
    (hnodup : ∀ k s, S k = some s → (participants (ancestry S k s)).Nodup) :
    (participants (ancestry S' sid e.share)).Nodup := by
  have hsid : S' sid = some e.share := by rw [hset, Function.update_self]
  have hS' := Lawful.grow hadm hS hsub hsub' hset
  rw [hadm.share] at hsid ⊢
  rcases hadm.valid.linked with hf | ⟨parent, hx⟩
  · rw [Lawful.ancestry_of_genesis hsid hf.prev, participants_cons, hf.uncles]
    simp [participants]
  · have hparent := hsub _ _ hx.stored
    rw [Lawful.ancestry_of_parent hsid hx.prev hx.height, hS.ancestry_of_subMap hsub' hparent,
      participants_cons]
    refine List.nodup_append.mpr ⟨List.nodup_cons.mpr ⟨hadm.valid.not_self, hadm.valid.nodup⟩,
      hnodup _ _ hparent, ?_⟩
    rintro a ha b hb rfl
    rcases List.mem_cons.mp ha with rfl | ha
    · -- the share itself stands above everything in the ancestry of its parent
      obtain ⟨t, ht, hle⟩ := hS.height_le_of_mem_participants hparent hb
      have := hsub' _ _ ht
      rw [hsid] at this
      cases this
      have := hx.height
      omega
    · exact uncles_fresh hS hsub hx ha hb

/-- The cumulative difficulty of an admitted share is the work of its ancestry. -/
lemma work_grow
    (hwork : ∀ k x, C k = some x → x.cumulativeDifficulty = workOver S (ancestry S k x.share)) :
    e.cumulativeDifficulty = workOver S' (ancestry S' sid e.share) := by
  have hsid : S' sid = some e.share := by rw [hset, Function.update_self]
  have hcum := hadm.cumulative
  rw [hadm.share] at hsid ⊢
  rw [cumulativeAfter] at hcum
  rcases hadm.valid.linked with hf | ⟨parent, hx⟩
  · rw [if_pos hf.prev] at hcum
    rw [Lawful.ancestry_of_genesis hsid hf.prev, ← Except.ok.inj hcum]
    simp [workOver, hf.uncles]
  · rw [if_neg hx.prev] at hcum
    obtain ⟨pe, hpe, rfl⟩ := Store.get_eq_some_iff.mp hx.stored
    have hstored := fun uid huid => (hx.uncles uid huid).imp fun u hu => hu.stored
    obtain ⟨es, hes, hsum⟩ := mapM_lookup (E := C) hstored
    rw [Store.lookup_of_some hpe, hes] at hcum
    have hcum : pe.cumulativeDifficulty + call.share.difficulty
        + (es.map fun u => u.share.difficulty).sum = e.cumulativeDifficulty := Except.ok.inj hcum
    have hparent := hsub _ _ hx.stored
    have huncles : call.share.uncleIds.map (workAt S')
        = call.share.uncleIds.map fun uid => ((C.get uid).map ShareBlock.difficulty).getD 0 := by
      refine List.map_congr_left fun uid huid => ?_
      obtain ⟨u, hu⟩ := hstored uid huid
      rw [workAt, hu, hsub' _ _ (hsub _ _ hu)]
    rw [Lawful.ancestry_of_parent hsid hx.prev hx.height, hS.ancestry_of_subMap hsub' hparent,
      workOver_cons, hS.workOver_of_subMap hsub', ← hwork _ _ hpe, huncles, ← hsum, ← hcum]
    simp only
    omega

end Admission

/-- An admission forgets nothing that was accepted before, unless it takes the id of another
share. -/
lemma Grows.subMap_record {H H' : History} {sid : Hash32} {e : Entry} (hgrow : Grows P H sid e H')
    (hsame : ∀ x, H.record sid = some x → x.share = e.share) :
    SubMap H.record.get H'.record.get := by
  intro k s hs
  rw [hgrow.record, Store.set_get]
  by_cases hk : k = sid
  · subst hk
    obtain ⟨x, hx, rfl⟩ := Store.get_eq_some_iff.mp hs
    rw [Function.update_self, hsame x hx]
  · rw [Function.update_of_ne hk, hs]

lemma subMap_record_grow {calls past : List Call} {call : Call} {sid : Hash32} {e : Entry}
    {H' : History} (hcf : CollisionFree (calls.map Call.share)) (hpre : past ++ [call] <+: calls)
    (hadm : Admits P (run P past).chain.entries call sid e)
    (hgrow : Grows P (run P past) sid e H') :
    SubMap (run P past).record.get H'.record.get :=
  hgrow.subMap_record fun _ hx => record_eq_share hcf hpre hadm hx

/-- A run keeps the books, when no share is admitted under the id of another. -/
lemma ledger_of_same (calls : List Call)
    (hsame : ∀ past call sid e x, past ++ [call] <+: calls →
      Admits P (run P past).chain.entries call sid e → (run P past).record sid = some x →
      x.share = e.share) :
    Ledger (run P calls) := by
  refine run_induction (P := P) calls ⟨⟨?_, ?_, ?_⟩, ?_, ?_⟩ ?_
  · exact fun _ _ h => (by cases h)
  · exact fun _ _ h => (by cases h)
  · exact fun _ _ h => (by cases h)
  · exact fun _ _ h => (by cases h)
  · exact fun _ _ h => (by cases h)
  intro past call sid e H' hpre ih hadm hgrow
  have hset : H'.record.get = Function.update (run P past).record.get sid (some e.share) := by
    rw [hgrow.record, Store.set_get]
  have hchain := subMap_record (P := P) past
  have hsub := Store.subMap_get hchain
  have hsub' := hgrow.subMap_record fun x => hsame past call sid e x hpre hadm
  refine ⟨Lawful.grow hadm ih.lawful hsub hsub' hset, fun k s hs => ?_, fun k x hx => ?_⟩
  · rcases eq_or_old hset hs with ⟨rfl, rfl⟩ | hold
    · exact participants_nodup_grow hadm ih.lawful hsub hsub' hset ih.nodup
    · rw [ih.lawful.ancestry_of_subMap hsub' hold]
      exact ih.nodup k s hold
  · rw [hgrow.record, Store.set_eq_some_iff] at hx
    rcases hx with ⟨rfl, rfl⟩ | ⟨-, hold⟩
    · exact work_grow hadm ih.lawful hsub hsub' hset fun j y hy => ih.work j y (hchain j y hy)
    · have hget := Store.get_of_some hold
      rw [ih.lawful.ancestry_of_subMap hsub' hget, ih.lawful.workOver_of_subMap hsub']
      exact ih.work k x hold

/-- Every run keeps the books, when ids do not collide. -/
lemma run_ledger (calls : List Call) (hcf : CollisionFree (calls.map Call.share)) :
    Ledger (run P calls) :=
  ledger_of_same calls fun _ _ _ _ _ hpre hadm hx => record_eq_share hcf hpre hadm hx

/-- A share has more work behind it than its parent. -/
lemma Ledger.work_lt {H : History} (h : Ledger H) {k : Hash32} {e p : Entry}
    (he : H.record k = some e) (hne : e.share.prevShareId ≠ genesisPrev)
    (hp : H.record e.share.prevShareId = some p) :
    p.cumulativeDifficulty < e.cumulativeDifficulty := by
  have hs := Store.get_of_some he
  obtain ⟨q, hq, hh⟩ := h.lawful.parent k e.share hs hne
  cases (Store.get_of_some hp).symm.trans hq
  rw [h.work k e he, h.work _ p hp, Lawful.ancestry_of_parent hs hne hh, workOver_cons]
  have := e.share.difficulty_pos
  simp only
  omega

/-- A share has more work behind it than any of its ancestors. -/
lemma Ledger.work_lt_of_mem_ancestry {H : History} (h : Ledger H) {k : Hash32} {e x : Entry}
    (he : H.record k = some e) {p : Hash32 × ShareBlock}
    (hp : p ∈ ancestry H.record.get k e.share) (hne : p.1 ≠ k) (hx : H.record p.1 = some x) :
    x.cumulativeDifficulty < e.cumulativeDifficulty := by
  have hs := Store.get_of_some he
  induction hn : e.share.sidechainHeight generalizing k e with
  | zero =>
      by_cases hg : e.share.prevShareId = genesisPrev
      · rw [Lawful.ancestry_of_genesis hs hg, List.mem_singleton] at hp
        exact absurd (congrArg Prod.fst hp) hne
      · obtain ⟨q, -, hh⟩ := h.lawful.parent k e.share hs hg
        omega
  | succ n ih =>
      by_cases hg : e.share.prevShareId = genesisPrev
      · rw [Lawful.ancestry_of_genesis hs hg, List.mem_singleton] at hp
        exact absurd (congrArg Prod.fst hp) hne
      · obtain ⟨q, hq, hh⟩ := h.lawful.parent k e.share hs hg
        obtain ⟨pe, hpe, rfl⟩ := Store.get_eq_some_iff.mp hq
        have hlt := h.work_lt he hg hpe
        rw [Lawful.ancestry_of_parent hs hg hh] at hp
        rcases List.mem_cons.mp hp with rfl | hp
        · exact absurd rfl hne
        · by_cases hparent : p.1 = e.share.prevShareId
          · rw [hparent, hpe] at hx
            cases hx
            exact hlt
          · exact (ih hpe hp hparent hq (by omega)).trans hlt

/-! ### The weights of a window -/

/-- What the uncles of a share contribute: each stored one its penalized weight. -/
def uncleContributions (P : Params) (S : Shares) (us : List Hash32) : List (Hash32 × PyStr × ℤ) :=
  us.filterMap fun uid => (S uid).map fun u =>
    (uid, u.minerAddress, uncleWeight u.difficulty P.unclePenaltyPercent)

/-- What a walk contributes: each share its difficulty, followed by its uncles. -/
def contributions (P : Params) (S : Shares) (t : List (Hash32 × ShareBlock)) :
    List (Hash32 × PyStr × ℤ) :=
  t.flatMap fun p =>
    (p.1, p.2.minerAddress, (p.2.difficulty : ℤ)) :: uncleContributions P S p.2.uncleIds

/-- Running totals with contributions added. -/
def credit (weights : Tally PyStr ℤ) (cs : List (Hash32 × PyStr × ℤ)) : Tally PyStr ℤ :=
  (cs.map Prod.snd).foldl (fun t p => t.add p.1 p.2) weights

lemma credit_cons (weights : Tally PyStr ℤ) (c : Hash32 × PyStr × ℤ)
    (cs : List (Hash32 × PyStr × ℤ)) :
    credit weights (c :: cs) = credit (weights.add c.2.1 c.2.2) cs := rfl

lemma credit_append (weights : Tally PyStr ℤ) (cs ds : List (Hash32 × PyStr × ℤ)) :
    credit weights (cs ++ ds) = credit (credit weights cs) ds := by
  rw [credit, List.map_append, List.foldl_append]; rfl

/-- Where no uncle was seen before, the uncle loop credits each stored uncle once. -/
lemma creditUncles_eq {S : Shares} {us seen : List Hash32} (h : (us ++ seen).Nodup)
    (weights : Tally PyStr ℤ) :
    ∃ seen', creditUncles P S us (weights, seen)
        = (credit weights (uncleContributions P S us), seen')
      ∧ seen' ⊆ us ++ seen ∧ seen'.Nodup := by
  induction us generalizing weights seen with
  | nil => exact ⟨seen, rfl, List.Subset.refl _, h⟩
  | cons uid us ih =>
      obtain ⟨hnot, hnodup⟩ := List.nodup_cons.mp h
      have hseen : uid ∉ seen := fun h' => hnot (List.mem_append_right _ h')
      rw [creditUncles, if_neg hseen, uncleContributions]
      cases hu : S uid with
      | none =>
          obtain ⟨seen', heq, hsub, hn⟩ := ih hnodup weights
          refine ⟨seen', ?_, fun x hx => List.mem_cons_of_mem _ (hsub hx), hn⟩
          rw [List.filterMap_cons_none (by rw [hu]; rfl)]
          exact heq
      | some u =>
          have hnodup' : (us ++ uid :: seen).Nodup := List.perm_middle.nodup_iff.mpr h
          obtain ⟨seen', heq, hsub, hn⟩ := ih hnodup'
            (weights.add u.minerAddress (uncleWeight u.difficulty P.unclePenaltyPercent))
          refine ⟨seen', ?_, fun x hx => List.perm_middle.subset (hsub hx), hn⟩
          rw [List.filterMap_cons_some (by rw [hu]; rfl), credit_cons]
          exact heq

lemma contributions_cons (S : Shares) (p : Hash32 × ShareBlock) (t : List (Hash32 × ShareBlock)) :
    contributions P S (p :: t) = (p.1, p.2.minerAddress, (p.2.difficulty : ℤ))
      :: (uncleContributions P S p.2.uncleIds ++ contributions P S t) := by
  rw [contributions, List.flatMap_cons]; rfl

/-- Where no uncle is referenced twice, the walk credits its contributions. -/
lemma creditWindow_eq {S : Shares} {n : ℕ} {start : Option Hash32} {seen : List Hash32}
    (h : (uncleRefs (trail S ShareBlock.up n start) ++ seen).Nodup) (weights : Tally PyStr ℤ) :
    creditWindow P S n start (weights, seen)
      = credit weights (contributions P S (trail S ShareBlock.up n start)) := by
  induction n generalizing start weights seen with
  | zero => rfl
  | succ n ih =>
      cases start with
      | none => rfl
      | some cur =>
          rw [creditWindow]
          cases hs : S cur with
          | none => rw [trail_missing hs]; rfl
          | some s =>
              rw [trail_succ hs, uncleRefs_cons, List.append_assoc] at h
              have hus : (s.uncleIds ++ seen).Nodup :=
                h.sublist ((List.sublist_append_right _ _).append_left _)
              obtain ⟨seen', heq, hsub, hn⟩ := creditUncles_eq (P := P) (S := S) hus
                (weights.add s.minerAddress s.difficulty)
              have hrest : (uncleRefs (trail S ShareBlock.up n s.up) ++ seen').Nodup := by
                obtain ⟨-, hright, hdisj⟩ := List.nodup_append.mp h
                obtain ⟨hrefs, -, hdisj'⟩ := List.nodup_append.mp hright
                refine List.nodup_append.mpr ⟨hrefs, hn, fun a ha b hb => ?_⟩
                rcases List.mem_append.mp (hsub hb) with hb | hb
                · exact (hdisj b hb a (List.mem_append_left _ ha)).symm
                · exact hdisj' a ha b hb
              simp only [heq]
              rw [ih hrest, trail_succ hs, contributions_cons, credit_cons, credit_append]

/-- The ids of the contributions are among those that take part. -/
lemma map_fst_contributions (S : Shares) (t : List (Hash32 × ShareBlock)) :
    ((contributions P S t).map Prod.fst).Sublist (participants t) := by
  have huncles : ∀ us, ((uncleContributions P S us).map Prod.fst).Sublist us := by
    intro us
    induction us with
    | nil => exact List.nil_sublist _
    | cons uid us ih =>
        cases hu : S uid with
        | none =>
            rw [uncleContributions, List.filterMap_cons_none (by rw [hu]; rfl)]
            exact ih.cons _
        | some u =>
            rw [uncleContributions, List.filterMap_cons_some (by rw [hu]; rfl)]
            exact ih.cons_cons _
  induction t with
  | nil => exact List.nil_sublist _
  | cons p t ih =>
      rw [contributions_cons, participants_cons, List.map_cons, List.map_append]
      exact ((huncles p.2.uncleIds).append ih).cons_cons _

/-- **No work is counted twice.**  Let `s` be a stored share of a run whose ids do not collide,
`A` the share with all its main-chain ancestors and `U` the uncles they reference, over
everything ever accepted.  `A` and `U` repeat no id, and the cumulative difficulty of `s` is the
work of the two.  In the PPLNS weights as of `s`, each share of the walked window and each of
its stored uncles contributes once, and each address is weighed with its contributions. -/
theorem work_counted_once (P : Params) (calls : List Call)
    (hcf : CollisionFree (calls.map Call.share)) (k : Hash32) (e : Entry)
    (he : (run P calls).chain.entries k = some e) :
    let S := (run P calls).record.get
    let A := ancestry S k e.share
    let U := uncleRefs A
    let W := trail (run P calls).chain.entries.get ShareBlock.up P.window (some k)
    let T := contributions P (run P calls).chain.entries.get W
    (∃ g ∈ A, g.2.prevShareId = genesisPrev)
      ∧ (∀ uid ∈ U, S uid ≠ none)
      ∧ (A.map Prod.fst ++ U).Nodup
      ∧ e.cumulativeDifficulty = (A.map fun p => p.2.difficulty).sum + (U.map (workAt S)).sum
      ∧ (T.map Prod.fst).Nodup
      ∧ (∀ a, sumAt ((run P calls).chain.pplnsWeights P (some k)) a = sumAt (T.map Prod.snd) a)
      ∧ grandTotal ((run P calls).chain.pplnsWeights P (some k)) = (T.map fun c => c.2.2).sum := by
  intro S A U W T
  have hledger := run_ledger (P := P) calls hcf
  have hsub := subMap_record (P := P) calls
  have hs : S k = some e.share := Store.get_of_some (hsub k e he)
  have hnodup : (participants A).Nodup := hledger.nodup k e.share hs
  -- the walked window is the beginning of the ancestry
  have hW : W <+: A := by
    have hlong := hledger.lawful.trail_eq_ancestry hs (le_max_right P.window _)
    change trail S ShareBlock.up (max P.window (e.share.sidechainHeight + 1)) (some k) = A at hlong
    rw [← hlong]
    exact (trail_prefix_of_subMap (Store.subMap_get hsub) _ _).trans
      (trail_prefix_of_le (le_max_left _ _) _)
  have hparts : (participants W).Nodup := by
    obtain ⟨rest, hrest⟩ := hW
    rw [← hrest, participants, List.flatMap_append] at hnodup
    exact (List.nodup_append.mp hnodup).1
  have hrefs : (uncleRefs W ++ []).Nodup := by
    rw [List.append_nil]
    exact (List.nodup_append.mp ((participants_perm W).nodup_iff.mpr hparts)).2.1
  have hweights : (run P calls).chain.pplnsWeights P (some k)
      = sortByWeight (Tally.ofList (T.map Prod.snd)).items := by
    change sortByWeight (creditWindow P _ P.window (some k) (Tally.empty, [])).items = _
    rw [creditWindow_eq hrefs]; rfl
  refine ⟨hledger.lawful.ancestry_founded hs, fun uid huid => ?_,
    (participants_perm A).nodup_iff.mpr hnodup, hledger.work k e (hsub k e he),
    hparts.sublist (map_fst_contributions _ W), fun a => ?_, ?_⟩
  · obtain ⟨⟨i, t⟩, ht, hu⟩ := mem_uncleRefs.mp huid
    obtain ⟨u, hu, -⟩ := hledger.lawful.uncle i t (stored_of_mem_trail ht) uid hu
    exact Option.ne_none_iff_exists'.mpr ⟨u, hu⟩
  · rw [hweights, sumAt_sortByWeight, Tally.sumAt_ofList]
  · rw [hweights, grandTotal_sortByWeight, Tally.grandTotal_ofList, grandTotal, List.map_map]
    rfl

/-- Two branches race, and the share that settles the race takes the second one's share for its
uncle: four shares of difficulty two are behind it, each counted once. -/
theorem work_counted_once_nephew :
    let calls := [pacedChain 0, pacedChain 1, rivalChain 1, rivalChain 2, nephewShare].map
      verifiedCall
    let k := doubleSha256 nephewShare.wire
    let S := (run uncleParams calls).record.get
    let A := ancestry S k nephewShare
    let T := contributions uncleParams (run uncleParams calls).chain.entries.get
      (trail (run uncleParams calls).chain.entries.get ShareBlock.up uncleParams.window (some k))
    A.map Prod.snd = [nephewShare, pacedChain 1, pacedChain 0]
      ∧ uncleRefs A = [doubleSha256 (rivalChain 1).wire]
      ∧ (A.map Prod.fst ++ uncleRefs A).Nodup
      ∧ (∃ e, (run uncleParams calls).chain.entries k = some e ∧ e.cumulativeDifficulty = 8
        ∧ e.cumulativeDifficulty
          = (A.map fun p => p.2.difficulty).sum + ((uncleRefs A).map (workAt S)).sum)
      ∧ T.map Prod.snd = [([], 2), (['b'], 1), ([], 2)]
      ∧ grandTotal ((run uncleParams calls).chain.pplnsWeights uncleParams (some k))
        = (T.map fun c => c.2.2).sum := by
  intro calls k S A T
  have hrun : CollisionFree (calls.map Call.share)
      ∧ A.map Prod.snd = [nephewShare, pacedChain 1, pacedChain 0]
      ∧ uncleRefs A = [doubleSha256 (rivalChain 1).wire]
      ∧ (run uncleParams calls).chain.entries.get k = some nephewShare
      ∧ ((run uncleParams calls).chain.entries k).map Entry.cumulativeDifficulty = some 8
      ∧ T.map Prod.snd = [([], 2), (['b'], 1), ([], 2)] := by
    decide +kernel
  obtain ⟨hcf, hmain, huncles, hget, hwork, hcontributions⟩ := hrun
  obtain ⟨e, he, hshare⟩ := Store.get_eq_some_iff.mp hget
  rw [he] at hwork
  obtain ⟨-, -, hnodup, hsum, -, -, htotal⟩ := work_counted_once uncleParams calls
    hcf k e he
  rw [hshare] at hnodup hsum
  exact ⟨hmain, huncles, hnodup, ⟨e, he, Option.some.inj hwork, hsum⟩, hcontributions, htotal⟩

end P2Pearl
