import P2Pearl.Consensus.Validity

/-!
Runs of `add_share` from an empty sharechain, with a record that never forgets.

* `addShare_cases`: a call leaves the chain as it is and is not accepted, or admits a valid share.
* `History`: a sharechain, every entry ever accepted (newest first) and the largest height any best
  tip has had; `run P calls` is the history of a sequence of calls.
* `Grows`: what admitting a share does to a history; `run_induction` is the induction over a run
  with one case, a share admitted.
* `record`: the store that would have resulted without pruning; the store is part of it
  (`subMap_record`).
* `pacedChain` and `rivalChain`: two branches from one share, for `shortParams`, whose windows are
  so short that a few shares prune it.
-/

namespace P2Pearl

variable {P : Params}

/-! ### The store -/

namespace Store

variable {E : Store} {k j : Hash32} {e x : Entry}

@[simp] lemma set_self : E.set k e k = some e := Function.update_self ..

lemma set_of_ne (h : j ≠ k) : E.set k e j = E j := Function.update_of_ne h ..

lemma set_eq_some_iff : E.set k e j = some x ↔ j = k ∧ e = x ∨ j ≠ k ∧ E j = some x := by
  by_cases h : j = k
  · subst h; simp
  · simp [set_of_ne h, h]

lemma get_eq_some_iff {s : ShareBlock} : E.get k = some s ↔ ∃ e, E k = some e ∧ e.share = s :=
  Option.map_eq_some_iff

lemma get_eq_none_iff : E.get k = none ↔ E k = none := Option.map_eq_none_iff

lemma get_of_some (h : E k = some e) : E.get k = some e.share := by rw [get, h]; rfl

lemma lookup_of_some (h : E k = some e) : E.lookup k = .ok e := by rw [lookup, h]

lemma set_get : (E.set k e).get = Function.update E.get k (some e.share) := by
  funext j
  by_cases h : j = k
  · subst h; rw [get, set_self, Function.update_self]; rfl
  · rw [get, set_of_ne h, Function.update_of_ne h]; rfl

lemma subMap_get {E' : Store} (h : SubMap E E') : SubMap E.get E'.get := by
  intro k s hs
  obtain ⟨e, he, rfl⟩ := get_eq_some_iff.mp hs
  exact get_of_some (h k e he)

/-- A fresh key extends a store. -/
lemma subMap_set (h : E k = none) : SubMap E (E.set k e) := by
  intro j x hx
  rw [set_of_ne (fun hj => by rw [hj, h] at hx; cases hx), hx]

end Store

/-- The best tip is stored. -/
def Sharechain.TipStored (C : Sharechain) : Prop :=
  ∀ k, C.bestTip = some k → ∃ e, C.entries k = some e

/-- Pruning keeps the entries at most the retention below the tip, and nothing else. -/
lemma prune_entries {C : Sharechain} {tip : ShareBlock} (htip : C.tip = some tip) {k : Hash32}
    {x : Entry} : (C.prune P).entries k = some x
      ↔ C.entries k = some x ∧ tip.sidechainHeight ≤ x.share.sidechainHeight + P.retention := by
  simp only [Sharechain.prune, htip]
  split_ifs with h
  · exact ⟨fun hk => ⟨hk, by omega⟩, fun hk => hk.1⟩
  · rw [Option.filter_eq_some_iff]
    refine and_congr_right fun _ => ?_
    simp only [decide_eq_true_eq]
    omega

@[simp] lemma prune_bestTip (C : Sharechain) : (C.prune P).bestTip = C.bestTip := by
  unfold Sharechain.prune
  split
  · rfl
  · simp only; split_ifs <;> rfl

/-- Nothing is pruned below a tip within the retention. -/
lemma prune_of_low {C : Sharechain} {tip : ShareBlock} (htip : C.tip = some tip)
    (h : tip.sidechainHeight ≤ P.retention) : C.prune P = C := by
  simp only [Sharechain.prune, htip]
  exact if_pos (by omega)

/-! ### One call -/

/-- The call admits the entry `e` under the id `sid`. -/
structure Admits (P : Params) (E : Store) (call : Call) (sid : Hash32) (e : Entry) : Prop where
  verified : call.verified = true
  id : call.share.shareId = .ok sid
  valid : Valid P E.get call.share call.now sid
  cumulative : cumulativeAfter E call.share = .ok e.cumulativeDifficulty
  share : e.share = call.share
  proof : e.proof = call.proof

lemma Admits.fresh {E : Store} {call : Call} {sid : Hash32} {e : Entry}
    (h : Admits P E call sid e) : E sid = none :=
  Store.get_eq_none_iff.mp h.valid.fresh

lemma entryFor_eq_ok_iff {E : Store} {call : Call} {sid : Hash32} {e : Entry} :
    entryFor E call = .ok (sid, e) ↔ call.share.shareId = .ok sid
      ∧ cumulativeAfter E call.share = .ok e.cumulativeDifficulty ∧ e.share = call.share
      ∧ e.proof = call.proof := by
  simp only [entryFor, bind_eq_ok_iff]
  constructor
  · rintro ⟨i, hi, c, hc, h⟩
    cases h
    exact ⟨hi, hc, rfl, rfl⟩
  · rintro ⟨hi, hc, hs, hp⟩
    refine ⟨sid, hi, _, hc, ?_⟩
    cases e
    simp only at hs hp
    subst hs hp
    rfl

/-- What an admission inserts. -/
lemma Admits.entry_eq {E : Store} {call : Call} {sid : Hash32} {e : Entry}
    (h : Admits P E call sid e) {c : ℕ} (hc : cumulativeAfter E call.share = .ok c) :
    e = ⟨call.share, c, call.proof⟩ := by
  have hcumulative := Except.ok.inj (h.cumulative.symm.trans hc)
  cases e
  rw [Entry.mk.injEq]
  exact ⟨h.share, hcumulative, h.proof⟩

/-- The uncles of a list are looked up when they are stored. -/
lemma mapM_lookup {E : Store} {us : List Hash32} (h : ∀ uid ∈ us, ∃ u, E.get uid = some u) :
    ∃ es, us.mapM E.lookup = .ok es
      ∧ es.map (fun e => e.share.difficulty) = us.map fun uid =>
          ((E.get uid).map ShareBlock.difficulty).getD 0 := by
  induction us with
  | nil => exact ⟨[], rfl, rfl⟩
  | cons uid us ih =>
      obtain ⟨es, hes, hsum⟩ := ih fun u hu => h u (List.mem_cons_of_mem _ hu)
      obtain ⟨s, hs⟩ := h uid List.mem_cons_self
      obtain ⟨e, he, rfl⟩ := Store.get_eq_some_iff.mp hs
      refine ⟨e :: es, ?_, ?_⟩
      · rw [List.mapM_cons, Store.lookup_of_some he, hes]; rfl
      · simp only [List.map_cons, hs, hsum]; rfl

/-- A valid share has a cumulative difficulty. -/
lemma cumulativeAfter_of_valid {E : Store} {share : ShareBlock} {now : ℚ} {sid : Hash32}
    (h : Valid P E.get share now sid) : ∃ c, cumulativeAfter E share = .ok c := by
  rw [cumulativeAfter]
  rcases h.linked with hf | ⟨parent, hx⟩
  · exact ⟨_, if_pos hf.prev⟩
  · obtain ⟨pe, hpe, -⟩ := Store.get_eq_some_iff.mp hx.stored
    obtain ⟨es, hes, -⟩ := mapM_lookup (E := E) fun uid hu =>
      (hx.uncles uid hu).imp fun u hu => hu.stored
    rw [if_neg hx.prev, Store.lookup_of_some hpe, hes]
    exact ⟨_, rfl⟩

/-- **A call**: it does not accept and leaves the chain as it is, or it admits a share. -/
lemma addShare_cases (P : Params) (C : Sharechain) (call : Call) :
    (∃ r, addShare P C call = (C, r) ∧ (∀ a, r = .ok a → a.accepted = false ∧ a.isBestTip = false)
        ∧ ¬∃ sid e, Admits P C.entries call sid e)
      ∨ ∃ sid e, Admits P C.entries call sid e ∧ addShare P C call = C.insert P sid e := by
  rw [addShare]
  split_ifs with hv
  · exact Or.inl ⟨_, rfl, by rintro _ ⟨⟩; exact ⟨rfl, rfl⟩,
      fun ⟨_, _, h⟩ => by simp [h.verified] at hv⟩
  · have hnone : ∀ sid e, Admits P C.entries call sid e →
        validate P C.entries.get call.share call.now = .ok none :=
      fun sid e h => validate_eq_ok_none_iff.mpr ⟨sid, h.id, h.valid⟩
    cases hval : validate P C.entries.get call.share call.now with
    | error err =>
        refine Or.inl ⟨_, rfl, by rintro _ ⟨⟩, fun ⟨sid, e, h⟩ => ?_⟩
        rw [hnone sid e h] at hval; cases hval
    | ok o =>
        cases o with
        | some r =>
            refine Or.inl ⟨_, rfl, by rintro _ ⟨⟩; exact ⟨rfl, rfl⟩, fun ⟨sid, e, h⟩ => ?_⟩
            rw [hnone sid e h] at hval; cases hval
        | none =>
            obtain ⟨sid, hid, hvalid⟩ := validate_eq_ok_none_iff.mp hval
            obtain ⟨c, hc⟩ := cumulativeAfter_of_valid hvalid
            have hentry : entryFor C.entries call = .ok (sid, ⟨call.share, c, call.proof⟩) :=
              entryFor_eq_ok_iff.mpr ⟨hid, hc, rfl, rfl⟩
            refine Or.inr ⟨sid, ⟨call.share, c, call.proof⟩,
              ⟨by simpa using hv, hid, hvalid, hc, rfl, rfl⟩, ?_⟩
            simp only [hentry]

/-- An inserted entry becomes the best tip when there is none or it is heavier. -/
lemma insert_cases {C : Sharechain} (htip : C.TipStored) {sid : Hash32}
    (hfresh : C.entries sid = none)
    (e : Entry) :
    ((∀ best b, C.bestTip = some best → C.entries best = some b →
          b.cumulativeDifficulty < e.cumulativeDifficulty)
        ∧ C.insert P sid e
          = (Sharechain.prune P ⟨C.entries.set sid e, some sid⟩, .ok ⟨true, true, ""⟩))
      ∨ ∃ best b, C.bestTip = some best ∧ C.entries best = some b
          ∧ e.cumulativeDifficulty ≤ b.cumulativeDifficulty
          ∧ C.insert P sid e = (⟨C.entries.set sid e, C.bestTip⟩, .ok ⟨true, false, ""⟩) := by
  cases hb : C.bestTip with
  | none =>
      refine Or.inl ⟨by simp, ?_⟩
      simp [Sharechain.insert, outweighs, hb]
  | some best =>
      obtain ⟨b, hbe⟩ := htip best hb
      have hne : best ≠ sid := fun h => by rw [h, hfresh] at hbe; cases hbe
      have hout : outweighs (C.entries.set sid e) C.bestTip e
          = .ok (decide (b.cumulativeDifficulty < e.cumulativeDifficulty)) := by
        simp only [outweighs, hb, Store.lookup_of_some ((Store.set_of_ne hne).trans hbe)]
        rfl
      by_cases hlt : b.cumulativeDifficulty < e.cumulativeDifficulty
      · refine Or.inl ⟨fun best' b' h h' => ?_, ?_⟩
        · cases h
          cases hbe.symm.trans h'
          exact hlt
        · simp [Sharechain.insert, hout, hlt]
      · refine Or.inr ⟨best, b, rfl, hbe, not_lt.mp hlt, ?_⟩
        rw [hb] at hout
        simp [Sharechain.insert, hb, hout, hlt]

/-- A verified call with a valid share is accepted. -/
lemma addShare_of_valid {C : Sharechain} (htip : C.TipStored) (call : Call)
    (hv : call.verified = true) (hvalid : validate P C.entries.get call.share call.now = .ok none) :
    ∃ isBestTip, (addShare P C call).2 = .ok ⟨true, isBestTip, ""⟩ := by
  obtain ⟨sid, hid, hval⟩ := validate_eq_ok_none_iff.mp hvalid
  obtain ⟨c, hc⟩ := cumulativeAfter_of_valid hval
  rcases addShare_cases P C call with ⟨-, -, -, hno⟩ | ⟨sid', e, hadm, hins⟩
  · exact absurd ⟨sid, ⟨call.share, c, call.proof⟩, hv, hid, hval, hc, rfl, rfl⟩ hno
  · rcases insert_cases (P := P) htip hadm.fresh e with ⟨-, hi⟩ | ⟨best, b, -, -, -, hi⟩
    · exact ⟨true, by rw [hins, hi]⟩
    · exact ⟨false, by rw [hins, hi]⟩

/-- The tip of a chain whose best tip was just inserted. -/
lemma tip_of_set (E : Store) (sid : Hash32) (e : Entry) :
    Sharechain.tip ⟨E.set sid e, some sid⟩ = some e.share :=
  Store.get_of_some Store.set_self

/-- A stored share stays stored, unless it is pruned: then all that remains stored is within the
retention of the tip, and the share is not. -/
lemma get_addShare {C : Sharechain} (htip : C.TipStored) (call : Call) {sid : Hash32}
    {s : ShareBlock} (h : C.entries.get sid = some s) :
    (addShare P C call).1.entries.get sid = some s
      ∨ ∃ tip, (addShare P C call).1.tip = some tip
        ∧ s.sidechainHeight + P.retention < tip.sidechainHeight
        ∧ ∀ k x, (addShare P C call).1.entries.get k = some x →
          tip.sidechainHeight ≤ x.sidechainHeight + P.retention := by
  obtain ⟨x, hx, rfl⟩ := Store.get_eq_some_iff.mp h
  rcases addShare_cases P C call with ⟨r, hr, -, -⟩ | ⟨i, e, hadm, hins⟩
  · rw [hr]
    exact Or.inl h
  · have hx' := Store.subMap_set (e := e) hadm.fresh _ _ hx
    rw [hins]
    rcases insert_cases (P := P) htip hadm.fresh e with ⟨-, hi⟩ | ⟨best, b, -, -, -, hi⟩
    · rw [hi]
      by_cases hkept : e.share.sidechainHeight ≤ x.share.sidechainHeight + P.retention
      · exact Or.inl (Store.get_of_some
          ((prune_entries (tip_of_set C.entries i e)).mpr ⟨hx', hkept⟩))
      · have htip' : (Sharechain.prune P ⟨C.entries.set i e, some i⟩).tip = some e.share := by
          rw [Sharechain.tip, prune_bestTip]
          refine Store.get_of_some ((prune_entries (tip_of_set C.entries i e)).mpr ⟨?_, ?_⟩)
          · exact Store.set_self
          · exact Nat.le_add_right _ _
        refine Or.inr ⟨e.share, htip', not_le.mp hkept, fun k y hy => ?_⟩
        obtain ⟨ye, hye, rfl⟩ := Store.get_eq_some_iff.mp hy
        exact ((prune_entries (tip_of_set C.entries i e)).mp hye).2
    · rw [hi]
      exact Or.inl (Store.get_of_some hx')

/-- An admitted share is stored. -/
lemma get_addShare_self {C : Sharechain} (htip : C.TipStored) {call : Call} {sid : Hash32}
    (hv : call.verified = true) (hid : call.share.shareId = .ok sid)
    (hvalid : validate P C.entries.get call.share call.now = .ok none) :
    (addShare P C call).1.entries.get sid = some call.share := by
  obtain ⟨sid', hid', hval⟩ := validate_eq_ok_none_iff.mp hvalid
  obtain ⟨c, hc⟩ := cumulativeAfter_of_valid hval
  rcases addShare_cases P C call with ⟨-, -, -, hno⟩ | ⟨i, e, hadm, hins⟩
  · exact absurd ⟨sid', ⟨call.share, c, call.proof⟩, hv, hid', hval, hc, rfl, rfl⟩ hno
  · cases Except.ok.inj (hadm.id.symm.trans hid)
    rw [hins]
    rcases insert_cases (P := P) htip hadm.fresh e with ⟨-, hi⟩ | ⟨best, b, -, -, -, hi⟩
    · rw [hi, ← hadm.share]
      refine Store.get_of_some ((prune_entries (tip_of_set C.entries _ e)).mpr ⟨?_, ?_⟩)
      · exact Store.set_self
      · exact Nat.le_add_right _ _
    · rw [hi, ← hadm.share]
      exact Store.get_of_some Store.set_self

/-! ### Runs -/

/-- A sharechain with its past. -/
structure History where
  chain : Sharechain
  /-- Every entry ever accepted, newest first. -/
  accepted : List (Hash32 × Entry)
  /-- The largest height any best tip has had. -/
  peak : ℕ

namespace History

/-- Nothing has happened. -/
def init : History := ⟨.empty, [], 0⟩

/-- A call of `add_share`: an accepted share is recorded with its entry, a new best tip with its
height. -/
def step (P : Params) (H : History) (call : Call) : History :=
  match addShare P H.chain call, entryFor H.chain.entries call with
  | (chain, .ok ⟨true, isBestTip, _⟩), .ok admitted =>
      { chain, accepted := admitted :: H.accepted,
        peak := if isBestTip then max H.peak admitted.2.share.sidechainHeight else H.peak }
  | (chain, _), _ => { H with chain }

end History

/-- The history of a sequence of calls. -/
def run (P : Params) (calls : List Call) : History := calls.foldl (History.step P) .init

/-- What admitting the entry `e` under `sid` makes of a history. -/
inductive Grows (P : Params) (H : History) (sid : Hash32) (e : Entry) : History → Prop
  | best (heavier : ∀ best b, H.chain.bestTip = some best → H.chain.entries best = some b →
        b.cumulativeDifficulty < e.cumulativeDifficulty) :
      Grows P H sid e ⟨Sharechain.prune P ⟨H.chain.entries.set sid e, some sid⟩,
        (sid, e) :: H.accepted, max H.peak e.share.sidechainHeight⟩
  | side (best : Hash32) (b : Entry) (tip : H.chain.bestTip = some best)
      (stored : H.chain.entries best = some b)
      (lighter : e.cumulativeDifficulty ≤ b.cumulativeDifficulty) :
      Grows P H sid e ⟨⟨H.chain.entries.set sid e, some best⟩, (sid, e) :: H.accepted, H.peak⟩

lemma Grows.accepted {H H' : History} {sid : Hash32} {e : Entry} (h : Grows P H sid e H') :
    H'.accepted = (sid, e) :: H.accepted := by cases h <;> rfl

/-- The entries after an admission are among the old ones and the new one; all within the
retention of the highest tip are kept. -/
lemma Grows.entries {H H' : History} {sid : Hash32} {e : Entry} (h : Grows P H sid e H')
    {k : Hash32} {x : Entry} :
    (H'.chain.entries k = some x → (H.chain.entries.set sid e) k = some x)
      ∧ ((H.chain.entries.set sid e) k = some x →
          H'.peak ≤ x.share.sidechainHeight + P.retention → H'.chain.entries k = some x) := by
  cases h with
  | best heavier =>
      simp only [prune_entries (tip_of_set H.chain.entries sid e)]
      exact ⟨fun h => h.1, fun h hp => ⟨h, (le_max_right _ _).trans hp⟩⟩
  | side best b tip stored lighter => exact ⟨id, fun h _ => h⟩

lemma Grows.peak_le {H H' : History} {sid : Hash32} {e : Entry} (h : Grows P H sid e H') :
    H.peak ≤ H'.peak := by
  cases h with
  | best heavier => exact le_max_left _ _
  | side best b tip stored lighter => exact le_rfl

/-- An admission leaves a stored best tip. -/
lemma Grows.tipStored {H H' : History} {sid : Hash32} {e : Entry} (h : Grows P H sid e H')
    (hfresh : H.chain.entries sid = none) : H'.chain.TipStored := by
  cases h with
  | best heavier =>
      intro k hk
      rw [prune_bestTip] at hk
      cases hk
      refine ⟨e, (prune_entries (tip_of_set H.chain.entries sid e)).mpr ⟨Store.set_self, ?_⟩⟩
      exact Nat.le_add_right _ _
  | side best b tip stored lighter =>
      intro k hk
      cases hk
      exact ⟨b, Store.subMap_set hfresh _ _ stored⟩

/-- One call on a history: nothing happens, or a share is admitted. -/
lemma step_cases {H : History} (htip : H.chain.TipStored) (call : Call) :
    (H.step P call = H ∧ ¬∃ sid e, Admits P H.chain.entries call sid e)
      ∨ ∃ sid e, Admits P H.chain.entries call sid e ∧ Grows P H sid e (H.step P call) := by
  rcases addShare_cases P H.chain call with ⟨r, hr, hnot, hno⟩ | ⟨sid, e, hadm, hins⟩
  · refine Or.inl ⟨?_, hno⟩
    simp only [History.step, hr]
    split
    · rename_i heq _
      cases heq
      cases (hnot _ rfl).1
    · rename_i heq _
      cases heq
      rfl
  · refine Or.inr ⟨sid, e, hadm, ?_⟩
    have hentry := entryFor_eq_ok_iff.mpr ⟨hadm.id, hadm.cumulative, hadm.share, hadm.proof⟩
    rcases insert_cases (P := P) htip hadm.fresh e with ⟨hlt, hi⟩ | ⟨best, b, hbt, hb, hle, hi⟩
    · simp only [History.step, hins, hi, hentry]
      exact Grows.best hlt
    · simp only [History.step, hins, hi, hentry, hbt]
      exact Grows.side best b hbt hb hle

/-- The chain of a history is what the calls make of it. -/
lemma step_chain (H : History) (call : Call) :
    (H.step P call).chain = (addShare P H.chain call).1 := by
  rw [History.step]
  split
  · rename_i heq _
    rw [heq]
  · rename_i heq _
    rw [heq]

/-- A call leaves a stored best tip. -/
lemma Sharechain.TipStored.addShare {C : Sharechain} (h : C.TipStored) (call : Call) :
    (addShare P C call).1.TipStored := by
  have hchain := step_chain (P := P) ⟨C, [], 0⟩ call
  rw [← hchain]
  rcases step_cases (P := P) (H := ⟨C, [], 0⟩) h call with ⟨hsame, -⟩ | ⟨sid, e, hadm, hgrow⟩
  · rw [hsame]; exact h
  · exact hgrow.tipStored hadm.fresh

lemma run_append (calls : List Call) (call : Call) :
    run P (calls ++ [call]) = (run P calls).step P call := by
  rw [run, List.foldl_append]; rfl

/-- **Induction over a run**: what holds of the empty history and survives the admission of a
share holds of the history of every sequence of calls. -/
theorem run_induction {motive : History → Prop} (calls : List Call) (init : motive .init)
    (grow : ∀ past call sid e H', past ++ [call] <+: calls → motive (run P past) →
      Admits P (run P past).chain.entries call sid e → Grows P (run P past) sid e H' → motive H') :
    motive (run P calls) := by
  have hboth : (run P calls).chain.TipStored ∧ motive (run P calls) := by
    induction calls using List.reverseRecOn with
    | nil => exact ⟨by simp [run, History.init, Sharechain.empty, Sharechain.TipStored], init⟩
    | append_singleton calls call ih =>
        obtain ⟨htip, hm⟩ := ih fun past c sid e H' hpre =>
          grow past c sid e H' (hpre.trans (List.prefix_append _ _))
        rw [run_append]
        rcases step_cases (P := P) htip call with ⟨hsame, -⟩ | ⟨sid, e, hadm, hgrow⟩
        · rw [hsame]; exact ⟨htip, hm⟩
        · exact ⟨hgrow.tipStored hadm.fresh,
            grow calls call sid e _ List.prefix_rfl hm hadm hgrow⟩
  exact hboth.2

/-- Pruning never removes the best tip. -/
lemma run_tipStored (calls : List Call) : (run P calls).chain.TipStored :=
  run_induction calls (fun _ h => by cases h)
    fun _ _ _ _ _ _ _ hadm hgrow => hgrow.tipStored hadm.fresh

/-! ### The record -/

/-- The store a list of accepted entries, newest first, makes up. -/
def recordOf : List (Hash32 × Entry) → Store
  | [] => fun _ => none
  | p :: l => (recordOf l).set p.1 p.2

/-- Every share ever accepted. -/
def History.record (H : History) : Store := recordOf H.accepted

lemma Grows.record {H H' : History} {sid : Hash32} {e : Entry} (h : Grows P H sid e H') :
    H'.record = H.record.set sid e := by rw [History.record, h.accepted]; rfl

lemma mem_of_recordOf {l : List (Hash32 × Entry)} {k : Hash32} {e : Entry}
    (h : recordOf l k = some e) : (k, e) ∈ l := by
  induction l with
  | nil => cases h
  | cons p l ih =>
      rw [recordOf, Store.set_eq_some_iff] at h
      rcases h with ⟨rfl, rfl⟩ | ⟨-, h⟩
      · exact List.mem_cons_self
      · exact List.mem_cons_of_mem _ (ih h)

lemma recordOf_eq_none_iff {l : List (Hash32 × Entry)} {k : Hash32} :
    recordOf l k = none ↔ k ∉ l.map Prod.fst := by
  induction l with
  | nil => simp [recordOf]
  | cons p l ih =>
      rw [recordOf, List.map_cons, List.mem_cons, not_or, ← ih]
      by_cases h : k = p.1
      · subst h; simp
      · simp [Store.set_of_ne h, h]

/-- Where no id was accepted twice, the record holds exactly what was accepted. -/
lemma recordOf_eq_some_iff {l : List (Hash32 × Entry)} (hn : (l.map Prod.fst).Nodup)
    {k : Hash32} {e : Entry} : recordOf l k = some e ↔ (k, e) ∈ l := by
  refine ⟨mem_of_recordOf, fun h => ?_⟩
  obtain ⟨x, hx⟩ := Option.ne_none_iff_exists'.mp
    (fun hnone => recordOf_eq_none_iff.mp hnone (List.mem_map_of_mem h))
  have := List.inj_on_of_nodup_map hn (mem_of_recordOf hx) h rfl
  rw [hx, Option.some.injEq]
  exact (Prod.mk.inj this).2

/-- The store is part of the record. -/
lemma subMap_record (calls : List Call) :
    SubMap (run P calls).chain.entries (run P calls).record := by
  refine run_induction (motive := fun H => SubMap H.chain.entries H.record) calls
    (fun _ _ h => by cases h) fun past call sid e H' _ ih hadm hgrow => ?_
  intro k x hx
  have hset := hgrow.entries.1 hx
  rw [hgrow.record, Store.set_eq_some_iff]
  rcases Store.set_eq_some_iff.mp hset with h | ⟨hne, h⟩
  · exact Or.inl h
  · exact Or.inr ⟨hne, ih k x h⟩

/-- Accepted shares come from the calls, under their own ids. -/
lemma mem_accepted (calls : List Call) {k : Hash32} {e : Entry}
    (h : (k, e) ∈ (run P calls).accepted) :
    e.share.shareId = .ok k ∧ e.share ∈ calls.map Call.share := by
  revert h
  refine run_induction (motive := fun H => (k, e) ∈ H.accepted →
    e.share.shareId = .ok k ∧ e.share ∈ calls.map Call.share) calls
    (fun h => absurd h List.not_mem_nil) fun past call sid e' H' hpre ih hadm hgrow h => ?_
  rw [hgrow.accepted] at h
  rcases List.mem_cons.mp h with heq | h
  · cases heq
    rw [hadm.share]
    exact ⟨hadm.id, List.mem_map_of_mem (hpre.subset (by simp))⟩
  · exact ih h

/-- No best tip has been higher than every accepted share. -/
lemma peak_le (calls : List Call) {height : ℕ}
    (h : ∀ k e, (k, e) ∈ (run P calls).accepted → e.share.sidechainHeight ≤ height) :
    (run P calls).peak ≤ height := by
  revert h
  refine run_induction (motive := fun H => (∀ k e, (k, e) ∈ H.accepted →
    e.share.sidechainHeight ≤ height) → H.peak ≤ height) calls (fun _ => Nat.zero_le _)
    fun past call sid e H' _ ih _ hgrow h => ?_
  rw [hgrow.accepted] at h
  have hold := ih fun k x hx => h k x (List.mem_cons_of_mem _ hx)
  cases hgrow with
  | best heavier => exact max_le hold (h sid e List.mem_cons_self)
  | side best b tip stored lighter => exact hold

/-- What was accepted was admitted, by one of the calls. -/
lemma admits_of_accepted (calls : List Call) {k : Hash32} {e : Entry}
    (h : (k, e) ∈ (run P calls).accepted) : ∃ past call, past ++ [call] <+: calls
      ∧ Admits P (run P past).chain.entries call k e := by
  revert h
  refine run_induction (motive := fun H => (k, e) ∈ H.accepted → ∃ past call,
    past ++ [call] <+: calls ∧ Admits P (run P past).chain.entries call k e) calls
    (fun h => absurd h List.not_mem_nil) fun past call sid e' H' hpre ih hadm hgrow h => ?_
  rw [hgrow.accepted] at h
  rcases List.mem_cons.mp h with heq | h
  · cases heq
    exact ⟨past, call, hpre, hadm⟩
  · exact ih h

/-- No two shares of the list have one id. -/
def CollisionFree (shares : List ShareBlock) : Prop :=
  ∀ s ∈ shares, ∀ t ∈ shares, ∀ i, s.shareId = .ok i → t.shareId = .ok i → s = t

lemma CollisionFree.mono {pool shares : List ShareBlock} (h : CollisionFree pool)
    (hsub : shares ⊆ pool) : CollisionFree shares :=
  fun s hs t ht i hi hi' => h s (hsub hs) t (hsub ht) i hi hi'

lemma collisionFree_iff {shares : List ShareBlock} :
    CollisionFree shares ↔ ∀ s ∈ shares, ∀ t ∈ shares, s.shareId = t.shareId →
      s.shareId.isOk = true → s = t := by
  constructor
  · intro h s hs t ht heq hok
    cases hid : s.shareId with
    | error e =>
        rw [hid] at hok
        cases hok
    | ok i => exact h s hs t ht i hid (heq ▸ hid)
  · intro h s hs t ht i hids hidt
    exact h s hs t ht (hids.trans hidt.symm) (by rw [hids]; rfl)

instance (shares : List ShareBlock) : Decidable (CollisionFree shares) :=
  decidable_of_iff' _ collisionFree_iff

/-- Where ids do not collide, the record holds an admitted share under its id or nothing. -/
lemma record_eq_share {calls past : List Call} {call : Call} {sid : Hash32} {e x : Entry}
    (hcf : CollisionFree (calls.map Call.share)) (hpre : past ++ [call] <+: calls)
    (hadm : Admits P (run P past).chain.entries call sid e)
    (hx : (run P past).record sid = some x) :
    x.share = e.share := by
  obtain ⟨hid, hmem⟩ := mem_accepted past (mem_of_recordOf hx)
  have hpast : ∀ s ∈ past.map Call.share, s ∈ calls.map Call.share := fun s hs =>
    (hpre.map Call.share).subset (by rw [List.map_append]; exact List.mem_append_left _ hs)
  have hcall : call.share ∈ calls.map Call.share := (hpre.map Call.share).subset (by simp)
  rw [hadm.share]
  exact hcf _ (hpast _ hmem) _ hcall sid hid hadm.id

/-! ### The first share -/

/-- A genesis share of a sidechain with the default parameters. -/
def genesisShare (parentHeight blockNbits : ℕ) (minerAddress : PyStr) (payoutSetHash : Hash32) :
    ShareBlock where
  version := sidechainVersion
  sidechainHeight := 0
  prevShareId := genesisPrev
  parentPrevBlock := genesisPrev
  parentHeight := parentHeight
  timestamp := 0
  shareTarget := bootstrapShareTarget
  blockNbits := blockNbits
  coinbaseVersion := 0
  coinbaseValue := blockSubsidy parentHeight
  minerAddress := minerAddress
  payoutSetHash := payoutSetHash
  targetLimit := bootstrapShareTarget
  uncleIds := []
  shareTarget_pos := by norm_num [bootstrapShareTarget, maxTarget]
  shareTarget_le := le_rfl
  targetLimit_le := Nat.div_le_self _ _

/-- An empty sharechain accepts it. -/
lemma genesisShare_valid (parentHeight blockNbits : ℕ) (minerAddress : PyStr)
    (payoutSetHash : Hash32) {now : ℚ} (hnow : 0 ≤ now) (sid : Hash32) :
    Valid {} (fun _ => none) (genesisShare parentHeight blockNbits minerAddress payoutSetHash)
      now sid where
  fresh := rfl
  version := rfl
  drift := by
    have : (0 : ℚ) ≤ now + maxTimestampDriftSeconds := add_nonneg hnow (Nat.cast_nonneg _)
    simpa [genesisShare] using this
  coinbase := rfl
  nodup := List.nodup_nil
  not_self := List.not_mem_nil
  linked := Or.inl ⟨rfl, rfl, rfl, rfl⟩

/-- The history of one admitted genesis share. -/
lemma run_genesis {call : Call} {sid : Hash32} (hv : call.verified = true)
    (hid : call.share.shareId = .ok sid) (hf : Founds P call.share)
    (hvalid : Valid P (fun _ => none) call.share call.now sid) :
    run P [call]
      = ⟨⟨Store.set (fun _ => none) sid ⟨call.share, call.share.difficulty, call.proof⟩, some sid⟩,
          [(sid, ⟨call.share, call.share.difficulty, call.proof⟩)], 0⟩ := by
  have hcum : ∀ E, cumulativeAfter E call.share = .ok call.share.difficulty :=
    fun E => if_pos hf.prev
  have hadm : Admits P History.init.chain.entries call sid
      ⟨call.share, call.share.difficulty, call.proof⟩ :=
    ⟨hv, hid, hvalid, hcum _, rfl, rfl⟩
  have hrun : run P [call] = History.init.step P call := rfl
  rw [hrun]
  rcases step_cases (H := .init) (run_tipStored (P := P) []) call with
    ⟨-, hno⟩ | ⟨sid', e, hadm', hgrow⟩
  · exact absurd ⟨sid, _, hadm⟩ hno
  · cases Except.ok.inj (hadm'.id.symm.trans hid)
    obtain rfl := hadm'.entry_eq (hcum _)
    generalize History.init.step P call = H' at hgrow
    cases hgrow with
    | best heavier =>
        have hprune := prune_of_low (P := P) (tip_of_set (fun _ => none) sid
          ⟨call.share, call.share.difficulty, call.proof⟩) (by
            rw [hf.height]
            exact Nat.zero_le _)
        rw [hf.height]
        exact congrArg (History.mk · _ _) hprune
    | side best b tip stored lighter => cases tip

/-- The call that admits a genesis share. -/
def genesisCall (parentHeight blockNbits : ℕ) (minerAddress : PyStr) (payoutSetHash : Hash32) :
    Call :=
  ⟨genesisShare parentHeight blockNbits minerAddress payoutSetHash, true, none, 0⟩

section GenesisCall

variable (parentHeight blockNbits : ℕ) (minerAddress : PyStr) (payoutSetHash : Hash32)
  (hp : parentHeight < 2 ^ 32) (hb : blockNbits < 2 ^ 32) (ha : IsAscii minerAddress)
  (hl : minerAddress.length < 2 ^ 64)

include hp hb ha hl

lemma genesisShare_encodable :
    (genesisShare parentHeight blockNbits minerAddress payoutSetHash).Encodable where
  version := by change sidechainVersion < _; norm_num [sidechainVersion]
  sidechainHeight := by change 0 < _; norm_num
  parentHeight := hp
  timestamp := by change 0 < _; norm_num
  blockNbits := hb
  coinbaseVersion := by change 0 < _; norm_num
  coinbaseValue := blockSubsidy_lt parentHeight
  ascii := ha
  addressLength := hl
  uncleCount := by change 0 < _; norm_num

/-- The history of that call, under some id. -/
lemma run_genesisCall :
    let call := genesisCall parentHeight blockNbits minerAddress payoutSetHash
    ∃ sid, call.share.shareId = .ok sid ∧ run {} [call]
      = ⟨⟨Store.set (fun _ => none) sid ⟨call.share, call.share.difficulty, none⟩, some sid⟩,
          [(sid, ⟨call.share, call.share.difficulty, none⟩)], 0⟩ := by
  intro call
  obtain ⟨sid, hid⟩ : ∃ sid, call.share.shareId = .ok sid :=
    ⟨_, (genesisShare_encodable _ _ _ payoutSetHash hp hb ha hl).shareId⟩
  exact ⟨sid, hid, run_genesis rfl hid ⟨rfl, rfl, rfl, rfl⟩
    (genesisShare_valid _ _ _ _ le_rfl sid)⟩

omit hp hb ha hl in
/-- What a verified call with a genesis share makes of an empty sharechain. -/
lemma addShare_genesisShare (proof : Option Bytes) {now : ℚ} (hnow : 0 ≤ now) {sid : Hash32}
    (hid : (genesisShare parentHeight blockNbits minerAddress payoutSetHash).shareId = .ok sid) :
    let share := genesisShare parentHeight blockNbits minerAddress payoutSetHash
    addShare {} .empty ⟨share, true, proof, now⟩
      = (⟨Store.set (fun _ => none) sid ⟨share, share.difficulty, proof⟩, some sid⟩,
          .ok ⟨true, true, ""⟩) := by
  intro share
  have hvalid := genesisShare_valid parentHeight blockNbits minerAddress payoutSetHash hnow sid
  rcases addShare_cases {} .empty ⟨share, true, proof, now⟩ with
    ⟨-, -, -, hno⟩ | ⟨sid', e, hadm, hins⟩
  · exact absurd ⟨sid, ⟨_, _, proof⟩, rfl, hid, hvalid, rfl, rfl, rfl⟩ hno
  · cases Except.ok.inj (hadm.id.symm.trans hid)
    obtain rfl := hadm.entry_eq rfl
    have hprune := prune_of_low (P := {}) (tip_of_set (fun _ => none) sid
      ⟨share, share.difficulty, proof⟩) (Nat.zero_le _)
    rw [hins, ← hprune]
    rfl

end GenesisCall

/-! ### Short sidechains -/

/-- Windows of two shares, no uncles, and a bootstrap target of difficulty two. -/
def shortParams : Params where
  window := 2
  uncleDepth := 0
  bootstrapTarget := maxTarget / 2
  retargetWindow := 2

/-- Windows of one share, so that three heights are retained. -/
def narrowParams : Params := { shortParams with window := 1 }

/-- A share at the pace the sidechain aims at, with a limit in range. -/
def pacedShare (height : ℕ) (prevShareId : Hash32) (limit : ℕ) (hpos : 0 < limit)
    (hle : limit ≤ maxTarget) : ShareBlock where
  version := sidechainVersion
  sidechainHeight := height
  prevShareId := prevShareId
  parentPrevBlock := genesisPrev
  parentHeight := 0
  timestamp := shareTargetTimeSeconds * height
  shareTarget := limit
  blockNbits := 0
  coinbaseVersion := 0
  coinbaseValue := 0
  minerAddress := []
  payoutSetHash := genesisPrev
  targetLimit := limit
  uncleIds := []
  shareTarget_pos := hpos
  shareTarget_le := le_rfl
  targetLimit_le := hle

/-- A limit of difficulty two is in range. -/
lemma half_maxTarget_pos : 0 < maxTarget / 2 := by decide

lemma half_maxTarget_le : maxTarget / 2 ≤ maxTarget := Nat.div_le_self _ _

/-- The shares of a chain that keeps the pace, by height. -/
def pacedChain : ℕ → ShareBlock
  | 0 => pacedShare 0 genesisPrev (maxTarget / 2) half_maxTarget_pos half_maxTarget_le
  | n + 1 => pacedShare (n + 1) (doubleSha256 (pacedChain n).wire) (maxTarget / 2)
      half_maxTarget_pos half_maxTarget_le

/-- The shares of a second branch from the first share, by height. -/
def rivalChain : ℕ → ShareBlock
  | 0 => pacedChain 0
  | n + 1 => { pacedShare (n + 1) (doubleSha256 (rivalChain n).wire) (maxTarget / 2)
      half_maxTarget_pos half_maxTarget_le with minerAddress := ['b'] }

/-- The second shares of the two branches have ids. -/
lemma pacedChain_one_id :
    (pacedChain 1).shareId = .ok (doubleSha256 (pacedChain 1).wire) := by decide +kernel

lemma rivalChain_one_id :
    (rivalChain 1).shareId = .ok (doubleSha256 (rivalChain 1).wire) := by decide +kernel

/-- The third share of the first branch, with the second share of the other one for an uncle. -/
def nephewShare : ShareBlock :=
  { pacedChain 2 with uncleIds := [doubleSha256 (rivalChain 1).wire] }

/-- Windows of two shares and uncles of the height below. -/
def uncleParams : Params := { shortParams with uncleDepth := 1 }

/-- A plain proof: the base64 of three zero bytes. -/
def zeroProof : PyStr := ['A', 'A', 'A', 'A']

lemma encodeAscii_zeroProof : encodeAscii zeroProof = .ok [65, 65, 65, 65] := rfl

/-- The call that adds a verified share at the start of time. -/
def verifiedCall (share : ShareBlock) : Call := ⟨share, true, none, 0⟩

end P2Pearl
