import P2Pearl.Data.FirstMax
import P2Pearl.Consensus.History

/-!
The selection of the best tip.

* `run_firstMax`: the best tip is the first of the heaviest entries ever accepted, with its stored
  entry; there is none before the first acceptance.
* `bestWork_mono`: the work of the best tip never decreases along a run.
* `bestTip_selection`: both, and what a call of `add_share` reports and leaves untouched.
-/

namespace P2Pearl

variable {P : Params}

/-- The cumulative difficulty of an accepted entry. -/
def workOf (p : Hash32 × Entry) : ℕ := p.2.cumulativeDifficulty

/-- The cumulative difficulty of the best tip. -/
def Sharechain.bestWork (C : Sharechain) : ℕ :=
  match C.bestTip.bind C.entries with
  | some e => e.cumulativeDifficulty
  | none => 0

/-- The best tip is the first of the heaviest accepted entries. -/
def History.TipSelected (H : History) : Prop :=
  H.chain.bestTip = none ∧ H.accepted = []
    ∨ ∃ tip e, H.chain.bestTip = some tip ∧ H.chain.entries tip = some e
        ∧ IsFirstMax workOf H.accepted (tip, e)

lemma bestWork_of_tip {C : Sharechain} {tip : Hash32} {e : Entry} (ht : C.bestTip = some tip)
    (he : C.entries tip = some e) : C.bestWork = e.cumulativeDifficulty := by
  simp [Sharechain.bestWork, ht, he]

/-- An admission selects: a strictly heavier share becomes the tip, any other leaves it. -/
lemma History.TipSelected.grow {H H' : History} {sid : Hash32} {e : Entry}
    (hfresh : H.chain.entries sid = none) (ih : H.TipSelected) (hgrow : Grows P H sid e H') :
    H'.TipSelected := by
  have hstored := hgrow.tipStored hfresh
  cases hgrow with
  | best heavier =>
      obtain ⟨x, hx⟩ := hstored sid (by simp)
      have hset := (prune_entries (tip_of_set H.chain.entries sid e)).mp hx
      cases Store.set_self.symm.trans hset.1
      refine Or.inr ⟨sid, e, by simp, hx, isFirstMax_cons_of_lt fun p hp => ?_⟩
      rcases ih with ⟨-, hnil⟩ | ⟨tip, b, ht, hb, hmax⟩
      · rw [hnil] at hp; exact absurd hp List.not_mem_nil
      · exact (hmax.le hp).trans_lt (heavier tip b ht hb)
  | side best b tip stored lighter =>
      rcases ih with ⟨hnone, -⟩ | ⟨tip', b', ht, hb, hmax⟩
      · rw [hnone] at tip; cases tip
      · cases ht.symm.trans tip
        cases hb.symm.trans stored
        exact Or.inr ⟨best, b, rfl, Store.subMap_set hfresh _ _ stored, hmax.cons lighter⟩

/-- The best tip of a run is the first of the heaviest entries ever accepted. -/
lemma run_firstMax (P : Params) (calls : List Call) : (run P calls).TipSelected :=
  run_induction calls (Or.inl ⟨rfl, rfl⟩)
    fun _ _ _ _ _ _ ih hadm hgrow => ih.grow hadm.fresh hgrow

/-- A call never lowers the work of the best tip. -/
lemma bestWork_step_le (calls : List Call) (call : Call) :
    (run P calls).chain.bestWork ≤ (run P (calls ++ [call])).chain.bestWork := by
  rw [run_append]
  rcases step_cases (P := P) (run_tipStored calls) call with ⟨hsame, -⟩ | ⟨sid, e, hadm, hgrow⟩
  · rw [hsame]
  · rcases run_firstMax P calls with ⟨hnone, -⟩ | ⟨tip, b, ht, hb, hmax⟩
    · simp [Sharechain.bestWork, hnone]
    · rcases (run_firstMax P calls).grow hadm.fresh hgrow with
        ⟨-, hnil⟩ | ⟨tip', b', ht', hb', hmax'⟩
      · rw [hgrow.accepted] at hnil; cases hnil
      · rw [bestWork_of_tip ht hb, bestWork_of_tip ht' hb']
        refine hmax'.le (y := (tip, b)) ?_
        rw [hgrow.accepted]
        exact List.mem_cons_of_mem _ hmax.mem

/-- The work of the best tip never decreases along a run. -/
lemma bestWork_mono (P : Params) (calls more : List Call) :
    (run P calls).chain.bestWork ≤ (run P (calls ++ more)).chain.bestWork := by
  induction more using List.reverseRecOn with
  | nil => rw [List.append_nil]
  | append_singleton more call ih =>
      rw [← List.append_assoc]
      exact ih.trans (bestWork_step_le (calls ++ more) call)

/-- No accepted entry is heavier than the best tip. -/
lemma le_bestWork {calls : List Call} {k : Hash32} {e : Entry}
    (h : (k, e) ∈ (run P calls).accepted) :
    e.cumulativeDifficulty ≤ (run P calls).chain.bestWork := by
  rcases run_firstMax P calls with ⟨-, hnil⟩ | ⟨tip, b, ht, hb, hmax⟩
  · rw [hnil] at h; exact absurd h List.not_mem_nil
  · rw [bestWork_of_tip ht hb]
    exact hmax.le h

/-- The best tip of a run is stored under its own id. -/
lemma tip_of_bestTip {calls : List Call} {tip : Hash32}
    (ht : (run P calls).chain.bestTip = some tip) :
    ∃ e, (run P calls).chain.entries tip = some e ∧ (run P calls).chain.tip = some e.share
      ∧ e.share.shareId = .ok tip := by
  obtain ⟨e, he⟩ := run_tipStored calls tip ht
  refine ⟨e, he, ?_, (mem_accepted calls (mem_of_recordOf (subMap_record calls tip e he))).1⟩
  rw [Sharechain.tip, ht]
  exact Store.get_of_some he

/-- Without a best tip, nothing is stored. -/
lemma entries_of_no_tip {calls : List Call} (ht : (run P calls).chain.bestTip = none)
    (k : Hash32) : (run P calls).chain.entries k = none := by
  rcases run_firstMax P calls with ⟨-, hnil⟩ | ⟨tip, e, ht', -⟩
  · refine Option.eq_none_iff_forall_ne_some.mpr fun e he => ?_
    have := subMap_record calls k e he
    rw [History.record, hnil] at this
    cases this
  · rw [ht] at ht'; cases ht'

/-- What a call reports about the tip. -/
lemma addShare_reports {C : Sharechain} (htip : C.TipStored) (call : Call) :
    (∀ a, (addShare P C call).2 = .ok a →
        (a.isBestTip = true ↔ (addShare P C call).1.bestTip ≠ C.bestTip)
          ∧ (a.isBestTip = true → ∃ sid, call.share.shareId = .ok sid
              ∧ (addShare P C call).1.bestTip = some sid))
      ∧ ((¬∃ a, (addShare P C call).2 = .ok a ∧ a.accepted = true) →
          (addShare P C call).1 = C) := by
  rcases addShare_cases P C call with ⟨r, hr, hnot, -⟩ | ⟨sid, e, hadm, hins⟩
  · rw [hr]
    refine ⟨fun a ha => ?_, fun _ => rfl⟩
    simp [(hnot a ha).2]
  · rw [hins]
    rcases insert_cases (P := P) htip hadm.fresh e with ⟨-, hi⟩ | ⟨best, b, -, -, -, hi⟩
    · rw [hi]
      refine ⟨?_, fun h => absurd ⟨_, rfl, rfl⟩ h⟩
      rintro a ⟨⟩
      have hne : some sid ≠ C.bestTip := fun h => by
        obtain ⟨x, hx⟩ := htip sid h.symm
        rw [hadm.fresh] at hx; cases hx
      simpa using ⟨hne, hadm.id⟩
    · rw [hi]
      refine ⟨?_, fun h => absurd ⟨_, rfl, rfl⟩ h⟩
      rintro a ⟨⟩
      simp

/-- A call changes the best tip exactly where it admits a share that is heavier. -/
lemma bestTip_addShare_ne_iff {C : Sharechain} (htip : C.TipStored) (call : Call) :
    (addShare P C call).1.bestTip ≠ C.bestTip
      ↔ ∃ sid e, Admits P C.entries call sid e ∧ ∀ best b, C.bestTip = some best →
          C.entries best = some b → b.cumulativeDifficulty < e.cumulativeDifficulty := by
  rcases addShare_cases P C call with ⟨r, hr, -, hno⟩ | ⟨sid, e, hadm, hins⟩
  · rw [hr]
    exact iff_of_false (fun h => h rfl) fun ⟨sid, e, hadm, _⟩ => hno ⟨sid, e, hadm⟩
  · rw [hins]
    rcases insert_cases (P := P) htip hadm.fresh e with ⟨hlt, hi⟩ | ⟨best, b, hbt, hb, hle, hi⟩
    · rw [hi]
      refine iff_of_true (fun h => ?_) ⟨sid, e, hadm, hlt⟩
      rw [prune_bestTip] at h
      obtain ⟨x, hx⟩ := htip sid h.symm
      rw [hadm.fresh] at hx
      cases hx
    · rw [hi]
      refine iff_of_false (fun h => h rfl) fun ⟨sid', e', hadm', hlt⟩ => ?_
      have hsame := Except.ok.inj (hadm.cumulative.symm.trans hadm'.cumulative)
      have hheavier := hlt best b hbt hb
      omega

/-- **Chain selection.**  Along every run, the best tip is `None` exactly before the first
acceptance; otherwise it is stored, and it is the first among the heaviest shares ever accepted.
Its work never decreases.  A call reports `is_best_tip` exactly when the tip changed, and then
the tip is the new share; a call that is not accepted, or raises, changes nothing. -/
theorem bestTip_selection (P : Params) (calls : List Call) :
    ((run P calls).chain.bestTip = none ↔ (run P calls).accepted = [])
      ∧ (∀ tip, (run P calls).chain.bestTip = some tip →
          ∃ e, (run P calls).chain.entries tip = some e
            ∧ IsFirstMax workOf (run P calls).accepted (tip, e))
      ∧ (∀ more, (run P calls).chain.bestWork ≤ (run P (calls ++ more)).chain.bestWork)
      ∧ ∀ call, (∀ a, (addShare P (run P calls).chain call).2 = .ok a →
            (a.isBestTip = true
                ↔ (addShare P (run P calls).chain call).1.bestTip ≠ (run P calls).chain.bestTip)
              ∧ (a.isBestTip = true → ∃ sid, call.share.shareId = .ok sid
                  ∧ (addShare P (run P calls).chain call).1.bestTip = some sid))
          ∧ ((¬∃ a, (addShare P (run P calls).chain call).2 = .ok a ∧ a.accepted = true) →
              (addShare P (run P calls).chain call).1 = (run P calls).chain) := by
  refine ⟨?_, ?_, bestWork_mono P calls, fun call => addShare_reports (run_tipStored calls) call⟩
  · rcases run_firstMax P calls with ⟨h, h'⟩ | ⟨tip, e, ht, -, hmax⟩
    · simp [h, h']
    · refine iff_of_false (by simp [ht]) fun h => ?_
      rw [h] at hmax
      exact absurd hmax.mem List.not_mem_nil
  · intro tip htip
    rcases run_firstMax P calls with ⟨h, -⟩ | ⟨tip', e, ht, he, hmax⟩
    · rw [h] at htip; cases htip
    · cases ht.symm.trans htip
      exact ⟨e, he, hmax⟩

end P2Pearl
