import Mathlib.Tactic

/-!
Machines: a step function that is undefined where an event cannot happen.

* `Machine.run`: the state after a sequence of events, if they can happen in that order.
* `Machine.Along`: every step of a run meets a condition on the state and the event.
* `run_invariant`: what every step that meets the condition preserves, a run preserves;
  `length_add_rank_le`: where every such step lowers a rank, a run is no longer than the rank.
* `run_filter_append`: events that can be taken before those ahead of them may all come first.
* `run_simulates`: a machine whose steps are matched by another one, or do nothing to what they are
  compared by, has its runs matched.
-/

namespace P2Pearl

namespace Machine

variable {σ ε : Type} (step : σ → ε → Option σ)

/-- The state after a sequence of events. -/
def run : σ → List ε → Option σ
  | s, [] => some s
  | s, e :: es => (step s e).bind fun s' => run s' es

/-- Every step of the run meets `G`. -/
def Along (G : σ → ε → Prop) : σ → List ε → Prop
  | _, [] => True
  | s, e :: es => G s e ∧ ∀ s', step s e = some s' → Along G s' es

variable {step} {s s' : σ} {e : ε} {es : List ε}

instance decidableAlong {G : σ → ε → Prop} [∀ s e, Decidable (G s e)] :
    ∀ s es, Decidable (Along step G s es)
  | _, [] => isTrue trivial
  | s, e :: es =>
      match hs : step s e with
      | none => decidable_of_iff (G s e)
          ⟨fun h => ⟨h, fun m hm => by cases hs.symm.trans hm⟩, fun h => h.1⟩
      | some m =>
          have := decidableAlong (G := G) m es
          decidable_of_iff (G s e ∧ Along step G m es)
            ⟨fun h => ⟨h.1, fun m' hm' => by cases hs.symm.trans hm'; exact h.2⟩,
              fun h => ⟨h.1, h.2 m hs⟩⟩

lemma run_cons_eq_some_iff :
    run step s (e :: es) = some s' ↔ ∃ m, step s e = some m ∧ run step m es = some s' := by
  rw [run, Option.bind_eq_some_iff]

lemma run_append (s : σ) (past future : List ε) :
    run step s (past ++ future) = (run step s past).bind fun m => run step m future := by
  induction past generalizing s with
  | nil => rfl
  | cons e past ih =>
      rw [List.cons_append, run, run, Option.bind_assoc]
      exact Option.bind_congr fun m _ => ih m

lemma run_append_eq_some_iff {past future : List ε} :
    run step s (past ++ future) = some s'
      ↔ ∃ m, run step s past = some m ∧ run step m future = some s' := by
  rw [run_append, Option.bind_eq_some_iff]

/-- A run with one more event. -/
lemma run_concat_eq_some_iff :
    run step s (es ++ [e]) = some s' ↔ ∃ m, run step s es = some m ∧ step m e = some s' := by
  rw [run_append_eq_some_iff]
  refine exists_congr fun m => and_congr_right fun _ => ?_
  cases h : step m e <;> simp [run, h]

/-- A run that can be taken passes every event in some state. -/
lemma exists_step_of_mem (hrun : run step s es = some s') (he : e ∈ es) :
    ∃ past m m', past ++ [e] <+: es ∧ run step s past = some m ∧ step m e = some m'
      ∧ run step s (past ++ [e]) = some m' := by
  obtain ⟨past, future, rfl⟩ := List.append_of_mem he
  obtain ⟨m, hm, hrest⟩ := run_append_eq_some_iff.mp hrun
  obtain ⟨m', hm', -⟩ := run_cons_eq_some_iff.mp hrest
  refine ⟨past, m, m', ⟨future, by simp⟩, hm, hm', ?_⟩
  exact run_concat_eq_some_iff.mpr ⟨m, hm, hm'⟩

lemma forall_prefix_nil_iff {I : σ → Prop} :
    (∀ past m, past <+: [] → run step s past = some m → I m) ↔ I s := by
  refine ⟨fun h => h [] s List.nil_prefix rfl, fun h past m hpre hrun => ?_⟩
  rw [List.prefix_nil.mp hpre] at hrun
  cases hrun
  exact h

/-- What holds in every state a run passes holds in the first one, and in every state the rest of
the run passes. -/
lemma forall_prefix_cons_iff {I : σ → Prop} :
    (∀ past m, past <+: e :: es → run step s past = some m → I m)
      ↔ I s ∧ ∀ s', step s e = some s' →
        ∀ past m, past <+: es → run step s' past = some m → I m := by
  refine ⟨fun h => ⟨h [] s List.nil_prefix rfl, fun s' hs' past m hpre hrun => ?_⟩, ?_⟩
  · exact h (e :: past) m (List.cons_prefix_cons.mpr ⟨rfl, hpre⟩)
      (run_cons_eq_some_iff.mpr ⟨s', hs', hrun⟩)
  · rintro ⟨hs, hrest⟩ past m hpre hrun
    cases past with
    | nil => cases hrun; exact hs
    | cons e' past =>
        obtain ⟨rfl, hpast⟩ := List.cons_prefix_cons.mp hpre
        obtain ⟨s', hs', hrun⟩ := run_cons_eq_some_iff.mp hrun
        exact hrest s' hs' past m hpast hrun

/-- **Invariants of runs**: what every step under a condition preserves, every run preserves whose
steps all meet the condition. -/
theorem run_invariant {G : σ → ε → Prop} {I : σ → Prop}
    (hstep : ∀ s e s', G s e → step s e = some s' → I s → I s') (hG : Along step G s es)
    (hs : I s) (hrun : run step s es = some s') : I s' := by
  induction es generalizing s with
  | nil => cases hrun; exact hs
  | cons e es ih =>
      obtain ⟨m, hm, hrest⟩ := run_cons_eq_some_iff.mp hrun
      exact ih (hG.2 m hm) (hstep s e m hG.1 hm hs) hrest

lemma along_of_forall {G : σ → ε → Prop} (hG : ∀ s, ∀ e ∈ es, G s e) : Along step G s es := by
  induction es generalizing s with
  | nil => trivial
  | cons e es ih =>
      exact ⟨hG s e List.mem_cons_self, fun m _ => ih fun s d hd =>
        hG s d (List.mem_cons_of_mem _ hd)⟩

/-- What holds at every step of a run holds along it. -/
lemma along_of_prefix {G : σ → ε → Prop}
    (h : ∀ past e m, past ++ [e] <+: es → run step s past = some m → G m e) :
    Along step G s es := by
  induction es generalizing s with
  | nil => trivial
  | cons e es ih =>
      refine ⟨h [] e s ⟨es, rfl⟩ rfl, fun m hm => ih fun past d m' hpre hrun => ?_⟩
      exact h (e :: past) d m' (List.cons_prefix_cons.mpr ⟨rfl, hpre⟩)
        (run_cons_eq_some_iff.mpr ⟨m, hm, hrun⟩)

/-- What follows from what holds along a run holds along it. -/
lemma Along.mono {G H : σ → ε → Prop} (himp : ∀ s e, G s e → H s e) (h : Along step G s es) :
    Along step H s es := by
  induction es generalizing s with
  | nil => trivial
  | cons e es ih => exact ⟨himp s e h.1, fun m hm => ih (h.2 m hm)⟩

/-- What holds along a run holds along the beginning of it. -/
lemma Along.of_prefix {G : σ → ε → Prop} {past : List ε} (hpre : past <+: es)
    (h : Along step G s es) : Along step G s past := by
  induction past generalizing s es with
  | nil => trivial
  | cons e past ih =>
      obtain ⟨future, rfl⟩ := hpre
      exact ⟨h.1, fun m hm => ih ⟨future, rfl⟩ (h.2 m hm)⟩

/-- What holds along a run holds along the end of it. -/
lemma Along.of_append {G : σ → ε → Prop} {past future : List ε} {m : σ}
    (h : Along step G s (past ++ future)) (hrun : run step s past = some m) :
    Along step G m future := by
  induction past generalizing s with
  | nil => cases hrun; exact h
  | cons e past ih =>
      obtain ⟨s', hs', hrest⟩ := run_cons_eq_some_iff.mp hrun
      exact ih (h.2 s' hs') hrest

/-- What holds along the beginning of a run, and along the rest of it, holds along the run. -/
lemma Along.append {G : σ → ε → Prop} {past future : List ε} (hpast : Along step G s past)
    (hfuture : ∀ m, run step s past = some m → Along step G m future) :
    Along step G s (past ++ future) := by
  induction past generalizing s with
  | nil => exact hfuture s rfl
  | cons e past ih =>
      exact ⟨hpast.1, fun s' hs' => ih (hpast.2 s' hs') fun m hm =>
        hfuture m (run_cons_eq_some_iff.mpr ⟨s', hs', hm⟩)⟩

/-- What every step preserves, every run preserves. -/
lemma run_preserves {I : σ → Prop} (hstep : ∀ s e s', step s e = some s' → I s → I s') (hs : I s)
    (hrun : run step s es = some s') : I s' :=
  run_invariant (G := fun _ _ => True) (fun s e s' _ => hstep s e s')
    (along_of_forall fun _ _ _ => trivial) hs hrun

/-- **Ranks**: where every step lowers a rank, a run has no more steps than that. -/
lemma length_add_rank_le {G : σ → ε → Prop} {I : σ → Prop} {rank : σ → ℕ}
    (hstep : ∀ s e s', G s e → step s e = some s' → I s → I s')
    (hrank : ∀ s e s', G s e → step s e = some s' → I s → rank s' < rank s)
    (hG : Along step G s es) (hs : I s) (hrun : run step s es = some s') :
    es.length + rank s' ≤ rank s := by
  induction es generalizing s with
  | nil => cases hrun; simp
  | cons e es ih =>
      obtain ⟨m, hm, hrest⟩ := run_cons_eq_some_iff.mp hrun
      have hrec := ih (hG.2 m hm) (hstep s e m hG.1 hm hs) hrest
      have hlt := hrank s e m hG.1 hm hs
      rw [List.length_cons]
      omega

/-- An event passes those it can be exchanged with. -/
lemma exists_run_step {p : ε → Bool}
    (hswap : ∀ s d m e s', p d = false → p e = true → step s d = some m → step m e = some s' →
      ∃ m', step s e = some m' ∧ step m' d = some s') {d : ε} {m : σ} (hd : p d = false)
    (hes : ∀ e ∈ es, p e = true) (hstep : step s d = some m) (hrun : run step m es = some s') :
    ∃ m', run step s es = some m' ∧ step m' d = some s' := by
  induction es generalizing s m with
  | nil => cases hrun; exact ⟨s, rfl, hstep⟩
  | cons e es ih =>
      obtain ⟨m₁, hm₁, hrest⟩ := run_cons_eq_some_iff.mp hrun
      obtain ⟨m₂, hm₂, hd₂⟩ := hswap s d m e m₁ hd (hes e List.mem_cons_self) hstep hm₁
      obtain ⟨m', hm', hlast⟩ := ih (fun e he => hes e (List.mem_cons_of_mem _ he)) hd₂ hrest
      exact ⟨m', run_cons_eq_some_iff.mpr ⟨m₂, hm₂, hm'⟩, hlast⟩

/-- **Sorted runs**: where an event of one kind can be taken before one of the other kind ahead of
it, and the state is then the same, all events of this kind may come first. -/
theorem run_filter_append {p : ε → Bool}
    (hswap : ∀ s d m e s', p d = false → p e = true → step s d = some m → step m e = some s' →
      ∃ m', step s e = some m' ∧ step m' d = some s') (hrun : run step s es = some s') :
    run step s (es.filter p ++ es.filter fun e => !p e) = some s' := by
  induction es generalizing s with
  | nil => exact hrun
  | cons e es ih =>
      obtain ⟨m, hm, hrest⟩ := run_cons_eq_some_iff.mp hrun
      have hsorted := ih hrest
      cases hp : p e with
      | true =>
          rw [List.filter_cons_of_pos hp, List.filter_cons_of_neg (by simp [hp])]
          exact run_cons_eq_some_iff.mpr ⟨m, hm, hsorted⟩
      | false =>
          rw [List.filter_cons_of_neg (by simp [hp]), List.filter_cons_of_pos (by simp [hp])]
          obtain ⟨m₁, hfirst, hlast⟩ := run_append_eq_some_iff.mp hsorted
          obtain ⟨m₂, hm₂, he⟩ := exists_run_step hswap hp
            (fun d hd => (List.mem_filter.mp hd).2) hm hfirst
          exact run_append_eq_some_iff.mpr ⟨m₂, hm₂, run_cons_eq_some_iff.mpr ⟨m₁, he, hlast⟩⟩

lemma Along.and {G H : σ → ε → Prop} (hG : Along step G s es) (hH : Along step H s es) :
    Along step (fun s e => G s e ∧ H s e) s es := by
  induction es generalizing s with
  | nil => trivial
  | cons e es ih => exact ⟨⟨hG.1, hH.1⟩, fun m hm => ih (hG.2 m hm) (hH.2 m hm)⟩

/-- What holds in the last state, and before every step after which it holds, holds all along. -/
lemma along_of_last {I : σ → Prop} (hstep : ∀ s e s', step s e = some s' → I s' → I s)
    (hrun : run step s es = some s') (hs' : I s') :
    I s ∧ Along step (fun s e => ∀ m, step s e = some m → I m) s es := by
  induction es generalizing s with
  | nil =>
      cases hrun
      exact ⟨hs', trivial⟩
  | cons e es ih =>
      obtain ⟨m, hm, hrest⟩ := run_cons_eq_some_iff.mp hrun
      obtain ⟨hI, halong⟩ := ih hrest
      have hnext : ∀ m', step s e = some m' → m' = m := fun m' hm' =>
        Option.some.inj (hm'.symm.trans hm)
      exact ⟨hstep s e m hm hI, fun m' hm' => hnext m' hm' ▸ hI,
        fun m' hm' => hnext m' hm' ▸ halong⟩

/-- **Simulation**: where each step of one machine is matched by a step of another, or by none, each
run is matched by a run. -/
theorem run_simulates {σ' ε' : Type} {step' : σ' → ε' → Option σ'} {G : σ → ε → Prop}
    {G' : σ' → ε' → Prop} {Sim : σ → σ' → Prop}
    (hstep : ∀ s e s' t, G s e → step s e = some s' → Sim s t →
      Sim s' t ∨ ∃ e' t', G' t e' ∧ step' t e' = some t' ∧ Sim s' t')
    {t : σ'} (hG : Along step G s es) (hrun : run step s es = some s') (hsim : Sim s t) :
    ∃ es' t', Along step' G' t es' ∧ run step' t es' = some t' ∧ Sim s' t' := by
  induction es generalizing s t with
  | nil =>
      cases hrun
      exact ⟨[], t, trivial, rfl, hsim⟩
  | cons e es ih =>
      obtain ⟨m, hm, hrest⟩ := run_cons_eq_some_iff.mp hrun
      rcases hstep s e m t hG.1 hm hsim with hsim' | ⟨e', t', hG', ht', hsim'⟩
      · exact ih (hG.2 m hm) hrest hsim'
      · obtain ⟨es', t'', halong, hrun', hlast⟩ := ih (hG.2 m hm) hrest hsim'
        refine ⟨e' :: es', t'', ⟨hG', fun m' hm' => ?_⟩, ?_, hlast⟩
        · cases ht'.symm.trans hm'
          exact halong
        · exact run_cons_eq_some_iff.mpr ⟨t', ht', hrun'⟩

end Machine

end P2Pearl
