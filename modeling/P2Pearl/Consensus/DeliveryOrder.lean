import P2Pearl.Data.FirstMax
import P2Pearl.Data.Interleave
import P2Pearl.Consensus.Selection

/-!
Delivery order does not matter while nothing is pruned.

* `verdict_congr`: the verdict on a share depends on what is stored under its id and under the ids
  it refers to, and on the ancestors of its parent.
* `shareIntake`: so `add_share` is an `Intake`, with the predecessor and the uncles of a share as
  its dependencies.
* `run_unpruned`: while no height exceeds the retention, the store of a run is the fold of the
  intake, and it is everything ever accepted.
* `delivery_order`: two orders of the same calls, parents and uncles first, accept the same shares
  with the same cumulative difficulties, and their best tips weigh the same.
-/

namespace P2Pearl

variable {P : Params}

/-- The ids a share refers to: its predecessor, unless it is a genesis share, and its uncles. -/
def ShareBlock.links (s : ShareBlock) : List Hash32 := s.up.toList ++ s.uncleIds

lemma ShareBlock.mem_links_of_up {s : ShareBlock} {k : Hash32} (h : s.up = some k) :
    k ∈ s.links := List.mem_append_left _ (by rw [h]; exact List.mem_singleton.mpr rfl)

lemma ShareBlock.prev_mem_links {s : ShareBlock} (h : s.prevShareId ≠ genesisPrev) :
    s.prevShareId ∈ s.links := ShareBlock.mem_links_of_up (link_of_ne h)

lemma ShareBlock.uncle_mem_links {s : ShareBlock} {uid : Hash32} (h : uid ∈ s.uncleIds) :
    uid ∈ s.links := List.mem_append_right _ h

/-! ### What a verdict depends on -/

lemma checkUncles_congr {S S' : Shares} {us : List Hash32} (h : ∀ uid ∈ us, S' uid = S uid)
    (height : ℕ) (ancestors ancestorUncles : List Hash32) :
    checkUncles P S' height ancestors ancestorUncles us
      = checkUncles P S height ancestors ancestorUncles us := by
  induction us with
  | nil => rfl
  | cons uid us ih =>
      simp only [checkUncles, h uid List.mem_cons_self,
        ih fun u hu => h u (List.mem_cons_of_mem _ hu)]

/-- The verdict depends on the id of the share, the ids it refers to and the ancestors of its
parent. -/
lemma verdict_congr {S S' : Shares} {share : ShareBlock} {sid : Hash32} (hsid : S' sid = S sid)
    (hlinks : ∀ d ∈ share.links, S' d = S d)
    (hup : ∀ n, AgreeAlong S S' ShareBlock.up n share.up) (now : ℚ) :
    verdict P S' share now sid = verdict P S share now sid := by
  by_cases hg : share.prevShareId = genesisPrev
  · simp only [verdict, hsid, if_pos hg]
  · have hlinked : ∀ parent, checkLinked P S' share parent = checkLinked P S share parent := by
      intro parent
      have hlook := hup (max 1 P.retargetWindow)
      have hscan := trail_eq_of_agreeAlong (hup (P.uncleDepth + 1))
      rw [ShareBlock.up] at hlook hscan
      have huncles := checkUncles_congr (P := P)
        fun uid hu => hlinks uid (ShareBlock.uncle_mem_links hu)
      rw [checkLinked, checkLinked, expectedTarget_congr hlook, recent_eq, recent_eq, hscan]
      simp only [huncles]
    simp only [verdict, hsid, hlinks _ (ShareBlock.prev_mem_links hg), hlinked]

lemma cumulativeAfter_congr {E E' : Store} {share : ShareBlock}
    (h : ∀ d ∈ share.links, E' d = E d) : cumulativeAfter E' share = cumulativeAfter E share := by
  by_cases hg : share.prevShareId = genesisPrev
  · rw [cumulativeAfter, cumulativeAfter, if_pos hg, if_pos hg]
  · have hlook : ∀ d ∈ share.links, E'.lookup d = E.lookup d := fun d hd => by
      rw [Store.lookup, Store.lookup, h d hd]
    have huncles : share.uncleIds.mapM E'.lookup = share.uncleIds.mapM E.lookup :=
      mapM_congr_left fun uid hu => hlook uid (ShareBlock.uncle_mem_links hu)
    rw [cumulativeAfter, cumulativeAfter, if_neg hg, if_neg hg, huncles,
      hlook _ (ShareBlock.prev_mem_links hg)]

/-! ### The intake of shares -/

/-- The entry `add_share` admits a call with, if it does. -/
def admitted (P : Params) (E : Store) (call : Call) : Option Entry :=
  match call.verified, validate P E.get call.share call.now, entryFor E call with
  | true, .ok none, .ok (_, e) => some e
  | _, _, _ => none

lemma admitted_eq_some_iff {E : Store} {call : Call} {e : Entry} :
    admitted P E call = some e ↔ ∃ sid, Admits P E call sid e := by
  constructor
  · intro h
    unfold admitted at h
    split at h
    · rename_i hv hval hentry
      cases h
      obtain ⟨sid, hid, hvalid⟩ := validate_eq_ok_none_iff.mp hval
      obtain ⟨hid', hc, hs, hp⟩ := entryFor_eq_ok_iff.mp hentry
      cases Except.ok.inj (hid'.symm.trans hid)
      exact ⟨_, hv, hid, hvalid, hc, hs, hp⟩
    · cases h
  · rintro ⟨sid, h⟩
    rw [admitted, h.verified, validate_eq_ok_none_iff.mpr ⟨sid, h.id, h.valid⟩,
      entryFor_eq_ok_iff.mpr ⟨h.id, h.cumulative, h.share, h.proof⟩]

lemma Admits.links_stored {E : Store} {call : Call} {sid : Hash32} {e : Entry}
    (h : Admits P E call sid e) {d : Hash32} (hd : d ∈ call.share.links) : ∃ x, E d = some x := by
  have hget : ∀ s, E.get d = some s → ∃ x, E d = some x := fun s hs =>
    (Store.get_eq_some_iff.mp hs).imp fun x hx => hx.1
  rcases List.mem_append.mp hd with hup | hu
  · rw [Option.mem_toList] at hup
    obtain ⟨hne, rfl⟩ := ShareBlock.up_eq_some_iff.mp hup
    rcases h.valid.linked with hf | ⟨parent, hx⟩
    · exact absurd hf.prev hne
    · exact hget _ hx.stored
  · rcases h.valid.linked with hf | ⟨parent, hx⟩
    · rw [hf.uncles] at hu; exact absurd hu List.not_mem_nil
    · obtain ⟨uncle, hun⟩ := hx.uncles d hu
      exact hget _ hun.stored

/-- `add_share` as an intake. -/
def shareIntake (P : Params) : Intake Call Hash32 Entry where
  key call := call.share.shareId.toOption
  deps call := call.share.links
  refs e := e.share.links
  accept := admitted P
  fresh E call k e hk he := by
    obtain ⟨sid, h⟩ := admitted_eq_some_iff.mp he
    rw [h.id] at hk
    cases hk
    exact h.fresh
  refs_eq E call e he := by
    obtain ⟨sid, h⟩ := admitted_eq_some_iff.mp he
    rw [h.share]
  stored E call e he d hd := by
    obtain ⟨sid, h⟩ := admitted_eq_some_iff.mp he
    exact h.links_stored hd
  congr (E E' : Store) call hclosed hsub hdeps hkey := by
    have hget : ∀ d, E' d = E d → E'.get d = E.get d := fun d h => by
      rw [Store.get, Store.get, h]
    have hup : ∀ n, AgreeAlong E.get E'.get ShareBlock.up n call.share.up := by
      intro n
      refine agreeAlong_of_closed (Store.subMap_get hsub) (fun k s j hs hj => ?_) n
        fun k hk => hget k (hdeps k (ShareBlock.mem_links_of_up hk))
      obtain ⟨e, he, rfl⟩ := Store.get_eq_some_iff.mp hs
      obtain ⟨x, hx⟩ := hclosed k e he j (ShareBlock.mem_links_of_up hj)
      exact ⟨x.share, Store.get_of_some hx⟩
    have hval : validate P E'.get call.share call.now = validate P E.get call.share call.now := by
      rw [validate, validate]
      cases hid : call.share.shareId with
      | error err => rfl
      | ok sid =>
          have hsid : E' sid = E sid := hkey sid (by rw [hid]; rfl)
          simp only [Except.map]
          rw [verdict_congr (hget sid hsid) (fun d hd => hget d (hdeps d hd)) hup]
    have hentry : entryFor E' call = entryFor E call := by
      rw [entryFor, entryFor, cumulativeAfter_congr hdeps]
    rw [admitted, admitted, hval, hentry]

@[simp] lemma shareIntake_key_eq {call : Call} {sid : Hash32} :
    (shareIntake P).key call = some sid ↔ call.share.shareId = .ok sid := by
  change call.share.shareId.toOption = some sid ↔ _
  cases call.share.shareId with
  | error err => simp [Except.toOption]
  | ok i => simp [Except.toOption]

/-! ### Runs without pruning -/

/-- While no height exceeds the retention, the store of a run is the fold of the intake, it is
the record, and no id was accepted twice. -/
lemma run_unpruned (calls : List Call)
    (hh : ∀ c ∈ calls, c.share.sidechainHeight ≤ P.retention) :
    (run P calls).chain.entries = calls.foldl (shareIntake P).put (fun _ => none)
      ∧ (run P calls).record = (run P calls).chain.entries
      ∧ ((run P calls).accepted.map Prod.fst).Nodup ∧ (run P calls).peak ≤ P.retention := by
  induction calls using List.reverseRecOn with
  | nil => exact ⟨rfl, rfl, List.nodup_nil, Nat.zero_le _⟩
  | append_singleton calls call ih =>
      obtain ⟨hfold, hrec, hnodup, hpeak⟩ := ih fun c hc => hh c (List.mem_append_left _ hc)
      have hcall := hh call (by simp)
      rw [run_append, List.foldl_append, List.foldl_cons, List.foldl_nil, ← hfold]
      rcases step_cases (P := P) (run_tipStored calls) call with
        ⟨hsame, hno⟩ | ⟨sid, e, hadm, hgrow⟩
      · rw [hsame, Intake.put_of_none]
        · exact ⟨rfl, hrec, hnodup, hpeak⟩
        · refine Or.inr (Option.eq_none_iff_forall_ne_some.mpr fun e he => ?_)
          obtain ⟨sid, h⟩ := admitted_eq_some_iff.mp he
          exact hno ⟨sid, e, h⟩
      · have hpeak' : ((run P calls).step P call).peak ≤ P.retention := by
          generalize (run P calls).step P call = H' at hgrow
          cases hgrow with
          | best heavier => exact max_le hpeak (by rw [hadm.share]; exact hcall)
          | side best b tip stored lighter => exact hpeak
        have hentries : ((run P calls).step P call).chain.entries
            = (run P calls).chain.entries.set sid e := by
          funext k
          refine Option.ext fun x => ⟨hgrow.entries.1, fun hx => hgrow.entries.2 hx ?_⟩
          omega
        refine ⟨?_, ?_, ?_, hpeak'⟩
        · rw [hentries, (shareIntake P).put_of_some (shareIntake_key_eq.mpr hadm.id)
            (admitted_eq_some_iff.mpr ⟨sid, hadm⟩)]
          rfl
        · rw [hgrow.record, hentries, hrec]
        · rw [hgrow.accepted, List.map_cons, List.nodup_cons]
          refine ⟨recordOf_eq_none_iff.mp ?_, hnodup⟩
          change (run P calls).record sid = none
          rw [hrec]; exact hadm.fresh

/-! ### Two orders -/

/-- No call delivers the parent or an uncle of a share delivered before. -/
def ParentsFirst (calls : List Call) : Prop :=
  calls.Pairwise fun a b => ∀ i, b.share.shareId = .ok i → i ∉ a.share.links

/-- **Delivery order does not matter.**  Let the same calls be made in two orders, in each of
which a share comes after its parent and its uncles, on two empty sharechains; ids do not
collide, and no height exceeds the retention.  Both accept the same shares with the same
cumulative difficulties, and end with the same entries.  Their best tips weigh the same, and are
the same where only one share attains the maximum. -/
theorem delivery_order (P : Params) (calls calls' : List Call) (hperm : calls.Perm calls')
    (hnodup : (calls.map Call.share).Nodup) (hcf : CollisionFree (calls.map Call.share))
    (hfirst : ParentsFirst calls) (hfirst' : ParentsFirst calls')
    (hh : ∀ c ∈ calls, c.share.sidechainHeight ≤ P.retention) :
    (run P calls).accepted.Perm (run P calls').accepted
      ∧ (run P calls).chain.entries = (run P calls').chain.entries
      ∧ (run P calls).chain.bestWork = (run P calls').chain.bestWork
      ∧ ((∃! p, p ∈ (run P calls).accepted ∧ workOf p = (run P calls).chain.bestWork) →
          (run P calls).chain.bestTip = (run P calls').chain.bestTip) := by
  obtain ⟨hfold, hrec, hids, -⟩ := run_unpruned (P := P) calls hh
  obtain ⟨hfold', hrec', hids', -⟩ := run_unpruned (P := P) calls' fun c hc =>
    hh c (hperm.mem_iff.mpr hc)
  have hdistinct : (shareIntake P).Distinct calls := by
    refine (List.pairwise_map.mp hnodup).imp_of_mem fun {a b} ha hb hne k hk hk' => hne ?_
    exact hcf _ (List.mem_map_of_mem ha) _ (List.mem_map_of_mem hb) k
      (shareIntake_key_eq.mp hk) (shareIntake_key_eq.mp hk')
  have hdeps : ∀ l, ParentsFirst l → (shareIntake P).DepsFirst l := fun l h =>
    h.imp fun h k hk => h k (shareIntake_key_eq.mp hk)
  have hentries : (run P calls).chain.entries = (run P calls').chain.entries := by
    rw [hfold, hfold']
    exact (shareIntake P).foldl_put_perm (fun _ _ h => by cases h) hperm hdistinct
      (hdeps _ hfirst) (hdeps _ hfirst')
  have haccepted : (run P calls).accepted.Perm (run P calls').accepted := by
    refine (List.perm_ext_iff_of_nodup (List.Nodup.of_map _ hids) (List.Nodup.of_map _ hids')).mpr
      fun p => ?_
    rw [← recordOf_eq_some_iff hids, ← recordOf_eq_some_iff hids']
    change (run P calls).record p.1 = some p.2 ↔ (run P calls').record p.1 = some p.2
    rw [hrec, hrec', hentries]
  refine ⟨haccepted, hentries, ?_⟩
  rcases run_firstMax P calls with ⟨ht, hnil⟩ | ⟨tip, e, ht, he, hmax⟩
  · rcases run_firstMax P calls' with ⟨ht', -⟩ | ⟨tip', e', -, -, hmax'⟩
    · simp [Sharechain.bestWork, ht, ht']
    · exact absurd (haccepted.mem_iff.mpr hmax'.mem) (by rw [hnil]; exact List.not_mem_nil)
  · rcases run_firstMax P calls' with ⟨-, hnil'⟩ | ⟨tip', e', ht', he', hmax'⟩
    · exact absurd (haccepted.mem_iff.mp hmax.mem) (by rw [hnil']; exact List.not_mem_nil)
    · have hwork := hmax.score_eq_of_perm hmax' haccepted
      rw [bestWork_of_tip ht he, bestWork_of_tip ht' he']
      refine ⟨hwork, ?_⟩
      rintro ⟨p, -, huniq⟩
      have h₁ := huniq (tip, e) ⟨hmax.mem, rfl⟩
      have h₂ := huniq (tip', e') ⟨haccepted.mem_iff.mpr hmax'.mem, hwork.symm⟩
      rw [ht, ht', (Prod.mk.inj (h₁.trans h₂.symm)).1]

/-- Two shares of the same height and a child of the first one, in both orders of the two. -/
theorem delivery_order_siblings :
    let calls := [pacedChain 0, pacedChain 1, rivalChain 1, pacedChain 2].map verifiedCall
    let calls' := [pacedChain 0, rivalChain 1, pacedChain 1, pacedChain 2].map verifiedCall
    (run shortParams calls).accepted.length = 4
      ∧ (run shortParams calls).accepted.Perm (run shortParams calls').accepted
      ∧ (run shortParams calls).chain.entries = (run shortParams calls').chain.entries
      ∧ (run shortParams calls).chain.bestWork = (run shortParams calls').chain.bestWork := by
  intro calls calls'
  have hcomputed : (run shortParams calls).accepted.length = 4
      ∧ (calls.map Call.share).Nodup
      ∧ CollisionFree (calls.map Call.share)
      ∧ (calls.Pairwise fun a b => ∀ i ∈ a.share.links, b.share.shareId ≠ .ok i)
      ∧ (calls'.Pairwise fun a b => ∀ i ∈ a.share.links, b.share.shareId ≠ .ok i)
      ∧ ∀ c ∈ calls, c.share.sidechainHeight ≤ shortParams.retention := by decide +kernel
  obtain ⟨hall, hnodup, hcf, hfirst, hfirst', hheights⟩ := hcomputed
  have hperm : calls.Perm calls' := (List.Perm.cons _ (List.Perm.swap _ _ _)).map _
  obtain ⟨haccepted, hentries, hwork, -⟩ := delivery_order shortParams calls calls' hperm hnodup
    hcf (hfirst.imp fun h i hid hlink => h i hlink hid)
    (hfirst'.imp fun h i hid hlink => h i hlink hid) hheights
  exact ⟨hall, haccepted, hentries, hwork⟩

end P2Pearl
