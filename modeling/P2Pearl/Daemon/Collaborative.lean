import P2Pearl.Daemon.Reconstruct

/-!
What a gossiped share must be for its block to be submitted.

`try_collaborative_submit` compares the share with the current template only by the parent block.
The height and the compact target of the block come from the share, and the proof is graded at the
target in the header rebuilt from it.

* `BlockCandidate`: what makes the block of a share submittable for a template.
* `productionCollaborativeSubmit_eq_some_iff`: when the assembly is reached.
* `collaborative_candidate_iff`: a share only ever reaches the assembly as a block candidate of
  the template exactly when it carries the height and the compact target of the template, or is
  stale, or does not clear the target it carries.
* `collaborative_unpinned`: an accepted share can carry others.
-/

namespace P2Pearl

variable (B : Bitcoinutils) (M : PearlMining)

/-- The share agrees with the template on what makes its block submittable, and the proof for the
header clears the target of the template. -/
structure BlockCandidate (template : ParentTemplate) (share : ShareBlock) (headerBytes : Bytes)
    (proof : PyStr) : Prop where
  prevBlock : share.parentPrevBlock = template.prevBlock
  height : share.parentHeight = template.height
  bits : share.blockNbits = template.bits
  clears : verifyShare M headerBytes proof template.bits (some template.requiredCertVersion)
    = .ok true

/-- The header of the share can be rebuilt, and the proof clears the target the share carries. -/
def ClearsOwnTarget (P : Params) (C : Sharechain) (minPayout : ℕ) (share : ShareBlock)
    (proof : PyStr) (certVersion : ℕ) : Prop :=
  ∃ header coinbaseTx payouts,
    reconstructShare B M P C minPayout share = .ok (some (header, coinbaseTx, payouts))
      ∧ verifyShare M (M.toBytes header) proof share.blockNbits (some certVersion) = .ok true

variable {P : Params} {C : Sharechain} {minPayout : ℕ} {template : ParentTemplate}
  {share : ShareBlock} {proof : PyStr}

/-- The assembly is reached for the rebuilt header of a share on the parent of the template whose
proof the block verifier accepts. -/
lemma productionCollaborativeSubmit_eq_some_iff {ctx : JobContext (HeaderCtx B M)} :
    productionCollaborativeSubmit B M P C minPayout (some template) share proof = .ok (some ctx)
      ↔ share.parentPrevBlock = template.prevBlock
        ∧ ∃ header coinbaseTx payouts,
          reconstructShare B M P C minPayout share = .ok (some (header, coinbaseTx, payouts))
          ∧ verifyBlockSolution M (M.toBytes header) proof (some template.requiredCertVersion)
            = .ok true
          ∧ ctx = ⟨share, ⟨header, coinbaseTx, some template.requiredCertVersion⟩, [],
              template.requiredCertVersion⟩ := by
  rw [productionCollaborativeSubmit, tryCollaborativeSubmit]
  split_ifs with hparent
  · exact ⟨fun h => (by cases h), fun h => absurd h.1 hparent⟩
  rw [not_not] at hparent
  simp only [makeHeaderFromShare, bind_eq_ok_iff]
  constructor
  · rintro ⟨built, ⟨rec, hrec, hbuilt⟩, h⟩
    cases rec with
    | none => cases hbuilt; cases h
    | some r =>
        obtain ⟨header, coinbaseTx, payouts⟩ := r
        cases hbuilt
        obtain ⟨isBlock, hverify, h⟩ := bind_eq_ok_iff.mp h
        cases isBlock with
        | false => cases h
        | true =>
            cases h
            exact ⟨hparent, header, coinbaseTx, payouts, hrec, hverify, rfl⟩
  · rintro ⟨-, header, coinbaseTx, payouts, hrec, hverify, rfl⟩
    refine ⟨_, ⟨_, hrec, rfl⟩, ?_⟩
    simp only [hverify, ok_bind]
    rfl

variable {B M}

/-- The block verifier grades the rebuilt header of a share at the target the share carries. -/
lemma verifyBlockSolution_of_reconstruct (hgrade : GradesAtHeader M) {header : M.Header}
    {coinbaseTx : B.Tx} {payouts : List Payout}
    (hrec : reconstructShare B M P C minPayout share = .ok (some (header, coinbaseTx, payouts)))
    (certVersion : Option ℕ) :
    verifyBlockSolution M (M.toBytes header) proof certVersion
      = verifyShare M (M.toBytes header) proof share.blockNbits certVersion := by
  obtain ⟨-, -, sid, -, hbuild⟩ := (reconstructShare_eq_some_iff B M).mp hrec
  obtain ⟨outputs, -, hbuild⟩ := bind_eq_ok_iff.mp hbuild
  obtain ⟨tx, -, hbuild⟩ := bind_eq_ok_iff.mp hbuild
  obtain ⟨header', hnew, hbuild⟩ := bind_eq_ok_iff.mp hbuild
  cases hbuild
  exact hgrade _ _ _ _ _ _ hnew proof certVersion

/-- **When collaborative submission proves only block candidates.**  Let the block verifier grade
a proof at the target the header carries.  Whatever a share and a template, the assembly is only
reached with a block candidate of the template exactly when the share, unless it is stale or its
proof does not clear the target it carries itself, carries the height and the compact target of
the template. -/
theorem collaborative_candidate_iff (B : Bitcoinutils) (M : PearlMining)
    (hgrade : GradesAtHeader M) (P : Params) (C : Sharechain) (minPayout : ℕ)
    (template : ParentTemplate) (share : ShareBlock) (proof : PyStr) :
    (∀ ctx, productionCollaborativeSubmit B M P C minPayout (some template) share proof
          = .ok (some ctx) →
        BlockCandidate M template share (M.toBytes ctx.headerCtx.header) proof)
      ↔ (share.parentPrevBlock = template.prevBlock →
          ClearsOwnTarget B M P C minPayout share proof template.requiredCertVersion →
          share.parentHeight = template.height ∧ share.blockNbits = template.bits) := by
  constructor
  · rintro h hparent ⟨header, coinbaseTx, payouts, hrec, hverify⟩
    have hblock := (verifyBlockSolution_of_reconstruct hgrade hrec _).trans hverify
    have hc := h _ ((productionCollaborativeSubmit_eq_some_iff B M).mpr
      ⟨hparent, header, coinbaseTx, payouts, hrec, hblock, rfl⟩)
    exact ⟨hc.height, hc.bits⟩
  · rintro h ctx hctx
    obtain ⟨hparent, header, coinbaseTx, payouts, hrec, hverify, rfl⟩ :=
      (productionCollaborativeSubmit_eq_some_iff B M).mp hctx
    rw [verifyBlockSolution_of_reconstruct hgrade hrec] at hverify
    obtain ⟨hheight, hbits⟩ := h hparent ⟨header, coinbaseTx, payouts, hrec, hverify⟩
    exact ⟨hparent, hheight, hbits, hbits ▸ hverify⟩

/-! ### A share with its own height and target -/

/-- A first share at height 5 with an easy compact target, committing to no payouts. -/
def easyShare : ShareBlock := genesisShare 5 0x207fffff ['a'] (doubleSha256 (leBytes 4 0))

/-- The call that admits it. -/
def easyCall : Call := genesisCall 5 0x207fffff ['a'] (doubleSha256 (leBytes 4 0))

lemma easyShare_encodable : easyShare.Encodable :=
  genesisShare_encodable 5 0x207fffff ['a'] _ (by norm_num) (by norm_num) (by decide) (by norm_num)

/-- A stock build rebuilds its header wherever its predecessor is not stored. -/
lemma reconstructShare_easyShare (jackpot : PyStr → ℕ) {C : Sharechain}
    (h : C.entries.get genesisPrev = none) (minPayout : ℕ) :
    ∃ header : Bytes, header.length = 76
      ∧ reconstructShare zeroProgram (stockMining jackpot) P C minPayout easyShare
        = .ok (some (header, (), [])) := by
  obtain ⟨header, hbuild, hnew⟩ := buildShareHeader_stock jackpot
    (shareArgs easyShare [] (doubleSha256 easyShare.wire)) rfl
    easyShare_encodable.coinbaseVersion easyShare_encodable.timestamp easyShare_encodable.blockNbits
  exact ⟨header, (stockMining_layout hnew).1, (reconstructShare_eq_some_iff _ _).mpr
    ⟨(windowPayouts_of_get_none h minPayout).symm, ⟨leBytes 4 0, rfl, rfl⟩, _,
      easyShare_encodable.shareId, hbuild⟩⟩

/-- An easy share of the template's parent is a candidate for its block. -/
theorem collaborative_candidate_easy :
    (∃ ctx, productionCollaborativeSubmit zeroProgram (stockMining fun _ => 2 ^ 200) {} .empty
        minPayoutGrains (some ⟨5, genesisPrev, 0x207fffff, 0, 0, 1⟩) easyShare [] = .ok (some ctx))
      ∧ ∀ ctx, productionCollaborativeSubmit zeroProgram (stockMining fun _ => 2 ^ 200) {} .empty
          minPayoutGrains (some ⟨5, genesisPrev, 0x207fffff, 0, 0, 1⟩) easyShare []
            = .ok (some ctx) →
        BlockCandidate (stockMining fun _ => 2 ^ 200) ⟨5, genesisPrev, 0x207fffff, 0, 0, 1⟩
          easyShare ((stockMining fun _ => 2 ^ 200).toBytes ctx.headerCtx.header) [] := by
  obtain ⟨header, hlen, hrec⟩ := reconstructShare_easyShare (P := {}) (fun _ => 2 ^ 200)
    (C := .empty) rfl minPayoutGrains
  refine ⟨⟨_, (productionCollaborativeSubmit_eq_some_iff _ _).mpr
      ⟨rfl, header, (), [], hrec, ?_, rfl⟩⟩,
    (collaborative_candidate_iff zeroProgram _ (stockMining_gradesAtHeader _) {} .empty
      minPayoutGrains _ easyShare []).mpr fun _ _ => ⟨rfl, rfl⟩⟩
  refine (verifyBlockSolution_of_reconstruct (stockMining_gradesAtHeader _) hrec _).trans
    ((stockMining_verifyShare hlen _ _ _).trans ?_)
  decide +kernel

/-- A verified and accepted share can carry a height and a target of its own, and reach the assembly
with them. -/
theorem collaborative_unpinned : ¬∀ (M : PearlMining), GradesAtHeader M →
    ∀ (calls : List Call) (call : Call) (template : ParentTemplate) (proof : PyStr)
      (ctx : JobContext (HeaderCtx zeroProgram M)),
    makeVerifyIncoming zeroProgram M {} (run {} calls).chain minPayoutGrains
        template.requiredCertVersion call.share proof = .ok true →
    (addShare {} (run {} calls).chain call).2 = .ok ⟨true, true, ""⟩ →
    productionCollaborativeSubmit zeroProgram M {} (run {} (calls ++ [call])).chain minPayoutGrains
        (some template) call.share proof = .ok (some ctx) →
    BlockCandidate M template call.share (M.toBytes ctx.headerCtx.header) proof := by
  intro h
  let M := stockMining fun _ => 2 ^ 200
  obtain ⟨sid, hid, hrun⟩ := run_genesisCall 5 0x207fffff ['a'] (doubleSha256 (leBytes 4 0))
    (by norm_num) (by norm_num) (by decide) (by norm_num)
  have hne : genesisPrev ≠ sid := by
    cases Except.ok.inj (easyShare_encodable.shareId.symm.trans hid)
    decide +kernel
  have hafter : (run {} ([] ++ [easyCall])).chain.entries.get genesisPrev = none := by
    change (run {} [genesisCall _ _ _ _]).chain.entries.get genesisPrev = none
    rw [hrun, Store.get_eq_none_iff]
    simp only [Store.set_of_ne hne]
  obtain ⟨header, hlen, hrec⟩ := reconstructShare_easyShare (P := {}) (fun _ => 2 ^ 200)
    (C := (run {} []).chain) rfl minPayoutGrains
  obtain ⟨header', hlen', hrec'⟩ := reconstructShare_easyShare (P := {}) (fun _ => 2 ^ 200)
    hafter minPayoutGrains
  have hverify : makeVerifyIncoming zeroProgram M {} (run {} []).chain minPayoutGrains 1
      easyShare [] = .ok true := by
    rw [makeVerifyIncoming, hrec, ok_bind]
    refine (stockMining_verifyShare hlen _ _ _).trans ?_
    decide +kernel
  have hblock : verifyBlockSolution M header' [] (some 1) = .ok true := by
    refine (verifyBlockSolution_of_reconstruct (stockMining_gradesAtHeader _) hrec' _).trans
      ((stockMining_verifyShare hlen' _ _ _).trans ?_)
    decide +kernel
  have hcand := h M (stockMining_gradesAtHeader _) [] easyCall ⟨1, genesisPrev, 0x1900ffff, 0, 0, 1⟩
    [] _ hverify (congrArg Prod.snd (addShare_genesisShare _ _ _ _ none le_rfl hid))
    ((productionCollaborativeSubmit_eq_some_iff _ _).mpr ⟨rfl, header', (), [], hrec', hblock, rfl⟩)
  exact absurd hcand.height (by decide)

end P2Pearl
