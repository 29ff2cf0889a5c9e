import P2Pearl.Daemon.Assembler
import P2Pearl.Daemon.Payable
import P2Pearl.Pow.Verify

/-!
The header a share commits to, built by its finder and rebuilt by everyone else.

* `buildShareHeader`: `_build_share_header`, on the arguments `HeaderArgs`.
* `productionMakeHeader`: the finder's side, whose arguments come from a template; it returns
  exactly where all payouts can be paid, with packages that build what they are documented to
  (`BuildsHeaders`).
* `reconstructShare`: the verifier's side, whose arguments come from a share and the verifier's
  own sharechain; `makeVerifyIncoming` and `makeHeaderFromShare` grade and resubmit with it.
* `productionCollaborativeSubmit`: `try_collaborative_submit` with the production adapters.
* `commitment_binds`: the `payout_set_hash` of a share binds its payouts, and so its coinbase.
-/

namespace P2Pearl

variable (B : Bitcoinutils) (M : PearlMining)

/-! ### The header -/

/-- One level of `_tx_merkle_root`: hashes of pairs, the last one doubled where it is alone. -/
def merkleLevel : List Bytes → List Bytes
  | [] => []
  | [a] => [(doubleSha256 (a ++ a)).bytes]
  | a :: b :: level => (doubleSha256 (a ++ b)).bytes :: merkleLevel level

/-- The loop of `_tx_merkle_root`, which at least halves the level each round. -/
def merkleLoop : ℕ → List Bytes → List Bytes
  | 0, level => level
  | n + 1, level => if level.length ≤ 1 then level else merkleLoop n (merkleLevel level)

/-- `_tx_merkle_root`, on raw transaction ids. -/
def txMerkleRoot (txids : List Bytes) : Bytes :=
  match merkleLoop txids.length (txids.map List.reverse) with
  | [] => List.replicate 32 0
  | root :: _ => root.reverse

/-- The arguments of `_build_share_header`. -/
structure HeaderArgs where
  version : ℕ
  prevBlock : Hash32
  timestamp : ℕ
  nbits : ℕ
  payouts : List Payout
  shareId : Hash32
  coinbaseValue : ℕ
  parentHeight : ℕ

/-- `_build_share_header`: the header a share's work commits to, and its coinbase. -/
def buildShareHeader (args : HeaderArgs) : Except PyError (M.Header × B.Tx) := do
  let outputs ← buildCoinbaseOutputs args.payouts args.shareId.bytes args.coinbaseValue
  let coinbaseTx ← assembleCoinbaseTx B outputs args.parentHeight none
    (some (doubleSha256 (List.replicate 64 0)).bytes)
  let header ← M.newHeader args.version args.prevBlock.bytes (txMerkleRoot [B.txid coinbaseTx])
    args.timestamp args.nbits
  return (header, coinbaseTx)

/-- The `header_ctx` dictionary; its transaction list is always empty. -/
structure HeaderCtx where
  header : M.Header
  coinbaseTx : B.Tx
  certVersion : Option ℕ

/-- The arguments `_production_make_header` takes from a template. -/
def templateArgs (template : ParentTemplate) (payouts : List Payout) (shareId : Hash32) :
    HeaderArgs :=
  ⟨template.version, template.prevBlock, template.curtime, template.bits, payouts, shareId,
    blockSubsidy template.height, template.height⟩

/-- `_production_make_header`. -/
def productionMakeHeader : MakeHeader (HeaderCtx B M) := fun template payouts shareId => do
  let (header, coinbaseTx) ← buildShareHeader B M (templateArgs template payouts shareId)
  return (M.toBytes header, ⟨header, coinbaseTx, some template.requiredCertVersion⟩)

/-- What the packages are documented to build: a transaction with a 32-byte id of amounts that fit
an `int64`, and a header of fields that fit. -/
structure BuildsHeaders : Prop where
  transaction : ∀ scripts height coinbaseAux defaultWitnessCommitment,
    (∀ s ∈ scripts, s.1 < 2 ^ 63) → height < 2 ^ 32 →
    ∃ tx, B.transaction scripts height coinbaseAux defaultWitnessCommitment = .ok tx
  txid : ∀ tx, (B.txid tx).length = 32
  newHeader : ∀ version prevBlock merkleRoot timestamp nbits, version < 2 ^ 32 →
    timestamp < 2 ^ 32 → nbits < 2 ^ 32 → prevBlock.length = 32 → merkleRoot.length = 32 →
    ∃ header, M.newHeader version prevBlock merkleRoot timestamp nbits = .ok header

section Production

variable {B M} {template : ParentTemplate} {payouts : List Payout} {shareId : Hash32}

/-- The production header is built where all payouts can be paid. -/
lemma productionMakeHeader_builds (hbuilds : BuildsHeaders B M)
    (hpay : ∀ p ∈ payouts, ∃ script, p2trScript B p.address = .ok script)
    (hsum : (payouts.map Payout.grains).sum ≤ blockSubsidy template.height)
    (hheight : template.height < 2 ^ 32) (hversion : template.version < 2 ^ 32)
    (hcurtime : template.curtime < 2 ^ 32) (hbits : template.bits < 2 ^ 32) :
    ∃ built, productionMakeHeader B M template payouts shareId = .ok built := by
  obtain ⟨scripts, hscripts⟩ := scripts_of_payable shareId.bytes hpay
  have hamounts : ∀ s ∈ scripts, s.1 < 2 ^ 63 := by
    intro s hs
    obtain ⟨o, ho, hvalue⟩ := value_of_scripts hscripts hs
    have hle : s.1 ≤ blockSubsidy template.height := by
      rcases List.mem_append.mp ho with ho | ho
      · obtain ⟨p, hp, rfl⟩ := List.mem_map.mp ho
        rw [← hvalue]
        exact (List.single_le_sum (fun _ _ => Nat.zero_le _) _ (List.mem_map_of_mem hp)).trans hsum
      · rw [← hvalue, List.mem_singleton.mp ho]
        exact Nat.zero_le _
    exact (hle.trans (blockSubsidy_le _)).trans_lt (by norm_num [totalSupplyGrains, grainPerPearl])
  obtain ⟨tx, htx⟩ := hbuilds.transaction scripts template.height none
    (some (doubleSha256 (List.replicate 64 0)).bytes) hamounts hheight
  have hroot : (txMerkleRoot [B.txid tx]).length = 32 := by
    simp [txMerkleRoot, merkleLoop, hbuilds.txid]
  obtain ⟨header, hheader⟩ := hbuilds.newHeader template.version template.prevBlock.bytes
    (txMerkleRoot [B.txid tx]) template.curtime template.bits hversion hcurtime hbits
    template.prevBlock.bytes_length hroot
  refine ⟨(M.toBytes header, ⟨header, tx, some template.requiredCertVersion⟩), ?_⟩
  simp only [productionMakeHeader, buildShareHeader, templateArgs, assembleCoinbaseTx,
    buildCoinbaseOutputs_of_le shareId.bytes_length hsum, hscripts, htx, hheader, ok_bind]
  rfl

/-- It is not where a payout cannot be. -/
lemma p2trScript_of_productionMakeHeader {built : Bytes × HeaderCtx B M}
    (h : productionMakeHeader B M template payouts shareId = .ok built) {p : Payout}
    (hp : p ∈ payouts) : ∃ script, p2trScript B p.address = .ok script := by
  obtain ⟨⟨header, tx⟩, hbuild, -⟩ := bind_eq_ok_iff.mp h
  obtain ⟨outputs, houtputs, hbuild⟩ := bind_eq_ok_iff.mp hbuild
  obtain ⟨tx', hassemble, -⟩ := bind_eq_ok_iff.mp hbuild
  obtain ⟨scripts, hscripts, -⟩ := bind_eq_ok_iff.mp hassemble
  rw [buildCoinbaseOutputs] at houtputs
  split_ifs at houtputs
  cases houtputs
  exact p2trScript_of_scripts hscripts
    (List.mem_append_left _ (List.mem_map_of_mem hp)) rfl rfl

end Production

/-- The stock build and the one-address `bitcoinutils` build headers. -/
lemma buildsHeaders_stock (jackpot : PyStr → ℕ) :
    BuildsHeaders zeroProgram (stockMining jackpot) where
  transaction _ _ _ _ _ _ := ⟨(), rfl⟩
  txid _ := List.length_replicate
  newHeader _ _ _ _ _ hv ht hn hp hr := stockMining_newHeader jackpot hv ht hn ⟨hp, hr⟩

/-! ### Reconstruction -/

/-- The arguments `_reconstruct_share` takes from a share. -/
def shareArgs (share : ShareBlock) (payouts : List Payout) (shareId : Hash32) : HeaderArgs :=
  ⟨share.coinbaseVersion, share.parentPrevBlock, share.timestamp, share.blockNbits, payouts,
    shareId, share.coinbaseValue, share.parentHeight⟩

/-- The payouts `_reconstruct_share` computes, as of the parent of the share. -/
def windowPayouts (P : Params) (C : Sharechain) (minPayout : ℕ) (share : ShareBlock) :
    List Payout :=
  computePplnsPayouts share.coinbaseValue (C.pplnsWeights P (some share.prevShareId)) minPayout

/-- `_reconstruct_share`: `None` where the share does not commit to the payouts of its window. -/
def reconstructShare (P : Params) (C : Sharechain) (minPayout : ℕ) (share : ShareBlock) :
    Except PyError (Option (M.Header × B.Tx × List Payout)) := do
  let payouts := windowPayouts P C minPayout share
  let payoutSet ← serializePayouts payouts
  if doubleSha256 payoutSet ≠ share.payoutSetHash then return none
  else do
    let sid ← share.shareId
    let (header, coinbaseTx) ← buildShareHeader B M (shareArgs share payouts sid)
    return some (header, coinbaseTx, payouts)

/-- `_make_verify_incoming`, at a certificate version. -/
def makeVerifyIncoming (P : Params) (C : Sharechain) (minPayout : ℕ) (certVersion : ℕ)
    (share : ShareBlock) (proof : PyStr) : Except PyError Bool := do
  match ← reconstructShare B M P C minPayout share with
  | none => return false
  | some (header, _, _) =>
      verifyShare M (M.toBytes header) proof (targetToBits share.shareTarget) (some certVersion)

/-- `_make_header_from_share`. -/
def makeHeaderFromShare (P : Params) (C : Sharechain) (minPayout : ℕ) (share : ShareBlock) :
    Except PyError (Option (Bytes × HeaderCtx B M)) := do
  match ← reconstructShare B M P C minPayout share with
  | none => return none
  | some (header, coinbaseTx, _) => return some (M.toBytes header, ⟨header, coinbaseTx, none⟩)

/-- `try_collaborative_submit` of a production node. -/
def productionCollaborativeSubmit (P : Params) (C : Sharechain) (minPayout : ℕ)
    (template : Option ParentTemplate) (share : ShareBlock) (proof : PyStr) :
    Except PyError (Option (JobContext (HeaderCtx B M))) :=
  tryCollaborativeSubmit (makeHeaderFromShare B M P C minPayout)
    (fun headerCtx certVersion => { headerCtx with certVersion := some certVersion })
    (fun headerBytes proof certVersion =>
      verifyBlockSolution M headerBytes proof (some certVersion))
    template share proof

/-- The steps of a reconstruction that succeeds. -/
lemma reconstructShare_eq_some_iff {P : Params} {C : Sharechain} {minPayout : ℕ}
    {share : ShareBlock} {header : M.Header} {coinbaseTx : B.Tx} {payouts : List Payout} :
    reconstructShare B M P C minPayout share = .ok (some (header, coinbaseTx, payouts))
      ↔ payouts = windowPayouts P C minPayout share
        ∧ (∃ payoutSet, serializePayouts payouts = .ok payoutSet
            ∧ doubleSha256 payoutSet = share.payoutSetHash)
        ∧ ∃ sid, share.shareId = .ok sid
            ∧ buildShareHeader B M (shareArgs share payouts sid) = .ok (header, coinbaseTx) := by
  rw [reconstructShare, bind_eq_ok_iff]
  constructor
  · rintro ⟨payoutSet, hset, h⟩
    split_ifs at h with hhash
    · cases h
    · obtain ⟨sid, hsid, h⟩ := bind_eq_ok_iff.mp h
      obtain ⟨⟨hdr, tx⟩, hbuild, h⟩ := bind_eq_ok_iff.mp h
      cases h
      exact ⟨rfl, ⟨payoutSet, hset, not_not.mp hhash⟩, sid, hsid, hbuild⟩
  · rintro ⟨rfl, ⟨payoutSet, hset, hhash⟩, sid, hsid, hbuild⟩
    refine ⟨payoutSet, hset, ?_⟩
    rw [if_neg (not_not.mpr hhash), hsid]
    simp only [ok_bind, hbuild]
    rfl

/-- There is no one to pay as of a share whose predecessor is not stored. -/
lemma windowPayouts_of_get_none {P : Params} {C : Sharechain} {share : ShareBlock}
    (h : C.entries.get share.prevShareId = none) (minPayout : ℕ) :
    windowPayouts P C minPayout share = [] := by
  have hcredit : creditWindow P C.entries.get P.window (some share.prevShareId) (Tally.empty, [])
      = Tally.empty := by
    cases P.window with
    | zero => rfl
    | succ n => rw [creditWindow, h]
  rw [windowPayouts, Sharechain.pplnsWeights, windowWeights, Option.some_or, hcredit]
  rfl

/-- Of fields that fit, a stock build makes the header of a coinbase with no payouts. -/
lemma buildShareHeader_stock (jackpot : PyStr → ℕ) (args : HeaderArgs) (hp : args.payouts = [])
    (hv : args.version < 2 ^ 32) (ht : args.timestamp < 2 ^ 32) (hn : args.nbits < 2 ^ 32) :
    ∃ header, buildShareHeader zeroProgram (stockMining jackpot) args = .ok (header, ())
      ∧ (stockMining jackpot).newHeader args.version args.prevBlock.bytes
          (txMerkleRoot [List.replicate 32 0]) args.timestamp args.nbits = .ok header := by
  obtain ⟨header, hh⟩ := stockMining_newHeader jackpot hv ht hn
    ⟨args.prevBlock.bytes_length, (rfl : (txMerkleRoot [List.replicate 32 0]).length = 32)⟩
  refine ⟨header, ?_, hh⟩
  have hout : buildCoinbaseOutputs args.payouts args.shareId.bytes args.coinbaseValue = .ok _ :=
    buildCoinbaseOutputs_of_le args.shareId.bytes_length (by rw [hp]; exact Nat.zero_le _)
  rw [buildShareHeader, hout, hp, ok_bind]
  change ((stockMining jackpot).newHeader args.version args.prevBlock.bytes
    (txMerkleRoot [List.replicate 32 0]) args.timestamp args.nbits >>= _) = _
  rw [hh]
  rfl

/-! ### What a share commits to -/

/-- The payout lists `serialize_payouts` has a format for. -/
structure Committable (payouts : List Payout) : Prop where
  count : payouts.length < 2 ^ 32
  each : ∀ p ∈ payouts, p.Encodable

/-- Two byte strings with one `double_sha256`. -/
def Collide (b b' : Bytes) : Prop := b ≠ b' ∧ doubleSha256 b = doubleSha256 b'

lemma Committable.serialize {payouts : List Payout} (h : Committable payouts) :
    ∃ b, serializePayouts payouts = .ok b :=
  ⟨_, serializePayouts_eq_ok_iff.mpr ⟨h.count, h.each, rfl⟩⟩

/-- One hash for two payout lists is a collision. -/
lemma eq_or_collide {ps qs : List Payout} {b b' : Bytes} (hp : serializePayouts ps = .ok b)
    (hq : serializePayouts qs = .ok b') (h : doubleSha256 b = doubleSha256 b') :
    ps = qs ∨ Collide b b' := by
  by_cases heq : b = b'
  · exact Or.inl (serializePayouts_inj hp (heq ▸ hq))
  · exact Or.inr ⟨heq, h⟩

/-- **The commitment binds the payouts**: two payout lists with one encoding are equal, and unless
their encodings collide so are two with one hash.  Then the shares of one `payout_set_hash`, by
whomever they are reconstructed, pay the same, and one share has one coinbase. -/
theorem commitment_binds {ps qs : List Payout} (hp : Committable ps) (hq : Committable qs) :
    (serializePayouts ps = serializePayouts qs → ps = qs)
      ∧ ∃ b b', serializePayouts ps = .ok b ∧ serializePayouts qs = .ok b'
        ∧ (doubleSha256 b = doubleSha256 b' → ps = qs ∨ Collide b b')
        ∧ ∀ P C minPayout P' C' minPayout' share share' header coinbaseTx header' coinbaseTx',
          share.payoutSetHash = share'.payoutSetHash →
          reconstructShare B M P C minPayout share = .ok (some (header, coinbaseTx, ps)) →
          reconstructShare B M P' C' minPayout' share' = .ok (some (header', coinbaseTx', qs)) →
          ps = qs ∧ (share = share' → header = header' ∧ coinbaseTx = coinbaseTx')
            ∨ Collide b b' := by
  obtain ⟨b, hb⟩ := hp.serialize
  obtain ⟨b', hb'⟩ := hq.serialize
  refine ⟨fun h => serializePayouts_inj hb (h ▸ hb), b, b', hb, hb', eq_or_collide hb hb', ?_⟩
  intro P C minPayout P' C' minPayout' share share' header coinbaseTx header' coinbaseTx' hset h h'
  obtain ⟨-, ⟨_, hs, hhash⟩, sid, hsid, hbuild⟩ := (reconstructShare_eq_some_iff B M).mp h
  obtain ⟨-, ⟨_, hs', hhash'⟩, sid', hsid', hbuild'⟩ := (reconstructShare_eq_some_iff B M).mp h'
  cases hb.symm.trans hs
  cases hb'.symm.trans hs'
  rcases eq_or_collide hb hb' (hhash.trans (hset.trans hhash'.symm)) with rfl | hcollide
  · refine Or.inl ⟨rfl, ?_⟩
    rintro rfl
    cases hsid.symm.trans hsid'
    cases hbuild.symm.trans hbuild'
    exact ⟨rfl, rfl⟩
  · exact Or.inr hcollide

/-- Two payouts in two orders are committed to by different bytes. -/
theorem commitment_binds_two :
    serializePayouts [⟨['a'], 1⟩, ⟨['b'], 2⟩] ≠ serializePayouts [⟨['b'], 2⟩, ⟨['a'], 1⟩] := by
  have hlist : ∀ p q : Payout, p.Encodable → q.Encodable → Committable [p, q] := fun p q hp hq =>
    ⟨by norm_num, by simp [hp, hq]⟩
  have ha : Payout.Encodable ⟨['a'], 1⟩ := ⟨by decide, by norm_num, by norm_num⟩
  have hb : Payout.Encodable ⟨['b'], 2⟩ := ⟨by decide, by norm_num, by norm_num⟩
  intro h
  have heq := (commitment_binds zeroProgram (stockMining fun _ => 0) (hlist _ _ ha hb)
    (hlist _ _ hb ha)).1 h
  cases heq

end P2Pearl
