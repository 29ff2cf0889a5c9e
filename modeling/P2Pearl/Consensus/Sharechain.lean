import P2Pearl.Consensus.Difficulty
import P2Pearl.Consensus.Pplns
import P2Pearl.Consensus.ShareCodec

/-!
`consensus/sharechain.py`: the store of shares, its validation rules, the selection of the best
tip, the PPLNS walk and pruning.

* `Store`: the dictionary `_entries`; `Store.get` is the look-up of a share.
* `expectedTarget`, `recent`, `windowWeights`: the three walks down the chain.
* `validate`: `_validate`, its checks in the order of the source.
* `addShare`: `add_share`, with the selection of the best tip and `prune`.
-/

namespace P2Pearl

/-- The parameters of `Sharechain.__init__`, with its defaults. -/
structure Params where
  window : ℕ := pplnsWindowShares
  uncleDepth : ℕ := uncleBlockDepth
  unclePenaltyPercent : ℕ := P2Pearl.unclePenaltyPercent
  bootstrapTarget : ℕ := bootstrapShareTarget
  shareTime : ℕ := shareTargetTimeSeconds
  retargetWindow : ℕ := retargetWindowShares

/-- `_retention`: enough history for a full-window reorg and a full walk on the new tip. -/
def Params.retention (P : Params) : ℕ := 2 * P.window + P.uncleDepth

/-- `_Entry`. -/
structure Entry where
  share : ShareBlock
  cumulativeDifficulty : ℕ
  proof : Option Bytes

/-- `_entries`. -/
abbrev Store := Hash32 → Option Entry

/-- The shares of a store. -/
abbrev Shares := Hash32 → Option ShareBlock

/-- `get`. -/
def Store.get (E : Store) : Shares := fun k => (E k).map Entry.share

/-- `self._entries[k] = e`. -/
def Store.set (E : Store) (k : Hash32) (e : Entry) : Store := Function.update E k (some e)

/-- `self._entries[k]`. -/
def Store.lookup (E : Store) (k : Hash32) : Except PyError Entry :=
  match E k with
  | some e => .ok e
  | none => .error .keyError

/-- The link of a walk: the predecessor id, or `None` at a genesis share. -/
def link (prevShareId : Hash32) : Option Hash32 :=
  if prevShareId = genesisPrev then none else some prevShareId

/-- The link of a share. -/
def ShareBlock.up (s : ShareBlock) : Option Hash32 := link s.prevShareId

/-- A sharechain: its entries and its best tip. -/
structure Sharechain where
  entries : Store
  bestTip : Option Hash32

namespace Sharechain

/-- A new sharechain. -/
def empty : Sharechain := ⟨fun _ => none, none⟩

/-- `tip`. -/
def tip (C : Sharechain) : Option ShareBlock := C.bestTip.bind C.entries.get

/-- `height`. -/
def height (C : Sharechain) : ℤ :=
  match C.tip with
  | some tip => tip.sidechainHeight
  | none => -1

end Sharechain

/-! ### The expected target -/

/-- The look-back loop of `expected_target`: at most `n` further shares, or `None` where the
history is truncated. -/
def lookBack (S : Shares) : ℕ → Hash32 → Option (List ShareBlock)
  | 0, _ => some []
  | n + 1, cur =>
      if cur = genesisPrev then some []
      else
        match S cur with
        | none => none
        | some share => (lookBack S n share.prevShareId).map (share :: ·)

/-- The end of `expected_target`: the retarget over the looked-back shares, newest first. -/
def retargetOver (P : Params) (newest : ShareBlock) (older : List ShareBlock)
    (timestamp : Option ℕ) : ℕ :=
  let shares := newest :: older
  let oldest := shares.getLast (List.cons_ne_nil _ _)
  match timestamp with
  | some timestamp =>
      retargetTarget newest.targetLimit (shares.map ShareBlock.difficulty).sum
        ((timestamp : ℤ) - oldest.timestamp) P.shareTime retargetClamp
  | none =>
      if shares.length < 2 then newest.targetLimit
      else
        retargetTarget newest.targetLimit (shares.dropLast.map ShareBlock.difficulty).sum
          ((newest.timestamp : ℤ) - oldest.timestamp) P.shareTime retargetClamp

/-- `expected_target`: the maximum share target consensus allows after `prevShareId`. -/
def expectedTarget (P : Params) (S : Shares) (prevShareId : Hash32) (timestamp : Option ℕ) :
    Option ℕ :=
  if prevShareId = genesisPrev then some P.bootstrapTarget
  else
    match S prevShareId with
    | none => none
    | some newest =>
        (lookBack S (P.retargetWindow - 1) newest.prevShareId).map
          fun older => retargetOver P newest older timestamp

/-! ### Validation -/

/-- `_recent`: up to `limit` ancestor ids from `cur` upward, and the uncle ids they reference. -/
def recent (S : Shares) : ℕ → Hash32 → List Hash32 × List Hash32
  | 0, _ => ([], [])
  | limit + 1, cur =>
      if cur = genesisPrev then ([], [])
      else
        match S cur with
        | none => ([], [])
        | some share =>
            let (ids, uncles) := recent S limit share.prevShareId
            (cur :: ids, share.uncleIds ++ uncles)

/-- The reasons `_validate` refuses a share for. -/
inductive Reject where
  | duplicate
  | badVersion
  | timestampTooFar
  | badCoinbaseValue
  | duplicateUncle
  | selfUncle
  | genesisHeight
  | genesisUncles
  | badShareTarget
  | orphan
  | badHeight
  | timestampRegression
  | parentHeightRegression
  | unknownUncle
  | uncleOnMainChain
  | uncleAlreadyReferenced
  | uncleOutOfDepth
  | uncleNotSibling
  deriving DecidableEq

/-- The text of a reason. -/
def Reject.reason : Reject → String
  | duplicate => "duplicate"
  | badVersion => "bad version"
  | timestampTooFar => "timestamp too far in future"
  | badCoinbaseValue => "bad coinbase value"
  | duplicateUncle => "duplicate uncle"
  | selfUncle => "self uncle"
  | genesisHeight => "genesis height != 0"
  | genesisUncles => "genesis with uncles"
  | badShareTarget => "bad share target"
  | orphan => "orphan: unknown parent"
  | badHeight => "bad height"
  | timestampRegression => "timestamp regression"
  | parentHeightRegression => "parent height regression"
  | unknownUncle => "unknown uncle"
  | uncleOnMainChain => "uncle on main chain"
  | uncleAlreadyReferenced => "uncle already referenced"
  | uncleOutOfDepth => "uncle out of depth"
  | uncleNotSibling => "uncle not a sibling of the main chain"

/-- The uncle loop of `_validate`, for a share at `height`. -/
def checkUncles (P : Params) (S : Shares) (height : ℕ) (ancestors ancestorUncles : List Hash32) :
    List Hash32 → Option Reject
  | [] => none
  | uid :: rest =>
      match S uid with
      | none => some .unknownUncle
      | some uncle =>
          if uid ∈ ancestors then some .uncleOnMainChain
          else if uid ∈ ancestorUncles then some .uncleAlreadyReferenced
          else if ¬((height : ℤ) - P.uncleDepth ≤ uncle.sidechainHeight
              ∧ (uncle.sidechainHeight : ℤ) ≤ height - 1) then some .uncleOutOfDepth
          else if uncle.prevShareId ∉ ancestors then some .uncleNotSibling
          else checkUncles P S height ancestors ancestorUncles rest

/-- The checks of `_validate` on a share that extends a parent. -/
def checkLinked (P : Params) (S : Shares) (share parent : ShareBlock) : Option Reject :=
  if share.sidechainHeight ≠ parent.sidechainHeight + 1 then some .badHeight
  else if share.timestamp < parent.timestamp then some .timestampRegression
  else if share.parentHeight < parent.parentHeight then some .parentHeightRegression
  else if expectedTarget P S share.prevShareId share.timestamp ≠ none
      ∧ expectedTarget P S share.prevShareId share.timestamp ≠ some share.targetLimit then
    some .badShareTarget
  else
    let (ancestors, ancestorUncles) := recent S (P.uncleDepth + 1) share.prevShareId
    checkUncles P S share.sidechainHeight ancestors ancestorUncles share.uncleIds

/-- The checks of `_validate` on a genesis share. -/
def checkGenesis (P : Params) (share : ShareBlock) : Option Reject :=
  if share.sidechainHeight ≠ 0 then some .genesisHeight
  else if share.uncleIds ≠ [] then some .genesisUncles
  else if share.targetLimit ≠ P.bootstrapTarget then some .badShareTarget
  else none

/-- The checks of `_validate` on a share with the id `sid`, in its order: the reason the share is
refused for, if any. -/
def verdict (P : Params) (S : Shares) (share : ShareBlock) (now : ℚ) (sid : Hash32) :
    Option Reject :=
  if S sid ≠ none then some .duplicate
  else if share.version ≠ sidechainVersion then some .badVersion
  else if now + maxTimestampDriftSeconds < share.timestamp then some .timestampTooFar
  else if share.coinbaseValue ≠ blockSubsidy share.parentHeight then some .badCoinbaseValue
  else if ¬share.uncleIds.Nodup then some .duplicateUncle
  else if sid ∈ share.uncleIds then some .selfUncle
  else if share.prevShareId = genesisPrev then checkGenesis P share
  else
    match S share.prevShareId with
    | none => some .orphan
    | some parent => checkLinked P S share parent

/-- `_validate`. -/
def validate (P : Params) (S : Shares) (share : ShareBlock) (now : ℚ) :
    Except PyError (Option Reject) :=
  share.shareId.map (verdict P S share now)

/-! ### Adding a share -/

/-- `AddResult`. -/
structure AddResult where
  accepted : Bool
  isBestTip : Bool
  reason : String := ""
  deriving DecidableEq

/-- The arguments of a call of `add_share`, the clock reading included. -/
structure Call where
  share : ShareBlock
  verified : Bool
  proof : Option Bytes
  now : ℚ

/-- The cumulative difficulty `add_share` gives to a valid share. -/
def cumulativeAfter (E : Store) (share : ShareBlock) : Except PyError ℕ :=
  if share.prevShareId = genesisPrev then .ok share.difficulty
  else do
    let parent ← E.lookup share.prevShareId
    let uncles ← share.uncleIds.mapM E.lookup
    return parent.cumulativeDifficulty + share.difficulty
      + (uncles.map fun u => u.share.difficulty).sum

/-- The id and the entry `add_share` inserts for a valid share. -/
def entryFor (E : Store) (call : Call) : Except PyError (Hash32 × Entry) := do
  let sid ← call.share.shareId
  let cumulative ← cumulativeAfter E call.share
  return (sid, ⟨call.share, cumulative, call.proof⟩)

/-- Whether an inserted entry becomes the best tip: there is none, or it has less work. -/
def outweighs (E : Store) (bestTip : Option Hash32) (e : Entry) : Except PyError Bool :=
  match bestTip with
  | none => .ok true
  | some best => do
      let b ← E.lookup best
      return b.cumulativeDifficulty < e.cumulativeDifficulty

namespace Sharechain

/-- `_prune`. -/
def prune (P : Params) (C : Sharechain) : Sharechain :=
  match C.tip with
  | none => C
  | some tip =>
      let cutoff : ℤ := tip.sidechainHeight - P.retention
      if cutoff ≤ 0 then C
      else { C with entries := fun k =>
        (C.entries k).filter fun e => ¬((e.share.sidechainHeight : ℤ) < cutoff) }

/-- The insertion of `add_share`: a heavier entry becomes the best tip, and old entries are
pruned. -/
def insert (P : Params) (C : Sharechain) (sid : Hash32) (e : Entry) :
    Sharechain × Except PyError AddResult :=
  let entries := C.entries.set sid e
  match outweighs entries C.bestTip e with
  | .error err => (⟨entries, C.bestTip⟩, .error err)
  | .ok true => (prune P ⟨entries, some sid⟩, .ok ⟨true, true, ""⟩)
  | .ok false => (⟨entries, C.bestTip⟩, .ok ⟨true, false, ""⟩)

end Sharechain

/-- `add_share`: the chain afterwards, and the result or the exception. -/
def addShare (P : Params) (C : Sharechain) (call : Call) :
    Sharechain × Except PyError AddResult :=
  if call.verified = false then (C, .ok ⟨false, false, "not verified"⟩)
  else
    match validate P C.entries.get call.share call.now with
    | .error err => (C, .error err)
    | .ok (some r) => (C, .ok ⟨false, false, r.reason⟩)
    | .ok none =>
        match entryFor C.entries call with
        | .error err => (C, .error err)
        | .ok (sid, e) => C.insert P sid e

/-! ### The PPLNS walk -/

/-- The uncle loop of `pplns_weights`, on the running totals and the uncles seen so far. -/
def creditUncles (P : Params) (S : Shares) :
    List Hash32 → Tally PyStr ℤ × List Hash32 → Tally PyStr ℤ × List Hash32
  | [], acc => acc
  | uid :: rest, (weights, seenUncles) =>
      if uid ∈ seenUncles then creditUncles P S rest (weights, seenUncles)
      else
        match S uid with
        | none => creditUncles P S rest (weights, seenUncles)
        | some uncle =>
            creditUncles P S rest
              (weights.add uncle.minerAddress (uncleWeight uncle.difficulty P.unclePenaltyPercent),
                uid :: seenUncles)

/-- The loop of `pplns_weights`, over at most `n` further main-chain shares. -/
def creditWindow (P : Params) (S : Shares) :
    ℕ → Option Hash32 → Tally PyStr ℤ × List Hash32 → Tally PyStr ℤ
  | 0, _, acc => acc.1
  | _ + 1, none, acc => acc.1
  | n + 1, some cur, (weights, seenUncles) =>
      match S cur with
      | none => weights
      | some share =>
          creditWindow P S n share.up (creditUncles P S share.uncleIds
            (weights.add share.minerAddress share.difficulty, seenUncles))

/-- The weights of the window that starts at `cur`, sorted. -/
def windowWeights (P : Params) (S : Shares) (cur : Option Hash32) : List (PyStr × ℤ) :=
  sortByWeight (creditWindow P S P.window cur (Tally.empty, [])).items

/-- `pplns_weights`, by default as of the best tip. -/
def Sharechain.pplnsWeights (P : Params) (C : Sharechain) (tipId : Option Hash32) :
    List (PyStr × ℤ) :=
  windowWeights P C.entries.get (tipId.or C.bestTip)

end P2Pearl
