import Ironcat.CompactTarget
import Ironcat.BatchInsert

/-!
# The work of accepted headers

Every rule caps the target it computes or copies the bits of a block below, so
the bits of a chain stay valid and within the limit from genesis on. Above the
last checkpoint the proof of work excludes the zero target, and a valid target
under the mainnet limit is worth at least `2 ^ 20` hashes.
-/

namespace Ironcat.WorkBounds

open Lib.Checked Lib.FiniteMap Lib.Runs Types Difficulty Headers HeaderTree HeaderRuns BatchInsert
open CompactTarget

structure BoundedParams (params : ConsensusParams) : Prop where
  limit_lt : params.powLimit < 2 ^ 256
  floor : ValidBits params.powLimit minDifficultyCompact
  reset : ValidBits params.powLimit 0x1c0ffff0

def ValidChain (limit : ℕ) (chain : ChainLookup) : Prop :=
  ∀ k p, chain k = some p → ValidBits limit p.2

section Rules

variable {P : Primitives} {params : ConsensusParams} {height : ℕ} {chain : ChainLookup}
variable {bits : UInt32}

theorem ValidChain.lookupHeader {limit k : ℕ} {p : UInt32 × UInt32} (h : ValidChain limit chain)
    (hp : lookupHeader chain k = .ok p) : ValidBits limit p.2 :=
  h k p (okOr_eq_ok.mp hp)

theorem BoundedParams.capped (hparams : BoundedParams params) (target : ℕ) :
    ValidBits params.powLimit (targetToCompact (min target params.powLimit)) :=
  (validBits_targetToCompact ((min_le_right _ _).trans_lt hparams.limit_lt)).mono (min_le_right _ _)

theorem BoundedParams.floorCompact (hparams : BoundedParams params) (h : ValidBits params.powLimit bits) :
    ValidBits params.powLimit (floorCompact bits) := by
  unfold Difficulty.floorCompact
  split_ifs
  · exact hparams.floor
  · exact h

section

variable (hparams : BoundedParams params)
include hparams

theorem BoundedParams.scaleTarget {parentBits : UInt32} {actual target : ℤ}
    (h : scaleTarget params parentBits actual target = .ok bits) :
    ValidBits params.powLimit bits := by
  simp only [Difficulty.scaleTarget, bind_eq_ok, pure_eq_ok] at h
  obtain ⟨product, _, rfl⟩ := h
  exact hparams.capped _

theorem BoundedParams.intervalRule {interval target : ℤ} (hchain : ValidChain params.powLimit chain)
    (h : intervalRule params interval target height chain = .ok bits) :
    ValidBits params.powLimit bits := by
  simp only [Difficulty.intervalRule, bind_eq_ok] at h
  obtain ⟨parent, hparent, h⟩ := h
  split_ifs at h
  · -- between retargets the parent's bits are copied
    simp only [pure_eq_ok] at h
    exact h ▸ hchain.lookupHeader hparent
  all_goals
    simp only [bind_eq_ok] at h
    obtain ⟨_, _, _, _, h⟩ := h
    exact hparams.scaleTarget h

theorem BoundedParams.cip03 (h : cip03 params height chain = .ok bits) :
    ValidBits params.powLimit bits := by
  simp only [Difficulty.cip03, bind_eq_ok] at h
  obtain ⟨_, _, _, _, h⟩ := h
  exact hparams.scaleTarget h

theorem BoundedParams.cip04 (hchain : ValidChain params.powLimit chain)
    (h : cip04 P params height chain = .ok bits) : ValidBits params.powLimit bits := by
  simp only [Difficulty.cip04, bind_eq_ok] at h
  obtain ⟨parent, hparent, _, _, first, _, h⟩ := h
  have hvalid := hchain.lookupHeader hparent
  have hlowered : ∀ adjustment, ValidBits params.powLimit
      (targetToCompact ((compactToTarget parent.2).1 - adjustment)) := fun adjustment =>
    have hle := (Nat.sub_le _ adjustment).trans hvalid.target_le
    (validBits_targetToCompact (hle.trans_lt hparams.limit_lt)).mono hle
  by_cases hdead : -10 < (timespan parent.1 first.1).tdiv 8 - params.powTargetSpacing ∧
      (timespan parent.1 first.1).tdiv 8 - params.powTargetSpacing < 10
  · simp only [hdead, and_self, if_true, pure_eq_ok] at h
    exact h ▸ hvalid
  · simp only [hdead, if_false] at h
    split at h
    · simp only [pure_eq_ok] at h
      exact h ▸ hparams.floorCompact (hlowered _)
    · simp only [bind_eq_ok, pure_eq_ok] at h
      obtain ⟨raised, _, rfl⟩ := h
      exact hparams.floorCompact (hparams.capped _)

theorem BoundedParams.cip05 (hchain : ValidChain params.powLimit chain)
    (h : cip05 P params height chain = .ok bits) : ValidBits params.powLimit bits := by
  simp only [Difficulty.cip05, bind_eq_ok] at h
  obtain ⟨_, _, h⟩ := h
  split at h
  · exact hparams.cip04 hchain h
  · simp only [bind_eq_ok, pure_eq_ok] at h
    obtain ⟨_, _, _, _, _, _, rfl⟩ := h
    exact hparams.floorCompact (hparams.capped _)

theorem BoundedParams.targetToCompact_limit :
    ValidBits params.powLimit (targetToCompact params.powLimit) :=
  validBits_targetToCompact hparams.limit_lt

theorem BoundedParams.cip06 (h : cip06 params height chain = .ok bits) :
    ValidBits params.powLimit bits := by
  simp only [Difficulty.cip06] at h
  split at h
  · exact Except.ok.inj h ▸ hparams.targetToCompact_limit
  · simp only [bind_eq_ok, pure_eq_ok] at h
    obtain ⟨_, _, _, _, _, _, rfl⟩ := h
    exact hparams.capped _

theorem BoundedParams.getNextWorkRequired (hchain : ValidChain params.powLimit chain)
    (h : getNextWorkRequired P params height chain = .ok bits) :
    ValidBits params.powLimit bits := by
  simp only [Difficulty.getNextWorkRequired] at h
  split_ifs at h
  · exact Except.ok.inj h ▸ hparams.targetToCompact_limit
  · exact hparams.intervalRule hchain h
  · exact Except.ok.inj h ▸ hparams.reset
  · exact hparams.intervalRule hchain h
  · exact hparams.cip03 h
  · exact hparams.cip04 hchain h
  · exact hparams.cip05 hchain h
  · exact hparams.cip06 h

end

end Rules

structure SoundBits (params : ConsensusParams) (bits : UInt32) (height : ℕ) : Prop where
  valid : ValidBits params.powLimit bits
  target_ne : params.lastCheckpointHeight < height → (compactToTarget bits).1 ≠ 0

section Store

variable {P : Primitives} {params : ConsensusParams} {hs hs' : HeaderStore} {header : BlockHeader}
variable {es : List (Hash256 × StoredHeader)} {limit height : ℕ}

theorem validBits_of_checkDifficulty {chain : ChainLookup} (hparams : BoundedParams hs.params)
    (hchain : ValidChain hs.params.powLimit chain)
    (h : HeaderStore.checkDifficulty P hs chain header height = .ok ()) :
    ValidBits hs.params.powLimit header.bits := by
  simp only [HeaderStore.checkDifficulty, bind_eq_ok, mapError_eq_ok, ensure_eq_ok] at h
  obtain ⟨expected, hexpected, rfl⟩ := h
  exact hparams.getNextWorkRequired hchain hexpected

theorem target_ne_zero_of_checkPow (h : HeaderStore.checkPow P hs header height = .ok ())
    (habove : hs.params.lastCheckpointHeight < height) : (compactToTarget header.bits).1 ≠ 0 := by
  have hpow := ensure_eq_ok.mp h habove
  intro hzero
  simp [checkProofOfWork, hzero] at hpow

abbrev ValidStore (limit : ℕ) : HeaderStore → Prop :=
  AllStored fun _ s => ValidBits limit s.header.bits

theorem ValidStore.headerAt (h : ValidStore limit hs) : ValidChain limit hs.headerAt := by
  intro k p hp
  simp only [HeaderStore.headerAt, Option.bind_eq_bind, Option.bind_eq_some_iff, Option.pure_def,
    Option.some.injEq] at hp
  obtain ⟨hash, _, s, hs, rfl⟩ := hp
  exact h hash s hs

theorem ValidStore.batchLookup (h : ValidStore limit hs)
    (hes : ∀ e ∈ es, ValidBits limit e.2.header.bits) : ValidChain limit (hs.batchLookup es) := by
  intro k p hp
  rcases Option.or_eq_some_iff.mp hp with hp | ⟨_, hp⟩
  · simp only [Option.bind_eq_bind, Option.bind_eq_some_iff] at hp
    obtain ⟨first, _, hp⟩ := hp
    split_ifs at hp
    obtain ⟨e, he, hp⟩ := Option.bind_eq_some_iff.mp hp
    exact Option.some.inj hp ▸ hes e (List.mem_of_getElem? he)
  · exact h.headerAt k p hp

theorem ValidStore.forkHeaders (h : ValidStore limit hs) {fuel : ℕ} {current : Hash256}
    {acc : Map ℕ (UInt32 × UInt32)} (hacc : ValidChain limit acc.lookup) :
    ValidChain limit (hs.forkHeaders fuel current acc).lookup := by
  induction fuel generalizing current acc with
  | zero => exact hacc
  | succ fuel ih =>
    unfold HeaderStore.forkHeaders
    cases hget : hs.get current with
    | none => exact hacc
    | some stored =>
      have hinsert : ValidChain limit
          (acc.insert stored.height (stored.header.timestamp, stored.header.bits)).lookup := by
        intro k p hp
        rcases lookup_insert_cases hp with ⟨_, rfl⟩ | hp
        · exact h current stored hget
        · exact hacc k p hp
      dsimp only
      split_ifs
      · exact hacc
      · exact hinsert
      · exact ih hinsert

theorem ValidStore.forkLookup (h : ValidStore limit hs) (start : Hash256) :
    ValidChain limit (hs.forkLookup start) := by
  intro k p hp
  rcases Option.or_eq_some_iff.mp hp with hp | ⟨_, hp⟩
  · exact h.forkHeaders (fun _ _ h => by simp at h) k p hp
  · exact h.headerAt k p hp

theorem acceptHeader_checks {result : HeaderStore.AcceptResult} {p : StoredHeader}
    (hnew : header.blockHash P ∉ hs.byHash) (hp : hs.get header.prevHash = some p)
    (h : hs.acceptHeader P header = .ok (hs', result)) :
    HeaderStore.checkDifficulty P hs (hs.forkLookup header.prevHash) header (p.height + 1) =
        .ok () ∧
      HeaderStore.checkPow P hs header (p.height + 1) = .ok () := by
  simp only [HeaderStore.acceptHeader, hnew, if_false, bind_eq_ok, ensure_eq_ok, okOr_eq_ok] at h
  obtain ⟨_, _, p', hp', height, hheight, _, _, _, hdifficulty, _, hpow, _⟩ := h
  obtain rfl := Option.mem_unique hp hp'
  obtain ⟨_, rfl⟩ := nextHeight_eq_ok.mp hheight
  exact ⟨hdifficulty, hpow⟩

theorem validateBatch_hasPow {headers : List BlockHeader}
    (h : hs.validateBatch P headers = .ok es) : HasPow P hs es := by
  simp only [HeaderStore.validateBatch, bind_eq_ok, pure_eq_ok, forM_eq_ok] at h
  obtain ⟨_, _, st, _, _, hpow, rfl⟩ := h
  exact hpow

theorem validateBatch_sound {headers : List BlockHeader} (hparams : BoundedParams hs.params)
    (hvalid : ValidStore hs.params.powLimit hs) (h : hs.validateBatch P headers = .ok es) :
    ∀ e ∈ es, SoundBits hs.params e.2.header.bits e.2.height := by
  have hbits : ∀ e ∈ es, ValidBits hs.params.powLimit e.2.header.bits :=
    @validateBatch_forall P hs es (fun _ s => ValidBits hs.params.powLimit s.header.bits) headers
      (fun st header hst habove => validBits_of_checkDifficulty hparams (hvalid.batchLookup hst)
        habove.difficulty) h
  exact fun e he => ⟨hbits e he, target_ne_zero_of_checkPow (validateBatch_hasPow h e he)⟩

structure SoundStore (params : ConsensusParams) (hs : HeaderStore) : Prop where
  params_eq : hs.params = params
  bounded : BoundedParams params
  sound : AllStored (fun _ s => SoundBits params s.header.bits s.height) hs

theorem SoundStore.valid (h : SoundStore params hs) : ValidStore params.powLimit hs :=
  fun hash s hget => (h.sound hash s hget).valid

/-- The four calls that insert headers. -/
def inserting : HeaderOp → Bool
  | .addHeader _ | .addHeaders _ | .validateAndCommit _ | .acceptHeader _ => true
  | _ => false

theorem SoundStore.apply (h : SoundStore params hs) {op : HeaderOp} (hop : inserting op) :
    SoundStore params (op.apply P hs) := by
  have hvalid := h.valid
  obtain ⟨rfl, hparams, hsound⟩ := h
  have houtcome := outcome_apply P hs op
  generalize op.apply P hs = hs' at houtcome
  cases houtcome with
  | unchanged op => exact ⟨rfl, hparams, hsound⟩
  | added hok =>
    obtain ⟨_, habove, hpow, rfl⟩ := addHeader_eq_ok.mp hok
    have hbits := validBits_of_checkDifficulty hparams hvalid.headerAt habove.difficulty
    exact ⟨rfl, hparams, hsound.insert ⟨hbits, target_ne_zero_of_checkPow hpow⟩ rfl⟩
  | batchAdded hbatch =>
    rw [persistBatch_eq]
    exact ⟨commitAll_params _ _, hparams,
      AllStored.commitAll hsound (validateBatch_sound hparams hvalid hbatch)⟩
  | committed hbatch =>
    exact ⟨commitAll_params _ _, hparams,
      hsound.commitAll (validateBatch_sound hparams hvalid hbatch)⟩
  | accepted hok =>
    obtain ⟨_, rfl, _⟩ | ⟨_, p, extend, hp, hatt, _, rfl⟩ := acceptHeader_eq_ok hok
    · exact ⟨rfl, hparams, hsound⟩
    · obtain ⟨hdifficulty, hpow⟩ := acceptHeader_checks hatt.fresh hp hok
      have hbits := validBits_of_checkDifficulty hparams (hvalid.forkLookup _) hdifficulty
      exact ⟨rfl, hparams, hsound.insert ⟨hbits, target_ne_zero_of_checkPow hpow⟩ rfl⟩
  | marked ord hash => cases hop
  | switched hok => cases hop
  | purged ord activeTipHeight => cases hop

theorem SoundStore.run {ops : List HeaderOp} (h : SoundStore params hs)
    (hops : ∀ op ∈ ops, inserting op) : SoundStore params (run (HeaderOp.apply P) hs ops) :=
  run_invariant (SoundStore params) (fun _ _ h hop => SoundStore.apply h hop) h
    (along_of_forall fun op hop _ => hops op hop)

end Store

theorem workFromBits_eq {limit : ℕ} {bits : UInt32} (hvalid : ValidBits limit bits)
    (hlimit : limit < 2 ^ 256) (hne : (compactToTarget bits).1 ≠ 0) :
    workFromBits bits = 2 ^ 256 / ((compactToTarget bits).1 + 1) := by
  obtain ⟨hle, hflags⟩ := hvalid
  unfold workFromBits
  generalize compactToTarget bits = t at hle hflags hne
  obtain ⟨target, flags⟩ := t
  obtain rfl : flags = (false, false) := hflags
  simp only [Bool.false_eq_true, false_or, hne, if_false]
  have hsplit : 2 ^ 256 = (2 ^ 256 - 1 - target) + (target + 1) := by
    simp only at hle
    omega
  rw [hsplit, Nat.add_div_right _ (Nat.succ_pos target), ← hsplit]

theorem work_ge {bits : UInt32} (hvalid : ValidBits (2 ^ 236 - 1) bits) :
    2 ^ 20 ≤ 2 ^ 256 / ((compactToTarget bits).1 + 1) := by
  have hle := hvalid.target_le
  refine (Nat.le_div_iff_mul_le (Nat.succ_pos _)).mpr ?_
  calc 2 ^ 20 * ((compactToTarget bits).1 + 1) ≤ 2 ^ 20 * 2 ^ 236 :=
        Nat.mul_le_mul_left _ (by omega)
    _ = 2 ^ 256 := by rw [← pow_add]

/-- `GENESIS_HEADER` of the mainnet. -/
def genesisHeader : BlockHeader where
  version := 1
  prevHash := 0
  merkleRoot := 0x4007a33db5d9cdf2aab117335eb8431c8d13fb86e0214031fdaebe69a0f29cf7
  timestamp := 1387838302
  bits := 0x1e0ffff0
  nonce := 588050

structure CarriesWork (hs : HeaderStore) (s : StoredHeader) : Prop where
  target_ne : (compactToTarget s.header.bits).1 ≠ 0
  work_eq : workFromBits s.header.bits = 2 ^ 256 / ((compactToTarget s.header.bits).1 + 1)
  work_ge : 2 ^ 20 ≤ workFromBits s.header.bits
  chainwork_gt : ∃ p, hs.get s.header.prevHash = some p ∧ p.chainwork < s.chainwork

def mainnetWith (checkpoints : List (ℕ × Hash256)) : ConsensusParams :=
  { ConsensusParams.mainnet with checkpoints := checkpoints }

theorem mainnetWith_bounded (checkpoints : List (ℕ × Hash256)) :
    BoundedParams (mainnetWith checkpoints) where
  limit_lt := show 2 ^ 236 - 1 < 2 ^ 256 by decide
  floor := show ValidBits (2 ^ 236 - 1) minDifficultyCompact by decide +kernel
  reset := show ValidBits (2 ^ 236 - 1) 0x1c0ffff0 by decide +kernel

theorem soundStore_makeFresh (P : Primitives) (checkpoints : List (ℕ × Hash256))
    (backend : Option Backend) : SoundStore (mainnetWith checkpoints)
      (HeaderStore.makeFresh P genesisHeader (mainnetWith checkpoints) backend) where
  params_eq := rfl
  bounded := mainnetWith_bounded checkpoints
  sound := by
    intro hash s hget
    rcases lookup_insert_cases hget with ⟨_, rfl⟩ | hget
    · have hvalid : ValidBits (2 ^ 236 - 1) genesisHeader.bits := by decide +kernel
      exact ⟨hvalid, fun habove => absurd habove (Nat.not_lt_zero _)⟩
    · simp at hget

theorem stored_headers_carry_work (P : Primitives) (checkpoints : List (ℕ × Hash256))
    (backend : Option Backend) (ops : List HeaderOp) (hops : ∀ op ∈ ops, inserting op)
    (hhash : HeaderHashSound P ops) :
    let hs := run (HeaderOp.apply P)
      (HeaderStore.makeFresh P genesisHeader (mainnetWith checkpoints) backend) ops
    ∀ hash s, hs.get hash = some s →
      ValidBits (mainnetWith checkpoints).powLimit s.header.bits ∧
      ((mainnetWith checkpoints).lastCheckpointHeight < s.height → CarriesWork hs s) := by
  intro hs hash s hget
  have hsound : SoundStore (mainnetWith checkpoints) hs :=
    (soundStore_makeFresh P checkpoints backend).run hops
  have htree : Tree P genesisHeader hs :=
    tree_run (tree_makeFresh P genesisHeader _ backend) hhash (along_of_forall fun op hop _ => by
      have hinserting := hops op hop
      cases op <;> trivial)
  have hbits := hsound.sound hash s hget
  refine ⟨hbits.valid, fun habove => ?_⟩
  have hwork := workFromBits_eq hbits.valid (mainnetWith_bounded checkpoints).limit_lt
    (hbits.target_ne habove)
  have hge := work_ge hbits.valid
  refine ⟨hbits.target_ne habove, hwork, hwork ▸ hge, ?_⟩
  have hne : hash ≠ genesisHeader.blockHash P := fun heq => by
    have hzero := (htree.rooted.height_eq_zero_iff hget).mpr heq
    omega
  obtain ⟨p, hp, _, hchainwork⟩ := htree.rooted.parent hash s hget hne
  exact ⟨p, hp, by omega⟩

theorem header_above_genesis_carries_work :
    let hs := run (HeaderOp.apply poly)
      (HeaderStore.makeFresh poly genesisHeader (mainnetWith []) none)
      [.addHeader (childOf genesisHeader 1), .acceptHeader (childOf genesisHeader 2)]
    let s : StoredHeader := ⟨childOf genesisHeader 2, 1, 2 * workFromBits 0x1e0ffff0⟩
    hs.get ((childOf genesisHeader 2).blockHash poly) = some s ∧ CarriesWork hs s :=
  have hget := by decide +kernel
  ⟨hget, (stored_headers_carry_work poly [] none _ (by decide) (by decide +kernel)
    _ _ hget).2 (by decide)⟩

end Ironcat.WorkBounds
