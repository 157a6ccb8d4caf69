import Ironcat.Lib.LinkWalk
import Ironcat.HeaderReload

/-!
# The walk of a header load

`try_load_from_backend` follows the stored parent links from the best tip until
a stored height of zero, with no bound on the number of rounds. Heights and
links come from the database as they are, so the walk can enter a cycle and the
load does not return. It returns exactly when no cycle can be reached.
-/

namespace Ironcat.HeaderLoadWalk

open Lib.Checked Lib.FiniteMap Lib.Forest Lib.LinkWalk Types Difficulty Headers HeaderTree
open HeaderRuns HeaderReload

variable {ord : IterOrder} {be : Backend} {genesisHash : Hash256}
variable {byHash : Map Hash256 StoredHeader}

def walkRound (byHash : Map Hash256 StoredHeader) (st : List Hash256 × Hash256) :
    (List Hash256 × Hash256) ⊕ Except HeaderError (List Hash256) :=
  let activeChain := st.1 ++ [st.2]
  match byHash.lookup st.2 with
  | none => .inr (.error .brokenChain)
  | some stored =>
    if stored.height = 0 then .inr (.ok activeChain) else .inl (activeChain, stored.header.prevHash)

def loadedBestTip (ord : IterOrder) (be : Backend) (genesisHash : Hash256)
    (raw : List (Hash256 × StoredHeader)) : Hash256 × ℕ :=
  let byHash := insertAll ∅ raw
  let tips := loadedTips byHash be.invalidTips.toFinset (raw.map Prod.fst)
  let works := (ord.list tips).filterMap fun t => (byHash.lookup t).map fun s => (t, s.chainwork)
  (maxByChainwork works).getD (genesisHash, 0)

/-- `try_load_from_backend` with its loop as it is: the result, if the loop ends
within `n` rounds. -/
def tryLoadWithin (ord : IterOrder) (n : ℕ) (be : Backend) (genesisHash : Hash256) :
    Option (Except HeaderError (Option Loaded × Backend)) :=
  match be.loadAll with
  | .error e => some (.error e)
  | .ok raw =>
    let byHash := insertAll ∅ raw
    if raw = [] then some (.ok (none, be))
    else if genesisHash ∉ byHash then some (.ok (none, be.clear))
    else
      let invalidTips := be.invalidTips.toFinset
      let tips := loadedTips byHash invalidTips (raw.map Prod.fst)
      let bestKnownTip := loadedBestTip ord be genesisHash raw
      (loop (walkRound byHash) n ([], bestKnownTip.1)).map fun walked => do
        let chain ← walked
        let activeChain := chain.reverse
        if activeChain.zipIdx.all fun e =>
            (byHash.lookup e.1).map StoredHeader.height = some e.2 then
          return (some ⟨byHash, activeChain, activeChain.toFinset, tips, bestKnownTip, invalidTips⟩, be)
        else
          return (none, be.clear)

def storedLink (byHash : Map Hash256 StoredHeader) (hash : Hash256) : Option Hash256 :=
  match byHash.lookup hash with
  | none => none
  | some stored => if stored.height = 0 then none else some stored.header.prevHash

theorem walkRound_follows (byHash : Map Hash256 StoredHeader) :
    Follows (walkRound byHash) Prod.snd (storedLink byHash) := by
  constructor
  · rintro ⟨chain, current⟩ st' h
    unfold walkRound at h
    unfold storedLink
    dsimp only at h ⊢
    cases hlookup : byHash.lookup current with
    | none => simp [hlookup] at h
    | some stored =>
      rw [hlookup] at h
      dsimp only at h ⊢
      split_ifs at h ⊢
      obtain rfl := Sum.inl.inj h
      rfl
  · rintro ⟨chain, current⟩ r h
    unfold walkRound at h
    unfold storedLink
    dsimp only at h ⊢
    cases hlookup : byHash.lookup current with
    | none => rfl
    | some stored =>
      rw [hlookup] at h
      dsimp only at h ⊢
      split_ifs at h ⊢
      rfl

theorem mem_keys_of_storedLink {a b : Hash256} (h : storedLink byHash a = some b) :
    a ∈ byHash.keys := by
  unfold storedLink at h
  cases hlookup : byHash.lookup a with
  | none => simp [hlookup] at h
  | some stored => exact Finmap.mem_keys.mpr (Finmap.mem_of_lookup_eq_some hlookup)

theorem chainDown_of_loop {n : ℕ} {chain : List Hash256} {current : Hash256}
    {r : Except HeaderError (List Hash256)}
    (h : loop (walkRound byHash) n (chain, current) = some r) :
    r = (chainDown byHash n current).map (chain ++ ·) := by
  induction n generalizing chain current with
  | zero => cases h
  | succ n ih =>
    unfold loop walkRound at h
    unfold chainDown
    dsimp only at h
    cases hlookup : byHash.lookup current with
    | none =>
      simp only [hlookup, Option.some.injEq] at h
      rw [← h]
      rfl
    | some stored =>
      simp only [hlookup] at h
      by_cases hzero : stored.height = 0
      · simp only [hzero, if_true, Option.some.injEq] at h
        rw [← h]
        simp [okOr, hzero, pure, Except.pure, bind, Except.bind, Except.map]
      · simp only [hzero, if_false] at h
        rw [ih h]
        simp only [okOr, hzero, if_false, bind, Except.bind]
        cases chainDown byHash n stored.header.prevHash with
        | error e => rfl
        | ok rest => simp [Except.map, pure, Except.pure]

/-- No cycle of stored links can be reached from the best tip. -/
def LinksEnd (ord : IterOrder) (be : Backend) (genesisHash : Hash256) : Prop :=
  ∀ raw, be.loadAll = .ok raw → genesisHash ∈ insertAll ∅ raw → ∀ a,
    Descends (storedLink (insertAll ∅ raw)) (loadedBestTip ord be genesisHash raw).1 a →
      ¬ OnCycle (storedLink (insertAll ∅ raw)) a

theorem walk_ends {start : Hash256}
    (h : ∀ a, Descends (storedLink byHash) start a → ¬ OnCycle (storedLink byHash) a) :
    loop (walkRound byHash) (byHash.keys.card + 1) ([], start) =
      some (chainDown byHash (byHash.keys.card + 1) start) := by
  obtain ⟨r, hr⟩ := (walkRound_follows byHash).loop_isSome (s := ([], start))
    (fun _ _ _ hab => mem_keys_of_storedLink hab) h
  have hchain := chainDown_of_loop hr
  rw [hr, hchain]
  cases chainDown byHash (byHash.keys.card + 1) start <;> rfl

theorem tryLoad_of_linksEnd (h : LinksEnd ord be genesisHash) :
    ∃ n, tryLoadWithin ord n be genesisHash = some (tryLoadFromBackend ord be genesisHash) := by
  unfold tryLoadWithin tryLoadFromBackend
  cases hload : be.loadAll with
  | error e => exact ⟨0, rfl⟩
  | ok raw =>
    refine ⟨(insertAll ∅ raw).keys.card + 1, ?_⟩
    dsimp only
    rw [ok_bind]
    by_cases hraw : raw = []
    · rw [if_pos hraw, if_pos hraw]
      rfl
    · rw [if_neg hraw, if_neg hraw]
      by_cases hgen : genesisHash ∉ insertAll ∅ raw
      · rw [if_pos hgen, if_pos hgen]
        rfl
      · rw [if_neg hgen, if_neg hgen, walk_ends (h raw hload (not_not.mp hgen))]
        rfl

theorem tryLoad_of_cycle {raw : List (Hash256 × StoredHeader)} {a : Hash256}
    (hload : be.loadAll = .ok raw) (hgen : genesisHash ∈ insertAll ∅ raw)
    (ha : Descends (storedLink (insertAll ∅ raw)) (loadedBestTip ord be genesisHash raw).1 a)
    (hcycle : OnCycle (storedLink (insertAll ∅ raw)) a) (n : ℕ) :
    tryLoadWithin ord n be genesisHash = none := by
  have hraw : raw ≠ [] := by
    rintro rfl
    exact absurd hgen (Finmap.notMem_empty)
  unfold tryLoadWithin
  rw [hload]
  dsimp only
  rw [if_neg hraw, if_neg (not_not.mpr hgen)]
  rw [(walkRound_follows (insertAll ∅ raw)).loop_eq_none (s := ([], _)) ha hcycle n]
  rfl

/-- A load returns exactly when no cycle of stored links can be reached from the
best tip. -/
theorem load_returns_iff (ord : IterOrder) (be : Backend) (genesisHash : Hash256) :
    (∃ n r, tryLoadWithin ord n be genesisHash = some r) ↔ LinksEnd ord be genesisHash := by
  constructor
  · rintro ⟨n, r, hr⟩ raw hload hgen a ha hcycle
    rw [tryLoad_of_cycle hload hgen ha hcycle n] at hr
    cases hr
  · intro h
    obtain ⟨n, hn⟩ := tryLoad_of_linksEnd h
    exact ⟨n, _, hn⟩

theorem linksEnd_of_mirrors {P : Primitives} {genesis : BlockHeader} {hs : HeaderStore}
    (h : Mirrors hs be) (htree : Tree P genesis hs)
    (hlen : be.headers.entries.length ≤ maxLoadableHeaders) : LinksEnd ord be genesisHash := by
  rintro raw hload - a - ⟨b, hab, hba⟩
  obtain ⟨raw', hload', hraw⟩ := h.loadAll htree hlen
  obtain rfl : raw = raw' := Except.ok.inj (hload.symm.trans hload')
  rw [insertAll_eq_byHash hraw] at hab hba
  have hlink : storedLink hs.byHash = parentOf hs := by
    funext hash
    unfold storedLink parentOf HeaderStore.get
    cases hs.byHash.lookup hash with
    | none => rfl
    | some stored => simp [Nat.pos_iff_ne_zero]
  rw [hlink] at hab hba
  have hstep := htree.ranked a b hab
  have hback := hba.rank_le htree.ranked
  omega

def cyclicEntries : List (Hash256 × StoredHeader) :=
  [(11, ⟨⟨1, 10, 0, 0, 0x1e0ffff0, 2⟩, 2, 9000000⟩), (10, ⟨⟨1, 10, 0, 0, 0x1e0ffff0, 1⟩, 1, 8000000⟩),
    (easyGenesis.blockHash poly, ⟨easyGenesis, 0, workFromBits easyGenesis.bits⟩)]

def cyclicBackend : Backend :=
  cyclicEntries.foldr (fun e be => be.persistHeader e.1 e.2) ⟨∅, []⟩

/-- The database has the genesis hash, and the load goes round at the header that
is its own parent. -/
theorem cyclic_load_never_returns :
    easyGenesis.blockHash poly ∈ cyclicBackend.headers ∧
      ∀ n, tryLoadWithin .id n cyclicBackend (easyGenesis.blockHash poly) = none := by
  have hload : cyclicBackend.loadAll = .ok cyclicEntries := by decide +kernel
  have hstart : loadedBestTip .id cyclicBackend (easyGenesis.blockHash poly)
      cyclicEntries = (11, 9000000) := by decide +kernel
  have hin : storedLink (insertAll ∅ cyclicEntries) 11 = some 10 := by decide +kernel
  have hself : storedLink (insertAll ∅ cyclicEntries) 10 = some 10 := by decide +kernel
  refine ⟨by decide +kernel, fun n => ?_⟩
  refine tryLoad_of_cycle hload (by decide +kernel) (a := 10) ?_ ⟨10, hself, Descends.refl 10⟩ n
  rw [hstart]
  exact Descends.head hin (Descends.refl 10)

end Ironcat.HeaderLoadWalk
