import Ironcat.LocatorReply

/-!
# Block locators

`build_locator` walks down from the tip, ten times by one and then by steps that
double. The entries reach genesis before the length cap, and the distance from
the tip to the next entry below any height is at most twice that of the height.
-/

namespace Ironcat.Locator

open Lib.ByteCodec Lib.Runs Types Difficulty Headers HeaderTree HeaderRuns LocatorReply

def maxLocatorHashes : ℕ := 101

/-- The loop of `build_locator` with `room` hashes to go. It is `none` where the
index into the active chain panics. -/
def locatorLoop (chain : List Hash256) : ℕ → ℕ → ℕ → ℕ → Option (List Hash256)
  | 0, _, _, _ => some []
  | room+1, height, step, consecutive => do
    let hash ← chain[height]?
    if room = 0 ∨ height = 0 then
      return [hash]
    else if consecutive < 10 then do
      let rest ← locatorLoop chain room (height - 1) step (consecutive + 1)
      return hash :: rest
    else do
      let rest ← locatorLoop chain room (height - step) (min (step * 2) (2 ^ 32 - 1)) consecutive
      return hash :: rest

def buildLocator (hs : HeaderStore) : Option (List Hash256) := do
  let locator ← locatorLoop hs.activeChain maxLocatorHashes hs.height 1 0
  let genesis ← hs.activeChain[0]?
  if locator.getLast? ≠ some genesis ∧ locator.length < maxLocatorHashes then
    return locator ++ [genesis]
  else
    return locator

def locatorHeights : ℕ → ℕ → ℕ → ℕ → List ℕ
  | 0, _, _, _ => []
  | room+1, height, step, consecutive =>
    if room = 0 ∨ height = 0 then [height]
    else if consecutive < 10 then
      height :: locatorHeights room (height - 1) step (consecutive + 1)
    else
      height :: locatorHeights room (height - step) (min (step * 2) (2 ^ 32 - 1)) consecutive

theorem locatorHeights_length_le (room height step consecutive : ℕ) :
    (locatorHeights room height step consecutive).length ≤ room := by
  induction room generalizing height step consecutive with
  | zero => exact le_rfl
  | succ room ih =>
    unfold locatorHeights
    split_ifs
    · exact Nat.le_add_left 1 room
    · exact Nat.succ_le_succ (ih _ _ _)
    · exact Nat.succ_le_succ (ih _ _ _)

theorem locatorLoop_eq {chain : List Hash256} {room height : ℕ} (step consecutive : ℕ)
    (h : height < chain.length) :
    ∃ locator, locatorLoop chain room height step consecutive = some locator ∧
      locator.map some = (locatorHeights room height step consecutive).map (chain[·]?) := by
  induction room generalizing height step consecutive with
  | zero => exact ⟨[], rfl, rfl⟩
  | succ room ih =>
    have hhash : chain[height]? = some chain[height] := List.getElem?_eq_getElem h
    unfold locatorLoop locatorHeights
    rw [hhash, Option.bind_eq_bind, Option.bind_some]
    split_ifs
    · exact ⟨[chain[height]], rfl, by simp [hhash]⟩
    · obtain ⟨rest, hrest, hmap⟩ := ih step (consecutive + 1) (by omega : height - 1 < chain.length)
      refine ⟨chain[height] :: rest, by rw [hrest]; rfl, ?_⟩
      rw [List.map_cons, List.map_cons, hmap, hhash]
    · obtain ⟨rest, hrest, hmap⟩ := ih (min (step * 2) (2 ^ 32 - 1)) consecutive
        (by omega : height - step < chain.length)
      refine ⟨chain[height] :: rest, by rw [hrest]; rfl, ?_⟩
      rw [List.map_cons, List.map_cons, hmap, hhash]

/-- Heights that go down from `height` to genesis, and that leave no gap longer
than the distance from the tip to where it starts. -/
structure Covers (tip height : ℕ) (heights : List ℕ) : Prop where
  first : heights.head? = some height
  last : heights.getLast? = some 0
  descending : heights.Pairwise (· > ·)
  near : ∀ f ≤ height, ∃ s ∈ heights, s ≤ f ∧ tip - s ≤ 2 * (tip - f)

theorem covers_genesis (tip : ℕ) : Covers tip 0 [0] where
  first := rfl
  last := rfl
  descending := List.pairwise_singleton _ _
  near f hf := ⟨0, List.mem_singleton.mpr rfl, Nat.zero_le f, by omega⟩

theorem Covers.mem_le {tip height s : ℕ} {heights : List ℕ} (h : Covers tip height heights)
    (hs : s ∈ heights) : s ≤ height := by
  have hfirst := h.first
  cases heights with
  | nil => cases hs
  | cons a rest =>
    obtain rfl : a = height := Option.some.inj hfirst
    rcases List.mem_cons.mp hs with rfl | hs
    · exact le_rfl
    · exact (List.rel_of_pairwise_cons h.descending hs).le

theorem Covers.cons {tip height next : ℕ} {heights : List ℕ} (h : Covers tip next heights)
    (hlt : next < height) (hgap : ∀ f, next < f → f < height → tip - next ≤ 2 * (tip - f)) :
    Covers tip height (height :: heights) where
  first := rfl
  last := by
    obtain ⟨a, rest, rfl⟩ : ∃ a rest, heights = a :: rest := by
      cases heights with
      | nil => exact absurd h.first (by simp)
      | cons a rest => exact ⟨a, rest, rfl⟩
    rw [List.getLast?_cons_cons]
    exact h.last
  descending := List.pairwise_cons.mpr ⟨fun s hs => (h.mem_le hs).trans_lt hlt, h.descending⟩
  near f hf := by
    rcases Nat.lt_or_ge next f with hnext | hnext
    · rcases hf.lt_or_eq with hlow | rfl
      · have hmem : next ∈ heights := List.mem_of_mem_head? h.first
        exact ⟨next, List.mem_cons_of_mem _ hmem, hnext.le, hgap f hnext hlow⟩
      · exact ⟨f, List.mem_cons_self, le_rfl, by omega⟩
    · obtain ⟨s, hs, hle, hdist⟩ := h.near f hnext
      exact ⟨s, List.mem_cons_of_mem _ hs, hle, hdist⟩

theorem covers_doubling {tip height step room : ℕ} (htip : tip < 2 ^ 32)
    (hdist : height + 9 + step = tip) (hroom : 2 ^ 33 ≤ step * 2 ^ room) :
    Covers tip height (locatorHeights room height step 10) := by
  induction room generalizing height step with
  | zero => omega
  | succ room ih =>
    have hroom' : 2 ^ 33 ≤ step * 2 * 2 ^ room := by rwa [mul_assoc, ← pow_succ']
    have hmore : room ≠ 0 := by
      rintro rfl
      omega
    unfold locatorHeights
    by_cases hzero : height = 0
    · rw [if_pos (.inr hzero), hzero]
      exact covers_genesis tip
    · rw [if_neg (not_or.mpr ⟨hmore, hzero⟩), if_neg (lt_irrefl 10)]
      have hpos : 0 < step := by
        rcases Nat.eq_zero_or_pos step with rfl | hpos
        · omega
        · exact hpos
      rcases Nat.lt_or_ge step height with hlow | hlow
      · have hcap : min (step * 2) (2 ^ 32 - 1) = step * 2 := min_eq_left (by omega)
        rw [hcap]
        exact (ih (by omega) hroom').cons (by omega) fun f _ _ => by omega
      · -- the step reaches genesis
        have hnext : Covers tip 0 (locatorHeights room 0 (min (step * 2) (2 ^ 32 - 1)) 10) := by
          obtain ⟨room, rfl⟩ := Nat.exists_eq_succ_of_ne_zero hmore
          unfold locatorHeights
          rw [if_pos (.inr rfl)]
          exact covers_genesis tip
        rw [Nat.sub_eq_zero_of_le hlow]
        exact hnext.cons (by omega) fun f _ _ => by omega

theorem covers_unit {tip height consecutive : ℕ} (htip : tip < 2 ^ 32) (hle : consecutive ≤ 10)
    (hdist : height + consecutive = tip) :
    Covers tip height (locatorHeights (maxLocatorHashes - consecutive) height 1 consecutive) := by
  induction hn : 10 - consecutive generalizing height consecutive with
  | zero =>
    obtain rfl : consecutive = 10 := by omega
    exact covers_doubling htip (by omega) (by decide)
  | succ n ih =>
    have hroom : maxLocatorHashes - consecutive = maxLocatorHashes - (consecutive + 1) + 1 := by
      unfold maxLocatorHashes
      omega
    rw [hroom]
    unfold locatorHeights
    by_cases hzero : height = 0
    · rw [if_pos (.inr hzero), hzero]
      exact covers_genesis tip
    · have hmore : maxLocatorHashes - (consecutive + 1) ≠ 0 := by
        unfold maxLocatorHashes
        omega
      rw [if_neg (not_or.mpr ⟨hmore, hzero⟩), if_pos (by omega)]
      exact (ih (by omega) (by omega) (by omega)).cons (by omega) fun f _ _ => by omega

theorem buildLocator_spec (hs : HeaderStore) (hne : hs.activeChain ≠ [])
    (hlen : hs.activeChain.length ≤ 2 ^ 32) :
    ∃ locator heights, buildLocator hs = some locator ∧
      locator.map some = heights.map (hs.activeChain[·]?) ∧
      locator.length ≤ maxLocatorHashes ∧ Covers hs.height hs.height heights := by
  have hpos : 0 < hs.activeChain.length := List.length_pos_iff.mpr hne
  have htip : hs.height < hs.activeChain.length := Nat.sub_lt hpos Nat.one_pos
  have hheight : hs.height < 2 ^ 32 := by omega
  obtain ⟨locator, hloop, hmap⟩ :
      ∃ locator, locatorLoop hs.activeChain maxLocatorHashes hs.height 1 0 = some locator ∧ _ :=
    locatorLoop_eq 1 0 htip
  have hcovers : Covers hs.height hs.height (locatorHeights maxLocatorHashes hs.height 1 0) :=
    covers_unit hheight (Nat.zero_le 10) rfl
  have hcount : locator.length ≤ maxLocatorHashes := by
    have hlength := congrArg List.length hmap
    rw [List.length_map, List.length_map] at hlength
    exact hlength.trans_le (locatorHeights_length_le _ _ _ _)
  -- the loop has ended at genesis, which is then not added again
  obtain ⟨genesis, hgenesis⟩ : ∃ genesis, hs.activeChain[0]? = some genesis :=
    ⟨_, List.getElem?_eq_getElem hpos⟩
  have hlast : locator.getLast? = some genesis := by
    have hmapLast := congrArg List.getLast? hmap
    rw [List.getLast?_map, List.getLast?_map, hcovers.last, Option.map_some, hgenesis] at hmapLast
    exact Option.map_injective (Option.some_injective _) hmapLast
  refine ⟨locator, _, ?_, hmap, hcount, hcovers⟩
  unfold buildLocator
  rw [hloop, hgenesis]
  simp [hlast]

theorem startHeight_of_shared {P : Primitives} {genesis : BlockHeader} {peer : HeaderStore}
    {chain locator : List Hash256} {heights : List ℕ} {f : ℕ} (htree : Tree P genesis peer)
    (hmap : locator.map some = heights.map (chain[·]?)) (hdesc : heights.Pairwise (· > ·))
    (hshared : ∀ h ≤ f, peer.activeChain[h]? = chain[h]?)
    (hnew : ∀ h hash, f < h → chain[h]? = some hash → peer.get hash = none) {s : ℕ}
    (hs : s ∈ heights) (hle : s ≤ f) : ∃ s' ≤ f, s ≤ s' ∧ startHeight peer locator = s' := by
  induction heights generalizing locator with
  | nil => cases hs
  | cons height heights ih =>
    obtain ⟨hash, rest, rfl⟩ : ∃ hash rest, locator = hash :: rest := by
      cases locator with
      | nil => cases hmap
      | cons hash rest => exact ⟨hash, rest, rfl⟩
    rw [List.map_cons, List.map_cons, List.cons.injEq] at hmap
    rw [startHeight_eq htree]
    rcases Nat.lt_or_ge f height with habove | hbelow
    · have hunknown := hnew height hash habove hmap.1.symm
      have hmem : s ∈ heights := (List.mem_cons.mp hs).resolve_left (by omega)
      have hskip : firstKnown peer (hash :: rest) = firstKnown peer rest := by
        simp [firstKnown, hunknown]
      rw [hskip, ← startHeight_eq htree]
      exact ih hmap.2 (List.Pairwise.of_cons hdesc) hmem
    · have hactive : peer.activeChain[height]? = some hash := (hshared height hbelow).trans hmap.1.symm
      obtain ⟨stored, hlookup, hheight⟩ := htree.path.lookup htree.rooted.root hactive
      have hget : peer.get hash = some stored := hlookup
      have hfirst : firstKnown peer (hash :: rest) = some (hash, stored) := by
        simp [firstKnown, hget]
      refine ⟨height, hbelow, ?_, by rw [hfirst, ← hheight]; rfl⟩
      rcases List.mem_cons.mp hs with rfl | hmem
      · exact le_rfl
      · exact (List.rel_of_pairwise_cons hdesc hmem).le

/-- The locator holds the hashes at heights that go down from the tip to
genesis. For every height `f` one of them is at or below `f` and at most twice as
far from the tip, so a peer that shares the chain up to `f` starts its answer at
most as far below `f` as the tip is above. -/
theorem buildLocator_complete (hs : HeaderStore) (hne : hs.activeChain ≠ [])
    (hlen : hs.activeChain.length ≤ 2 ^ 32) :
    ∃ locator heights, buildLocator hs = some locator ∧
      locator.map some = heights.map (hs.activeChain[·]?) ∧
      locator.length ≤ maxLocatorHashes ∧ Covers hs.height hs.height heights ∧
      ∀ (P : Primitives) (genesis : BlockHeader) (peer : HeaderStore) (f : ℕ),
        Tree P genesis peer → f ≤ hs.height →
        (∀ h ≤ f, peer.activeChain[h]? = hs.activeChain[h]?) →
        (∀ h hash, f < h → hs.activeChain[h]? = some hash → peer.get hash = none) →
        startHeight peer locator ≤ f ∧ f - startHeight peer locator ≤ hs.height - f := by
  obtain ⟨locator, heights, hbuild, hmap, hcount, hcovers⟩ := buildLocator_spec hs hne hlen
  refine ⟨locator, heights, hbuild, hmap, hcount, hcovers, fun P genesis peer f htree hf hshared
    hnew => ?_⟩
  obtain ⟨s, hs', hle, hdist⟩ := hcovers.near f hf
  obtain ⟨start, hstart, hge, heq⟩ :=
    startHeight_of_shared htree hmap hcovers.descending hshared hnew hs' hle
  rw [heq]
  exact ⟨hstart, by omega⟩

/-- Primitives under which a header's hash is one more than its nonce. -/
def serialPrimitives : Primitives :=
  { poly with doubleSha256 := fun bytes => BitVec.ofNat 256 (ofLeBytes (bytes.drop 76) + 1) }

def serialHeader (i : ℕ) : BlockHeader :=
  ⟨1, BitVec.ofNat 256 i, 0, 0, 0x1e0ffff0, UInt32.ofNat i⟩

def serialStore (n : ℕ) : HeaderStore :=
  run (HeaderOp.apply serialPrimitives)
    (HeaderStore.makeFresh serialPrimitives (serialHeader 0) ConsensusParams.testing none)
    [.addHeaders ((List.range' 1 n).map serialHeader)]

/-- Sixteen headers are past the ten single steps. The peer has the first three
of them. -/
theorem buildLocator_complete_serial : (serialStore 16).height = 16 ∧
    ∃ locator heights, buildLocator (serialStore 16) = some locator ∧
      locator.map some = heights.map ((serialStore 16).activeChain[·]?) ∧ Covers 16 16 heights ∧
      startHeight (serialStore 3) locator ≤ 3 ∧ 3 - startHeight (serialStore 3) locator ≤ 13 := by
  have hchain : (serialStore 16).activeChain = (List.range' 1 17).map (BitVec.ofNat 256) := by
    decide +kernel
  have hchain' : (serialStore 3).activeChain = (List.range' 1 4).map (BitVec.ofNat 256) := by
    decide +kernel
  have hheight : (serialStore 16).height = 16 := by simp [HeaderStore.height, hchain]
  obtain ⟨locator, heights, hbuild, hmap, _, hcovers, hpeer⟩ :=
    buildLocator_complete (serialStore 16) (by simp [hchain]) (by simp [hchain])
  rw [hheight] at hcovers hpeer
  have htree : Tree serialPrimitives (serialHeader 0) (serialStore 3) :=
    tree_run (tree_makeFresh serialPrimitives (serialHeader 0) ConsensusParams.testing none)
      (by decide +kernel) ⟨trivial, trivial⟩
  have hshared : ∀ h ≤ 3, (serialStore 3).activeChain[h]? = (serialStore 16).activeChain[h]? := by
    rw [hchain, hchain']
    decide
  have habsent : ∀ i ∈ List.range' 5 13, ((serialStore 3).get (BitVec.ofNat 256 i)).isNone := by
    decide +kernel
  have hnew : ∀ h hash, 3 < h → (serialStore 16).activeChain[h]? = some hash →
      (serialStore 3).get hash = none := by
    intro h hash hlow hat
    rw [hchain, List.getElem?_map, Option.map_eq_some_iff] at hat
    obtain ⟨i, hi, rfl⟩ := hat
    have hlt : h < 17 := by simpa using (List.getElem?_eq_some_iff.mp hi).1
    rw [List.getElem?_range' hlt, Option.some_inj] at hi
    exact Option.isNone_iff_eq_none.mp (habsent i (List.mem_range'_1.mpr (by omega)))
  obtain ⟨hstart, hextra⟩ := hpeer serialPrimitives (serialHeader 0) (serialStore 3) 3 htree
    (by decide) hshared hnew
  exact ⟨hheight, locator, heights, hbuild, hmap, hcovers, hstart, hextra⟩

end Ironcat.Locator
