import Ironcat.ForkLookup

/-!
# Branches of headers

A branch is a list of headers above genesis, newest first, in its own terms: no
store and no active chain. What a header tree holds is compared with branches;
the lookups of the difficulty rules read off them.
-/

namespace Ironcat.HeaderBranches

open Lib.Checked Lib.Forest Types Difficulty Headers HeaderTree ForkLookup

section

variable (P : Primitives) (genesis : BlockHeader) (branch : List BlockHeader)

def tipHash : Hash256 :=
  (branch.headD genesis).blockHash P

def branchWork (genesis : BlockHeader) : List BlockHeader → ℕ
  | [] => workFromBits genesis.bits
  | header :: below => branchWork genesis below + workFromBits header.bits

/-- What a store keeps of the newest header of a branch. -/
def storedTip : StoredHeader :=
  ⟨branch.headD genesis, branch.length, branchWork genesis branch⟩

def headerOf (height : ℕ) : BlockHeader :=
  (branch.drop (branch.length - height)).headD genesis

def branchLookup : ChainLookup := fun height =>
  let header := headerOf genesis branch height
  if height ≤ branch.length then some (header.timestamp, header.bits) else none

end

/-- The checks of `accept_header` on a header above a branch. -/
structure ValidOn (P : Primitives) (params : ConsensusParams) (genesis : BlockHeader)
    (below : List BlockHeader) (header : BlockHeader) : Prop where
  prev : header.prevHash = tipHash P genesis below
  height : below.length + 1 < 2 ^ 32
  work : branchWork genesis below + workFromBits header.bits < 2 ^ 256
  bits : getNextWorkRequired P params (below.length + 1) (branchLookup genesis below) =
    .ok header.bits
  pow : params.lastCheckpointHeight < below.length + 1 → checkProofOfWork P header

variable {P : Primitives} {params : ConsensusParams} {genesis header : BlockHeader}
variable {hs : HeaderStore} {branch branch' below : List BlockHeader} {hash : Hash256}
variable {s p : StoredHeader}

@[simp] theorem tipHash_nil : tipHash P genesis [] = genesis.blockHash P := rfl

@[simp] theorem tipHash_cons : tipHash P genesis (header :: below) = header.blockHash P := rfl

@[simp] theorem storedTip_nil :
    storedTip genesis [] = ⟨genesis, 0, workFromBits genesis.bits⟩ := rfl

@[simp] theorem storedTip_cons : storedTip genesis (header :: below) =
    ⟨header, below.length + 1, branchWork genesis below + workFromBits header.bits⟩ := rfl

theorem storedTip_cons_congr (h : storedTip genesis branch = storedTip genesis branch') :
    storedTip genesis (header :: branch) = storedTip genesis (header :: branch') := by
  have hheight : branch.length = branch'.length := congrArg StoredHeader.height h
  have hwork : branchWork genesis branch = branchWork genesis branch' :=
    congrArg StoredHeader.chainwork h
  simp [hheight, hwork]

def HoldsBranch (P : Primitives) (genesis : BlockHeader) (hs : HeaderStore) : List BlockHeader → Prop
  | [] => hs.get (genesis.blockHash P) = some (storedTip genesis [])
  | header :: below => header.prevHash = tipHash P genesis below ∧
      hs.get (header.blockHash P) = some (storedTip genesis (header :: below)) ∧
      HoldsBranch P genesis hs below

theorem HoldsBranch.get (h : HoldsBranch P genesis hs branch) :
    hs.get (tipHash P genesis branch) = some (storedTip genesis branch) := by
  cases branch with
  | nil => exact h
  | cons header below => exact h.2.1

theorem HoldsBranch.drop (h : HoldsBranch P genesis hs branch) (n : ℕ) : HoldsBranch P genesis hs (branch.drop n) := by
  induction branch generalizing n with
  | nil => simpa using h
  | cons header below ih =>
    cases n with
    | zero => exact h
    | succ n => exact ih h.2.2 n

theorem HoldsBranch.parentOf (h : HoldsBranch P genesis hs (header :: below)) :
    parentOf hs (header.blockHash P) = some (tipHash P genesis below) := by
  obtain ⟨hprev, hget, _⟩ := h
  exact parentOf_eq_some.mpr ⟨_, hget, by simp, hprev⟩

theorem HoldsBranch.descends (h : HoldsBranch P genesis hs branch) (n : ℕ) :
    Descends (HeaderTree.parentOf hs) (tipHash P genesis branch)
      (tipHash P genesis (branch.drop n)) := by
  induction branch generalizing n with
  | nil => simpa using Descends.refl _
  | cons header below ih =>
    cases n with
    | zero => exact Descends.refl _
    | succ n => exact Descends.head h.parentOf (ih h.2.2 n)

theorem HoldsBranch.unique (h : HoldsBranch P genesis hs branch) (h' : HoldsBranch P genesis hs branch')
    (htip : tipHash P genesis branch = tipHash P genesis branch') : branch = branch' := by
  induction branch generalizing branch' with
  | nil =>
    have hstored := h.get.symm.trans (htip ▸ h'.get)
    cases branch' with
    | nil => rfl
    | cons header' below' => simp at hstored
  | cons header below ih =>
    have hstored := h.get.symm.trans (htip ▸ h'.get)
    cases branch' with
    | nil => simp at hstored
    | cons header' below' =>
      obtain ⟨rfl, _⟩ : header = header' ∧ _ := by simpa using hstored
      rw [ih h.2.2 h'.2.2 (h.1.symm.trans h'.1)]

theorem HoldsBranch.mono {hs' : HeaderStore} (h : HoldsBranch P genesis hs branch)
    (hsub : ∀ k s, hs.get k = some s → hs'.get k = some s) : HoldsBranch P genesis hs' branch := by
  induction branch with
  | nil => exact hsub _ _ h
  | cons header below ih => exact ⟨h.1, hsub _ _ h.2.1, ih h.2.2⟩

theorem exists_holds (htree : Tree P genesis hs) (hget : hs.get hash = some s) :
    ∃ branch, HoldsBranch P genesis hs branch ∧ tipHash P genesis branch = hash ∧
      storedTip genesis branch = s := by
  obtain ⟨n, hn⟩ : ∃ n, s.height = n := ⟨_, rfl⟩
  induction n generalizing hash s with
  | zero =>
    obtain rfl := (htree.rooted.height_eq_zero_iff hget).mp hn
    exact ⟨[], htree.rooted.root, rfl, Option.mem_unique htree.rooted.root hget⟩
  | succ n ih =>
    have hne : hash ≠ genesis.blockHash P := fun heq => by
      have := (htree.rooted.height_eq_zero_iff hget).mpr heq
      omega
    obtain ⟨p, hp, hheight, hwork⟩ := htree.rooted.parent hash s hget hne
    obtain ⟨below, hbelow, htip, rfl⟩ := ih hp (by omega)
    have hkey : s.header.blockHash P = hash := htree.rooted.keyed hash s hget
    have hs : storedTip genesis (s.header :: below) = s := by
      obtain ⟨header, height, chainwork⟩ := s
      simp only [storedTip_cons, StoredHeader.mk.injEq, true_and]
      exact ⟨hheight.symm, hwork.symm⟩
    exact ⟨s.header :: below, ⟨htip.symm, by rw [hkey, hs]; exact hget, hbelow⟩, hkey, hs⟩

theorem branchLookup_eq {k : ℕ} (hk : k ≤ branch.length) : branchLookup genesis branch k =
    some (timeAndBits (storedTip genesis (branch.drop (branch.length - k)))) := by
  simp [branchLookup, hk, headerOf, timeAndBits, storedTip]

theorem HoldsBranch.lookup_height (h : HoldsBranch P genesis hs branch) {k : ℕ} (hk : k ≤ branch.length) :
    ∃ a, Descends (HeaderTree.parentOf hs) (tipHash P genesis branch) a ∧
      hs.get a = some (storedTip genesis (branch.drop (branch.length - k))) ∧
      (storedTip genesis (branch.drop (branch.length - k))).height = k := by
  refine ⟨_, h.descends (branch.length - k), (h.drop _).get, ?_⟩
  simp only [storedTip, List.length_drop]
  omega

theorem HoldsBranch.forkLookup (h : HoldsBranch P genesis hs branch) (htree : Tree P genesis hs) {k : ℕ}
    (hk : k ≤ branch.length) :
    hs.forkLookup (tipHash P genesis branch) k = branchLookup genesis branch k := by
  obtain ⟨a, hdesc, hget, hheight⟩ := h.lookup_height hk
  rw [branchLookup_eq hk, ← forkLookup_of_descends htree hdesc hget, hheight]

theorem HoldsBranch.nextWork_forkLookup (h : HoldsBranch P genesis hs branch) (htree : Tree P genesis hs) :
    getNextWorkRequired P params (branch.length + 1) (hs.forkLookup (tipHash P genesis branch)) =
      getNextWorkRequired P params (branch.length + 1) (branchLookup genesis branch) :=
  getNextWorkRequired_congr P fun _ hk => h.forkLookup htree (Nat.lt_succ_iff.mp hk)

theorem getElem?_oldestFirst {k : ℕ} (hk : k ≤ branch.length) :
    (genesis :: branch.reverse)[k]? = some (headerOf genesis branch k) := by
  cases k with
  | zero => simp [headerOf]
  | succ k =>
    rw [List.getElem?_cons_succ, List.getElem?_reverse (by omega), headerOf, List.headD_eq_head?_getD,
      List.head?_drop, show branch.length - (k + 1) = branch.length - 1 - k by omega,
      List.getElem?_eq_getElem (by omega), Option.getD_some]

theorem HoldsBranch.path (h : HoldsBranch P genesis hs branch) {chain : List Hash256}
    (hpath : Path (genesis.blockHash P) hs.byHash chain)
    (hlast : chain[branch.length]? = some (tipHash P genesis branch)) {n : ℕ}
    (hn : n ≤ branch.length) :
    chain[branch.length - n]? = some (tipHash P genesis (branch.drop n)) := by
  induction n with
  | zero => simpa using hlast
  | succ n ih =>
    have habove := ih (by omega)
    have hholds := h.drop n
    rw [List.drop_eq_getElem_cons (by omega : n < branch.length)] at habove hholds
    rw [show branch.length - n = branch.length - (n + 1) + 1 by omega] at habove
    obtain ⟨s, hs, hbelow, _⟩ := hpath.linked _ _ habove
    obtain rfl := Option.mem_unique hholds.get hs
    rw [hbelow]
    exact congrArg some hholds.1

structure Active (P : Primitives) (genesis : BlockHeader) (hs : HeaderStore)
    (branch : List BlockHeader) : Prop where
  holds : HoldsBranch P genesis hs branch
  chain : hs.activeChain = (genesis :: branch.reverse).map (BlockHeader.blockHash P)

theorem exists_active (htree : Tree P genesis hs) : ∃ branch, Active P genesis hs branch := by
  obtain ⟨tip, s, hlast, hget, hheight⟩ := htree.path.getLast htree.rooted.root
  obtain ⟨branch, hholds, rfl, rfl⟩ := exists_holds htree hget
  have hlen : branch.length + 1 = hs.activeChain.length := hheight
  have htip : hs.activeChain[branch.length]? = some (tipHash P genesis branch) := by
    rw [List.getLast?_eq_getElem?] at hlast
    rw [← hlast, ← hlen, Nat.add_sub_cancel]
  refine ⟨branch, hholds, List.ext_getElem? fun k => ?_⟩
  by_cases hk : k ≤ branch.length
  · have hat := hholds.path htree.path htip (Nat.sub_le branch.length k)
    rw [Nat.sub_sub_self hk] at hat
    rw [List.getElem?_map, getElem?_oldestFirst hk, hat]
    rfl
  · rw [List.getElem?_eq_none (by omega), List.getElem?_eq_none (by simp; omega)]

theorem Active.height (h : Active P genesis hs branch) : hs.height = branch.length := by
  simp [HeaderStore.height, h.chain]

theorem Active.tip (h : Active P genesis hs branch) :
    hs.tip = (tipHash P genesis branch, branch.length) := by
  refine Prod.ext ?_ h.height
  cases branch with
  | nil => simp [HeaderStore.tip, h.chain]
  | cons header below => simp [HeaderStore.tip, h.chain, List.getLast?_cons]

theorem Active.headerAt (h : Active P genesis hs branch) {k : ℕ} (hk : k ≤ branch.length) :
    hs.headerAt k = branchLookup genesis branch k := by
  have hat : hs.activeChain[k]? = some (tipHash P genesis (branch.drop (branch.length - k))) := by
    rw [h.chain, List.getElem?_map, getElem?_oldestFirst hk]
    rfl
  have hget := (h.holds.drop (branch.length - k)).get
  rw [branchLookup_eq hk]
  simp [HeaderStore.headerAt, hat, hget, timeAndBits]

theorem checkDifficulty_eq_ok {chain : ChainLookup} {height : ℕ} :
    HeaderStore.checkDifficulty P hs chain header height = .ok () ↔
      getNextWorkRequired P hs.params height chain = .ok header.bits := by
  simp only [HeaderStore.checkDifficulty, bind_eq_ok, mapError_eq_ok, ensure_eq_ok]
  constructor
  · rintro ⟨bits, hbits, rfl⟩
    exact hbits
  · intro h
    exact ⟨_, h, rfl⟩

theorem validOn_of_acceptHeader {r : HeaderStore × HeaderStore.AcceptResult}
    (htree : Tree P genesis hs) (hbelow : HoldsBranch P genesis hs below)
    (hprev : header.prevHash = tipHash P genesis below) (hnew : header.blockHash P ∉ hs.byHash)
    (h : hs.acceptHeader P header = .ok r) : ValidOn P hs.params genesis below header := by
  have hget : hs.get header.prevHash = some (storedTip genesis below) := hprev ▸ hbelow.get
  simp only [HeaderStore.acceptHeader, hnew, if_false, bind_eq_ok, okOr_eq_ok, hget,
    Option.some.injEq] at h
  obtain ⟨_, _, _, rfl, _, hheight, _, hwork, _, hbits, _, hpow, _⟩ := h
  obtain ⟨hbound, rfl⟩ := nextHeight_eq_ok.mp hheight
  obtain ⟨hbound', rfl⟩ := addWork_eq_ok.mp hwork
  rw [checkDifficulty_eq_ok, hprev] at hbits
  exact ⟨hprev, hbound, hbound', (hbelow.nextWork_forkLookup htree).symm.trans hbits,
    ensure_eq_ok.mp hpow⟩

theorem acceptHeader_of_validOn (htree : Tree P genesis hs)
    (hmarked : header.prevHash ∉ hs.invalidTips) (hbelow : HoldsBranch P genesis hs below)
    (hnew : header.blockHash P ∉ hs.byHash) (h : ValidOn P hs.params genesis below header) :
    ∃ r, hs.acceptHeader P header = .ok r := by
  have hget : hs.get header.prevHash = some (storedTip genesis below) := h.prev ▸ hbelow.get
  have hheight : nextHeight (storedTip genesis below).height = .ok (below.length + 1) :=
    nextHeight_eq_ok.mpr ⟨h.height, rfl⟩
  have hbits : HeaderStore.checkDifficulty P hs (hs.forkLookup header.prevHash) header
      (below.length + 1) = .ok () := by
    rw [checkDifficulty_eq_ok, h.prev, hbelow.nextWork_forkLookup htree]
    exact h.bits
  have hpow : HeaderStore.checkPow P hs header (below.length + 1) = .ok () := ensure_eq_ok.mpr h.pow
  have hvalid : (ensure (header.prevHash ∉ hs.invalidTips) .extendsInvalid : Except HeaderError Unit)
      = .ok () := ensure_eq_ok.mpr hmarked
  have hwork : addWork (storedTip genesis below).chainwork header.bits = .ok _ :=
    addWork_eq_ok.mpr ⟨h.work, rfl⟩
  simp only [HeaderStore.acceptHeader, hnew, if_false, hvalid, ok_bind, hget, okOr, hheight, hwork,
    hbits, hpow]
  split_ifs <;> exact ⟨_, rfl⟩

end Ironcat.HeaderBranches
