import Ironcat.ForkLookup

/-!
# Answering a locator

`getheaders` and `getblocks` look for the first locator hash that the header
tree knows and answer with the active chain above the height of that header.
-/

namespace Ironcat.LocatorReply

open Types Difficulty Headers HeaderTree HeaderRuns ForkLookup

variable {P : Primitives} {genesis : BlockHeader} {hs : HeaderStore}
variable {locator : List Hash256} {stop hash : Hash256} {s : StoredHeader}

def maxHeadersPerMsg : ℕ := 2000

def maxBlocksPerGetblocks : ℕ := 500

/-- The locator loop of both handlers. -/
def startHeight (hs : HeaderStore) : List Hash256 → ℕ
  | [] => 0
  | hash :: rest =>
    if hash = hs.genesis then 0
    else
      match hs.get hash with
      | some stored => stored.height
      | none => startHeight hs rest

def collect {α : Type} (entry : ℕ → Option (Hash256 × α)) (stop : Hash256) :
    ℕ → ℕ → ℕ → List α
  | 0, _, _ => []
  | _+1, 0, _ => []
  | left+1, room+1, h =>
    match entry h with
    | some (hash, item) =>
      if stop ≠ 0 ∧ hash = stop then [item] else item :: collect entry stop left room (h + 1)
    | none => collect entry stop left (room + 1) (h + 1)

def collectAfter {α : Type} (hs : HeaderStore) (entry : ℕ → Option (Hash256 × α)) (start maxCount : ℕ)
    (stop : Hash256) : List α :=
  if hs.height ≤ start then [] else collect entry stop (hs.height - start) maxCount (start + 1)

section

variable (hs : HeaderStore) (h : ℕ)

def headerEntry : Option (Hash256 × BlockHeader) := do
  let hash ← hs.activeChain[h]?
  let stored ← hs.get hash
  return (hash, stored.header)

def hashEntry : Option (Hash256 × Hash256) :=
  (hs.hashAtHeight h).map fun hash => (hash, hash)

def getHeadersAfter (start maxCount : ℕ) (stop : Hash256) : List BlockHeader :=
  collectAfter hs (headerEntry hs) start maxCount stop

def handleGetheaders (locator : List Hash256) (stop : Hash256) : List BlockHeader :=
  getHeadersAfter hs (startHeight hs locator) maxHeadersPerMsg stop

def handleGetblocks (locator : List Hash256) (stop : Hash256) : List Hash256 :=
  collectAfter hs (hashEntry hs) (startHeight hs locator) maxBlocksPerGetblocks stop

end

section Collect

variable {α : Type} {entry : ℕ → Option (Hash256 × α)} {key : α → Hash256}
variable {left room h : ℕ}

/-- `entry` has an item for every height up to the tip, under the hash that the
active chain has there. -/
def CompleteReply (hs : HeaderStore) (entry : ℕ → Option (Hash256 × α)) (key : α → Hash256) : Prop :=
  ∀ h hash, hs.activeChain[h]? = some hash → ∃ item, entry h = some (hash, item) ∧ key item = hash

theorem collect_head (hentry : ∃ hash item, entry h = some (hash, item)) (hleft : 0 < left)
    (hroom : 0 < room) : ∃ hash item, entry h = some (hash, item) ∧
      (collect entry stop left room h).head? = some item := by
  obtain ⟨hash, item, hitem⟩ := hentry
  obtain ⟨left, rfl⟩ := Nat.exists_eq_succ_of_ne_zero hleft.ne'
  obtain ⟨room, rfl⟩ := Nat.exists_eq_succ_of_ne_zero hroom.ne'
  refine ⟨hash, item, hitem, ?_⟩
  simp only [collect, hitem]
  split_ifs <;> rfl

theorem collect_run (hcomplete : CompleteReply hs entry key) (hleft : h + left ≤ hs.activeChain.length) :
    ∃ n, (collect entry stop left room h).map key = (hs.activeChain.drop h).take n := by
  induction left generalizing room h with
  | zero => exact ⟨0, by simp [collect]⟩
  | succ left ih =>
    cases room with
    | zero => exact ⟨0, by simp [collect]⟩
    | succ room =>
      have hlt : h < hs.activeChain.length := by omega
      obtain ⟨item, hitem, hkey⟩ := hcomplete h _ (List.getElem?_eq_getElem hlt)
      rw [List.drop_eq_getElem_cons hlt]
      simp only [collect, hitem]
      split_ifs with hstop
      · exact ⟨1, by simp only [List.map_cons, List.map_nil, hkey, List.take_succ_cons, List.take_zero]⟩
      · obtain ⟨n, hn⟩ := @ih room (h + 1) (by omega)
        exact ⟨n + 1, by rw [List.map_cons, hn, hkey, List.take_succ_cons]⟩

end Collect

theorem headerEntry_complete (htree : Tree P genesis hs) :
    CompleteReply hs (headerEntry hs) (BlockHeader.blockHash P) := by
  intro h hash hhash
  obtain ⟨s, hs', _⟩ := htree.path.lookup htree.rooted.root hhash
  have hget : hs.get hash = some s := hs'
  exact ⟨s.header, by simp [headerEntry, hhash, hget], htree.rooted.keyed _ _ hs'⟩

theorem hashEntry_complete (hs : HeaderStore) : CompleteReply hs (hashEntry hs) id := by
  intro h hash hhash
  exact ⟨hash, by simp [hashEntry, HeaderStore.hashAtHeight, hhash], rfl⟩

section

variable (hs : HeaderStore) (locator : List Hash256)

def firstKnown : Option (Hash256 × StoredHeader) :=
  locator.findSome? fun hash => (hs.get hash).map fun stored => (hash, stored)

/-- The first known locator hash is on the active chain, or at or above its tip,
or the active header of the same height is a locator hash as well. -/
def KnownOnChain : Prop :=
  ∀ hash s, firstKnown hs locator = some (hash, s) →
    hash ∈ hs.activeSet ∨ hs.height ≤ s.height ∨ ∃ b ∈ locator, hs.hashAtHeight s.height = some b

def Attaches (header : BlockHeader) : Prop :=
  header.prevHash = hs.genesis ∨ header.prevHash ∈ locator

def Contiguous (hashes : List Hash256) : Prop :=
  ∃ i n, hashes = (hs.activeChain.drop i).take n

def HeadersAttach (P : Primitives) (hs : HeaderStore) (locator : List Hash256)
    (reply : List BlockHeader) : Prop :=
  Contiguous hs (reply.map (BlockHeader.blockHash P)) ∧
    ∀ first, reply.head? = some first → Attaches hs locator first

def BlocksAttach (reply : List Hash256) : Prop :=
  Contiguous hs reply ∧
    ∀ first, reply.head? = some first → ∃ s, hs.get first = some s ∧ Attaches hs locator s.header

def KnownAt (start : ℕ) : Prop :=
  ∃ b, hs.activeChain[start]? = some b ∧ (b = hs.genesis ∨ b ∈ locator)

end

section Replies

variable {α : Type} {entry : ℕ → Option (Hash256 × α)} {key : α → Hash256} {start maxCount : ℕ}

theorem collectAfter_contiguous (hcomplete : CompleteReply hs entry key) :
    Contiguous hs ((collectAfter hs entry start maxCount stop).map key) := by
  unfold collectAfter HeaderStore.height
  split_ifs with hle
  · exact ⟨0, 0, rfl⟩
  · have hlen : start + 1 + (hs.activeChain.length - 1 - start) ≤ hs.activeChain.length := by omega
    obtain ⟨n, hn⟩ := collect_run hcomplete hlen
    exact ⟨_, n, hn⟩

theorem collectAfter_head (hcomplete : CompleteReply hs entry key) (hmax : 0 < maxCount) {item : α} :
    (collectAfter hs entry start maxCount stop).head? = some item ↔
      start < hs.height ∧ ∃ hash, hs.activeChain[start + 1]? = some hash ∧
        entry (start + 1) = some (hash, item) := by
  unfold collectAfter
  split_ifs with hle
  · simp only [List.head?_nil, reduceCtorEq, false_iff]
    omega
  · have hlt : start + 1 < hs.activeChain.length := by
      unfold HeaderStore.height at hle
      omega
    have hhash := List.getElem?_eq_getElem hlt
    obtain ⟨item', hitem', _⟩ := hcomplete _ _ hhash
    obtain ⟨hash, item'', hentry, hhead⟩ : ∃ hash item, entry (start + 1) = some (hash, item) ∧
        (collect entry stop (hs.height - start) maxCount (start + 1)).head? = some item :=
      collect_head ⟨_, _, hitem'⟩ (by omega) hmax
    grind

theorem collectAfter_first_iff (hcomplete : CompleteReply hs entry key) (hmax : 0 < maxCount)
    (good : α → Prop) (hgood : ∀ h hash item, hs.activeChain[h + 1]? = some hash →
      entry (h + 1) = some (hash, item) → (good item ↔ KnownAt hs locator h)) :
    (∀ first, (collectAfter hs entry start maxCount stop).head? = some first → good first) ↔
      (start < hs.height → KnownAt hs locator start) := by
  simp only [collectAfter_head hcomplete hmax]
  constructor
  · intro h hlt
    have hlen : start + 1 < hs.activeChain.length := by
      unfold HeaderStore.height at hlt
      omega
    have hhash := List.getElem?_eq_getElem hlen
    obtain ⟨item, hitem, _⟩ := hcomplete _ _ hhash
    exact (hgood _ _ _ hhash hitem).mp (h item ⟨hlt, _, hhash, hitem⟩)
  · rintro h item ⟨hlt, hash, hhash, hitem⟩
    exact (hgood _ _ _ hhash hitem).mpr (h hlt)

end Replies

theorem genesis_eq (htree : Tree P genesis hs) : hs.genesis = genesis.blockHash P := by
  rw [HeaderStore.genesis, List.headD_eq_head?_getD, List.head?_eq_getElem?, htree.path.first]
  rfl

theorem startHeight_eq (htree : Tree P genesis hs) (locator : List Hash256) :
    startHeight hs locator = ((firstKnown hs locator).map fun e => e.2.height).getD 0 := by
  induction locator with
  | nil => rfl
  | cons hash rest ih =>
    simp only [startHeight, firstKnown, List.findSome?_cons] at ih ⊢
    by_cases hgen : hash = hs.genesis
    · have hroot : hs.get hs.genesis = some ⟨genesis, 0, workFromBits genesis.bits⟩ :=
        genesis_eq htree ▸ htree.rooted.root
      simp [hgen, hroot]
    · cases hget : hs.get hash with
      | none => simpa [hgen] using ih
      | some s => simp [hgen]

theorem knownAt_startHeight_iff (htree : Tree P genesis hs) :
    (startHeight hs locator < hs.height → KnownAt hs locator (startHeight hs locator)) ↔
      KnownOnChain hs locator := by
  rw [startHeight_eq htree]
  cases hfirst : firstKnown hs locator with
  | none =>
    refine iff_of_true (fun _ => ⟨_, htree.path.first, .inl (genesis_eq htree).symm⟩) ?_
    simp [KnownOnChain, hfirst]
  | some e =>
    obtain ⟨hash, s⟩ := e
    obtain ⟨hmem, hget⟩ : hash ∈ locator ∧ hs.get hash = some s := by
      obtain ⟨x, hx, hsome⟩ := List.exists_of_findSome?_eq_some hfirst
      simp only [Option.map_eq_some_iff, Prod.mk.injEq] at hsome
      obtain ⟨_, hx', rfl, rfl⟩ := hsome
      exact ⟨hx, hx'⟩
    simp only [KnownOnChain, hfirst, Option.some.injEq, Prod.mk.injEq, Option.map_some,
      Option.getD_some]
    constructor
    · rintro h _ _ ⟨rfl, rfl⟩
      by_cases hlt : s.height < hs.height
      · obtain ⟨b, hb, rfl | hloc⟩ := h hlt
        · -- the active header there is genesis, so is the known one
          obtain ⟨s', hs', hheight⟩ := htree.path.lookup htree.rooted.root hb
          have hzero := (htree.rooted.height_eq_zero_iff hs').mpr (genesis_eq htree)
          obtain rfl := (htree.rooted.height_eq_zero_iff hget).mp (hheight ▸ hzero)
          rw [htree.active, List.mem_toFinset]
          exact .inl (List.mem_of_getElem? htree.path.first)
        · exact .inr (.inr ⟨b, hloc, hb⟩)
      · exact .inr (.inl (by omega))
    · intro h hlt
      obtain hact | hle | ⟨b, hb, hat⟩ := h hash s ⟨rfl, rfl⟩
      · exact ⟨hash, htree.activeChain_of_mem hact hget, .inr hmem⟩
      · omega
      · exact ⟨b, hat, .inr hb⟩

/-- Both answers are stretches of the active chain that attach to what the
requester has, exactly if the first known locator hash leads onto the active
chain. -/
theorem replies_attach_iff (htree : Tree P genesis hs) (locator : List Hash256) (stop : Hash256) :
    (HeadersAttach P hs locator (handleGetheaders hs locator stop) ↔ KnownOnChain hs locator) ∧
    (BlocksAttach hs locator (handleGetblocks hs locator stop) ↔ KnownOnChain hs locator) := by
  rw [← knownAt_startHeight_iff htree]
  have hprev : ∀ h hash, hs.activeChain[h + 1]? = some hash → ∃ s, hs.get hash = some s ∧
      (Attaches hs locator s.header ↔ KnownAt hs locator h) := by
    intro h hash hhash
    obtain ⟨s, hs', hlink, _⟩ := htree.path.linked h hash hhash
    exact ⟨s, hs', by simp [KnownAt, hlink, Attaches]⟩
  constructor
  · refine (and_iff_right (collectAfter_contiguous (headerEntry_complete htree))).trans ?_
    refine collectAfter_first_iff (headerEntry_complete htree) (by decide) _ ?_
    intro h hash header hhash hitem
    obtain ⟨s, hget, hiff⟩ := hprev h hash hhash
    obtain rfl : s.header = header := by simpa [headerEntry, hhash, hget] using hitem
    exact hiff
  · have hcont : Contiguous hs ((handleGetblocks hs locator stop).map id) :=
      collectAfter_contiguous (hashEntry_complete hs)
    rw [List.map_id] at hcont
    refine (and_iff_right hcont).trans ?_
    refine collectAfter_first_iff (hashEntry_complete hs) (by decide) _ ?_
    intro h hash item hhash hitem
    obtain ⟨s, hget, hiff⟩ := hprev h hash hhash
    obtain rfl : hash = item := by simpa [hashEntry, HeaderStore.hashAtHeight, hhash] using hitem
    simpa [hget] using hiff

theorem replies_attach_to_shared_header :
    HeadersAttach poly (arrivals [headerA1, headerB1, headerA2]) [headerA1.blockHash poly]
      (handleGetheaders (arrivals [headerA1, headerB1, headerA2]) [headerA1.blockHash poly] 0) := by
  refine (replies_attach_iff (tree_arrivals _ (by decide +kernel)) _ _).1.mpr ?_
  intro hash s hfirst
  have hknown : firstKnown (arrivals [headerA1, headerB1, headerA2])
      [headerA1.blockHash poly] = some (headerA1.blockHash poly,
        ⟨headerA1, 1, workFromBits 0x1e0ffff0 + workFromBits 0x1e0ffff0⟩) := by decide +kernel
  obtain ⟨rfl, _⟩ := Prod.mk.inj (Option.mem_unique hfirst hknown)
  exact .inl (by decide +kernel)

/-- The requester is on the fork `B1` and is sent `A2`, whose parent `A1` it
does not have. -/
theorem reply_skips_fork_point :
    ¬ HeadersAttach poly (arrivals [headerA1, headerB1, headerA2])
      [headerB1.blockHash poly, easyGenesis.blockHash poly]
      (handleGetheaders (arrivals [headerA1, headerB1, headerA2])
        [headerB1.blockHash poly, easyGenesis.blockHash poly] 0) := by
  intro h
  have hfirst := h.2 headerA2 (by decide +kernel)
  revert hfirst
  unfold Attaches
  decide +kernel

end Ironcat.LocatorReply
