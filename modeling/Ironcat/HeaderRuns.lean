import Ironcat.HeaderTree

/-!
# Runs of the header store

The calls that change a header store, what each does to the header tree, and
the tree invariant over every run whose purges find only leaves among the fork
tips.
-/

namespace Ironcat.HeaderRuns

open Lib.Checked Lib.FiniteMap Lib.Runs Types Difficulty Headers HeaderTree

variable {P : Primitives} {genesis : BlockHeader} {hs hs' : HeaderStore}

inductive HeaderOp
  | addHeader (header : BlockHeader)
  | addHeaders (headers : List BlockHeader)
  | validateAndCommit (headers : List BlockHeader)
  | acceptHeader (header : BlockHeader)
  | markInvalid (ord : IterOrder) (hash : Hash256)
  | switchActiveChain (ord : IterOrder) (newTip : Hash256)
  | purgeStaleForks (ord : IterOrder) (activeTipHeight : ℕ)

namespace HeaderOp

def headers : HeaderOp → List BlockHeader
  | addHeader header => [header]
  | addHeaders headers => headers
  | validateAndCommit headers => headers
  | acceptHeader header => [header]
  | _ => []

/-- A failing call leaves the store as it was. -/
def apply (P : Primitives) (hs : HeaderStore) : HeaderOp → HeaderStore
  | addHeader header => (hs.addHeader P header).toOption.getD hs
  | addHeaders headers => (hs.addHeaders P headers).toOption.getD hs
  | validateAndCommit headers => ((hs.validateAndCommit P headers).toOption.map Prod.fst).getD hs
  | acceptHeader header => ((hs.acceptHeader P header).toOption.map Prod.fst).getD hs
  | markInvalid ord hash => hs.markInvalid ord hash
  | switchActiveChain ord newTip => (hs.switchActiveChain ord newTip).toOption.getD hs
  | purgeStaleForks ord activeTipHeight => hs.purgeStaleForks ord activeTipHeight

def persists : HeaderOp → Bool
  | validateAndCommit _ => false
  | _ => true

end HeaderOp

inductive Effect (P : Primitives) (hs : HeaderStore) : HeaderOp → HeaderStore → Prop
  | insert {op hs'} (h : Inserts P hs hs' op.headers op.persists) : Effect P hs op hs'
  | mark (ord hash) : Effect P hs (.markInvalid ord hash) (hs.markInvalid ord hash)
  | switch {ord newTip hs'} (h : hs.switchActiveChain ord newTip = .ok hs') :
      Effect P hs (.switchActiveChain ord newTip) hs'
  | purge (ord activeTipHeight) :
      Effect P hs (.purgeStaleForks ord activeTipHeight) (hs.purgeStaleForks ord activeTipHeight)

theorem inserts_getD {o : Option HeaderStore} {headers : List BlockHeader} {persisted : Bool}
    (h : ∀ hs', o = some hs' → Inserts P hs hs' headers persisted) :
    Inserts P hs (o.getD hs) headers persisted := by
  cases o with
  | none => exact Inserts.refl _ _
  | some hs' => exact h hs' rfl

theorem HeaderOp.effect (htrunk : Trunk P genesis hs) (op : HeaderOp)
    (hinj : HashInjOn P {h | h ∈ op.headers}) :
    Effect P hs op (op.apply P hs) := by
  cases op with
  | addHeader header =>
    refine .insert (inserts_getD fun hs' h => ?_)
    exact addHeader_inserts htrunk (toOption_eq_some.mp h)
  | addHeaders headers =>
    refine .insert (inserts_getD fun hs' h => ?_)
    exact addHeaders_inserts htrunk hinj (toOption_eq_some.mp h)
  | validateAndCommit headers =>
    refine .insert (inserts_getD fun hs' h => ?_)
    obtain ⟨r, hr, rfl⟩ := Option.map_eq_some_iff.mp h
    exact validateAndCommit_inserts htrunk hinj (toOption_eq_some.mp hr)
  | acceptHeader header =>
    refine .insert (inserts_getD fun hs' h => ?_)
    obtain ⟨r, hr, rfl⟩ := Option.map_eq_some_iff.mp h
    exact acceptHeader_inserts (toOption_eq_some.mp hr)
  | markInvalid ord hash => exact .mark ord hash
  | switchActiveChain ord newTip =>
    cases h : hs.switchActiveChain ord newTip with
    | error e =>
      apply Effect.insert
      simpa [HeaderOp.apply, h, Except.toOption] using Inserts.refl _ _
    | ok hs' => simpa [HeaderOp.apply, h, Except.toOption] using Effect.switch h
  | purgeStaleForks ord activeTipHeight => exact .purge ord activeTipHeight

theorem tree_markInvalid (h : Tree P genesis hs) (ord : IterOrder) (hash : Hash256) :
    Tree P genesis (hs.markInvalid ord hash) :=
  ⟨h.rooted, h.path, h.active⟩

theorem switchActiveChain_eq_ok {ord : IterOrder} {newTip : Hash256} (htree : Tree P genesis hs)
    (h : hs.switchActiveChain ord newTip = .ok hs') :
    ∃ oldTip chain s, hs.activeChain.getLast? = some oldTip ∧ hs.get newTip = some s ∧
      chain.getLast? = some newTip ∧ Path (genesis.blockHash P) hs.byHash chain ∧
      hs' = HeaderStore.recomputeBestTip ord { hs with
        activeChain := chain
        activeSet := chain.toFinset
        tips := removeTip newTip (insertTip oldTip hs.tips) } := by
  simp only [HeaderStore.switchActiveChain, bind_eq_ok, okOr_eq_ok, pure_eq_ok] at h
  obtain ⟨oldTip, hold, chain, hchain, rfl⟩ := h
  have hget : ∃ s, hs.get newTip = some s := by
    simp only [HeaderStore.fuel, chainDown, bind_eq_ok, okOr_eq_ok] at hchain
    obtain ⟨s, hs, _⟩ := hchain
    exact ⟨s, hs⟩
  obtain ⟨s, hs'⟩ := hget
  have hfuel : s.height < hs.fuel := by simpa [heightOf, hs'] using htree.height_lt_fuel newTip
  obtain ⟨chain', hchain', hhead, _, hpath⟩ := htree.chainDown_path hs' hfuel
  obtain rfl : chain' = chain := Except.ok.inj (hchain'.symm.trans hchain)
  refine ⟨oldTip, chain'.reverse, s, hold, hs', ?_, hpath, ?_⟩
  · rw [List.getLast?_reverse, hhead]
  · rw [List.toFinset_reverse]

theorem tree_switchActiveChain {ord : IterOrder} {newTip : Hash256} (htree : Tree P genesis hs)
    (h : hs.switchActiveChain ord newTip = .ok hs') : Tree P genesis hs' := by
  obtain ⟨_, chain, _, _, _, _, hpath, rfl⟩ := switchActiveChain_eq_ok htree h
  exact ⟨htree.rooted, hpath, rfl⟩

/-- The test `remove_fork` makes before it goes on to a parent. -/
def hasChild (hs : HeaderStore) (hash : Hash256) : Bool :=
  hasValue hs.byHash fun s => s.header.prevHash = hash

theorem hasChild_eq_false {hash : Hash256} :
    hasChild hs hash = false ↔ ∀ k s, hs.get k = some s → s.header.prevHash ≠ hash := by
  rw [← Bool.not_eq_true, hasChild, hasValue_iff]
  simp [HeaderStore.get]

structure Prunable (P : Primitives) (genesis : BlockHeader) (tips : List Hash256)
    (hs : HeaderStore) : Prop where
  tree : Tree P genesis hs
  leaf : ∀ tip ∈ tips, tip ∉ hs.activeSet → hasChild hs tip = false
  subset : ∀ tip ∈ hs.tips, tip ∈ tips

variable {tips : List Hash256}

theorem Prunable.eraseLeaf {hash : Hash256} (h : Prunable P genesis tips hs)
    (hnot : hash ∉ hs.activeSet) (hleaf : hasChild hs hash = false) :
    Prunable P genesis tips { hs with byHash := hs.byHash.erase hash } := by
  rw [hasChild_eq_false] at hleaf
  rw [h.tree.active, List.mem_toFinset] at hnot
  have hne : hash ≠ genesis.blockHash P := by
    rintro rfl
    exact hnot (List.mem_of_getElem? h.tree.path.first)
  refine ⟨⟨h.tree.rooted.erase hne hleaf, h.tree.path.erase hnot, h.tree.active⟩, ?_, h.subset⟩
  intro tip htip hactive
  have hold := hasChild_eq_false.mp (h.leaf tip htip hactive)
  refine hasChild_eq_false.mpr fun k s hk => hold k s ?_
  change (hs.byHash.erase hash).lookup k = some s at hk
  rw [lookup_erase_eq] at hk
  split_ifs at hk
  exact hk

abbrev erased (hs : HeaderStore) (hash : Hash256) : HeaderStore :=
  { hs with byHash := hs.byHash.erase hash }

theorem removeBranch_keeps {I : HeaderStore → Prop} {J : HeaderStore → Hash256 → Prop}
    (herase : ∀ hs current s, I hs → J hs current → current ∉ hs.activeSet →
      hs.get current = some s → I (erased hs current) ∧
        (hasChild (erased hs current) s.header.prevHash = false →
          J (erased hs current) s.header.prevHash))
    {current : Hash256} (fuel : ℕ) (h : I hs) (hcurrent : J hs current) :
    I (hs.removeBranch fuel current) := by
  induction fuel generalizing hs current with
  | zero => exact h
  | succ fuel ih =>
    unfold HeaderStore.removeBranch
    by_cases hactive : current ∈ hs.activeSet
    · simpa [hactive] using h
    · cases hget : hs.get current with
      | none => simpa [hactive] using h
      | some s =>
        obtain ⟨hnext, hparent⟩ := herase hs current s h hcurrent hactive hget
        simp only [hactive, if_false]
        split_ifs with hchild
        · exact hnext
        · exact ih hnext (hparent ((Bool.not_eq_true _).mp hchild))

theorem Prunable.removeBranch {current : Hash256} {fuel : ℕ} (h : Prunable P genesis tips hs)
    (hleaf : current ∉ hs.activeSet → hasChild hs current = false) :
    Prunable P genesis tips (hs.removeBranch fuel current) :=
  removeBranch_keeps (J := fun hs current => current ∉ hs.activeSet → hasChild hs current = false)
    (fun _ _ _ h hleaf hactive _ => ⟨h.eraseLeaf hactive (hleaf hactive), fun hchild _ => hchild⟩)
    fuel h hleaf

variable {l : List Hash256}

theorem mem_byHeight {tip : Hash256} (h : tip ∈ hs.byHeight l) : tip ∈ l := by
  simp only [HeaderStore.byHeight, List.mem_map, List.mem_insertionSort, List.mem_filterMap,
    Option.map_eq_some_iff] at h
  obtain ⟨e, ⟨t, ht, s, _, rfl⟩, rfl⟩ := h
  exact ht

structure KeptByPurge (tips : List Hash256) (I : HeaderStore → Prop) : Prop where
  subset : ∀ hs, I hs → ∀ tip ∈ hs.tips, tip ∈ tips
  drop : ∀ hs tip, I hs → I { hs with tips := removeTip tip hs.tips }
  branch : ∀ hs tip fuel, tip ∈ tips → I hs → I (hs.removeBranch fuel tip)

section Purge

variable {I : HeaderStore → Prop}

theorem KeptByPurge.removeFork {tip : Hash256} (h : KeptByPurge tips I) (hI : I hs)
    (htip : tip ∈ tips) : I (hs.removeFork tip) :=
  h.branch _ tip _ htip (h.drop hs tip hI)

theorem KeptByPurge.removeForks (h : KeptByPurge tips I) (hI : I hs) (hl : ∀ tip ∈ l, tip ∈ tips) :
    I (l.foldl HeaderStore.removeFork hs) := by
  induction l generalizing hs with
  | nil => exact hI
  | cons tip l ih =>
    rw [List.forall_mem_cons] at hl
    exact ih (h.removeFork hI hl.1) hl.2

theorem KeptByPurge.purgeOldest (h : KeptByPurge tips I) (hI : I hs) (hl : ∀ tip ∈ l, tip ∈ tips) :
    I (hs.purgeOldest l) := by
  induction l generalizing hs with
  | nil => exact hI
  | cons tip l ih =>
    rw [List.forall_mem_cons] at hl
    rw [HeaderStore.purgeOldest]
    split_ifs
    · exact hI
    · exact ih (h.removeFork hI hl.1) hl.2

theorem KeptByPurge.purgeStaleForks (h : KeptByPurge tips I) (hI : I hs) (ord : IterOrder)
    (activeTipHeight : ℕ) :
    ∃ hs₁, I hs₁ ∧ hs.purgeStaleForks ord activeTipHeight = hs₁.recomputeBestTip ord := by
  have hstale : I (((ord.list hs.tips).filter (hs.isStale activeTipHeight)).foldl
      HeaderStore.removeFork hs) :=
    h.removeForks hI fun tip htip =>
      h.subset hs hI tip ((ord.perm hs.tips).mem_iff.mp (List.mem_filter.mp htip).1)
  unfold HeaderStore.purgeStaleForks
  set hs₁ := List.foldl HeaderStore.removeFork hs _
  refine ⟨_, ?_, rfl⟩
  split_ifs
  · refine h.purgeOldest hstale fun tip htip => h.subset hs₁ hstale tip ?_
    exact (ord.perm hs₁.tips).mem_iff.mp (mem_byHeight htip)
  · exact hstale

end Purge

theorem keptByPurge_prunable : KeptByPurge tips (Prunable P genesis tips) where
  subset _ h := h.subset
  drop _ _ h := ⟨⟨h.tree.rooted, h.tree.path, h.tree.active⟩, h.leaf,
    fun t ht => h.subset t (mem_removeTip.mp ht).1⟩
  branch _ tip _ htip h := h.removeBranch (h.leaf tip htip)

theorem Prunable.purgeStaleForks (h : Prunable P genesis hs.tips hs) (ord : IterOrder)
    (activeTipHeight : ℕ) : Tree P genesis (hs.purgeStaleForks ord activeTipHeight) := by
  obtain ⟨hs₁, hend, heq⟩ := keptByPurge_prunable.purgeStaleForks h ord activeTipHeight
  rw [heq]
  exact ⟨hend.tree.rooted, hend.tree.path, hend.tree.active⟩

/-- The invariant of the header tree. -/
structure WellFormed (genesis : Hash256) (hs : HeaderStore) : Prop where
  parent : ∀ hash s, hs.get hash = some s → hash ≠ genesis →
    ∃ p, hs.get s.header.prevHash = some p ∧ s.height = p.height + 1 ∧
      s.chainwork = p.chainwork + workFromBits s.header.bits
  first : hs.activeChain[0]? = some genesis
  linked : ∀ i hash, hs.activeChain[i + 1]? = some hash →
    ∃ s, hs.get hash = some s ∧ hs.activeChain[i]? = some s.header.prevHash ∧ s.height = i + 1
  active : hs.activeSet = hs.activeChain.toFinset

theorem wellFormed_of_tree (h : Tree P genesis hs) : WellFormed (genesis.blockHash P) hs :=
  ⟨h.rooted.parent, h.path.first, h.path.linked, h.active⟩

theorem tree_makeFresh (P : Primitives) (genesis : BlockHeader) (params : ConsensusParams)
    (backend : Option Backend) :
    Tree P genesis (HeaderStore.makeFresh P genesis params backend) := by
  have hlookup : ∀ {k s}, (HeaderStore.makeFresh P genesis params backend).byHash.lookup k = some s →
      k = genesis.blockHash P ∧ s = ⟨genesis, 0, workFromBits genesis.bits⟩ := by
    intro k s hk
    simp only [HeaderStore.makeFresh, lookup_insert_eq] at hk
    split_ifs at hk with heq
    · exact ⟨heq, (Option.some.inj hk).symm⟩
    · simp at hk
  refine ⟨⟨Finmap.lookup_insert _, ?_, ?_, ?_⟩, ⟨rfl, ?_⟩, ?_⟩
  · exact fun hash s hk hne => absurd (hlookup hk).1 hne
  · intro hash s hk
    obtain ⟨rfl, rfl⟩ := hlookup hk
    rfl
  · intro hash s hk
    obtain ⟨rfl, rfl⟩ := hlookup hk
    exact ⟨by norm_num, workFromBits_lt _⟩
  · simp [HeaderStore.makeFresh]
  · simp [HeaderStore.makeFresh]

/-- At a purge, no fork tip has a stored child. -/
def LeafPurge (hs : HeaderStore) : HeaderOp → Prop
  | .purgeStaleForks _ _ => ∀ tip ∈ hs.tips, tip ∉ hs.activeSet → hasChild hs tip = false
  | _ => True

instance : ∀ (hs : HeaderStore) (op : HeaderOp), Decidable (LeafPurge hs op)
  | hs, .purgeStaleForks _ _ =>
    List.decidableBAll (fun tip => tip ∉ hs.activeSet → hasChild hs tip = false) hs.tips
  | _, .addHeader _ | _, .addHeaders _ | _, .validateAndCommit _ | _, .acceptHeader _
  | _, .markInvalid _ _ | _, .switchActiveChain _ _ => isTrue trivial

theorem tree_apply {op : HeaderOp} (h : Tree P genesis hs)
    (hinj : HashInjOn P {h | h ∈ op.headers}) (hpurge : LeafPurge hs op) :
    Tree P genesis (op.apply P hs) := by
  have heffect := op.effect h.trunk hinj
  generalize op.apply P hs = hs' at heffect
  cases heffect with
  | insert hins => exact h.inserts hins
  | mark ord hash => exact tree_markInvalid h ord hash
  | switch hswitch => exact tree_switchActiveChain h hswitch
  | purge ord activeTipHeight =>
    exact Prunable.purgeStaleForks ⟨h, hpurge, fun _ => id⟩ ord activeTipHeight

/-- No two headers passed to the calls of the run share a hash. -/
def HeaderHashSound (P : Primitives) (ops : List HeaderOp) : Prop :=
  ∀ a ∈ ops.flatMap HeaderOp.headers, ∀ b ∈ ops.flatMap HeaderOp.headers,
    a.blockHash P = b.blockHash P → a = b

instance (P : Primitives) (ops : List HeaderOp) : Decidable (HeaderHashSound P ops) :=
  inferInstanceAs (Decidable (∀ a ∈ ops.flatMap HeaderOp.headers, _))

theorem HeaderHashSound.injOn {ops : List HeaderOp} (h : HeaderHashSound P ops) {op : HeaderOp}
    (hop : op ∈ ops) : HashInjOn P {h | h ∈ op.headers} :=
  fun a ha b hb =>
    h a (List.mem_flatMap.mpr ⟨op, hop, ha⟩) b (List.mem_flatMap.mpr ⟨op, hop, hb⟩)

theorem tree_run {ops : List HeaderOp} (h : Tree P genesis hs) (hhash : HeaderHashSound P ops)
    (hpurge : Along (HeaderOp.apply P) LeafPurge hs ops) :
    Tree P genesis (run (HeaderOp.apply P) hs ops) := by
  refine run_invariant (Tree P genesis) ?_ h (hpurge.and fun op => hhash.injOn)
  rintro hs op h ⟨hleaf, hinj⟩
  exact tree_apply h hinj hleaf

theorem wellFormed_of_leafPurges (P : Primitives) (genesis : BlockHeader) (params : ConsensusParams)
    (ops : List HeaderOp) (hhash : HeaderHashSound P ops)
    (hpurge : Along (HeaderOp.apply P) LeafPurge (HeaderStore.makeFresh P genesis params none) ops) :
    WellFormed (genesis.blockHash P)
      (run (HeaderOp.apply P) (HeaderStore.makeFresh P genesis params none) ops) :=
  wellFormed_of_tree (tree_run (tree_makeFresh P genesis params none) hhash hpurge)

def easyGenesis : BlockHeader := ⟨1, 0, 0, 0, 0x1e0ffff0, 0⟩

def childOf (parent : BlockHeader) (nonce : UInt32) : BlockHeader :=
  ⟨1, parent.blockHash poly, 0, 0, 0x1e0ffff0, nonce⟩

def headerA1 : BlockHeader := childOf easyGenesis 1

def headerA2 : BlockHeader := childOf headerA1 2

def headerB1 : BlockHeader := childOf easyGenesis 3

def headerB2 : BlockHeader := childOf headerB1 4

def easyStore : HeaderStore :=
  HeaderStore.makeFresh poly easyGenesis ConsensusParams.testing none

theorem wellFormed_after_purge :
    WellFormed (easyGenesis.blockHash poly) (run (HeaderOp.apply poly) easyStore
      [.acceptHeader headerA1, .acceptHeader headerB1, .purgeStaleForks .id 1002]) :=
  wellFormed_of_leafPurges poly easyGenesis ConsensusParams.testing _
    (by decide +kernel) (by decide +kernel)

def orphaningRun : List HeaderOp :=
  [.acceptHeader headerA1, .acceptHeader headerB1, .acceptHeader headerB2, .acceptHeader headerA2,
    .switchActiveChain .id (headerB2.blockHash poly), .purgeStaleForks .id 1002]

/-- The switch puts the old tip `A1` back among the tips although `A2` was
stored above it. The purge deletes `A1` and keeps `A2`. -/
theorem purge_orphans_child :
    ¬ WellFormed (easyGenesis.blockHash poly)
      (run (HeaderOp.apply poly) easyStore orphaningRun) := by
  intro h
  have hchild : ((run (HeaderOp.apply poly) easyStore orphaningRun).get
      (headerA2.blockHash poly)).map StoredHeader.header = some headerA2 := by
    decide +kernel
  have hparent : (run (HeaderOp.apply poly) easyStore orphaningRun).get
      headerA2.prevHash = none := by
    decide +kernel
  obtain ⟨s, hs, hheader⟩ := Option.map_eq_some_iff.mp hchild
  obtain ⟨p, hp, _⟩ := h.parent _ s hs (by decide +kernel)
  rw [hheader, hparent] at hp
  cases hp

end Ironcat.HeaderRuns
