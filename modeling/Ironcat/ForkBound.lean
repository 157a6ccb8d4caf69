import Ironcat.BestTip
import Ironcat.ForkLookup
import Ironcat.HeaderDepth

/-!
# The bound on fork headers

`purge_stale_forks` deletes branches from their tips until at most
`MAX_FORK_HEADERS` headers are off the active chain. It reaches a branch only
through the set of tips. `mark_invalid` takes tips out of that set and leaves
their headers, so branches can stay that no purge deletes.
-/

namespace Ironcat.ForkBound

open Lib.ByteCodec Lib.Checked Lib.FiniteMap Lib.Forest Lib.Runs Types Difficulty Headers HeaderTree
open HeaderRuns HeaderDepth ForkLookup BestTip

variable {P : Primitives} {genesis : BlockHeader} {hs base : HeaderStore} {U : Finset Hash256}
variable {l : List Hash256} {current : Hash256}

/-- The stored headers that are not on the active chain. -/
def offChain (hs : HeaderStore) : Finset Hash256 :=
  hs.byHash.keys.filter fun hash => hash ∉ hs.activeSet

variable {hash : Hash256}

theorem mem_offChain : hash ∈ offChain hs ↔ hash ∈ hs.byHash ∧ hash ∉ hs.activeSet := by
  rw [offChain, Finset.mem_filter, Finmap.mem_keys]

/-- The headers off the active chain that lie below an end of a branch that is
not among the tips. -/
def hidden (hs : HeaderStore) : Finset Hash256 :=
  (offChain hs).filter fun hash => ∃ last ∈ hs.byHash.keys,
    last ∉ hs.tips ∧ hasChild hs last = false ∧ hs.descendsFrom hash hs.fuel last = true

def Unhidden (U : Finset Hash256) (l : List Hash256) (hs : HeaderStore) : Prop :=
  ∀ hash ∈ offChain hs, hash ∉ U → hasChild hs hash = false → hash ∈ l

theorem offChain_erased (h : hash ∈ offChain (erased hs current)) :
    hash ≠ current ∧ hash ∈ offChain hs := by
  rw [mem_offChain, Finmap.mem_erase] at h
  exact ⟨h.1.1, mem_offChain.mpr ⟨h.1.2, h.2⟩⟩

theorem hasChild_of_erased {s : StoredHeader} (hget : hs.get current = some s)
    (hne : hash ≠ s.header.prevHash) (h : hasChild (erased hs current) hash = false) :
    hasChild hs hash = false := by
  rw [hasChild_eq_false] at h ⊢
  intro k v hk
  by_cases hkc : k = current
  · obtain rfl : v = s := Option.some.inj (hk.symm.trans (hkc ▸ hget))
    exact hne.symm
  · exact h k v ((Finmap.lookup_erase_ne hkc).trans hk)

theorem Unhidden.drop (h : Unhidden U (current :: l) hs)
    (hcurrent : current ∈ offChain hs → hasChild hs current ≠ false) : Unhidden U l hs := by
  intro hash hoff hU hleaf
  refine (List.mem_cons.mp (h hash hoff hU hleaf)).resolve_left fun heq => ?_
  subst heq
  exact hcurrent hoff hleaf

theorem Unhidden.erased {s : StoredHeader} (h : Unhidden U (current :: l) hs)
    (hget : hs.get current = some s) :
    Unhidden U (s.header.prevHash :: l) (erased hs current) := by
  intro hash hoff hU hleaf
  obtain ⟨hne, hoff⟩ := offChain_erased hoff
  by_cases hprev : hash = s.header.prevHash
  · exact hprev ▸ List.mem_cons_self
  · have hmem := h hash hoff hU (hasChild_of_erased hget hprev hleaf)
    exact List.mem_cons_of_mem _ ((List.mem_cons.mp hmem).resolve_left hne)

theorem settled_removeBranch {fuel : ℕ} (hfuel : hs.byHash.keys.card < fuel)
    (h : Unhidden U (current :: l) hs) : Unhidden U l (hs.removeBranch fuel current) := by
  induction fuel generalizing hs current with
  | zero => omega
  | succ fuel ih =>
    unfold HeaderStore.removeBranch
    by_cases hactive : current ∈ hs.activeSet
    · rw [if_pos hactive]
      exact h.drop fun hoff => absurd hactive (mem_offChain.mp hoff).2
    · rw [if_neg hactive]
      cases hget : hs.get current with
      | none =>
        exact h.drop fun hoff => absurd (mem_offChain.mp hoff).1 (Finmap.lookup_eq_none.mp hget)
      | some s =>
        have hcard : (HeaderRuns.erased hs current).byHash.keys.card < fuel := by
          have herase := card_keys_erase hget
          change (hs.byHash.erase current).keys.card < fuel
          omega
        dsimp only
        split_ifs with hchild
        · exact (h.erased hget).drop fun _ => Bool.ne_false_iff.mpr hchild
        · exact ih hcard (h.erased hget)

theorem settled_removeFork {tip : Hash256} (h : Unhidden U (tip :: l) hs) :
    Unhidden U l (hs.removeFork tip) :=
  settled_removeBranch (Nat.lt_succ_self _) h

structure Cut (base hs : HeaderStore) : Prop where
  sub : ∀ hash s, hs.get hash = some s → base.get hash = some s
  chain : hs.activeChain = base.activeChain
  active : hs.activeSet = base.activeSet
  stored : ∀ hash ∈ base.activeSet, hash ∈ hs.byHash

theorem Cut.erase (h : Cut base hs) (hoff : current ∉ hs.activeSet) :
    Cut base (erased hs current) where
  sub hash s hget := by
    change (hs.byHash.erase current).lookup hash = some s at hget
    rw [lookup_erase_eq] at hget
    split_ifs at hget
    exact h.sub hash s hget
  chain := h.chain
  active := h.active
  stored hash hmem := by
    refine Finmap.mem_erase.mpr ⟨?_, h.stored hash hmem⟩
    rintro rfl
    exact hoff (h.active ▸ hmem)

theorem Cut.removeFork {tip : Hash256} (h : Cut base hs) : Cut base (hs.removeFork tip) :=
  removeBranch_keeps (J := fun _ _ => True)
    (fun _ _ _ h _ hoff _ => ⟨h.erase hoff, fun _ => trivial⟩) _
    (⟨h.sub, h.chain, h.active, h.stored⟩ : Cut base { hs with tips := removeTip tip hs.tips }) trivial

theorem cut_self_of_tree (h : Tree P genesis base) : Cut base base := by
  refine ⟨fun _ _ => id, rfl, rfl, fun hash hmem => ?_⟩
  rw [h.active, List.mem_toFinset] at hmem
  obtain ⟨i, hi⟩ := List.mem_iff_getElem?.mp hmem
  obtain ⟨s, hs, _⟩ := h.path.lookup h.rooted.root hi
  exact Finmap.mem_of_lookup_eq_some hs

theorem Cut.nonActiveCount_eq (h : Cut base hs) (htree : Tree P genesis base) :
    hs.nonActiveCount = (offChain hs).card := by
  have hsub : hs.activeSet ⊆ hs.byHash.keys := fun hash hmem =>
    Finmap.mem_keys.mpr (h.stored hash (h.active ▸ hmem))
  have hcard : hs.activeSet.card = hs.activeChain.length := by
    rw [h.active, htree.active, h.chain]
    refine List.toFinset_card_of_nodup (List.nodup_iff_getElem?_ne_getElem?.mpr ?_)
    intro i j hij hj heq
    obtain ⟨si, hsi, rfl⟩ :=
      htree.path.lookup htree.rooted.root (heq.trans (List.getElem?_eq_getElem hj))
    obtain ⟨sj, hsj, rfl⟩ := htree.path.lookup htree.rooted.root (List.getElem?_eq_getElem hj)
    rw [Option.mem_unique hsi hsj] at hij
    exact lt_irrefl _ hij
  rw [offChain, Finset.filter_notMem_eq_sdiff, Finset.card_sdiff_of_subset hsub, hcard]
  rfl

theorem Cut.offChain_subset (h : Cut base hs) (htree : Tree P genesis base)
    (hroot : base.get genesis.prevHash = none)
    (hclosed : ∀ hash p, parentOf base hash = some p → hash ∈ U → p ∉ base.activeSet → p ∈ U)
    (hsettled : Unhidden U [] hs) : offChain hs ⊆ U := by
  by_contra hnot
  obtain ⟨hash, hmem, hmax⟩ : ∃ hash ∈ offChain hs \ U, ∀ other ∈ offChain hs \ U,
      heightOf base other ≤ heightOf base hash := by
    refine Finset.exists_max_image _ _ ?_
    obtain ⟨x, hx, hxU⟩ := Finset.not_subset.mp hnot
    exact ⟨x, Finset.mem_sdiff.mpr ⟨hx, hxU⟩⟩
  obtain ⟨hoff, hU⟩ := Finset.mem_sdiff.mp hmem
  have hchild : hasChild hs hash ≠ false := fun hleaf =>
    absurd (hsettled hash hoff hU hleaf) List.not_mem_nil
  obtain ⟨k, s, hk, hprev⟩ : ∃ k s, hs.get k = some s ∧ s.header.prevHash = hash := by
    by_contra hnone
    exact hchild (hasChild_eq_false.mpr fun k s hk hprev => hnone ⟨k, s, hk, hprev⟩)
  obtain ⟨hstored, hinactive⟩ := mem_offChain.mp hoff
  rw [h.active] at hinactive
  have hparent : parentOf base k = some hash := by
    refine parentOf_eq_some.mpr ⟨s, h.sub k s hk, Nat.pos_of_ne_zero fun hzero => ?_, hprev⟩
    -- genesis names no stored header as its parent
    have hkg := (htree.rooted.height_eq_zero_iff (h.sub k s hk)).mp hzero
    have hs : base.get (genesis.blockHash P) = _ := htree.rooted.root
    rw [hkg] at hk
    obtain rfl := Option.some.inj (hs.symm.trans (h.sub _ s hk))
    obtain ⟨v, hv⟩ := Finmap.mem_iff.mp hstored
    rw [← hprev] at hv
    exact absurd (hroot.symm.trans (h.sub _ v hv)) (by simp)
  have hkOff : k ∈ offChain hs \ U := by
    refine Finset.mem_sdiff.mpr ⟨mem_offChain.mpr ⟨Finmap.mem_of_lookup_eq_some hk, ?_⟩, ?_⟩
    · rw [h.active]
      exact fun hmem => hinactive (htree.parentOf_active hmem hparent)
    · exact fun hmem => hU (hclosed k hash hparent hmem hinactive)
  have hheight := htree.ranked k hash hparent
  have hle := hmax k hkOff
  omega

theorem settled_foldl_removeFork {stale : List Hash256} (h : Unhidden U hs.tips hs) :
    Unhidden U (stale.foldl HeaderStore.removeFork hs).tips (stale.foldl HeaderStore.removeFork hs) := by
  induction stale generalizing hs with
  | nil => exact h
  | cons tip stale ih =>
    refine ih ?_
    have htips : (hs.removeFork tip).tips = removeTip tip hs.tips := by
      obtain ⟨byHash, heq⟩ := removeBranch_eq { hs with tips := removeTip tip hs.tips }
        (HeaderStore.fuel { hs with tips := removeTip tip hs.tips }) tip
      rw [HeaderStore.removeFork, heq]
    rw [htips]
    refine settled_removeFork fun hash hoff hU hleaf => ?_
    by_cases heq : hash = tip
    · exact heq ▸ List.mem_cons_self
    · exact List.mem_cons_of_mem _ (mem_removeTip.mpr ⟨h hash hoff hU hleaf, heq⟩)

theorem Cut.foldl_removeFork {stale : List Hash256} (h : Cut base hs) :
    Cut base (stale.foldl HeaderStore.removeFork hs) := by
  induction stale generalizing hs with
  | nil => exact h
  | cons tip stale ih => exact ih h.removeFork

theorem purgeOldest_ends (h : Cut base hs) (hsettled : Unhidden U l hs) :
    Cut base (hs.purgeOldest l) ∧
      ((hs.purgeOldest l).nonActiveCount ≤ maxForkHeaders ∨ Unhidden U [] (hs.purgeOldest l)) := by
  induction l generalizing hs with
  | nil => exact ⟨h, .inr hsettled⟩
  | cons tip l ih =>
    rw [HeaderStore.purgeOldest]
    split_ifs with hcount
    · exact ⟨h, .inl hcount⟩
    · exact ih h.removeFork (settled_removeFork hsettled)

theorem mem_byHeight_of_stored {tip : Hash256} (htip : tip ∈ l) (hstored : tip ∈ hs.byHash) :
    tip ∈ hs.byHeight l := by
  obtain ⟨s, hs'⟩ := Finmap.mem_iff.mp hstored
  have hget : hs.get tip = some s := hs'
  simp only [HeaderStore.byHeight, List.mem_map, List.mem_insertionSort, List.mem_filterMap,
    Option.map_eq_some_iff]
  exact ⟨(tip, s.height), ⟨tip, htip, s, hget, rfl⟩, rfl⟩

theorem offChain_purge_le (htree : Tree P genesis hs) (hroot : hs.get genesis.prevHash = none)
    (hclosed : ∀ hash p, parentOf hs hash = some p → hash ∈ U → p ∉ hs.activeSet → p ∈ U)
    (hsettled : Unhidden U hs.tips hs) (hU : U.card ≤ maxForkHeaders) (ord : IterOrder)
    (activeTipHeight : ℕ) :
    (offChain (hs.purgeStaleForks ord activeTipHeight)).card ≤ maxForkHeaders := by
  unfold HeaderStore.purgeStaleForks
  dsimp only
  generalize (ord.list hs.tips).filter (hs.isStale activeTipHeight) = stale
  have hcut : Cut hs (stale.foldl HeaderStore.removeFork hs) :=
    (cut_self_of_tree htree).foldl_removeFork
  have hleft : Unhidden U (stale.foldl HeaderStore.removeFork hs).tips
      (stale.foldl HeaderStore.removeFork hs) := settled_foldl_removeFork hsettled
  generalize stale.foldl HeaderStore.removeFork hs = hs₁ at hcut hleft
  -- the best tip does not matter to what is stored
  change (offChain (if maxForkHeaders < hs₁.nonActiveCount then
    hs₁.purgeOldest (hs₁.byHeight (ord.list hs₁.tips)) else hs₁)).card ≤ maxForkHeaders
  split_ifs with hcount
  · have hlist : Unhidden U (hs₁.byHeight (ord.list hs₁.tips)) hs₁ := fun hash hoff hnU hleaf =>
      mem_byHeight_of_stored ((ord.perm hs₁.tips).mem_iff.mpr (hleft hash hoff hnU hleaf))
        (mem_offChain.mp hoff).1
    obtain ⟨hend, hlow | hnone⟩ := purgeOldest_ends hcut hlist
    · rwa [← hend.nonActiveCount_eq htree]
    · exact (Finset.card_le_card (hend.offChain_subset htree hroot hclosed hnone)).trans hU
  · rw [← hcut.nonActiveCount_eq htree]
    exact not_lt.mp hcount

theorem mem_hidden (htree : Tree P genesis hs) : hash ∈ hidden hs ↔
    hash ∈ offChain hs ∧ ∃ last ∈ hs.byHash, last ∉ hs.tips ∧ hasChild hs last = false ∧
      Descends (parentOf hs) last hash := by
  rw [hidden, Finset.mem_filter]
  simp only [Finmap.mem_keys, htree.descendsFrom_iff]

theorem offChain_purge_le_of_hidden (htree : Tree P genesis hs)
    (hroot : hs.get genesis.prevHash = none) (hhidden : (hidden hs).card ≤ maxForkHeaders)
    (ord : IterOrder) (activeTipHeight : ℕ) :
    (offChain (hs.purgeStaleForks ord activeTipHeight)).card ≤ maxForkHeaders := by
  refine offChain_purge_le htree hroot ?_ ?_ hhidden ord activeTipHeight
  · intro hash p hp hmem hoff
    obtain ⟨_, last, hlast, htip, hleaf, hdesc⟩ := (mem_hidden htree).mp hmem
    obtain ⟨_, q, _, hq, _⟩ := htree.parentOf_get hp
    refine (mem_hidden htree).mpr ⟨mem_offChain.mpr ⟨Finmap.mem_of_lookup_eq_some hq, hoff⟩, last,
      hlast, htip, hleaf, hdesc.trans (Descends.head hp (Descends.refl p))⟩
  · intro hash hoff hnot hleaf
    by_contra htip
    exact hnot ((mem_hidden htree).mpr
      ⟨hoff, hash, (mem_offChain.mp hoff).1, htip, hleaf, Descends.refl hash⟩)

/-- The calls that store headers, invalidate them or switch the active chain. -/
def NoPurge : HeaderOp → Prop
  | .purgeStaleForks _ _ => False
  | _ => True

instance : DecidablePred NoPurge
  | .purgeStaleForks _ _ => isFalse id
  | .addHeader _ | .addHeaders _ | .validateAndCommit _ | .acceptHeader _ | .markInvalid _ _
  | .switchActiveChain _ _ => isTrue trivial

theorem tree_run_noPurge {ops : List HeaderOp} (h : Tree P genesis hs)
    (hhash : HeaderHashSound P ops) (hops : ∀ op ∈ ops, NoPurge op) :
    Tree P genesis (run (HeaderOp.apply P) hs ops) := by
  refine tree_run h hhash (along_of_forall fun op hop _ => ?_)
  have := hops op hop
  cases op with
  | purgeStaleForks => exact this.elim
  | _ => trivial

/-- A purge after any calls that leave at most `MAX_FORK_HEADERS` headers on
branches whose end is not a tip. -/
theorem purge_bounds_forks (P : Primitives) (genesis : BlockHeader) (params : ConsensusParams)
    (backend : Option Backend) (ops : List HeaderOp) (hops : ∀ op ∈ ops, NoPurge op)
    (hhash : HeaderHashSound P ops)
    (hroot : (run (HeaderOp.apply P) (HeaderStore.makeFresh P genesis params backend) ops).get
      genesis.prevHash = none)
    (hhidden : (hidden (run (HeaderOp.apply P)
      (HeaderStore.makeFresh P genesis params backend) ops)).card ≤ maxForkHeaders)
    (ord : IterOrder) (activeTipHeight : ℕ) :
    (offChain ((run (HeaderOp.apply P) (HeaderStore.makeFresh P genesis params backend)
      ops).purgeStaleForks ord activeTipHeight)).card ≤ maxForkHeaders :=
  offChain_purge_le_of_hidden (tree_run_noPurge (tree_makeFresh P genesis params backend) hhash hops)
    hroot hhidden ord activeTipHeight

/-- The branch `B1` is invalidated and stays below the bound. -/
theorem purge_bounds_small_branch :
    (offChain ((run (HeaderOp.apply poly) easyStore [.acceptHeader headerA1,
      .acceptHeader headerB1, .markInvalid .id (headerB1.blockHash poly)]).purgeStaleForks
        .id 2000)).card ≤ maxForkHeaders := by
  have hcard : (run (HeaderOp.apply poly) easyStore [.acceptHeader headerA1,
      .acceptHeader headerB1, .markInvalid .id (headerB1.blockHash poly)]).byHash.keys.card
        ≤ maxForkHeaders := by decide +kernel
  refine purge_bounds_forks poly easyGenesis ConsensusParams.testing none _ (by decide)
    (by decide +kernel) (by decide +kernel) ?_ .id 2000
  exact ((Finset.card_filter_le _ _).trans (Finset.card_filter_le _ _)).trans hcard

theorem settled_attach {s : StoredHeader} {extend : Bool} (ha : Attachable P hs hash s extend)
    (h : Unhidden ∅ hs.tips hs) :
    Unhidden ∅ (attach hs hash s extend).tips (attach hs hash s extend) := by
  intro x hoff _ hleaf
  rw [hasChild_eq_false] at hleaf
  obtain ⟨hstored, hinactive⟩ := mem_offChain.mp hoff
  by_cases hx : x = hash
  · exact mem_insertTip.mpr (.inl hx)
  have hne : x ≠ s.header.prevHash := fun heq => hleaf hash s (Finmap.lookup_insert _) heq.symm
  have hold : x ∈ hs.byHash := (Finmap.mem_insert.mp hstored).resolve_left hx
  have hset : hs.activeSet ⊆ (attach hs hash s extend).activeSet := by
    cases extend with
    | false => exact Finset.Subset.refl _
    | true => exact Finset.subset_insert _ _
  have htip : x ∈ hs.tips := by
    refine h x (mem_offChain.mpr ⟨hold, fun hmem => hinactive (hset hmem)⟩) (Finset.notMem_empty x)
      (hasChild_eq_false.mpr fun k v hk => hleaf k v ?_)
    have hk' : k ≠ hash := by
      rintro rfl
      exact ha.fresh (Finmap.mem_of_lookup_eq_some hk)
    exact (Finmap.lookup_insert_of_ne _ hk').trans hk
  exact mem_insertTip.mpr (.inr (mem_removeTip.mpr ⟨htip, hne⟩))

theorem eq_last_of_active_leaf {x oldTip : Hash256} (htree : Tree P genesis hs)
    (hactive : x ∈ hs.activeSet) (hleaf : hasChild hs x = false)
    (hlast : hs.activeChain.getLast? = some oldTip) : x = oldTip := by
  rw [htree.active, List.mem_toFinset] at hactive
  obtain ⟨i, hi⟩ := List.mem_iff_getElem?.mp hactive
  have hlt := (List.getElem?_eq_some_iff.mp hi).1
  rw [hasChild_eq_false] at hleaf
  cases hnext : hs.activeChain[i + 1]? with
  | some child =>
    obtain ⟨s, hs', hprev, _⟩ := htree.path.linked i child hnext
    exact absurd (Option.mem_unique hprev hi) (hleaf child s hs')
  | none =>
    rw [List.getElem?_eq_none_iff] at hnext
    rw [List.getLast?_eq_getElem?, show hs.activeChain.length - 1 = i by omega] at hlast
    exact Option.mem_unique hi hlast

theorem settled_switch {ord : IterOrder} {newTip : Hash256} {hs' : HeaderStore}
    (htree : Tree P genesis hs) (hswitch : hs.switchActiveChain ord newTip = .ok hs')
    (h : Unhidden ∅ hs.tips hs) : Unhidden ∅ hs'.tips hs' := by
  obtain ⟨oldTip, chain, s, hold, _, hnew, _, rfl⟩ := switchActiveChain_eq_ok htree hswitch
  intro x hoff _ hleaf
  obtain ⟨hstored, hinactive⟩ := mem_offChain.mp hoff
  have hne : x ≠ newTip := by
    rintro rfl
    exact hinactive (List.mem_toFinset.mpr (List.mem_of_mem_getLast? hnew))
  refine mem_removeTip.mpr ⟨mem_insertTip.mpr ?_, hne⟩
  by_cases hactive : x ∈ hs.activeSet
  · exact .inl (eq_last_of_active_leaf htree hactive hleaf hold)
  · exact .inr (h x (mem_offChain.mpr ⟨hstored, hactive⟩) (Finset.notMem_empty x) hleaf)

def Grows : HeaderOp → Prop
  | .purgeStaleForks _ _ | .markInvalid _ _ => False
  | _ => True

theorem settled_apply {op : HeaderOp} (htree : Tree P genesis hs) (h : Unhidden ∅ hs.tips hs)
    (hinj : HashInjOn P {h | h ∈ op.headers}) (hgrows : Grows op) :
    Tree P genesis (op.apply P hs) ∧ Unhidden ∅ (op.apply P hs).tips (op.apply P hs) := by
  have heffect := op.effect htree.trunk hinj
  generalize op.apply P hs = hs' at heffect
  cases heffect with
  | insert hins =>
    exact ⟨htree.inserts hins, hins.invariant (fun hs => Unhidden ∅ hs.tips hs) (fun _ _ h => h)
      (fun _ _ _ _ ha _ h => settled_attach ha h) h⟩
  | mark => exact hgrows.elim
  | switch hswitch => exact ⟨tree_switchActiveChain htree hswitch, settled_switch htree hswitch h⟩
  | purge => exact hgrows.elim

theorem hidden_eq_empty (P : Primitives) (genesis : BlockHeader) (params : ConsensusParams)
    (backend : Option Backend) (ops : List HeaderOp) (hops : ∀ op ∈ ops, Grows op)
    (hhash : HeaderHashSound P ops) :
    hidden (run (HeaderOp.apply P) (HeaderStore.makeFresh P genesis params backend) ops) = ∅ := by
  have hfresh : Unhidden ∅ (HeaderStore.makeFresh P genesis params backend).tips
      (HeaderStore.makeFresh P genesis params backend) := by
    intro x hoff _ _
    have hx := (Finmap.mem_insert.mp (mem_offChain.mp hoff).1).resolve_right Finmap.notMem_empty
    exact hx ▸ List.mem_singleton_self _
  have hrun := run_invariant (fun hs => Tree P genesis hs ∧ Unhidden ∅ hs.tips hs)
    (fun hs op h hcond => settled_apply h.1 h.2 hcond.2 hcond.1)
    ⟨tree_makeFresh P genesis params backend, hfresh⟩
    ((along_of_forall fun op hop _ => hops op hop).and fun op => hhash.injOn)
  refine Finset.eq_empty_of_forall_notMem fun x hx => ?_
  obtain ⟨hoff, last, hlast, htip, hleaf, hdesc⟩ := (mem_hidden hrun.1).mp hx
  refine htip (hrun.2 last (mem_offChain.mpr ⟨hlast, fun hactive => ?_⟩) (Finset.notMem_empty _) hleaf)
  exact (mem_offChain.mp hoff).2 (hrun.1.descends_active hactive hdesc)

/-! ## A hidden branch

The header `B` forks off genesis next to the active tip, and any number of
headers are stored on top of it. Invalidating `B` takes all of them out of the
tips. -/

def noncePrimitives : Primitives :=
  { poly with doubleSha256 := fun bytes => BitVec.ofNat 256 (ofLeBytes (bytes.drop 76) + 1) }

theorem blockHash_nonce (header : BlockHeader) :
    header.blockHash noncePrimitives = BitVec.ofNat 256 (header.nonce.toNat + 1) := by
  have hdrop : header.toBytes.drop 76 = leBytes 4 header.nonce.toNat := by
    rw [BlockHeader.toBytes]
    refine List.drop_left' ?_
    simp [Hash256.asBytes]
  change BitVec.ofNat 256 (ofLeBytes (header.toBytes.drop 76) + 1) = _
  rw [hdrop, ofLeBytes_leBytes header.nonce.toNat_lt]

def easyBits : UInt32 := 0x1e0ffff0

def activeHeader : BlockHeader := ⟨1, 1, 0, 0, easyBits, 1⟩

def branchHeader : BlockHeader := ⟨1, 1, 0, 0, easyBits, 2⟩

def fanHeader (i : ℕ) : BlockHeader := ⟨1, 3, 0, 0, easyBits, UInt32.ofNat (i + 3)⟩

def forkedStore : HeaderStore :=
  run (HeaderOp.apply noncePrimitives)
    (HeaderStore.makeFresh noncePrimitives easyGenesis ConsensusParams.testing none)
    [.acceptHeader activeHeader, .acceptHeader branchHeader]

def branchStored : StoredHeader := ⟨branchHeader, 1, 2 * workFromBits easyBits⟩

structure Fan (n : ℕ) (hs : HeaderStore) : Prop where
  tree : Tree noncePrimitives easyGenesis hs
  params : hs.params = ConsensusParams.testing
  unmarked : hs.invalidTips = ∅
  chain : hs.activeChain = [1, 2]
  active : hs.activeSet = {1, 2}
  branch : hs.get 3 = some branchStored
  below : ∀ hash ∈ hs.byHash, hash.toNat < n + 4
  card : hs.byHash.keys.card = n + 3
  tips : ∀ tip ∈ hs.tips, tip = 2 ∨ Descends (parentOf hs) tip 3

theorem fan_forkedStore : Fan 0 forkedStore where
  tree := tree_run_noPurge (tree_makeFresh _ _ _ _) (by decide +kernel) (by decide)
  params := rfl
  unmarked := by decide +kernel
  chain := by decide +kernel
  active := by decide +kernel
  branch := by decide +kernel
  below hash hmem := by
    have hkeys : forkedStore.byHash.keys = {1, 2, 3} := by decide +kernel
    rw [← Finmap.mem_keys, hkeys, Finset.mem_insert, Finset.mem_insert, Finset.mem_singleton] at hmem
    rcases hmem with rfl | rfl | rfl <;> decide
  card := by decide +kernel
  tips := by
    have htips : forkedStore.tips = [3, 2] := by decide +kernel
    rw [htips]
    intro tip htip
    rcases List.mem_cons.mp htip with rfl | htip
    · exact .inr (Descends.refl 3)
    · exact .inl (List.mem_singleton.mp htip)

section Fan

variable {n : ℕ}

theorem fanHeader_hash (hn : n < 2 ^ 31) :
    (fanHeader n).blockHash noncePrimitives = BitVec.ofNat 256 (n + 4) := by
  rw [blockHash_nonce]
  have hnonce : (UInt32.ofNat (n + 3)).toNat = n + 3 := by
    rw [UInt32.toNat_ofNat']
    omega
  change BitVec.ofNat 256 ((UInt32.ofNat (n + 3)).toNat + 1) = _
  rw [hnonce]

theorem Fan.bits (h : Fan n hs) :
    getNextWorkRequired noncePrimitives hs.params 2 (hs.forkLookup 3) = .ok easyBits := by
  have hoff : (3 : Hash256) ∉ hs.activeSet := by
    rw [h.active]
    decide
  have hon : branchStored.header.prevHash ∈ hs.activeSet := by
    rw [h.active]
    decide
  have hfork : hs.forkLookup 3 1 = some (0, easyBits) := by
    unfold HeaderStore.forkLookup HeaderStore.fuel
    rw [forkHeaders_succ h.branch hoff, if_neg (by decide), forkHeaders_of_active hon]
    rw [show branchStored.height = 1 from rfl, Finmap.lookup_insert]
    rfl
  have hlookup : lookupHeader (hs.forkLookup 3) (2 - 1) = .ok (0, easyBits) := okOr_eq_ok.mpr hfork
  rw [h.params]
  change intervalRule ConsensusParams.testing 2016 _ 2 (hs.forkLookup 3) = _
  exact bind_eq_ok.mpr ⟨_, hlookup, rfl⟩

theorem Fan.fresh (h : Fan n hs) (hn : n < 2 ^ 31) : BitVec.ofNat 256 (n + 4) ∉ hs.byHash := by
  intro hmem
  have hlt := h.below _ hmem
  rw [BitVec.toNat_ofNat, Nat.mod_eq_of_lt (by omega)] at hlt
  exact lt_irrefl _ hlt

theorem Fan.accepts (h : Fan n hs) (hn : n < 2 ^ 31) :
    ∃ r, hs.acceptHeader noncePrimitives (fanHeader n) = .ok r := by
  have hmem : (fanHeader n).blockHash noncePrimitives ∉ hs.byHash := by
    rw [fanHeader_hash hn]
    exact h.fresh hn
  have hvalid : ensure ((fanHeader n).prevHash ∉ hs.invalidTips) HeaderError.extendsInvalid =
      .ok () := by
    rw [h.unmarked]
    exact ensure_eq_ok.mpr (Finset.notMem_empty _)
  have hbranch : hs.get (fanHeader n).prevHash = some branchStored := h.branch
  have hwork : addWork branchStored.chainwork (fanHeader n).bits =
      .ok (2 * workFromBits easyBits + workFromBits easyBits) := by
    have hbound : 2 * workFromBits easyBits + workFromBits easyBits < 2 ^ 256 := by decide +kernel
    exact addWork_eq_ok.mpr ⟨hbound, rfl⟩
  have hdifficulty : HeaderStore.checkDifficulty noncePrimitives hs
      (hs.forkLookup (fanHeader n).prevHash) (fanHeader n) 2 = .ok () := by
    refine bind_eq_ok.mpr ⟨easyBits, ?_, ensure_eq_ok.mpr rfl⟩
    exact congrArg (Except.mapError HeaderError.difficulty) h.bits
  have hpow : HeaderStore.checkPow noncePrimitives hs (fanHeader n) 2 = .ok () := by
    refine ensure_eq_ok.mpr fun hlt => ?_
    rw [h.params] at hlt
    exact absurd hlt (by decide)
  simp only [HeaderStore.acceptHeader, hmem, if_false, hvalid, hbranch, okOr, hwork, hpow, ok_bind,
    show nextHeight branchStored.height = .ok 2 from rfl, hdifficulty]
  split_ifs <;> exact ⟨_, rfl⟩

theorem Fan.attached (h : Fan n hs) (hn : n < 2 ^ 31) :
    ∃ be, (HeaderOp.acceptHeader (fanHeader n)).apply noncePrimitives hs =
        { attach hs (BitVec.ofNat 256 (n + 4)) (storedBelow branchStored (fanHeader n)) false with
          backend := be } := by
  obtain ⟨⟨hs', r⟩, hok⟩ := h.accepts hn
  have happly : (HeaderOp.acceptHeader (fanHeader n)).apply noncePrimitives hs = hs' := by
    simp only [HeaderOp.apply, hok, Except.toOption, Option.map_some, Option.getD_some]
  rw [happly]
  obtain ⟨hknown, _⟩ | ⟨_, p, extend, hp, hatt, _, heq⟩ := acceptHeader_eq_ok hok
  · rw [fanHeader_hash hn] at hknown
    exact absurd hknown (h.fresh hn)
  · have hnot : extend = false := by
      by_contra hext
      have hlast := hatt.onTip (by simpa using hext)
      rw [h.chain] at hlast
      cases hlast
    obtain rfl := Option.mem_unique hp h.branch
    rw [hnot, fanHeader_hash hn] at heq
    exact ⟨_, heq⟩

theorem Fan.step (h : Fan n hs) (hn : n < 2 ^ 31) :
    Fan (n + 1) ((HeaderOp.acceptHeader (fanHeader n)).apply noncePrimitives hs) := by
  have htree : Tree noncePrimitives easyGenesis
      ((HeaderOp.acceptHeader (fanHeader n)).apply noncePrimitives hs) :=
    tree_apply h.tree (fun a ha b hb _ =>
      (List.mem_singleton.mp ha).trans (List.mem_singleton.mp hb).symm) trivial
  obtain ⟨be, heq⟩ := h.attached hn
  have hfresh := h.fresh hn
  have hnat : (BitVec.ofNat 256 (n + 4)).toNat = n + 4 := by
    rw [BitVec.toNat_ofNat, Nat.mod_eq_of_lt (by omega)]
  rw [heq] at htree ⊢
  refine ⟨htree, h.params, h.unmarked, h.chain, h.active, ?_, ?_, ?_, ?_⟩
  · have hne : (3 : Hash256) ≠ BitVec.ofNat 256 (n + 4) := by
      intro h3
      rw [← h3] at hnat
      have : (3 : Hash256).toNat = 3 := by decide
      omega
    exact (Finmap.lookup_insert_of_ne _ hne).trans h.branch
  · intro hash hmem
    rcases Finmap.mem_insert.mp hmem with rfl | hold
    · omega
    · have := h.below hash hold
      omega
  · change (hs.byHash.insert _ _).keys.card = _
    have hnot : BitVec.ofNat 256 (n + 4) ∉ hs.byHash.keys :=
      fun hmem => hfresh (Finmap.mem_keys.mp hmem)
    rw [keys_insert, Finset.card_insert_of_notMem hnot, h.card]
  · intro tip htip
    rcases mem_insertTip.mp htip with rfl | hold
    · refine .inr (Descends.head ?_ (Descends.refl 3))
      exact parentOf_eq_some.mpr ⟨_, Finmap.lookup_insert _, Nat.succ_pos _, rfl⟩
    · refine (h.tips tip (mem_removeTip.mp hold).1).imp id fun hdesc => hdesc.mono fun a b hab => ?_
      obtain ⟨s, hget, hpos, hprev⟩ := parentOf_eq_some.mp hab
      have hne : a ≠ BitVec.ofNat 256 (n + 4) := by
        rintro rfl
        exact hfresh (Finmap.mem_of_lookup_eq_some hget)
      exact parentOf_eq_some.mpr ⟨s, (Finmap.lookup_insert_of_ne _ hne).trans hget, hpos, hprev⟩

theorem fan_run {k : ℕ} (hk : k ≤ 2 ^ 31) : Fan k (run (HeaderOp.apply noncePrimitives) forkedStore
    ((List.range k).map fun i => .acceptHeader (fanHeader i))) := by
  induction k with
  | zero =>
    rw [List.range_zero, List.map_nil, run_nil]
    exact fan_forkedStore
  | succ k ih =>
    rw [List.range_succ, List.map_append, run, List.foldl_append, List.map_cons, List.map_nil,
      List.foldl_cons, List.foldl_nil]
    exact (ih (Nat.le_of_succ_le hk)).step hk

theorem Fan.marked_tips (h : Fan n hs) {tip : Hash256} (htip : tip ∈ (hs.markInvalid .id 3).tips) :
    tip ∈ hs.activeSet := by
  obtain ⟨hmem, hnot⟩ := (mem_tips_markInvalid h.tree).mp htip
  rw [(h.tips tip hmem).resolve_right hnot, h.active]
  decide

end Fan

theorem byHash_purge_of_active (h : ∀ tip ∈ hs.tips, tip ∈ hs.activeSet) (ord : IterOrder)
    (activeTipHeight : ℕ) : (hs.purgeStaleForks ord activeTipHeight).byHash = hs.byHash ∧
      (hs.purgeStaleForks ord activeTipHeight).activeSet = hs.activeSet := by
  have hkept : KeptByPurge hs.tips fun hs' => hs'.byHash = hs.byHash ∧
      hs'.activeSet = hs.activeSet ∧ ∀ tip ∈ hs'.tips, tip ∈ hs.tips := by
    refine ⟨fun _ hI => hI.2.2, fun _ _ hI => ⟨hI.1, hI.2.1, fun t ht =>
      hI.2.2 t (mem_removeTip.mp ht).1⟩, fun hs' tip fuel htip hI => ?_⟩
    have hactive : tip ∈ hs'.activeSet := hI.2.1 ▸ h tip htip
    cases fuel with
    | zero => exact hI
    | succ fuel =>
      rw [HeaderStore.removeBranch, if_pos hactive]
      exact hI
  obtain ⟨hs₁, ⟨hmap, hset, _⟩, heq⟩ :=
    hkept.purgeStaleForks ⟨rfl, rfl, fun _ => id⟩ ord activeTipHeight
  rw [heq]
  exact ⟨hmap, hset⟩

def fanOps (n : ℕ) : List HeaderOp :=
  .acceptHeader activeHeader :: .acceptHeader branchHeader ::
    (List.range n).map (fun i => .acceptHeader (fanHeader i)) ++ [.markInvalid .id 3]

theorem run_fanOps (n : ℕ) : run (HeaderOp.apply noncePrimitives)
    (HeaderStore.makeFresh noncePrimitives easyGenesis ConsensusParams.testing none) (fanOps n) =
      (run (HeaderOp.apply noncePrimitives) forkedStore
        ((List.range n).map fun i => .acceptHeader (fanHeader i))).markInvalid .id 3 := by
  rw [fanOps, run, List.foldl_append]
  rfl

theorem card_offChain_fan {n : ℕ} (hn : n ≤ 2 ^ 31) (ord : IterOrder) (activeTipHeight : ℕ) :
    (offChain ((run (HeaderOp.apply noncePrimitives)
      (HeaderStore.makeFresh noncePrimitives easyGenesis ConsensusParams.testing none)
      (fanOps n)).purgeStaleForks ord activeTipHeight)).card = n + 1 := by
  rw [run_fanOps]
  have hfan := fan_run hn
  generalize run (HeaderOp.apply noncePrimitives) forkedStore _ = hs at hfan
  have htips : ∀ tip ∈ (hs.markInvalid .id 3).tips, tip ∈ (hs.markInvalid .id 3).activeSet :=
    fun _ htip => hfan.marked_tips htip
  obtain ⟨hmap, hset⟩ := byHash_purge_of_active htips ord activeTipHeight
  have hmark : (hs.markInvalid .id 3).byHash = hs.byHash ∧
      (hs.markInvalid .id 3).activeSet = hs.activeSet := ⟨rfl, rfl⟩
  have hsub : hs.activeSet ⊆ hs.byHash.keys := fun hash hmem =>
    Finmap.mem_keys.mpr ((cut_self_of_tree hfan.tree).stored hash hmem)
  have hcard : hs.activeSet.card = 2 := by
    rw [hfan.active]
    decide
  rw [offChain, hmap, hset, hmark.1, hmark.2, Finset.filter_notMem_eq_sdiff,
    Finset.card_sdiff_of_subset hsub, hcard, hfan.card]
  omega

/-- With 10001 headers on top of `B` no purge gets below the bound. -/
theorem invalidated_branch_stays :
    (∀ op ∈ fanOps 10001, NoPurge op) ∧ ∀ (ord : IterOrder) (activeTipHeight : ℕ),
      ¬ (offChain ((run (HeaderOp.apply noncePrimitives)
        (HeaderStore.makeFresh noncePrimitives easyGenesis ConsensusParams.testing none)
        (fanOps 10001)).purgeStaleForks ord activeTipHeight)).card ≤ maxForkHeaders := by
  constructor
  · intro op hop
    simp only [fanOps, List.cons_append, List.mem_cons, List.mem_append, List.mem_map,
      List.not_mem_nil, or_false] at hop
    rcases hop with rfl | rfl | ⟨i, _, rfl⟩ | rfl <;> trivial
  · intro ord activeTipHeight
    rw [card_offChain_fan (by norm_num) ord activeTipHeight]
    decide

end Ironcat.ForkBound
