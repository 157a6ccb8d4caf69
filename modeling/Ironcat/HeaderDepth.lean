import Ironcat.HeaderRuns

/-!
# Heights that no purge changes

The headers that occur in a run fix the height of every hash, so that two
stores of the run never place one hash at two heights. Unlike the header tree,
this holds whatever a purge deletes.
-/

namespace Ironcat.HeaderDepth

open Lib.Checked Lib.FiniteMap Types Difficulty Headers HeaderTree HeaderRuns

variable {P : Primitives} {genesis : BlockHeader} {H : Set BlockHeader} {hs hs' : HeaderStore}
variable {hash : Hash256} {s : StoredHeader}

inductive Depth (P : Primitives) (genesis : BlockHeader) (H : Set BlockHeader) :
    Hash256 → ℕ → Prop
  | root : Depth P genesis H (genesis.blockHash P) 0
  | child {header : BlockHeader} {n : ℕ} (hmem : header ∈ H)
      (hne : header.blockHash P ≠ genesis.blockHash P)
      (hbelow : Depth P genesis H header.prevHash n) :
      Depth P genesis H (header.blockHash P) (n + 1)

theorem Depth.zero_iff : Depth P genesis H hash 0 ↔ hash = genesis.blockHash P := by
  constructor
  · rintro ⟨⟩
    rfl
  · rintro rfl
    exact .root

theorem Depth.unique (hinj : HashInjOn P H) {n m : ℕ}
    (h : Depth P genesis H hash n) (h' : Depth P genesis H hash m) : n = m := by
  induction h generalizing m with
  | root =>
    generalize hroot : genesis.blockHash P = root at h'
    cases h' with
    | root => rfl
    | child _ hne _ => exact absurd hroot.symm hne
  | @child header n hmem hne hbelow ih =>
    generalize hkey : header.blockHash P = key at h'
    cases h' with
    | root => exact absurd hkey hne
    | @child header' n' hmem' _ hbelow' =>
      obtain rfl := hinj hmem hmem' hkey
      rw [ih hbelow']

theorem injOn_headers {headers : List BlockHeader}
    (h : ∀ a ∈ headers, ∀ b ∈ headers, a.blockHash P = b.blockHash P → a = b) :
    HashInjOn P {header | header ∈ headers} :=
  fun a ha b hb => h a ha b hb

/-- A store whose headers are those of `H`, each at its depth. -/
structure Placed (P : Primitives) (genesis : BlockHeader) (H : Set BlockHeader)
    (hs : HeaderStore) : Prop where
  trunk : Trunk P genesis hs
  below : ∀ hash s, hs.get hash = some s → hash ≠ genesis.blockHash P →
    s.header ∈ H ∧ ∃ n, s.height = n + 1 ∧ Depth P genesis H s.header.prevHash n
  bounded : ∀ hash s, hs.get hash = some s → s.height < 2 ^ 32

theorem Placed.of_same (h : Placed P genesis H hs) (hmap : hs'.byHash = hs.byHash)
    (hchain : hs'.activeChain = hs.activeChain) (hset : hs'.activeSet = hs.activeSet) :
    Placed P genesis H hs' := by
  have hget : hs'.get = hs.get := by
    funext k
    exact congrArg (fun m : HeaderMap => m.lookup k) hmap
  refine ⟨⟨?_, ?_, ?_, ?_⟩, hget ▸ h.below, hget ▸ h.bounded⟩
  · exact hmap ▸ h.trunk.root
  · exact hmap ▸ h.trunk.keyed
  · rw [hmap, hchain]
    exact h.trunk.path
  · rw [hset, hchain]
    exact h.trunk.active

theorem Placed.depth (h : Placed P genesis H hs) (hget : hs.get hash = some s) :
    Depth P genesis H hash s.height := by
  by_cases hne : hash = genesis.blockHash P
  · subst hne
    obtain rfl := Option.mem_unique hget h.trunk.root
    exact .root
  · obtain ⟨hmem, n, hheight, hbelow⟩ := h.below hash s hget hne
    have hkey := h.trunk.keyed hash s hget
    rw [hheight, ← hkey]
    exact .child hmem (hkey ▸ hne) hbelow

theorem Placed.depth_active (h : Placed P genesis H hs) {i : ℕ}
    (hi : hs.activeChain[i]? = some hash) : Depth P genesis H hash i := by
  obtain ⟨s, hs', rfl⟩ := h.trunk.path.lookup h.trunk.root hi
  exact h.depth hs'

theorem placed_makeFresh (P : Primitives) (genesis : BlockHeader) (H : Set BlockHeader)
    (params : ConsensusParams) (backend : Option Backend) :
    Placed P genesis H (HeaderStore.makeFresh P genesis params backend) := by
  have htree := tree_makeFresh P genesis params backend
  refine ⟨htree.trunk, fun hash s hget hne => ?_, fun hash s hget => ?_⟩
  · change ((∅ : HeaderMap).insert _ _).lookup hash = some s at hget
    rw [lookup_insert_eq, if_neg hne] at hget
    simp at hget
  · exact (htree.rooted.bounded hash s hget).1

theorem Placed.attach {extend : Bool} (h : Placed P genesis H hs)
    (ha : Attachable P hs hash s extend) (hmem : s.header ∈ H) :
    Placed P genesis H (attach hs hash s extend) := by
  refine ⟨h.trunk.attach ha, fun k v hk hne => ?_, fun k v hk => ?_⟩
  · rw [get_attach] at hk
    split_ifs at hk with heq
    · obtain rfl := Option.some.inj hk
      obtain ⟨p, hp, hheight, _⟩ := ha.parent
      exact ⟨hmem, p.height, hheight, h.depth hp⟩
    · exact h.below k v hk hne
  · rw [get_attach] at hk
    split_ifs at hk with heq
    · exact Option.some.inj hk ▸ ha.bounded.1
    · exact h.bounded k v hk

theorem Placed.inserts {headers : List BlockHeader} {persisted : Bool} (h : Placed P genesis H hs)
    (hins : Inserts P hs hs' headers persisted) (hsub : ∀ header ∈ headers, header ∈ H) :
    Placed P genesis H hs' :=
  hins.invariant (Placed P genesis H)
    (fun _ _ h => h.of_same rfl rfl rfl)
    (fun _ _ _ _ ha hmem h => h.attach ha (hsub _ hmem)) h

theorem Placed.markInvalid (h : Placed P genesis H hs) (ord : IterOrder) (hash : Hash256) :
    Placed P genesis H (hs.markInvalid ord hash) :=
  h.of_same rfl rfl rfl

theorem Placed.chainDown_path (hinj : HashInjOn P H)
    (h : Placed P genesis H hs) {fuel : ℕ} {chain : List Hash256}
    (hchain : chainDown hs.byHash fuel hash = .ok chain) :
    ∃ s, hs.get hash = some s ∧ chain.head? = some hash ∧ chain.length = s.height + 1 ∧
      Path (genesis.blockHash P) hs.byHash chain.reverse := by
  induction fuel generalizing hash chain with
  | zero => cases hchain
  | succ fuel ih =>
    simp only [chainDown, bind_eq_ok, okOr_eq_ok] at hchain
    obtain ⟨s, hget, hchain⟩ := hchain
    by_cases hzero : s.height = 0
    · simp only [hzero, if_true, pure_eq_ok] at hchain
      have hdepth := h.depth hget
      rw [hzero, Depth.zero_iff] at hdepth
      subst hdepth hchain
      exact ⟨s, hget, rfl, by simp [hzero], rfl, by simp⟩
    · simp only [hzero, if_false, bind_eq_ok, pure_eq_ok] at hchain
      obtain ⟨rest, hrest, rfl⟩ := hchain
      obtain ⟨p, hp, hhead, hlen, hpath⟩ := ih hrest
      have hne : hash ≠ genesis.blockHash P := by
        rintro rfl
        obtain rfl := Option.mem_unique hget h.trunk.root
        exact hzero rfl
      obtain ⟨_, n, hheight, hbelow⟩ := h.below hash s hget hne
      have hn : n = p.height := hbelow.unique hinj (h.depth hp)
      refine ⟨s, hget, rfl, by simp [hlen, hheight, hn], ?_⟩
      rw [List.reverse_cons]
      refine hpath.concat hget ?_ ?_
      · rw [List.getLast?_reverse, hhead]
      · rw [List.length_reverse, hlen, hheight, hn]

theorem Placed.switchActiveChain (hinj : HashInjOn P H)
    {ord : IterOrder} {newTip : Hash256} (h : Placed P genesis H hs)
    (hswitch : hs.switchActiveChain ord newTip = .ok hs') : Placed P genesis H hs' := by
  simp only [HeaderStore.switchActiveChain, bind_eq_ok, okOr_eq_ok, pure_eq_ok] at hswitch
  obtain ⟨oldTip, _, chain, hchain, rfl⟩ := hswitch
  obtain ⟨_, _, _, _, hpath⟩ := h.chainDown_path hinj hchain
  exact ⟨⟨h.trunk.root, h.trunk.keyed, hpath, List.toFinset_reverse.symm⟩, h.below, h.bounded⟩

theorem Placed.eraseFork (h : Placed P genesis H hs) (hnot : hash ∉ hs.activeSet) :
    Placed P genesis H { hs with byHash := hs.byHash.erase hash } := by
  rw [h.trunk.active, List.mem_toFinset] at hnot
  have hold : ∀ {k v}, (hs.byHash.erase hash).lookup k = some v → hs.byHash.lookup k = some v := by
    intro k v hk
    rw [lookup_erase_eq] at hk
    split_ifs at hk
    exact hk
  have hne : genesis.blockHash P ≠ hash := by
    rintro rfl
    exact hnot (List.mem_of_getElem? h.trunk.path.first)
  refine ⟨⟨?_, fun k v hk => h.trunk.keyed k v (hold hk), h.trunk.path.erase hnot, h.trunk.active⟩,
    fun k v hk => h.below k v (hold hk), fun k v hk => h.bounded k v (hold hk)⟩
  rw [Finmap.lookup_erase_ne hne, h.trunk.root]

theorem Placed.removeBranch {current : Hash256} {fuel : ℕ} (h : Placed P genesis H hs) :
    Placed P genesis H (hs.removeBranch fuel current) :=
  removeBranch_keeps (J := fun _ _ => True)
    (fun _ _ _ h _ hactive _ => ⟨h.eraseFork hactive, fun _ => trivial⟩) fuel h trivial

theorem removeBranch_eq (hs : HeaderStore) (fuel : ℕ) (current : Hash256) :
    ∃ byHash, hs.removeBranch fuel current = { hs with byHash } := by
  refine removeBranch_keeps (I := fun hs' => ∃ byHash, hs' = { hs with byHash })
    (J := fun _ _ => True) ?_ fuel ⟨hs.byHash, rfl⟩ trivial
  rintro _ current _ ⟨byHash, rfl⟩ _ _ _
  exact ⟨⟨byHash.erase current, rfl⟩, fun _ => trivial⟩

theorem keptByPurge_placed {tips : List Hash256} : KeptByPurge tips
    (fun hs => Placed P genesis H hs ∧ ∀ tip ∈ hs.tips, tip ∈ tips) where
  subset _ h := h.2
  drop _ _ h := ⟨h.1.of_same rfl rfl rfl, fun t ht => h.2 t (mem_removeTip.mp ht).1⟩
  branch hs tip fuel _ h := by
    refine ⟨h.1.removeBranch, ?_⟩
    obtain ⟨byHash, heq⟩ := removeBranch_eq hs fuel tip
    rw [heq]
    exact h.2

theorem Placed.purgeStaleForks (h : Placed P genesis H hs) (ord : IterOrder)
    (activeTipHeight : ℕ) : Placed P genesis H (hs.purgeStaleForks ord activeTipHeight) := by
  obtain ⟨hs₁, hend, heq⟩ :=
    keptByPurge_placed.purgeStaleForks ⟨h, fun _ => id⟩ ord activeTipHeight
  rw [heq]
  exact hend.1.of_same rfl rfl rfl

theorem keptByPurge_activeChain {tips chain : List Hash256} : KeptByPurge tips
    (fun hs => hs.activeChain = chain ∧ ∀ tip ∈ hs.tips, tip ∈ tips) where
  subset _ h := h.2
  drop _ _ h := ⟨h.1, fun t ht => h.2 t (mem_removeTip.mp ht).1⟩
  branch hs tip fuel _ h := by
    obtain ⟨byHash, heq⟩ := removeBranch_eq hs fuel tip
    rw [heq]
    exact h

theorem activeChain_purgeStaleForks (hs : HeaderStore) (ord : IterOrder) (activeTipHeight : ℕ) :
    (hs.purgeStaleForks ord activeTipHeight).activeChain = hs.activeChain := by
  obtain ⟨hs₁, hend, heq⟩ :=
    keptByPurge_activeChain.purgeStaleForks ⟨rfl, fun _ => id⟩ ord activeTipHeight
  rw [heq]
  exact hend.1

theorem Placed.tip_unique (hinj : HashInjOn P H)
    (h : Placed P genesis H hs) (h' : Placed P genesis H hs')
    (htip : hs'.activeChain.getLast? = hs.activeChain.getLast?) :
    hs'.height = hs.height ∧ hs'.tipBits = hs.tipBits := by
  obtain ⟨s, hlast, hget, hheight⟩ := h.trunk.tip_eq
  obtain ⟨s', hlast', hget', hheight'⟩ := h'.trunk.tip_eq
  have heq : hs'.tip.1 = hs.tip.1 := Option.some.inj (hlast'.symm.trans (htip.trans hlast))
  have hheader : s'.header = s.header := by
    rw [heq] at hget'
    by_cases hroot : hs.tip.1 = genesis.blockHash P
    · rw [hroot] at hget hget'
      rw [← Option.mem_unique h.trunk.root hget,
        ← Option.mem_unique h'.trunk.root hget']
    · refine hinj (h'.below _ _ hget' hroot).1 (h.below _ _ hget hroot).1 ?_
      rw [h'.trunk.keyed _ _ hget', h.trunk.keyed _ _ hget]
  constructor
  · have hdepth := h'.depth hget'
    rw [heq, hheight'] at hdepth
    have hdepth₀ := h.depth hget
    rw [hheight] at hdepth₀
    exact hdepth.unique hinj hdepth₀
  · unfold HeaderStore.tipBits
    rw [hget, hget']
    simp [hheader]

end Ironcat.HeaderDepth
