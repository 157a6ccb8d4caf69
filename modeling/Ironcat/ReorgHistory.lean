import Ironcat.History
import Ironcat.HeaderPaths
import Ironcat.HeaderRuns
import Ironcat.Reorg

/-!
# Reorganizations as runs of connected and disconnected blocks

The phases of `activate_best_chain` walk the two paths between header tips one
block at a time. Each step that succeeds is a step of a `BlockRun`, so the UTXO
map after a reorganization, or after its rollback, is again the one obtained
by connecting the blocks of one branch.
-/

namespace Ironcat.ReorgHistory

open Lib.Checked Lib.EarlyExit Lib.FiniteMap Lib.Runs Types Validation BlockWire BlockFiles
open Chainstate Ledger History Difficulty Headers HeaderTree HeaderPaths HeaderRuns Mempool Reorg

variable {P : Primitives} {genesis : BlockHeader} {headers : HeaderStore} {bs : BlockStore}
variable {cs₀ cs cs' : ChainState} {branch : List Block} {path : List (Hash256 × ℕ)}

theorem findPaths_eq_ok {active best : Hash256} {height : UInt32}
    {down up : List (Hash256 × ℕ)} (h : findPaths headers active height best = .ok (down, up)) :
    ∃ fork p, headers.findForkPoint active best = .ok fork ∧ headers.get fork = some p ∧
      Ascends headers fork down active ∧ Ascends headers fork up best := by
  simp only [findPaths, bind_eq_ok, pure_eq_ok, mapError_eq_ok, okOr_eq_ok, Prod.mk.injEq] at h
  obtain ⟨fork, hfork, p, hp, _, _, down', hdown, up', hup, _, _, rfl, rfl⟩ := h
  exact ⟨fork, p, hfork, hp, getPath_ascends hdown, getPath_ascends hup⟩

structure Genuine (P : Primitives) (headers : HeaderStore) (bs : BlockStore) : Prop where
  hash : ∀ hash b, bs.loadAndDeserialize hash = .ok b → b.header.blockHash P = hash
  checked : ∀ hash b, bs.loadAndDeserialize hash = .ok b → checkBlock b = .ok ()
  header : ∀ hash b s, bs.loadAndDeserialize hash = .ok b → headers.get hash = some s →
    b.header = s.header

def Owned (P : Primitives) (bs : BlockStore) (branch : List Block) : Prop :=
  ∀ b ∈ branch, ∀ b', bs.loadAndDeserialize (b.header.blockHash P) = .ok b' → b' = b

def Loads (bs : BlockStore) (path : List (Hash256 × ℕ)) (blocks : List Block) : Prop :=
  path.map (fun e => bs.loadAndDeserialize e.1) = blocks.map .ok

structure Setting (P : Primitives) (genesis : BlockHeader) (headers : HeaderStore)
    (bs : BlockStore) (cs₀ : ChainState) : Prop where
  fresh : Fresh cs₀
  start : cs₀.tip.2 = 0
  tree : Tree P genesis headers
  genuine : Genuine P headers bs

structure At (P : Primitives) (headers : HeaderStore) (cs₀ cs : ChainState) (branch : List Block) :
    Prop where
  run : BlockRun P cs₀ cs branch
  tip : ∃ s, headers.get cs.tip.1 = some s ∧ s.height = cs.tip.2.toNat

theorem disconnectNew_eq_ok {e : Hash256 × ℕ} :
    disconnectNew P bs cs e = .ok cs' ↔ ∃ b, bs.loadAndDeserialize e.1 = .ok b ∧
      disconnectBlock P cs b (UInt32.ofNat e.2) e.1 = .ok cs' := by
  simp only [disconnectNew, disconnectEntry, map_eq_ok, bind_eq_ok, pure_eq_ok, mapError_eq_ok]
  constructor
  · rintro ⟨_, ⟨b, hload, _, hdisc, rfl⟩, rfl⟩
    exact ⟨b, hload, hdisc⟩
  · rintro ⟨b, hload, hdisc⟩
    exact ⟨_, ⟨b, hload, _, hdisc, rfl⟩, rfl⟩

theorem connectOld_eq_ok {e : Hash256 × ℕ} :
    connectOld P bs cs e = .ok cs' ↔ ∃ b, bs.loadAndDeserialize e.1 = .ok b ∧
      connectBlock P cs b (UInt32.ofNat e.2) e.1 = .ok cs' := by
  simp only [connectOld, connectEntry, map_eq_ok, bind_eq_ok, pure_eq_ok, mapError_eq_ok]
  constructor
  · rintro ⟨_, ⟨b, hload, _, hconn, rfl⟩, rfl⟩
    exact ⟨b, hload, hconn⟩
  · rintro ⟨b, hload, hconn⟩
    exact ⟨_, ⟨b, hload, _, hconn, rfl⟩, rfl⟩

variable {s : StoredHeader}

theorem At.disconnect (hset : Setting P genesis headers bs cs₀) (hat : At P headers cs₀ cs branch)
    (howned : Owned P bs branch) (hget : headers.get cs.tip.1 = some s)
    (h : disconnectNew P bs cs (cs.tip.1, s.height) = .ok cs') :
    ∃ b rest, branch = b :: rest ∧ bs.loadAndDeserialize cs.tip.1 = .ok b ∧
      At P headers cs₀ cs' rest ∧ cs'.tip.1 = s.header.prevHash := by
  obtain ⟨b, hload, hdisc⟩ := disconnectNew_eq_ok.mp h
  obtain ⟨hpos, htip, htip'⟩ := disconnectBlock_tip hdisc
  have hconsistent := hat.run.consistent hset.fresh
  have hheight := hconsistent.height_eq
  have hne : cs.tip.2.toNat ≠ 0 := by
    rw [htip]
    exact fun hzero => hpos (UInt32.toNat_inj.mp hzero)
  cases branch with
  | nil => exact absurd (by rw [hheight, hset.start]; rfl) hne
  | cons top rest =>
    have hhash := hconsistent.tip_hash
    obtain rfl : b = top := howned top List.mem_cons_self b (hhash ▸ hload)
    have hheader : b.header = s.header := hset.genuine.header _ b s hload hget
    have hrun : BlockRun P cs₀ cs' rest := hat.run.disconnect (hhash ▸ hdisc)
    -- the parent of the tip is the header one below it
    obtain ⟨s', hget', hs'⟩ := hat.tip
    obtain rfl := Option.mem_unique hget hget'
    have hroot : cs.tip.1 ≠ genesis.blockHash P := by
      intro heq
      exact hne (hs' ▸ (hset.tree.rooted.height_eq_zero_iff hget).mpr heq)
    obtain ⟨p, hp, hchild, _⟩ := hset.tree.rooted.parent _ s hget hroot
    refine ⟨b, rest, rfl, hload, ⟨hrun, p, ?_, ?_⟩, ?_⟩
    · rw [htip', hheader]
      exact hp
    · have hbelow := (hrun.consistent hset.fresh).height_eq
      rw [List.length_cons] at hheight
      omega
    · rw [htip', hheader]

theorem At.connect {hash : Hash256} (hset : Setting P genesis headers bs cs₀)
    (hat : At P headers cs₀ cs branch) (hget : headers.get hash = some s)
    (hprev : s.header.prevHash = cs.tip.1)
    (hdistinct : ∀ b, bs.loadAndDeserialize hash = .ok b → DistinctBranch P (b :: branch))
    (h : connectOld P bs cs (hash, s.height) = .ok cs') :
    ∃ b, bs.loadAndDeserialize hash = .ok b ∧ At P headers cs₀ cs' (b :: branch) ∧
      cs'.tip.1 = hash := by
  obtain ⟨b, hload, hconn⟩ := connectOld_eq_ok.mp h
  obtain ⟨hexpected, -, _, -, -, -, -, htip, -⟩ := connectBlock_eq_ok hconn
  have hheader : b.header = s.header := hset.genuine.header _ b s hload hget
  obtain ⟨p, hp, hpheight⟩ := hat.tip
  have hbound := (hset.tree.rooted.bounded _ s hget).1
  have htoNat : (UInt32.ofNat s.height).toNat = s.height := by
    simpa using Nat.mod_eq_of_lt hbound
  have hroot : hash ≠ genesis.blockHash P := by
    intro heq
    rw [(hset.tree.rooted.height_eq_zero_iff hget).mpr heq] at hexpected
    exact saturatingSucc_ne_zero _ hexpected.symm
  obtain ⟨p', hp', hchild, _⟩ := hset.tree.rooted.parent _ s hget hroot
  obtain rfl : p = p' := Option.some.inj (hp.symm.trans (hprev ▸ hp'))
  have hheight : (UInt32.ofNat s.height).toNat = cs.tip.2.toNat + 1 := by omega
  have hhash := hset.genuine.hash _ b hload
  refine ⟨b, hload, ⟨?_, s, ?_, ?_⟩, by rw [htip]⟩
  · exact hat.run.connect (hset.genuine.checked _ b hload) (.inr (by rw [hheader, hprev])) hheight
      (hdistinct b hload).top (hhash ▸ hconn)
  · rw [htip]
    exact hget
  · rw [htip, htoNat]

variable {source target : Hash256}

theorem At.disconnectPath (hset : Setting P genesis headers bs cs₀)
    (hpath : Ascends headers source path target) (htarget : cs.tip.1 = target)
    (hat : At P headers cs₀ cs branch) (howned : Owned P bs branch)
    (h : path.reverse.foldlM (disconnectNew P bs) cs = .ok cs') :
    ∃ blocks rest, branch = blocks ++ rest ∧ Loads bs path blocks.reverse ∧
      At P headers cs₀ cs' rest ∧ cs'.tip.1 = source := by
  induction hpath generalizing cs branch with
  | nil =>
    obtain rfl := foldlM_nil_eq_ok.mp h
    exact ⟨[], branch, rfl, rfl, hat, htarget⟩
  | @concat path hash s hbelow hget ih =>
    rw [List.reverse_append, List.reverse_singleton, List.singleton_append,
      foldlM_cons_eq_ok] at h
    obtain ⟨mid, hmid, h⟩ := h
    obtain rfl := htarget
    obtain ⟨b, rest, rfl, hload, hat', htip⟩ :=
      hat.disconnect hset howned hget hmid
    have howned' : Owned P bs rest := fun b' hb' => howned b' (List.mem_cons_of_mem b hb')
    obtain ⟨blocks, rest', rfl, hloads, hat'', hsource⟩ := ih htip hat' howned' h
    refine ⟨b :: blocks, rest', rfl, ?_, hat'', hsource⟩
    simp only [Loads, List.map_append, List.reverse_cons] at hloads ⊢
    simp [hloads, hload]

theorem At.connectPath (hset : Setting P genesis headers bs cs₀)
    (hpath : Ascends headers source path target) (hsource : cs.tip.1 = source)
    (hat : At P headers cs₀ cs branch)
    (hdistinct : ∀ blocks, Loads bs path blocks → DistinctBranch P (blocks.reverse ++ branch))
    (h : path.foldlM (connectOld P bs) cs = .ok cs') :
    ∃ blocks, Loads bs path blocks ∧ At P headers cs₀ cs' (blocks.reverse ++ branch) ∧
      cs'.tip.1 = target := by
  induction hpath generalizing cs' with
  | nil =>
    obtain rfl := foldlM_nil_eq_ok.mp h
    exact ⟨[], rfl, hat, hsource⟩
  | @concat path hash s hbelow hget ih =>
    obtain ⟨mid, hmid, hlast⟩ := foldlM_concat_eq_ok.mp h
    have hconcat : ∀ {blocks b}, Loads bs path blocks → bs.loadAndDeserialize hash = .ok b →
        Loads bs (path ++ [(hash, s.height)]) (blocks ++ [b]) := by
      intro blocks b hblocks hb
      simp only [Loads, List.map_append] at hblocks ⊢
      simp [hblocks, hb]
    obtain ⟨b, hb, -⟩ := connectOld_eq_ok.mp hlast
    have hsplit : ∀ blocks, Loads bs path blocks →
        DistinctBranch P (b :: (blocks.reverse ++ branch)) := by
      intro blocks hblocks
      simpa using hdistinct (blocks ++ [b]) (hconcat hblocks hb)
    obtain ⟨blocks, hblocks, hat', htip⟩ :=
      ih (fun blocks hblocks => (hsplit blocks hblocks).tail) hmid
    obtain ⟨b', hb', hat'', htip'⟩ := hat'.connect hset hget htip.symm
      (fun b' hb' => by
        obtain rfl : b = b' := Except.ok.inj (hb.symm.trans hb')
        exact hsplit blocks hblocks) hlast
    refine ⟨blocks ++ [b'], hconcat hblocks hb', ?_, htip'⟩
    simpa using hat''

/-- What the callers provide: the chain state was reached by a run over
`branch`, and its blocks are stored as they are. -/
structure Based (P : Primitives) (genesis : BlockHeader) (bs : BlockStore) (cs₀ : ChainState)
    (node : Node) (branch : List Block) : Prop where
  setting : Setting P genesis node.headers bs cs₀
  start : At P node.headers cs₀ node.chainstate branch
  owned : Owned P bs branch

/-- On the branch of the best tip, moreover, no two transactions share a txid. -/
structure Ready (P : Primitives) (genesis : BlockHeader) (bs : BlockStore) (cs₀ : ChainState)
    (node : Node) (branch : List Block) : Prop extends Based P genesis bs cs₀ node branch where
  distinct : ∀ down up, Planned bs node down up → ∀ n blocks, Loads bs (up.take n) blocks →
    DistinctBranch P (blocks.reverse ++ branch.drop down.length)

variable {blocks : List Block}

section
variable {node node' : Node} {ord : IterOrder} {down up done : List (Hash256 × ℕ)}
variable {old : Disconnecting} {new : Connecting}

theorem Loads.length_eq (h : Loads bs path blocks) : path.length = blocks.length := by
  simpa using congrArg List.length h

theorem Loads.take (h : Loads bs path blocks) (n : ℕ) : Loads bs (path.take n) (blocks.take n) := by
  unfold Loads at h ⊢
  rw [List.map_take, List.map_take, h]

theorem Loads.unique {blocks' : List Block} (h : Loads bs path blocks)
    (h' : Loads bs path blocks') : blocks = blocks' :=
  List.map_injective_iff.mpr (fun _ _ => Except.ok.inj) (h.symm.trans h')

theorem At.tip_eq {branch' : List Block} (h : At P headers cs₀ cs branch)
    (h' : At P headers cs₀ cs' branch') (hhash : cs.tip.1 = cs'.tip.1) : cs.tip = cs'.tip := by
  obtain ⟨s, hget, hheight⟩ := h.tip
  obtain ⟨s', hget', hheight'⟩ := h'.tip
  obtain rfl : s = s' := Option.some.inj (hget.symm.trans (hhash ▸ hget'))
  exact Prod.ext hhash (UInt32.toNat_inj.mp (hheight.symm.trans hheight'))

theorem Ascends.prefix (h : Ascends headers source path target) {part : List (Hash256 × ℕ)}
    (hpart : part <+: path) :
    ∃ mid, Ascends headers source part mid ∧ (part = path → mid = target) := by
  obtain ⟨more, rfl⟩ := hpart
  obtain ⟨mid, hmid, hmore⟩ := h.split
  refine ⟨mid, hmid, fun heq => ?_⟩
  rw [← heq] at h
  exact hmid.target_unique h

/-- The chain state after the disconnect phase. -/
structure Unwound (P : Primitives) (bs : BlockStore) (cs₀ : ChainState) (node : Node)
    (branch : List Block) (down up : List (Hash256 × ℕ)) (cs : ChainState) (fork : Hash256)
    (oldBlocks : List Block) : Prop where
  branch_eq : branch = oldBlocks ++ branch.drop down.length
  forkPoint : node.headers.findForkPoint node.chainstate.tip.1 node.headers.bestTip.1 = .ok fork
  forkStored : ∃ p, node.headers.get fork = some p
  descent : Ascends node.headers fork down node.chainstate.tip.1
  ascent : Ascends node.headers fork up node.headers.bestTip.1
  oldLoads : Loads bs down oldBlocks.reverse
  current : At P node.headers cs₀ cs (branch.drop down.length)
  tip : cs.tip.1 = fork

theorem Based.unwound (hbased : Based P genesis bs cs₀ node branch)
    (hplan : Planned bs node down up)
    (h : down.reverse.foldlM (disconnectNew P bs) node.chainstate = .ok cs) :
    ∃ fork oldBlocks, Unwound P bs cs₀ node branch down up cs fork oldBlocks := by
  obtain ⟨fork, p, hfork, hp, hdown, hup⟩ := findPaths_eq_ok hplan.paths
  obtain ⟨oldBlocks, rest, hbranch, hloads, hat, htip⟩ :=
    hbased.start.disconnectPath hbased.setting hdown rfl hbased.owned h
  have hdrop : branch.drop down.length = rest := by
    rw [hbranch, hloads.length_eq, List.length_reverse, List.drop_left]
  rw [← hdrop] at hbranch hat
  exact ⟨fork, oldBlocks, hbranch, hfork, ⟨p, hp⟩, hdown, hup, hloads, hat, htip⟩

structure Walked (P : Primitives) (bs : BlockStore) (cs₀ : ChainState) (node : Node)
    (branch : List Block) (down done : List (Hash256 × ℕ)) (cs : ChainState)
    (fork : Hash256) (oldBlocks newBlocks rest : List Block) : Prop where
  branch_eq : branch = oldBlocks ++ rest
  forkPoint : node.headers.findForkPoint node.chainstate.tip.1 node.headers.bestTip.1 = .ok fork
  descent : Ascends node.headers fork down node.chainstate.tip.1
  oldLoads : Loads bs down oldBlocks.reverse
  ascent : Ascends node.headers fork done cs.tip.1
  newLoads : Loads bs done newBlocks
  current : At P node.headers cs₀ cs (newBlocks.reverse ++ rest)

theorem Based.walked (hbased : Based P genesis bs cs₀ node branch)
    (hplan : Planned bs node down up) (hdone : done <+: up)
    (hdistinct : ∀ blocks, Loads bs done blocks →
      DistinctBranch P (blocks.reverse ++ branch.drop down.length))
    (hreach : Reaches P bs node down done old new) :
    ∃ fork oldBlocks newBlocks,
      Walked P bs cs₀ node branch down done new.chainstate fork oldBlocks newBlocks
        (branch.drop down.length) ∧
      (done = up → new.chainstate.tip.1 = node.headers.bestTip.1) := by
  obtain ⟨fork, oldBlocks, hunwound⟩ :=
    hbased.unwound hplan (disconnectSteps_eq_ok hreach.disconnected).1
  obtain ⟨target, htarget, hbest⟩ := Ascends.prefix hunwound.ascent hdone
  obtain ⟨newBlocks, hloads, hat, rfl⟩ := hunwound.current.connectPath hbased.setting htarget
    hunwound.tip hdistinct (connectSteps_eq_ok hreach.connected).1
  exact ⟨fork, oldBlocks, newBlocks, ⟨hunwound.branch_eq, hunwound.forkPoint, hunwound.descent,
    hunwound.oldLoads, htarget, hloads, hat⟩, hbest⟩

theorem Ready.distinct_of_prefix (hready : Ready P genesis bs cs₀ node branch)
    (hplan : Planned bs node down up) (hdone : done <+: up) (hloads : Loads bs done blocks) :
    DistinctBranch P (blocks.reverse ++ branch.drop down.length) := by
  rw [List.prefix_iff_eq_take.mp hdone] at hloads
  exact hready.distinct down up hplan done.length blocks hloads

theorem Ready.walked (hready : Ready P genesis bs cs₀ node branch)
    (hplan : Planned bs node down up) (hdone : done <+: up)
    (hreach : Reaches P bs node down done old new) :
    ∃ fork oldBlocks newBlocks rest,
      Walked P bs cs₀ node branch down done new.chainstate fork oldBlocks newBlocks rest ∧
      (done = up → new.chainstate.tip.1 = node.headers.bestTip.1) := by
  obtain ⟨fork, oldBlocks, newBlocks, h⟩ := hready.toBased.walked hplan hdone
    (fun _ => hready.distinct_of_prefix hplan hdone) hreach
  exact ⟨fork, oldBlocks, newBlocks, _, h⟩

theorem Loads.owned (h : Loads bs path blocks) (hgenuine : Genuine P headers bs) :
    Owned P bs blocks := by
  intro b hb b' hb'
  have hmem : Except.ok b ∈ path.map fun e => bs.loadAndDeserialize e.1 := by
    rw [h]
    exact List.mem_map_of_mem hb
  obtain ⟨e, _, he⟩ := List.mem_map.mp hmem
  rw [hgenuine.hash _ b he, he] at hb'
  exact (Except.ok.inj hb').symm

theorem rollback_args (hreach : Reaches P bs node down done old new) (hdone : done <+: up) :
    up.take new.connectedCount = done ∧ old.disconnectedBlocks = down.reverse := by
  constructor
  · rw [(connectSteps_eq_ok hreach.connected).2, Node.connecting, Nat.zero_add,
      ← List.prefix_iff_eq_take.mp hdone]
  · exact (disconnectSteps_eq_ok hreach.disconnected).2

theorem Based.rollback (hbased : Based P genesis bs cs₀ node branch)
    (hplan : Planned bs node down up) (hdone : done <+: up)
    (hdistinct : ∀ blocks, Loads bs done blocks →
      DistinctBranch P (blocks.reverse ++ branch.drop down.length))
    (hreach : Reaches P bs node down done old new)
    (h : rollback P bs (up.take new.connectedCount) old.disconnectedBlocks new.chainstate =
      (cs', none)) :
    At P node.headers cs₀ cs' branch ∧ cs'.tip = node.chainstate.tip := by
  obtain ⟨fork, oldBlocks, newBlocks, hwalked, -⟩ := hbased.walked hplan hdone hdistinct hreach
  obtain ⟨hcount, hblocks⟩ := rollback_args hreach hdone
  rw [hcount, hblocks, Reorg.rollback, List.reverse_reverse] at h
  rcases hmid : foldUntil (disconnectNew P bs) new.chainstate done.reverse with ⟨mid, _ | e⟩
  · rw [hmid] at h
    have hgenuine := hbased.setting.genuine
    have howned : Owned P bs (newBlocks.reverse ++ branch.drop down.length) := by
      intro b hb
      rcases List.mem_append.mp hb with hb | hb
      · exact hwalked.newLoads.owned hgenuine b (List.mem_reverse.mp hb)
      · exact hbased.owned b (by rw [hwalked.branch_eq]; exact List.mem_append_right _ hb)
    obtain ⟨undone, rest', hsplit, hloads, hat, htip⟩ := hwalked.current.disconnectPath
      hbased.setting hwalked.ascent rfl howned (foldUntil_eq_none.mp hmid)
    have hlen := hloads.length_eq.symm.trans hwalked.newLoads.length_eq
    obtain ⟨-, rfl⟩ := List.append_inj hsplit (by simpa using hlen.symm)
    have hbranch : ∀ blocks, Loads bs down blocks →
        blocks.reverse ++ branch.drop down.length = branch := by
      intro blocks hblocks
      rw [hblocks.unique hwalked.oldLoads, List.reverse_reverse]
      exact hwalked.branch_eq.symm
    have hold := (hbased.start.run.consistent hbased.setting.fresh).distinct
    obtain ⟨blocks, hloads', hat', htip'⟩ := hat.connectPath hbased.setting hwalked.descent htip
      (fun blocks hblocks => by rw [hbranch blocks hblocks]; exact hold)
      (foldUntil_eq_none.mp h)
    rw [hbranch blocks hloads'] at hat'
    exact ⟨hat', hat'.tip_eq hbased.start htip'⟩
  · rw [hmid] at h
    cases h

theorem Ready.rollback (hready : Ready P genesis bs cs₀ node branch)
    (hplan : Planned bs node down up) (hdone : done <+: up)
    (hreach : Reaches P bs node down done old new)
    (h : rollback P bs (up.take new.connectedCount) old.disconnectedBlocks new.chainstate =
      (cs', none)) :
    At P node.headers cs₀ cs' branch ∧ cs'.tip = node.chainstate.tip :=
  hready.toBased.rollback hplan hdone (fun _ => hready.distinct_of_prefix hplan hdone) hreach h

theorem activateBestChain_finished {oldTip newTip : Hash256} {disconnected connected : ℕ}
    (h : activateBestChain P ord bs node =
      .returned node' (.ok (.reorganized oldTip newTip disconnected connected))) :
    ∃ down up old new, Planned bs node down up ∧ Reaches P bs node down up old new ∧
      finish P ord node.headers node.chainstate.tip.1 node.headers.bestTip.1 down.length
        old.disconnectedTxs new =
          .returned node' (.ok (.reorganized oldTip newTip disconnected connected)) := by
  have hact := activateBestChain_activation P ord bs node
  generalize activateBestChain P ord bs node = out at h hact
  cases hact with
  | alreadyBest => cases h
  | noPaths => cases h
  | needBlocks => cases h
  | disconnectFailed => cases h
  | connectFailed hplan hsplit hreach hfail =>
    rcases abortConnect_eq_returned h with ⟨_, _, _, hr, _⟩ | ⟨_, _, _, _, hr, _⟩ | ⟨_, hr, _⟩ <;>
      cases hr
  | @finished down up old new hplan hreach => exact ⟨down, up, old, new, hplan, hreach, h⟩

theorem activateBestChain_reorganized {oldTip newTip : Hash256} {disconnected connected : ℕ}
    (h : activateBestChain P ord bs node =
      .returned node' (.ok (.reorganized oldTip newTip disconnected connected))) :
    ∃ down up old new, Planned bs node down up ∧ Reaches P bs node down up old new ∧
      node'.chainstate = new.chainstate ∧
      node.headers.switchActiveChain ord node.headers.bestTip.1 = .ok node'.headers ∧
      node'.mempool =
        (new.mempool.readdDisconnectedTxs P ord old.disconnectedTxs new.chainstate).1 := by
  obtain ⟨down, up, old, new, hplan, hreach, hfinish⟩ := activateBestChain_finished h
  obtain ⟨hcs, ⟨_, _, hr⟩ | ⟨hswitch, hpool, _⟩⟩ := finish_eq_returned hfinish
  · cases hr
  · exact ⟨down, up, old, new, hplan, hreach, hcs, hswitch, hpool⟩

structure Rejection (P : Primitives) (ord : IterOrder) (bs : BlockStore) (node node' : Node)
    (down done : List (Hash256 × ℕ)) (entry : Hash256 × ℕ) (rest : List (Hash256 × ℕ))
    (old : Disconnecting) (new : Connecting) (height : ℕ) (e : ConnectError) : Prop where
  plan : Planned bs node down (done ++ entry :: rest)
  reach : Reaches P bs node down done old new
  fail : connectStep P bs new entry = .error (.connect height e)
  rollback : rollback P bs ((done ++ entry :: rest).take new.connectedCount)
    old.disconnectedBlocks new.chainstate = (node'.chainstate, none)
  headers : node'.headers = node.headers.markInvalid ord node.headers.bestTip.1
  mempool : node'.mempool =
    (new.mempool.readdDisconnectedTxs P ord new.mempoolRemovedTxs node'.chainstate).1

theorem activateBestChain_rejected {height : ℕ} {e : ConnectError}
    (h : activateBestChain P ord bs node = .returned node' (.error (.connect height e))) :
    ∃ down done entry rest old new,
      Rejection P ord bs node node' down done entry rest old new height e := by
  have hact := activateBestChain_activation P ord bs node
  generalize activateBestChain P ord bs node = out at h hact
  cases hact with
  | alreadyBest => cases h
  | noPaths hpaths =>
    cases h
    exact absurd hpaths findPaths_ne_connect
  | needBlocks => cases h
  | disconnectFailed _ _ _ hfail =>
    cases h
    exact absurd hfail disconnectStep_ne_connect
  | @connectFailed down up done rest entry old new error hplan hsplit hreach hfail =>
    rcases abortConnect_eq_returned h with ⟨_, _, _, hr, hroll, hheaders, hmempool⟩ |
      ⟨_, _, _, _, hr, _⟩ | ⟨hne, hr, _⟩
    · cases hr
      subst hsplit
      exact ⟨down, done, entry, rest, old, new, hplan, hreach, hfail, hroll, hheaders, hmempool⟩
    · cases hr
    · cases hr
      exact absurd rfl (hne height e)
  | finished =>
    obtain ⟨_, ⟨_, _, hr⟩ | ⟨_, _, hr⟩⟩ := finish_eq_returned h <;> cases hr

theorem switchActiveChain_tip {best : Hash256} {headers' : HeaderStore}
    (htree : Tree P genesis headers) (hget : headers.get best = some s)
    (h : headers.switchActiveChain ord best = .ok headers') : headers'.tip = (best, s.height) := by
  obtain ⟨s', htip, hs', hheight⟩ := (tree_switchActiveChain htree h).tip_eq
  obtain ⟨oldTip, chain, _, -, -, hlast, -, rfl⟩ := switchActiveChain_eq_ok htree h
  have hbest : _ = best := Option.mem_unique htip hlast
  obtain rfl : s = s' := Option.some.inj (hget.symm.trans (hbest ▸ hs'))
  exact Prod.ext hbest hheight.symm

/-- The UTXO map is the one of the branch alone: after any run of connected
and disconnected blocks, after a reorganization, whose branch ends at the best
tip, and after the rollback of one. -/
theorem utxos_eq_replay (P : Primitives) (cs₀ : ChainState) (hfresh : Fresh cs₀) :
    (∀ cs branch, BlockRun P cs₀ cs branch →
      ∃ r, connectBranch P cs₀ branch = .ok r ∧ r.utxos = cs.utxos) ∧
    (∀ genesis ord bs node branch node' oldTip newTip disconnected connected,
      Ready P genesis bs cs₀ node branch →
      activateBestChain P ord bs node =
        .returned node' (.ok (.reorganized oldTip newTip disconnected connected)) →
      ∃ branch' r, BlockRun P cs₀ node'.chainstate branch' ∧
        connectBranch P cs₀ branch' = .ok r ∧ r.utxos = node'.chainstate.utxos ∧
        node'.chainstate.tip.1 = node.headers.bestTip.1 ∧
        node'.headers.tip = (node'.chainstate.tip.1, node'.chainstate.tip.2.toNat)) ∧
    (∀ genesis ord bs node branch node' height e, Ready P genesis bs cs₀ node branch →
      activateBestChain P ord bs node = .returned node' (.error (.connect height e)) →
      ∃ r, BlockRun P cs₀ node'.chainstate branch ∧ connectBranch P cs₀ branch = .ok r ∧
        r.utxos = node'.chainstate.utxos ∧ node'.chainstate.tip = node.chainstate.tip) := by
  refine ⟨?_, ?_, ?_⟩
  · intro cs branch hrun
    obtain ⟨r, hr, hutxos, -⟩ := hrun.connectBranch hfresh
    exact ⟨r, hr, hutxos⟩
  · intro genesis ord bs node branch node' _ _ _ _ hready h
    obtain ⟨down, up, old, new, hplan, hreach, hcs, hswitch, -⟩ := activateBestChain_reorganized h
    obtain ⟨fork, oldBlocks, newBlocks, rest, hwalked, hbest⟩ :=
      hready.walked hplan (List.prefix_refl up) hreach
    rw [← hcs] at hwalked hbest
    obtain ⟨r, hr, hutxos, -⟩ := hwalked.current.run.connectBranch hfresh
    obtain ⟨s, hget, hheight⟩ := hwalked.current.tip
    refine ⟨_, r, hwalked.current.run, hr, hutxos, hbest rfl, ?_⟩
    rw [← hbest rfl] at hswitch
    rw [switchActiveChain_tip hready.setting.tree hget hswitch, hheight]
  · intro genesis ord bs node branch node' height e hready h
    obtain ⟨down, done, entry, rest, old, new, hrejected⟩ := activateBestChain_rejected h
    obtain ⟨hat, htip⟩ := hready.rollback hrejected.plan (List.prefix_append _ _) hrejected.reach
      hrejected.rollback
    obtain ⟨r, hr, hutxos, -⟩ := hat.run.connectBranch hfresh
    exact ⟨r, hat.run, hr, hutxos, htip⟩

end

def flatStore (blocks : List Block) : BlockStore where
  index := insertAll ∅ (blocks.zipIdx.map fun e =>
    (e.1.header.blockHash poly, ⟨e.2, 0, (blockBytes e.1).length⟩))
  files := insertAll ∅ (blocks.zipIdx.map fun e =>
    (e.2, List.replicate entryPrefixSize 0 ++ blockBytes e.1))

theorem hash_of_flatStore {hash : Hash256} {b : Block}
    (h : (flatStore blocks).loadAndDeserialize hash = .ok b) :
    ∃ b' ∈ blocks, b'.header.blockHash poly = hash := by
  simp only [BlockStore.loadAndDeserialize, BlockStore.loadBlock, BlockStore.getLocation,
    bind_eq_ok, okOr_eq_ok] at h
  obtain ⟨_, ⟨loc, hloc, _⟩, _⟩ := h
  rcases lookup_insertAll_cases hloc with hmem | ⟨_, hnone⟩
  · obtain ⟨e, he, heq⟩ := List.mem_map.mp hmem
    exact ⟨e.1, List.fst_mem_of_mem_zipIdx he, (Prod.mk.inj heq).1⟩
  · simp at hnone

def holds (headers : HeaderStore) (bs : BlockStore) (b : Block) : Bool :=
  let hash := b.header.blockHash poly
  bs.loadAndDeserialize hash = .ok b && checkBlock b = .ok () &&
    (headers.get hash).all fun s => b.header = s.header

theorem loads_of_holds {part : List Block} (h : blocks.all (holds headers bs) = true)
    (hpart : part ⊆ blocks)
    (hpath : path.map Prod.fst = part.map fun b => b.header.blockHash poly) :
    Loads bs path part := by
  have hmap := congrArg (List.map bs.loadAndDeserialize) hpath
  rw [List.map_map, List.map_map] at hmap
  refine hmap.trans (List.map_congr_left fun b hb => ?_)
  have hb' := List.all_eq_true.mp h b (hpart hb)
  simp only [holds, Bool.and_eq_true, decide_eq_true_eq] at hb'
  exact hb'.1.1

theorem flatStore_genuine (h : blocks.all (holds headers (flatStore blocks)) = true) :
    Genuine poly headers (flatStore blocks) ∧ Owned poly (flatStore blocks) blocks := by
  have hholds : ∀ b ∈ blocks,
      (flatStore blocks).loadAndDeserialize (b.header.blockHash poly) = .ok b ∧
      checkBlock b = .ok () ∧ ∀ s, headers.get (b.header.blockHash poly) = some s →
        b.header = s.header := by
    intro b hb
    have hb' := List.all_eq_true.mp h b hb
    simp only [holds, Bool.and_eq_true, decide_eq_true_eq, Option.all_eq_true] at hb'
    exact ⟨hb'.1.1, hb'.1.2, hb'.2⟩
  have hload : ∀ hash b, (flatStore blocks).loadAndDeserialize hash = .ok b →
      b ∈ blocks ∧ b.header.blockHash poly = hash := by
    intro hash b hb
    obtain ⟨b', hb', rfl⟩ := hash_of_flatStore hb
    obtain rfl : b' = b := Except.ok.inj ((hholds b' hb').1.symm.trans hb)
    exact ⟨hb', rfl⟩
  refine ⟨⟨fun hash b hb => (hload hash b hb).2, fun hash b hb => ?_, fun hash b s hb hs => ?_⟩,
    fun b hb b' hb' => Except.ok.inj (hb'.symm.trans (hholds b hb).1)⟩
  · exact (hholds b (hload hash b hb).1).2.1
  · obtain ⟨hmem, rfl⟩ := hload hash b hb
    exact (hholds b hmem).2.2 s hs

def blockA1 : Block := ⟨headerA1, [coinbaseTx 1 0]⟩

def blockB1 : Block := ⟨headerB1, [coinbaseTx 1 0]⟩

def blockB2 (txs : List Transaction) : Block := ⟨headerB2, txs⟩

def forkStore (txs : List Transaction) : BlockStore := flatStore [blockA1, blockB1, blockB2 txs]

def forkRun : List HeaderOp :=
  [.acceptHeader headerA1, .acceptHeader headerB1, .acceptHeader headerB2]

def connectA1 : Except ConnectError ChainState :=
  connectBlock poly emptyState blockA1 1 (headerA1.blockHash poly)

def stateA1 : ChainState := connectA1.toOption.getD emptyState

def forkHeaders : HeaderStore := run (HeaderOp.apply poly) easyStore forkRun

def forkNode (mempool : Pool) : Node where
  headers := forkHeaders
  chainstate := stateA1
  mempool := mempool

theorem connectA1_eq : connectA1 = .ok stateA1 := by
  have hok : connectA1.toOption.isSome = true := by decide +kernel
  obtain ⟨cs, hcs⟩ := Option.isSome_iff_exists.mp hok
  rw [stateA1, hcs, Option.getD_some]
  exact toOption_eq_some.mp hcs

theorem stateA1_tip : stateA1.tip = (headerA1.blockHash poly, 1) := by
  decide +kernel

theorem forkHeaders_bestTip : forkHeaders.bestTip.1 = headerB2.blockHash poly := by
  decide +kernel

theorem fork_paths {node : Node} {down up : List (Hash256 × ℕ)}
    (hheaders : node.headers = forkHeaders)
    (htip : node.chainstate.tip = (headerA1.blockHash poly, 1))
    (h : Planned bs node down up) :
    down = [(headerA1.blockHash poly, 1)] ∧
      up = [(headerB1.blockHash poly, 1), (headerB2.blockHash poly, 2)] := by
  have hpaths : (findPaths forkHeaders (headerA1.blockHash poly) 1
      (headerB2.blockHash poly)).toOption = some ([(headerA1.blockHash poly, 1)],
          [(headerB1.blockHash poly, 1), (headerB2.blockHash poly, 2)]) := by
    decide +kernel
  have hplanned := h.paths
  simp only [hheaders, htip, forkHeaders_bestTip, toOption_eq_some.mp hpaths,
    Except.ok.injEq, Prod.mk.injEq] at hplanned
  exact ⟨hplanned.1.symm, hplanned.2.symm⟩

/-- `c` on `b` is the better branch, next to `a` on the same trunk. -/
theorem fork_ready {trunk : List Block} {a b c : Block} {node : Node}
    (htree : Tree poly easyGenesis node.headers)
    (hat : At poly node.headers emptyState node.chainstate (a :: trunk))
    (hholds : [a, b, c].all (holds node.headers (flatStore [a, b, c])) = true)
    (hpaths : ∀ down up, Planned (flatStore [a, b, c]) node down up → down.length = 1 ∧
      up.map Prod.fst = [b.header.blockHash poly, c.header.blockHash poly])
    (hdistinct : DistinctBranch poly (c :: b :: trunk)) :
    Ready poly easyGenesis (flatStore [a, b, c]) emptyState node (a :: trunk) := by
  obtain ⟨hgenuine, howned⟩ := flatStore_genuine hholds
  refine ⟨⟨⟨emptyState_fresh, rfl, htree, hgenuine⟩, hat, ?_⟩, ?_⟩
  · intro t ht t' hload
    rcases List.mem_cons.mp ht with rfl | htrunk
    · exact howned t List.mem_cons_self t' hload
    · -- the trunk is not in the store
      have hold := (hat.run.consistent emptyState_fresh).distinct.hashes
      have hnew := hdistinct.hashes
      have hmem := List.mem_map_of_mem (f := fun t : Block => t.header.blockHash poly) htrunk
      obtain ⟨x, hx, hhash⟩ := hash_of_flatStore hload
      simp only [branchHashes, List.map_cons, List.nodup_cons, List.mem_cons, not_or] at hold hnew
      simp only [List.mem_cons, List.not_mem_nil, or_false] at hx
      rcases hx with rfl | rfl | rfl
      · exact absurd hmem (by rw [← hhash]; exact hold.1)
      · exact absurd hmem (by rw [← hhash]; exact hnew.2.1)
      · exact absurd hmem (by rw [← hhash]; exact hnew.1.2)
  · intro down up hplan n blocks hblocks
    obtain ⟨hdown, hup⟩ := hpaths down up hplan
    have hloads : Loads (flatStore [a, b, c]) up [b, c] := loads_of_holds hholds (by simp) hup
    rw [hblocks.unique (hloads.take n), hdown]
    rcases n with _ | _ | n
    · exact hdistinct.tail.tail
    · exact hdistinct.tail
    · rw [List.take_of_length_le (by simp)]
      exact hdistinct

theorem forkNode_headers (mempool : Pool) : (forkNode mempool).headers = forkHeaders := by
  simp only [forkNode]

theorem forkNode_tip (mempool : Pool) :
    (forkNode mempool).chainstate.tip = (headerA1.blockHash poly, 1) := by
  simp only [forkNode]
  exact stateA1_tip

theorem forkNode_paths {mempool : Pool} {down up : List (Hash256 × ℕ)}
    (h : Planned bs (forkNode mempool) down up) :
    down = [(headerA1.blockHash poly, 1)] ∧
      up = [(headerB1.blockHash poly, 1), (headerB2.blockHash poly, 2)] :=
  fork_paths (forkNode_headers mempool) (forkNode_tip mempool) h

theorem forkHeaders_tree : Tree poly easyGenesis forkHeaders :=
  tree_run (tree_makeFresh poly easyGenesis ConsensusParams.testing none)
    (by decide +kernel) (by decide +kernel)

theorem forkNode_ready (txs : List Transaction) (mempool : Pool)
    (hholds : [blockA1, blockB1, blockB2 txs].all (holds forkHeaders (forkStore txs)) = true)
    (hdistinct : DistinctBranch poly [blockB2 txs, blockB1]) :
    Ready poly easyGenesis (forkStore txs) emptyState (forkNode mempool) [blockA1] := by
  have hrun : BlockRun poly emptyState (forkNode mempool).chainstate [blockA1] := by
    simp only [forkNode]
    exact BlockRun.start.connect (by decide +kernel) (.inl rfl) (by decide)
      ⟨by decide +kernel, List.not_mem_nil⟩ connectA1_eq
  have htree := forkHeaders_tree
  rw [← forkNode_headers mempool] at htree hholds
  have hheight : (forkHeaders.get (headerA1.blockHash poly)).map StoredHeader.height = some 1 := by
    decide +kernel
  obtain ⟨s, hs, hone⟩ := Option.map_eq_some_iff.mp hheight
  refine fork_ready htree ⟨hrun, ?_⟩ hholds (fun down up hplan => ?_) hdistinct
  · rw [forkNode_headers, forkNode_tip]
    exact ⟨s, hs, hone⟩
  · obtain ⟨rfl, rfl⟩ := forkNode_paths hplan
    exact ⟨rfl, rfl⟩

theorem forkNode_reorganizes :
    ∃ node', activateBestChain poly .id (forkStore [coinbaseTx 2 0]) (forkNode (Pool.empty 1000)) =
      .returned node' (.ok (.reorganized (headerA1.blockHash poly) (headerB2.blockHash poly) 1 2)) :=
  result_eq_some.mp (by decide +kernel)

theorem utxos_replayed_on_fork :
    ∃ node', activateBestChain poly .id (forkStore [coinbaseTx 2 0]) (forkNode (Pool.empty 1000)) =
          .returned node' (.ok (.reorganized (headerA1.blockHash poly)
            (headerB2.blockHash poly) 1 2)) ∧
      ∃ branch r, BlockRun poly emptyState node'.chainstate branch ∧
        connectBranch poly emptyState branch = .ok r ∧
        r.utxos = node'.chainstate.utxos := by
  obtain ⟨node', hnode'⟩ := forkNode_reorganizes
  have hready := forkNode_ready [coinbaseTx 2 0] (Pool.empty 1000) (by decide +kernel)
    ⟨by decide +kernel, by decide +kernel⟩
  have hall := (utxos_eq_replay poly emptyState emptyState_fresh).2.1 easyGenesis .id
    _ _ [blockA1] node' _ _ _ _ hready hnode'
  obtain ⟨branch, r, hrun, hr, hutxos, -⟩ := hall
  exact ⟨node', hnode', branch, r, hrun, hr, hutxos⟩

end Ironcat.ReorgHistory
