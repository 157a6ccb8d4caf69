import Ironcat.HeaderReload
import Ironcat.NodeTasks
import Ironcat.ReorgHistory
import Ironcat.RequestedBlocks

/-!
# Connected blocks form one chain

`connect_block` compares heights only, so that a block extends the chainstate
tip has to come from its callers. It does where no reorg is running when the
download manager connects a block, no reorg notification waits to be read, the
tip lies on the active chain of the headers, and the block store returns what
its hashes name.
-/

namespace Ironcat.ChainLinkage

open Lib.ByteCodec Lib.Checked Lib.Runs Types BlockWire BlockFiles StoredBytes
open Chainstate Ledger Headers HeaderTree HeaderRuns HeaderPaths HeaderDepth HeaderReload Difficulty
open Mempool Reorg ReorgHistory BlockDownload NodeEvents NodeTasks DownloadWindow RequestedBlocks

variable {P : Primitives} {genesis : BlockHeader} {H : Set BlockHeader} {t t' : Tasks}
variable {headers : HeaderStore} {bs : BlockStore} {cs cs' : ChainState} {r : ReorgTask}
variable {path : List (Hash256 × ℕ)} {source target hash tip : Hash256} {block : Block}

def Connect.Linked (c : Connect) : Prop := c.block.header.prevHash = c.tip

/-- Every block that was connected to a tip the header store knew names that tip
as its parent. -/
def Linked (t : Tasks) : Prop := ∀ c ∈ t.journal, c.known = true → Connect.Linked c

def HeadersMatch (headers : HeaderStore) (bs : BlockStore) : Prop :=
  ∀ hash b s, bs.loadAndDeserialize hash = .ok b → headers.get hash = some s → b.header = s.header

variable {e : Hash256 × ℕ}

theorem ascends_cons (h : Ascends headers source (e :: path) target) :
    ∃ s, headers.get e.1 = some s ∧ s.header.prevHash = source ∧
      Ascends headers e.1 path target := by
  have hsplit : Ascends headers source ([e] ++ path) target := h
  obtain ⟨mid, hlow, hhigh⟩ := hsplit.split
  have hfirst : Ascends headers source ([] ++ [e]) mid := hlow
  obtain ⟨s, hget, rfl, hbelow⟩ := ascends_concat.mp hfirst
  exact ⟨s, hget, (ascends_nil.mp hbelow).symm, hhigh⟩

theorem connectBlock_tip {height : UInt32}
    (h : connectBlock P cs block height hash = .ok cs') :
    height = saturatingSucc cs.tip.2 ∧ cs'.tip = (hash, height) := by
  obtain ⟨hheight, _, _, _, _, _, _, htip, _⟩ := connectBlock_eq_ok h
  exact ⟨hheight, htip⟩

theorem connectEntry_eq_ok :
    connectEntry P bs cs e = .ok (cs', block) ↔ bs.loadAndDeserialize e.1 = .ok block ∧
      connectBlock P cs block (UInt32.ofNat e.2) e.1 = .ok cs' := by
  simp only [connectEntry, bind_eq_ok, pure_eq_ok, mapError_eq_ok, Prod.mk.injEq]
  constructor
  · rintro ⟨b, hload, _, hconn, rfl, rfl⟩
    exact ⟨hload, hconn⟩
  · rintro ⟨hload, hconn⟩
    exact ⟨block, hload, cs', hconn, rfl, rfl⟩

theorem Linked.record (h : Linked t)
    (hlink : (t.sys.node.headers.get t.sys.node.chainstate.tip.1).isSome →
      block.header.prevHash = t.sys.node.chainstate.tip.1) : Linked (t.record block) := by
  intro c hc hknown
  rcases List.mem_append.mp hc with hold | hnew
  · exact h c hold hknown
  · obtain rfl := List.mem_singleton.mp hnew
    exact hlink hknown

section Reorg

/-- Where the chainstate tip is while a reorg runs: on the way down to the fork
point, on the way up to the best tip, or back. -/
def Aligned (headers : HeaderStore) (tip : Hash256) (r : ReorgTask) : Prop :=
  ∃ fork active, Ascends headers fork r.connectPath r.bestHash ∧
    match r.phase with
    | .disconnecting rest => r.connectedCount = 0 ∧ Ascends headers fork rest.reverse tip ∧
        Ascends headers fork (rest.reverse ++ r.disconnectedBlocks.reverse) active
    | .connecting rest => ∃ done, r.connectPath = done ++ rest ∧ r.connectedCount = done.length ∧
        Ascends headers fork done tip ∧ Ascends headers fork r.disconnectedBlocks.reverse active
    | .undoing rest => Ascends headers fork rest.reverse tip ∧
        Ascends headers fork r.disconnectedBlocks.reverse active
    | .restoring rest => Ascends headers tip rest active

def ReorgAligned (t : Tasks) : Prop :=
  ∀ r, t.reorg = some r → Aligned t.sys.node.headers t.sys.node.chainstate.tip.1 r

theorem reorgAligned_of_none (h : t.reorg = none) : ReorgAligned t := by simp [ReorgAligned, h]

variable {rest : List (Hash256 × ℕ)}

theorem tip_of_disconnectNew (hmatch : HeadersMatch headers bs)
    (hasc : Ascends headers source (e :: rest).reverse cs.tip.1)
    (h : disconnectNew P bs cs e = .ok cs') : Ascends headers source rest.reverse cs'.tip.1 := by
  obtain ⟨b, hload, hblock⟩ := disconnectNew_eq_ok.mp h
  obtain ⟨_, htip, htip'⟩ := disconnectBlock_tip hblock
  rw [List.reverse_cons, ascends_concat] at hasc
  obtain ⟨s, hget, rfl, hbelow⟩ := hasc
  rw [htip', hmatch _ b s hload hget]
  exact hbelow

theorem disconnectStep_eq_ok {st st' : Disconnecting} (h : disconnectStep P bs st e = .ok st') :
    disconnectNew P bs st.chainstate e = .ok st'.chainstate ∧
      st'.disconnectedBlocks = st.disconnectedBlocks ++ [e] := by
  have hsteps := disconnectSteps_eq_ok (foldlM_cons_eq_ok.mpr ⟨st', h, foldlM_nil_eq_ok.mpr rfl⟩)
  obtain ⟨cs, hcs, hnil⟩ := foldlM_cons_eq_ok.mp hsteps.1
  exact ⟨foldlM_nil_eq_ok.mp hnil ▸ hcs, hsteps.2⟩

theorem tip_of_connectEntry (hmatch : HeadersMatch headers bs)
    (hasc : Ascends headers cs.tip.1 (e :: path) target)
    (h : connectEntry P bs cs e = .ok (cs', block)) :
    block.header.prevHash = cs.tip.1 ∧ Ascends headers cs'.tip.1 path target := by
  obtain ⟨hload, hblock⟩ := connectEntry_eq_ok.mp h
  obtain ⟨s, hget, hprev, hrest⟩ := ascends_cons hasc
  refine ⟨?_, (connectBlock_tip hblock).2 ▸ hrest⟩
  rw [hmatch e.1 block s hload hget, hprev]

theorem ascends_connected {done : List (Hash256 × ℕ)}
    (hup : Ascends headers source (done ++ e :: rest) target)
    (hdone : Ascends headers source done tip) :
    Ascends headers tip (e :: rest) target ∧ Ascends headers source (done ++ [e]) e.1 := by
  constructor
  · obtain ⟨mid, hlow, hhigh⟩ := hup.split
    obtain rfl := hdone.target_unique hlow
    exact hhigh
  · rw [List.append_cons] at hup
    obtain ⟨mid, hlow, _⟩ := hup.split
    obtain ⟨s, _, rfl, _⟩ := ascends_concat.mp hlow
    exact hlow

theorem aligned_beginActivate (ord : IterOrder) (mempoolLocked : Bool) (h : ReorgAligned t) :
    ReorgAligned (t.beginActivate ord mempoolLocked) := by
  unfold Tasks.beginActivate
  dsimp only
  split_ifs
  · exact h
  · exact h
  · exact h
  · split
    · exact h
    · next down up hpaths =>
      split_ifs
      · exact h
      · rintro r ⟨⟩
        obtain ⟨fork, _, _, _, hdown, hup⟩ := findPaths_eq_ok hpaths
        refine ⟨fork, t.sys.node.chainstate.tip.1, hup, ?_⟩
        simpa using hdown

/-- Where `activate_best_chain` and `rollback` connect a block, the tip is its
parent. -/
theorem aligned_reorgStep (hmatch : HeadersMatch t.sys.node.headers t.sys.blocks.reader)
    (hreorg : t.reorg = some r) (halign : ReorgAligned t) (h : Linked t) :
    ReorgAligned (t.reorgStep P r) ∧ Linked (t.reorgStep P r) := by
  obtain ⟨fork, active, hup, hphase⟩ := halign r hreorg
  unfold Tasks.reorgStep
  dsimp only
  cases hp : r.phase with
  | disconnecting rest =>
    rw [hp] at hphase
    obtain ⟨hcount, htip, hold⟩ := hphase
    cases rest with
    | nil =>
      refine ⟨?_, h⟩
      rintro r' ⟨⟩
      exact ⟨fork, active, hup, [], rfl, hcount, htip, hold⟩
    | cons e rest =>
      dsimp only
      split
      · exact ⟨reorgAligned_of_none rfl, h⟩
      · next st hstep =>
        refine ⟨?_, h⟩
        rintro r' ⟨⟩
        obtain ⟨hnew, hblocks⟩ := disconnectStep_eq_ok hstep
        refine ⟨fork, active, hup, hcount, tip_of_disconnectNew hmatch htip hnew, ?_⟩
        have hrest : (e :: rest).reverse ++ r.disconnectedBlocks.reverse =
            rest.reverse ++ st.disconnectedBlocks.reverse := by simp [hblocks]
        exact hrest ▸ hold
  | connecting rest =>
    rw [hp] at hphase
    obtain ⟨done, hpath, hcount, htip, hold⟩ := hphase
    cases rest with
    | nil =>
      dsimp only
      split <;> exact ⟨reorgAligned_of_none rfl, h⟩
    | cons e rest =>
      rw [hpath] at hup
      dsimp only
      split
      · refine ⟨?_, h⟩
        rintro r' ⟨⟩
        refine ⟨fork, active, hpath ▸ hup, ?_, hold⟩
        rw [List.reverse_reverse, hcount, hpath, List.take_left]
        exact htip
      · exact ⟨reorgAligned_of_none rfl, h⟩
      · next cs block hconn =>
        obtain ⟨hasc, hdone⟩ := ascends_connected hup htip
        have htip' := (connectBlock_tip (connectEntry_eq_ok.mp hconn).2).2
        refine ⟨?_, h.record fun _ => (tip_of_connectEntry hmatch hasc hconn).1⟩
        rintro r' ⟨⟩
        refine ⟨fork, active, hpath ▸ hup, done ++ [e], ?_, ?_, ?_, hold⟩
        · rw [hpath, List.append_cons]
        · simp [hcount]
        · change Ascends _ fork (done ++ [e]) cs.tip.1
          rwa [htip']
  | undoing rest =>
    rw [hp] at hphase
    obtain ⟨htip, hold⟩ := hphase
    cases rest with
    | nil =>
      refine ⟨?_, h⟩
      rintro r' ⟨⟩
      obtain rfl := ascends_nil.mp htip
      exact ⟨_, active, hup, hold⟩
    | cons e rest =>
      dsimp only
      split
      · exact ⟨reorgAligned_of_none rfl, h⟩
      · next cs hnew =>
        refine ⟨?_, h⟩
        rintro r' ⟨⟩
        exact ⟨fork, active, hup, tip_of_disconnectNew hmatch htip hnew, hold⟩
  | restoring rest =>
    rw [hp] at hphase
    cases rest with
    | nil => exact ⟨reorgAligned_of_none rfl, h⟩
    | cons e rest =>
      dsimp only
      split
      · exact ⟨reorgAligned_of_none rfl, h⟩
      · next cs block hconn =>
        obtain ⟨hlink, hrest⟩ := tip_of_connectEntry hmatch hphase hconn
        refine ⟨?_, h.record fun _ => hlink⟩
        rintro r' ⟨⟩
        exact ⟨fork, active, hup, hrest⟩

end Reorg

theorem reorgStep_frame (P : Primitives) (t : Tasks) (r : ReorgTask) :
    (t.reorgStep P r).manager = t.manager ∧
    (t.reorgStep P r).sys.download = t.sys.download ∧
    ((t.reorgStep P r).sys.notices = t.sys.notices ∧
        ((t.reorgStep P r).sys.node.headers = t.sys.node.headers ∨
          (t.reorgStep P r).sys.node.headers = t.sys.node.headers.markInvalid r.ord r.bestHash) ∨
      (t.reorgStep P r).sys.notices ≠ [] ∧
        ∃ hs height, t.sys.node.headers.switchActiveChain r.ord r.bestHash = .ok hs ∧
          (t.reorgStep P r).sys.node.headers = hs.purgeStaleForks r.ord height) := by
  unfold Tasks.reorgStep
  dsimp only
  split
  · split <;> exact ⟨rfl, rfl, .inl ⟨rfl, .inl rfl⟩⟩
  · exact ⟨rfl, rfl, .inl ⟨rfl, .inl rfl⟩⟩
  · split <;> exact ⟨rfl, rfl, .inl ⟨rfl, .inl rfl⟩⟩
  · split
    · exact ⟨rfl, rfl, .inl ⟨rfl, .inl rfl⟩⟩
    · next hs hswitch => exact ⟨rfl, rfl, .inr ⟨by simp, hs, _, hswitch, rfl⟩⟩
  · split <;> exact ⟨rfl, rfl, .inl ⟨rfl, .inl rfl⟩⟩
  · exact ⟨rfl, rfl, .inl ⟨rfl, .inl rfl⟩⟩
  · split <;> exact ⟨rfl, rfl, .inl ⟨rfl, .inl rfl⟩⟩
  · exact ⟨rfl, rfl, .inl ⟨rfl, .inr rfl⟩⟩

/-- The blocks that the manager is about to connect are those of the active chain
at their heights. -/
def ManagerAligned (P : Primitives) (H : Set BlockHeader) (t : Tasks) : Prop :=
  match t.manager with
  | .idle | .draining => True
  | .connecting hash block rawBytes height => GenuineEntry P H ⟨hash, block, rawBytes⟩ ∧
      (t.sys.notices = [] → t.sys.node.headers.activeChain[height]? = some hash)
  | .catchingUp _ hashes =>
      t.sys.notices = [] → ∀ e ∈ hashes, t.sys.node.headers.activeChain[e.1]? = some e.2

theorem managerAligned_of_idle (h : t.manager.isIdle) : ManagerAligned P H t := by
  unfold ManagerAligned
  cases hmanager : t.manager with
  | idle | draining => trivial
  | connecting | catchingUp => simp [hmanager, ManagerTask.isIdle] at h

theorem ManagerAligned.of_sub (h : ManagerAligned P H t) (hmanager : t'.manager = t.manager)
    (hnotices : t'.sys.notices = [] → t.sys.notices = [] ∧
      t.sys.node.headers.activeChain <+: t'.sys.node.headers.activeChain) :
    ManagerAligned P H t' := by
  unfold ManagerAligned at h ⊢
  rw [hmanager]
  split
  · trivial
  · trivial
  · next heq =>
    rw [heq] at h
    refine ⟨h.1, fun hnone => ?_⟩
    obtain ⟨hnone', hchain⟩ := hnotices hnone
    exact getElem?_of_prefix hchain (h.2 hnone')
  · next heq =>
    rw [heq] at h
    intro hnone e he
    obtain ⟨hnone', hchain⟩ := hnotices hnone
    exact getElem?_of_prefix hchain (h hnone' e he)

structure TaskInv (P : Primitives) (genesis : BlockHeader) (H : Set BlockHeader) (t : Tasks) :
    Prop where
  placed : Placed P genesis H t.sys.node.headers
  requested : Requested P H t.sys
  manager : ManagerAligned P H t
  reorg : ReorgAligned t
  linked : Linked t

theorem TaskInv.reorgStep (hinj : HashInjOn P H) (h : TaskInv P genesis H t)
    (hreorg : t.reorg = some r) (hmatch : HeadersMatch t.sys.node.headers t.sys.blocks.reader) :
    TaskInv P genesis H (t.reorgStep P r) := by
  obtain ⟨hmanager, hdownload, hheaders⟩ := reorgStep_frame P t r
  obtain ⟨halign, hlinked⟩ := aligned_reorgStep (P := P) hmatch hreorg h.reorg h.linked
  obtain ⟨hnotices, hsame⟩ | ⟨hnotices, hs, height, hswitch, hpurged⟩ := hheaders
  · have hchain : (t.reorgStep P r).sys.node.headers.activeChain = t.sys.node.headers.activeChain := by
      rcases hsame with heq | heq <;> rw [heq]
      rfl
    refine ⟨?_, ?_, ?_, halign, hlinked⟩
    · rcases hsame with heq | heq
      · exact heq.symm ▸ h.placed
      · exact heq.symm ▸ h.placed.markInvalid _ _
    · exact h.requested.of_sub hnotices (hchain ▸ List.prefix_refl _)
        (fun _ _ he => .inl (hdownload ▸ he)) fun _ _ hn => .inl (hdownload ▸ hn)
    · exact h.manager.of_sub hmanager fun hnone => ⟨hnotices ▸ hnone, hchain ▸ List.prefix_refl _⟩
  · refine ⟨?_, ⟨fun hnone => absurd hnone hnotices, hdownload ▸ h.requested.genuine,
      fun hnone => absurd hnone hnotices⟩, ?_, halign, hlinked⟩
    · exact hpurged.symm ▸ (h.placed.switchActiveChain hinj hswitch).purgeStaleForks _ _
    · exact h.manager.of_sub hmanager fun hnone => absurd hnone hnotices

theorem height_lt (hplaced : Placed P genesis H headers) {height : ℕ}
    (hactive : headers.activeChain[height]? = some hash) : height < 2 ^ 32 := by
  obtain ⟨s, hget, rfl⟩ := hplaced.trunk.path.lookup hplaced.trunk.root hactive
  exact hplaced.bounded hash s hget

theorem prevHash_eq_tip (hplaced : Placed P genesis H headers) {height : ℕ}
    (hactive : headers.activeChain[height]? = some hash)
    (hheader : ∀ s, headers.get hash = some s → s.header ∈ H → block.header = s.header)
    (hconnect : connectBlock P cs block (UInt32.ofNat height) hash = .ok cs')
    (htip : headers.activeChain[cs.tip.2.toNat]? = some cs.tip.1) (hmax : cs.tip.2 ≠ 0xFFFFFFFF) :
    block.header.prevHash = cs.tip.1 := by
  have hlt := height_lt hplaced hactive
  have hnat := congrArg UInt32.toNat (connectBlock_tip hconnect).1
  rw [UInt32.toNat_ofNat_of_lt' hlt, toNat_saturatingSucc hmax] at hnat
  rw [hnat] at hactive
  obtain ⟨s, hget, hprev, hheight⟩ := hplaced.trunk.path.linked _ hash hactive
  have hne : hash ≠ genesis.blockHash P := by
    rintro rfl
    obtain rfl := Option.mem_unique hget hplaced.trunk.root
    exact Nat.succ_ne_zero _ hheight.symm
  rw [hheader s hget (hplaced.below hash s hget hne).1]
  exact Option.mem_unique hprev htip

def TipActive (node : Node) : Prop :=
  (node.headers.get node.chainstate.tip.1).isSome → node.chainstate.tip.2 ≠ 0xFFFFFFFF ∧
    node.headers.activeChain[node.chainstate.tip.2.toNat]? = some node.chainstate.tip.1

instance (node : Node) : Decidable (TipActive node) := inferInstanceAs (Decidable (_ → _ ∧ _))

/-- What the manager has to find when it calls `connect_block`. -/
def Quiet (t : Tasks) : Prop := t.reorg.isNone ∧ t.sys.notices = [] ∧ TipActive t.sys.node

instance : DecidablePred Quiet := fun t => inferInstanceAs (Decidable (_ ∧ _ ∧ TipActive t.sys.node))

/-- A block is connected that the manager has in its hands. -/
theorem TaskInv.connected {sys : System} {manager : ManagerTask} {height : ℕ}
    (h : TaskInv P genesis H t) (hquiet : Quiet t) (hconn : ConnectedTo P t.sys sys hash block height)
    (hactive : t.sys.node.headers.activeChain[height]? = some hash)
    (hheader : ∀ s, t.sys.node.headers.get hash = some s → s.header ∈ H → block.header = s.header)
    (hmanager : ManagerAligned P H { t.record block with sys, manager }) :
    TaskInv P genesis H { t.record block with sys, manager } := by
  refine ⟨hconn.headers ▸ h.placed, h.requested.connected hconn, hmanager,
    reorgAligned_of_none (Option.isNone_iff_eq_none.mp hquiet.1), h.linked.record fun hknown => ?_⟩
  obtain ⟨hmax, htip⟩ := hquiet.2.2 hknown
  exact prevHash_eq_tip h.placed hactive hheader hconn.connect htip hmax

/-- A move that connects nothing. -/
theorem TaskInv.quiet (h : TaskInv P genesis H t) (hnode : t'.sys.node = t.sys.node)
    (hreorg : t'.reorg = t.reorg) (hjournal : t'.journal = t.journal)
    (hreq : Requested P H t'.sys) (hmanager : ManagerAligned P H t') : TaskInv P genesis H t' := by
  refine ⟨hnode ▸ h.placed, hreq, hmanager, ?_, ?_⟩
  · intro r hr
    rw [hnode]
    exact h.reorg r (hreorg ▸ hr)
  · intro c hc
    exact h.linked c (hjournal ▸ hc)

variable {amb : Ambient}

theorem TaskInv.endCatchUp {connected : Bool} (h : TaskInv P genesis H t) :
    TaskInv P genesis H (t.endCatchUp amb connected) := by
  cases connected with
  | false => exact h.quiet rfl rfl rfl h.requested trivial
  | true =>
    refine h.quiet rfl rfl rfl ?_ trivial
    exact h.requested.of_sub rfl (List.prefix_refl _) (fun _ _ => .inl) fun _ _ => .inl

theorem TaskInv.managerStep (hinj : HashInjOn P H)
    (h : TaskInv P genesis H t) (hquiet : t.manager.connects → Quiet t)
    (hmatch : t.manager.loads → HeadersMatch t.sys.node.headers t.sys.blocks.reader) :
    TaskInv P genesis H (t.managerStep P amb) := by
  have hmanager := h.manager
  unfold ManagerAligned at hmanager
  unfold Tasks.managerStep
  split
  · exact h
  · next hash block rawBytes height heq =>
    rw [heq] at hmanager hquiet
    obtain ⟨⟨hhash, hmem⟩, hactive⟩ := hmanager
    rcases connectAndStore_cases P amb t.sys hash block rawBytes height with hfail | ⟨sys, hok, hconn⟩
    · rw [hfail]
      refine h.quiet rfl rfl rfl ?_ trivial
      exact h.requested.of_sub rfl (List.prefix_refl _) (fun _ _ => .inl) fun _ _ => .inl
    · rw [hok]
      refine h.connected (hquiet rfl) hconn (hactive (hquiet rfl).2.1) (fun s hget hs => ?_) trivial
      exact hinj hmem hs (hhash.trans (h.placed.trunk.keyed _ s hget).symm)
  · dsimp only
    split
    · exact h.quiet rfl rfl rfl h.requested trivial
    · next e hlook =>
      refine h.quiet rfl rfl rfl (h.requested.dropPending _) ?_
      exact ⟨h.requested.genuine _ e hlook, fun hnone => h.requested.buffered hnone _ e hlook⟩
  · dsimp only
    split_ifs
    · exact h.endCatchUp
    · split
      · exact h.endCatchUp
      · next e hashes hrange =>
        refine h.quiet rfl rfl rfl h.requested fun _ e' he' => ?_
        rw [← hrange] at he'
        exact (mem_hashesInRange.mp he').2.2
  · next connected e hashes heq =>
    rw [heq] at hmanager hquiet hmatch
    split
    · next sys block hcatch hload =>
      obtain ⟨block', hload', hconn, _⟩ := catchUpBlock_eq_ok hcatch
      obtain rfl := Except.ok.inj (hload.symm.trans hload')
      have hchain := hmanager (hquiet rfl).2.1
      refine h.connected (hquiet rfl) hconn (hchain e List.mem_cons_self)
        (fun s hget _ => hmatch rfl e.2 block s hload hget) fun _ e' he' => ?_
      change sys.node.headers.activeChain[e'.1]? = some e'.2
      rw [hconn.headers]
      exact hchain e' (List.mem_cons_of_mem _ he')
    · exact h.endCatchUp

theorem TaskInv.beginBlock {payload : Bytes} (h : TaskInv P genesis H t) (hidle : t.manager.isIdle)
    (hgiven : ∀ header ∈ ((readHeader payload).map Prod.fst).toList, header ∈ H) :
    TaskInv P genesis H (t.beginBlock P amb payload) := by
  unfold Tasks.beginBlock
  cases hread : readHeader payload with
  | none => exact h
  | some r =>
    obtain ⟨header, rest⟩ := r
    have hmem : header ∈ H := hgiven header (by simp [hread])
    dsimp only
    obtain ⟨sys, hadmitted, hnode, hrec⟩ | ⟨entry, block, hentry, hcheck, hnext, hadmitted⟩ :=
      admitBlock_cases P amb t.sys (header.blockHash P) payload
    · rw [hadmitted]
      refine h.quiet hnode rfl rfl (h.requested.received hread hmem hrec) ?_
      exact managerAligned_of_idle hidle
    · rw [hadmitted]
      have hheader := header_of_checkReceived hcheck hread
      refine h.quiet rfl rfl rfl (h.requested.dropInFlight _) ⟨⟨?_, ?_⟩, fun hnone => ?_⟩
      · exact congrArg _ hheader
      · exact hheader.symm ▸ hmem
      · exact h.requested.flying hnone _ entry hentry

theorem TaskInv.begin (hinj : HashInjOn P H) {event : Event}
    (h : TaskInv P genesis H t) (hidle : ofManager event → t.manager.isIdle)
    (hfree : waitsForReorg event → t.reorg = none) (hgiven : ∀ header ∈ event.given, header ∈ H) :
    TaskInv P genesis H (t.begin P event) := by
  have hreq := requested_step hinj hgiven h.placed h.requested
  cases event with
  | block amb payload => exact h.beginBlock (hidle rfl) hgiven
  | catchUp amb => exact h.quiet rfl rfl rfl h.requested fun _ _ he => nomatch he
  | activate ord mempoolLocked =>
    have halign := aligned_beginActivate ord mempoolLocked h.reorg
    have hframe : ∃ reorg, t.beginActivate ord mempoolLocked = { t with reorg } := by
      unfold Tasks.beginActivate
      dsimp only
      split_ifs
      · exact ⟨t.reorg, rfl⟩
      · exact ⟨t.reorg, rfl⟩
      · exact ⟨t.reorg, rfl⟩
      · split
        · exact ⟨t.reorg, rfl⟩
        · split_ifs
          · exact ⟨t.reorg, rfl⟩
          · exact ⟨_, rfl⟩
    obtain ⟨reorg, heq⟩ := hframe
    change TaskInv P genesis H (t.beginActivate ord mempoolLocked)
    rw [heq] at halign ⊢
    exact ⟨h.placed, h.requested, h.manager, halign, h.linked⟩
  | headers batch =>
    have hnotices := notices_receiveHeaders P t.sys batch
    refine ⟨placed_receiveHeaders hinj hgiven h.placed, hreq, ?_,
      reorgAligned_of_none (hfree rfl), h.linked⟩
    exact h.manager.of_sub rfl fun hnone =>
      ⟨hnotices ▸ hnone, activeChain_receiveHeaders hinj hgiven h.placed⟩
  | reorgNotice =>
    have hnode : (NodeEvents.step P t.sys .reorgNotice).node = t.sys.node := by
      simp only [NodeEvents.step]
      split <;> rfl
    exact h.quiet hnode rfl rfl hreq (managerAligned_of_idle (hidle rfl))
  | mempool pool =>
    exact ⟨h.placed, hreq, h.manager.of_sub rfl fun hnone => ⟨hnone, List.prefix_refl _⟩,
      fun r hr => h.reorg r hr, h.linked⟩
  | fillWindow | disconnected | timeoutScan | flush =>
    exact h.quiet rfl rfl rfl hreq
      (h.manager.of_sub rfl fun hnone => ⟨hnone, List.prefix_refl _⟩)

def LinkReady (t : Tasks) : Move → Prop
  | .event _ => True
  | .manager _ => (t.manager.connects → Quiet t) ∧
      (t.manager.loads → HeadersMatch t.sys.node.headers t.sys.blocks.reader)
  | .reorg => t.reorg.isSome → HeadersMatch t.sys.node.headers t.sys.blocks.reader

theorem taskInv_step (hinj : HashInjOn P H) {move : Move}
    (hgiven : ∀ header ∈ move.given, header ∈ H) (h : TaskInv P genesis H t)
    (hready : LinkReady t move) : TaskInv P genesis H (t.step P move) := by
  cases move with
  | event event =>
    unfold Tasks.step
    dsimp only
    split_ifs with hwaits
    · exact h
    · simp only [Tasks.waits, Bool.or_eq_true, Bool.and_eq_true, Bool.not_eq_true', not_or, not_and,
        Bool.not_eq_false, Option.not_isSome_iff_eq_none] at hwaits
      exact h.begin hinj hwaits.1 hwaits.2 hgiven
  | manager amb => exact h.managerStep hinj hready.1 hready.2
  | reorg =>
    unfold Tasks.step
    cases hreorg : t.reorg with
    | none => exact h
    | some r => exact h.reorgStep hinj hreorg (hready (by simp [hreorg]))

def mined (parent : BlockHeader) (tag : UInt8) : Block :=
  let tx := coinbaseTx tag 0
  ⟨⟨1, parent.blockHash poly, tx.txid poly, parent.timestamp + 600, 0x1e0ffff0, 0⟩, [tx]⟩

def minedA1 : Block := mined easyGenesis 1

def minedA2 : Block := mined minedA1.header 2

def minedB1 : Block := mined easyGenesis 3

def minedB2 : Block := mined minedB1.header 4

def minedB3 : Block := mined minedB2.header 5

def calm : Ambient := ⟨some 3000, fun _ => false, fun _ => none, false⟩

abbrev blockEvent (b : Block) : Event := .block calm (blockBytes b)

/-- `A2` waits in the buffer until `A1` is connected. -/
def twoBlocks : List Move :=
  [.event (.headers [minedA1.header, minedA2.header]), .event (.fillWindow (onePeer false)),
    .event (blockEvent minedA2), .event (blockEvent minedA1), .manager calm, .manager calm,
    .manager calm]

def forkedBackend : Option Backend :=
  (run (HeaderOp.apply poly) easyBackedStore
    ([minedA1, minedA2, minedB1, minedB2, minedB3].map fun b => .acceptHeader b.header)).backend

def connectedA2 : Except ConnectError ChainState := do
  let cs ← connectBlock poly emptyState minedA1 1 (minedA1.header.blockHash poly)
  connectBlock poly cs minedA2 2 (minedA2.header.blockHash poly)

def restartedNode : Node where
  headers := HeaderStore.withBackend poly .id easyGenesis ConsensusParams.testing forkedBackend
  chainstate := connectedA2.toOption.getD emptyState
  mempool := Pool.new

end Ironcat.ChainLinkage
