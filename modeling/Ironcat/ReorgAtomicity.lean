import Ironcat.ReorgHistory

/-!
# Reorganizations that stop early

A call that ends without a reorganization should leave the UTXO set and the
tip as they were. Only a block that `connect_block` refuses is rolled back; a
block that cannot be loaded, or whose undo data cannot, ends the call where it
stands. So such a block must be the first one the call touches. A rollback,
for its part, deletes a coin that a fork block created a second time.
-/

namespace Ironcat.ReorgAtomicity

open Lib.Checked Lib.EarlyExit Types BlockFiles Chainstate Ledger History Headers
open HeaderTree HeaderPaths HeaderRuns Mempool Reorg ReorgHistory

variable {P : Primitives} {genesis : BlockHeader} {headers : HeaderStore} {bs : BlockStore}
variable {cs₀ cs cs' : ChainState} {branch : List Block} {path : List (Hash256 × ℕ)}
variable {ord : IterOrder} {node node' : Node}

section

variable (P : Primitives) (bs : BlockStore) (cs₀ : ChainState)

/-- Unless the call reorganizes, or the process ends, the UTXO set and the tip
stay as they were. -/
def Atomic (ord : IterOrder) (bs : BlockStore) (node : Node) : Prop :=
  ∀ node' result, activateBestChain P ord bs node = .returned node' result →
    (∀ oldTip newTip disconnected connected,
      result ≠ .ok (.reorganized oldTip newTip disconnected connected)) →
    node'.chainstate.utxos = node.chainstate.utxos ∧ node'.chainstate.tip = node.chainstate.tip

def Removable (cs : ChainState) (e : Hash256 × ℕ) : Prop :=
  ∃ b undo, bs.loadAndDeserialize e.1 = .ok b ∧ loadBlockUndo cs b e.1 = .ok undo

/-- The blocks of `path` load and are valid one after the other on top of the
chain `rest`, replayed from its start. -/
def ValidFork (rest : List Block) (path : List (Hash256 × ℕ)) : Prop :=
  ∃ blocks r, Loads bs path blocks ∧ connectBranch P cs₀ (blocks.reverse ++ rest) = .ok r

/-- Either the newest block of the old path cannot be disconnected, or all of
them can and a block that does not load, above valid ones, is the first of the
call. -/
def FailsFirst (node : Node) (branch : List Block) (down up : List (Hash256 × ℕ)) : Prop :=
  (∃ below top, down = below ++ [top] ∧ ¬ Removable bs node.chainstate top) ∨
  ((∀ e ∈ down, Removable bs node.chainstate e) ∧
    ∀ done e rest, up = done ++ e :: rest → ValidFork P bs cs₀ (branch.drop down.length) done →
      (∀ b, bs.loadAndDeserialize e.1 ≠ .ok b) → down = [] ∧ done = [])

/-- On the valid blocks below the first one that is not valid, and on the chain
below them, no transaction is repeated. -/
def Unrepeated (branch : List Block) (down up : List (Hash256 × ℕ)) : Prop :=
  ∀ done e rest blocks, up = done ++ e :: rest → ValidFork P bs cs₀ (branch.drop down.length) done →
    (∃ b, bs.loadAndDeserialize e.1 = .ok b) →
    ¬ ValidFork P bs cs₀ (branch.drop down.length) (done ++ [e]) → Loads bs done blocks →
    DistinctBranch P (blocks.reverse ++ branch.drop down.length)

end

/-- A chain state that the replay agrees with, up to the undo files. -/
structure Replayed (P : Primitives) (headers : HeaderStore) (bs : BlockStore) (cs₀ : ChainState)
    (rest : List Block) (path : List (Hash256 × ℕ)) (cs : ChainState) : Prop where
  replay : ∃ blocks r, Loads bs path blocks ∧
    connectBranch P cs₀ (blocks.reverse ++ rest) = .ok r ∧ SameLedger r cs ∧
    r.undoStore.Behind cs.undoStore
  fileNumber : cs.undoStore.fileNumber ≤ 0xFFFF
  tip : ∃ s, headers.get cs.tip.1 = some s ∧ s.height = cs.tip.2.toNat

theorem At.replayed (hfresh : Fresh cs₀) (h : At P headers cs₀ cs branch) :
    Replayed P headers bs cs₀ branch [] cs := by
  have hconsistent := h.run.consistent hfresh
  obtain ⟨r, hbacked, hsame, hbehind, -⟩ := hconsistent.replay
  exact ⟨⟨[], r, rfl, hbacked.connectBranch_eq, hsame, hbehind⟩, hconsistent.fileNumber, h.tip⟩

theorem Replayed.valid {rest : List Block} (h : Replayed P headers bs cs₀ rest path cs) :
    ValidFork P bs cs₀ rest path := by
  obtain ⟨blocks, r, hloads, hr, -⟩ := h.replay
  exact ⟨blocks, r, hloads, hr⟩

variable {e : Hash256 × ℕ}

theorem loads_concat {blocks : List Block} :
    Loads bs (path ++ [e]) blocks ↔ ∃ below b, Loads bs path below ∧
      bs.loadAndDeserialize e.1 = .ok b ∧ blocks = below ++ [b] := by
  constructor
  · intro h
    rcases List.eq_nil_or_concat' blocks with rfl | ⟨below, b, rfl⟩
    · simp [Loads] at h
    · simp only [Loads, List.map_append, List.map_singleton] at h
      obtain ⟨hbelow, hlast⟩ := List.append_inj' h rfl
      exact ⟨below, b, hbelow, by simpa using hlast, rfl⟩
  · rintro ⟨below, b, hbelow, hb, rfl⟩
    simp only [Loads, List.map_append, List.map_singleton] at hbelow ⊢
    rw [hbelow, hb]

variable {s : StoredHeader}

theorem Replayed.connect {rest : List Block} {hash : Hash256}
    (hset : Setting P genesis headers bs cs₀) (h : Replayed P headers bs cs₀ rest path cs)
    (hget : headers.get hash = some s) (hstep : connectOld P bs cs (hash, s.height) = .ok cs') :
    Replayed P headers bs cs₀ rest (path ++ [(hash, s.height)]) cs' ∧ cs'.tip.1 = hash := by
  obtain ⟨b, hload, hconn⟩ := connectOld_eq_ok.mp hstep
  obtain ⟨blocks, r, hloads, hr, hsame, hbehind⟩ := h.replay
  obtain ⟨hheight, -, _, -, -, -, -, htip, -⟩ := connectBlock_eq_ok hconn
  obtain ⟨hnum, r', hr', hsame', -, hbehind'⟩ :=
    connectBlock_transfer hsame hbehind h.fileNumber hconn
  have hbound := (hset.tree.rooted.bounded _ s hget).1
  refine ⟨⟨⟨blocks ++ [b], r', loads_concat.mpr ⟨blocks, b, hloads, hload, rfl⟩, ?_, hsame',
    hbehind'⟩, hnum, s, ?_, ?_⟩, by rw [htip]⟩
  · rw [List.reverse_append, List.reverse_singleton, List.singleton_append, List.cons_append]
    refine bind_eq_ok.mpr ⟨r, hr, ?_⟩
    rw [hset.genuine.hash _ b hload, hsame.height, ← hheight]
    exact hr'
  · rw [htip]
    exact hget
  · rw [htip]
    simpa using (Nat.mod_eq_of_lt hbound).symm

theorem Replayed.connectPath {rest : List Block} {source target : Hash256}
    (hset : Setting P genesis headers bs cs₀) (hpath : Ascends headers source path target)
    (hsource : cs.tip.1 = source) (h : Replayed P headers bs cs₀ rest [] cs)
    (hsteps : path.foldlM (connectOld P bs) cs = .ok cs') :
    Replayed P headers bs cs₀ rest path cs' ∧ cs'.tip.1 = target := by
  induction hpath generalizing cs' with
  | nil =>
    obtain rfl := foldlM_nil_eq_ok.mp hsteps
    exact ⟨h, hsource⟩
  | concat hbelow hget ih =>
    obtain ⟨mid, hmid, hstep⟩ := foldlM_concat_eq_ok.mp hsteps
    exact (ih hmid).1.connect hset hget hstep

theorem ValidFork.of_concat {rest : List Block} (h : ValidFork P bs cs₀ rest (path ++ [e])) :
    ValidFork P bs cs₀ rest path ∧
      ∃ blocks b r r', Loads bs path blocks ∧ bs.loadAndDeserialize e.1 = .ok b ∧
        connectBranch P cs₀ (blocks.reverse ++ rest) = .ok r ∧
        connectBlock P r b (saturatingSucc r.tip.2) (b.header.blockHash P) = .ok r' := by
  obtain ⟨_, r', hloads, hr'⟩ := h
  obtain ⟨blocks, b, hblocks, hb, rfl⟩ := loads_concat.mp hloads
  rw [List.reverse_append, List.reverse_singleton, List.singleton_append, List.cons_append] at hr'
  obtain ⟨r, hr, hconn⟩ := bind_eq_ok.mp hr'
  exact ⟨⟨blocks, r, hblocks, hr⟩, blocks, b, r, r', hblocks, hb, hr, hconn⟩

theorem ValidFork.of_prefix {rest : List Block} {part : List (Hash256 × ℕ)}
    (h : ValidFork P bs cs₀ rest path) (hpart : part <+: path) : ValidFork P bs cs₀ rest part := by
  obtain ⟨more, rfl⟩ := hpart
  induction more using List.reverseRecOn with
  | nil => simpa using h
  | append_singleton more e ih =>
    rw [← List.append_assoc] at h
    exact ih h.of_concat.1

/-- A block that is valid on the replayed chain connects, while the undo files
have a number left. -/
theorem Replayed.connects {rest : List Block} {hash : Hash256}
    (hset : Setting P genesis headers bs cs₀) (hroot : headers.get genesis.prevHash = none)
    (h : Replayed P headers bs cs₀ rest path cs) (hget : headers.get hash = some s)
    (hprev : cs.tip.1 = s.header.prevHash) (hroom : cs.undoStore.fileNumber < 0xFFFF)
    (hvalid : ValidFork P bs cs₀ rest (path ++ [(hash, s.height)])) :
    ∃ cs', connectOld P bs cs (hash, s.height) = .ok cs' ∧
      cs'.undoStore.fileNumber ≤ cs.undoStore.fileNumber + 1 := by
  obtain ⟨-, blocks, b, r, r', hloads, hb, hr, hconn⟩ := hvalid.of_concat
  obtain ⟨blocks', r'', hloads', hr'', hsame, -⟩ := h.replay
  obtain rfl := hloads.unique hloads'
  obtain rfl : r = r'' := Except.ok.inj (hr.symm.trans hr'')
  obtain ⟨p, hp, hpheight⟩ := h.tip
  have hnone : Ascends headers cs.tip.1 [] s.header.prevHash := hprev ▸ .nil
  have hchild : Ascends headers cs.tip.1 [(hash, s.height)] hash := hnone.concat hget
  obtain ⟨s', hs', hheight⟩ := hchild.height hset.tree hroot hp
  obtain rfl := Option.mem_unique hget hs'
  have hbound := (hset.tree.rooted.bounded _ s hget).1
  have hsucc : UInt32.ofNat s.height = saturatingSucc r.tip.2 := by
    have hmax : cs.tip.2 ≠ 0xFFFFFFFF := by
      intro hmax
      have htop : cs.tip.2.toNat = 2 ^ 32 - 1 := by rw [hmax]; rfl
      rw [List.length_singleton] at hheight
      omega
    have htoNat : (UInt32.ofNat s.height).toNat = s.height := by
      simpa using Nat.mod_eq_of_lt hbound
    refine UInt32.toNat_inj.mp ?_
    rw [hsame.height, toNat_saturatingSucc hmax, ← hpheight, htoNat, hheight,
      List.length_singleton]
  obtain ⟨cs', hcs', hle⟩ := connectBlock_of_replay hsame hroom hconn
  rw [hset.genuine.hash _ b hb, ← hsucc] at hcs'
  exact ⟨cs', connectOld_eq_ok.mpr ⟨b, hb, hcs'⟩, hle⟩

theorem Replayed.connectsPath {rest : List Block} {source target : Hash256}
    (hset : Setting P genesis headers bs cs₀) (hroot : headers.get genesis.prevHash = none)
    (hpath : Ascends headers source path target) (hsource : cs.tip.1 = source)
    (h : Replayed P headers bs cs₀ rest [] cs)
    (hroom : cs.undoStore.fileNumber + path.length ≤ 0xFFFF)
    (hvalid : ValidFork P bs cs₀ rest path) :
    ∃ cs', path.foldlM (connectOld P bs) cs = .ok cs' ∧
      cs'.undoStore.fileNumber ≤ cs.undoStore.fileNumber + path.length := by
  induction hpath with
  | nil => exact ⟨cs, rfl, le_rfl⟩
  | @concat path hash s hbelow hget ih =>
    rw [List.length_append, List.length_singleton] at hroom ⊢
    obtain ⟨mid, hmid, hle⟩ := ih (by omega) hvalid.of_concat.1
    obtain ⟨hreplayed, htip⟩ := h.connectPath hset hbelow hsource hmid
    obtain ⟨cs', hstep, hle'⟩ :=
      hreplayed.connects hset hroot hget htip (by omega) hvalid
    exact ⟨cs', foldlM_concat_eq_ok.mpr ⟨mid, hmid, hstep⟩, by omega⟩

theorem disconnectNew_undo (h : disconnectNew P bs cs e = .ok cs') :
    cs'.undoStore = cs.undoStore ∧ cs'.undoIndex = cs.undoIndex := by
  obtain ⟨b, -, hdisc⟩ := disconnectNew_eq_ok.mp h
  simp only [disconnectBlock, bind_eq_ok, pure_eq_ok] at hdisc
  obtain ⟨_, -, _, -, _, -, _, -, rfl⟩ := hdisc
  exact ⟨rfl, rfl⟩

theorem removable_congr (hstore : cs'.undoStore = cs.undoStore)
    (hindex : cs'.undoIndex = cs.undoIndex) : Removable bs cs' e ↔ Removable bs cs e := by
  simp only [Removable, loadBlockUndo, hstore, hindex]

theorem Removable.of_disconnectNew (h : disconnectNew P bs cs e = .ok cs') : Removable bs cs e := by
  obtain ⟨b, hload, hdisc⟩ := disconnectNew_eq_ok.mp h
  simp only [disconnectBlock, bind_eq_ok] at hdisc
  obtain ⟨_, -, _, -, undo, hundo, -⟩ := hdisc
  exact ⟨b, undo, hload, hundo⟩

theorem Removable.disconnectNew {s : StoredHeader} (hset : Setting P genesis headers bs cs₀)
    (hat : At P headers cs₀ cs branch) (howned : Owned P bs branch) (hne : branch ≠ [])
    (hget : headers.get cs.tip.1 = some s) (h : Removable bs cs (cs.tip.1, s.height)) :
    ∃ cs', disconnectNew P bs cs (cs.tip.1, s.height) = .ok cs' := by
  obtain ⟨b, undo, hload, hundo⟩ := h
  have hconsistent := hat.run.consistent hset.fresh
  cases branch with
  | nil => exact absurd rfl hne
  | cons top rest =>
    have hhash := hconsistent.tip_hash
    obtain rfl : b = top := howned top List.mem_cons_self b (hhash ▸ hload)
    obtain ⟨cs', hcs'⟩ := hconsistent.disconnectable (hhash ▸ hundo)
    obtain ⟨s', hget', hheight⟩ := hat.tip
    obtain rfl := Option.mem_unique hget hget'
    have hofNat : UInt32.ofNat s.height = cs.tip.2 := by
      rw [hheight, UInt32.ofNat_toNat]
    exact ⟨cs', disconnectNew_eq_ok.mpr ⟨b, hload, by rw [hofNat, hhash]; exact hcs'⟩⟩

theorem disconnectNews_undo (h : path.foldlM (disconnectNew P bs) cs = .ok cs') :
    cs'.undoStore = cs.undoStore ∧ cs'.undoIndex = cs.undoIndex := by
  refine foldlM_invariant
    (fun m => m.undoStore = cs.undoStore ∧ m.undoIndex = cs.undoIndex) ?_ ⟨rfl, rfl⟩ h
  intro e _ m m' hm hstep
  obtain ⟨hstore, hindex⟩ := disconnectNew_undo hstep
  exact ⟨hstore.trans hm.1, hindex.trans hm.2⟩

theorem removable_of_disconnected (h : path.foldlM (disconnectNew P bs) cs = .ok cs') :
    ∀ e ∈ path, Removable bs cs e := by
  intro e he
  obtain ⟨done, rest, rfl⟩ := List.append_of_mem he
  obtain ⟨mid, hdone, hrest⟩ := foldlM_append_eq_ok.mp h
  obtain ⟨_, hstep, _⟩ := foldlM_cons_eq_ok.mp hrest
  obtain ⟨hstore, hindex⟩ := disconnectNews_undo hdone
  exact (removable_congr hstore hindex).mp (Removable.of_disconnectNew hstep)

section
variable {down up done : List (Hash256 × ℕ)} {fork : Hash256} {oldBlocks newBlocks rest : List Block}

variable {old : Disconnecting}

theorem Based.reached (hbased : Based P genesis bs cs₀ node branch)
    (hplan : Planned bs node down up) (hdone : done <+: up) {new : Connecting}
    (hreach : Reaches P bs node down done old new) :
    ∃ fork oldBlocks, Unwound P bs cs₀ node branch down up old.chainstate fork oldBlocks ∧
      Ascends node.headers fork done new.chainstate.tip.1 ∧
      Replayed P node.headers bs cs₀ (branch.drop down.length) done new.chainstate := by
  obtain ⟨fork, oldBlocks, hunwound⟩ :=
    hbased.unwound hplan (disconnectSteps_eq_ok hreach.disconnected).1
  obtain ⟨target, htarget, -⟩ := Ascends.prefix hunwound.ascent hdone
  obtain ⟨hreplayed, rfl⟩ := (At.replayed hbased.setting.fresh hunwound.current).connectPath
    hbased.setting htarget hunwound.tip (connectSteps_eq_ok hreach.connected).1
  exact ⟨fork, oldBlocks, hunwound, htarget, hreplayed⟩

variable {entry : Hash256 × ℕ} {error : ReorgError}

theorem connectOld_of_connectStep {new : Connecting}
    (h : connectStep P bs new entry = .error error) :
    connectOld P bs new.chainstate entry = .error error := by
  rw [← connectStep_map, map_eq_error]
  exact h

theorem tip_ne_of_ascent (htree : Tree P genesis node.headers)
    (hroot : node.headers.get genesis.prevHash = none) {mid : ChainState}
    (h : Unwound P bs cs₀ node branch down up mid fork oldBlocks)
    (hascent : Ascends node.headers fork done cs.tip.1) (hdone : done <+: up)
    (hne : down ≠ [] ∨ done ≠ []) : cs.tip ≠ node.chainstate.tip := by
  intro heq
  rw [heq] at hascent
  obtain ⟨p, hp⟩ := h.forkStored
  obtain ⟨s, hs, hheight⟩ := hascent.height htree hroot hp
  obtain ⟨s', hs', hheight'⟩ := h.descent.height htree hroot hp
  obtain rfl := Option.mem_unique hs hs'
  obtain rfl : done = down := hascent.path_unique h.descent (by omega)
  obtain ⟨more, rfl⟩ := hdone
  obtain ⟨mid, hmid, hmore⟩ := h.ascent.split
  obtain rfl := hmid.target_unique hascent
  have hfork := hmore.findForkPoint htree hroot hs
  rw [h.forkPoint, Except.ok.injEq] at hfork
  rw [hfork] at hp
  obtain rfl := Option.mem_unique hs hp
  exact hne.elim (fun hd => hd (List.length_eq_zero_iff.mp (by omega)))
    (fun hd => hd (List.length_eq_zero_iff.mp (by omega)))

theorem disconnectNew_eq_error (h : disconnectNew P bs cs e = .error error) :
    (∃ e', bs.loadAndDeserialize e.1 = .error e' ∧ error = .load e') ∨
      ∃ e', error = .disconnect e' := by
  simp only [disconnectNew, map_eq_error, disconnectEntry, bind_eq_error, mapError_eq_error,
    mapError_eq_ok] at h
  rcases h with ⟨e', hload, rfl⟩ | ⟨b, _, ⟨e', _, rfl⟩ | ⟨_, _, hpure⟩⟩
  · exact .inl ⟨e', hload, rfl⟩
  · exact .inr ⟨e', rfl⟩
  · cases hpure

theorem connectOld_eq_error (h : connectOld P bs cs e = .error error) :
    (∃ e', bs.loadAndDeserialize e.1 = .error e' ∧ error = .load e') ∨
      (∃ b, bs.loadAndDeserialize e.1 = .ok b) ∧ ∃ height e', error = .connect height e' := by
  simp only [connectOld, map_eq_error, connectEntry, bind_eq_error, mapError_eq_error,
    mapError_eq_ok] at h
  rcases h with ⟨e', hload, rfl⟩ | ⟨b, hload, ⟨e', _, rfl⟩ | ⟨_, _, hpure⟩⟩
  · exact .inl ⟨e', hload, rfl⟩
  · exact .inr ⟨⟨b, hload⟩, e.2, e', rfl⟩
  · cases hpure

theorem loads_of_mem {blocks : List Block} (h : Loads bs path blocks) (he : e ∈ path) :
    ∃ b, bs.loadAndDeserialize e.1 = .ok b := by
  have hmem : bs.loadAndDeserialize e.1 ∈ blocks.map Except.ok := by
    rw [← h]
    exact List.mem_map_of_mem he
  obtain ⟨b, -, hb⟩ := List.mem_map.mp hmem
  exact ⟨b, hb.symm⟩

theorem rollback_ne_load {newBlocks : List Block} {error : LoadError}
    (hdown : Loads bs down oldBlocks) (hdone : Loads bs done newBlocks) :
    rollback P bs done down.reverse cs ≠ (cs', some (.load error)) := by
  intro h
  unfold rollback at h
  rcases hmid : foldUntil (disconnectNew P bs) cs done.reverse with ⟨mid, _ | e⟩
  · rw [hmid, List.reverse_reverse] at h
    obtain ⟨before, entry, after, hsplit, _, hfail⟩ := foldUntil_eq_some.mp h
    obtain ⟨b, hb⟩ := loads_of_mem hdown (hsplit ▸ List.mem_append_right before List.mem_cons_self)
    rcases connectOld_eq_error hfail with ⟨_, hload, _⟩ | ⟨_, _, _, hconnect⟩
    · cases hb.symm.trans hload
    · cases hconnect
  · rw [hmid] at h
    cases h
    obtain ⟨before, entry, after, hsplit, _, hfail⟩ := foldUntil_eq_some.mp hmid
    have hmem : entry ∈ done := by
      rw [← List.mem_reverse, hsplit]
      exact List.mem_append_right before List.mem_cons_self
    obtain ⟨b, hb⟩ := loads_of_mem hdone hmem
    rcases disconnectNew_eq_error hfail with ⟨_, hload, _⟩ | ⟨_, hdisconnect⟩
    · cases hb.symm.trans hload
    · cases hdisconnect

theorem switchActiveChain_isOk (ord : IterOrder) {best : Hash256} (htree : Tree P genesis headers)
    (hget : headers.get best = some s) :
    ∃ headers', headers.switchActiveChain ord best = .ok headers' := by
  obtain ⟨_, htip, _⟩ := htree.tip_eq
  have hfuel : s.height < headers.fuel := by simpa [heightOf, hget] using htree.height_lt_fuel best
  obtain ⟨chain, hchain, _⟩ := htree.chainDown_path hget hfuel
  exact ⟨_, bind_eq_ok.mpr ⟨_, okOr_eq_ok.mpr htip, bind_eq_ok.mpr ⟨chain, hchain, rfl⟩⟩⟩

theorem utxos_eq_of_at (hfresh : Fresh cs₀) (h : At P headers cs₀ cs branch)
    (h' : At P headers cs₀ cs' branch) : cs.utxos = cs'.utxos := by
  obtain ⟨r, hr, hutxos, -⟩ := h.run.connectBranch hfresh
  obtain ⟨r', hr', hutxos', -⟩ := h'.run.connectBranch hfresh
  obtain rfl : r = r' := Except.ok.inj (hr.symm.trans hr')
  rw [← hutxos, hutxos']

theorem activateBestChain_of_loadFailed (ord : IterOrder) {new : Connecting} {e : LoadError}
    {later : List (Hash256 × ℕ)} (hplan : Planned bs node down up)
    (hreach : Reaches P bs node down done old new)
    (hsplit : up = done ++ entry :: later) (hload : bs.loadAndDeserialize entry.1 = .error e) :
    activateBestChain P ord bs node =
      .returned ⟨node.headers, new.chainstate, new.mempool⟩ (.error (.load e)) := by
  have hfail : connectStep P bs new entry = .error (.load e) := by
    simp [connectStep, connectEntry, bind_eq_error, hload]
  have hold := foldUntil_eq_none.mpr hreach.disconnected
  have hnew := foldUntil_eq_some.mpr ⟨done, entry, later, hsplit, hreach.connected, hfail⟩
  simp only [Node.disconnecting, Node.connecting] at hold hnew
  simp only [hplan.activateBestChain, reorganize, hold, hnew, abortConnect]

section Call

variable {later : List (Hash256 × ℕ)} (hbased : Based P genesis bs cs₀ node branch)
variable (hroot : node.headers.get genesis.prevHash = none) (hplan : Planned bs node down up)
include hbased hroot hplan

section Room

variable (hroom : node.chainstate.undoStore.fileNumber + up.length ≤ 0xFFFF)
include hroom

theorem Based.connects (hdone : done <+: up)
    (hold : down.reverse.foldlM (disconnectStep P bs) node.disconnecting = .ok old)
    (hvalid : ValidFork P bs cs₀ (branch.drop down.length) done) :
    ∃ new, done.foldlM (connectStep P bs) (node.connecting old) = .ok new := by
  have hdown := (disconnectSteps_eq_ok hold).1
  obtain ⟨fork, oldBlocks, hunwound⟩ := hbased.unwound hplan hdown
  obtain ⟨target, htarget, -⟩ := Ascends.prefix hunwound.ascent hdone
  have hroom' : old.chainstate.undoStore.fileNumber + done.length ≤ 0xFFFF := by
    rw [(disconnectNews_undo hdown).1]
    exact (Nat.add_le_add_left hdone.length_le _).trans hroom
  obtain ⟨cs', hsteps, -⟩ := (At.replayed hbased.setting.fresh hunwound.current).connectsPath
    hbased.setting hroot htarget hunwound.tip hroom' hvalid
  obtain ⟨new, hnew, -⟩ := foldlM_of_map (s := node.connecting old) Connecting.chainstate
    connectStep_map hsteps
  exact ⟨new, hnew⟩

/-- A block that the call refuses is not valid on the ones below it. -/
theorem Based.not_valid_of_rejected {new : Connecting}
    (hreach : Reaches P bs node down done old new) (hentry : done ++ [entry] <+: up)
    (hfail : connectStep P bs new entry = .error error) :
    ¬ ValidFork P bs cs₀ (branch.drop down.length) (done ++ [entry]) := by
  intro hvalid
  obtain ⟨_, hsteps⟩ := Based.connects hbased hroot hplan hroom hentry hreach.disconnected hvalid
  obtain ⟨mid, hmid, hstep⟩ := foldlM_concat_eq_ok.mp hsteps
  obtain rfl := Except.ok.inj (hreach.connected.symm.trans hmid)
  cases hstep.symm.trans hfail

end Room

section Stopped

variable (hsplit : down.reverse = done ++ entry :: later)
variable (hdone : done.foldlM (disconnectStep P bs) node.disconnecting = .ok old)
include hsplit hdone

theorem disconnecting_at :
    ∃ blocks rest s, branch = blocks ++ rest ∧ blocks.length = done.length ∧ rest ≠ [] ∧
      At P node.headers cs₀ old.chainstate rest ∧
      node.headers.get old.chainstate.tip.1 = some s ∧
      entry = (old.chainstate.tip.1, s.height) ∧
      old.chainstate.undoStore = node.chainstate.undoStore ∧
      old.chainstate.undoIndex = node.chainstate.undoIndex := by
  obtain ⟨fork, p, hfork, hp, hdown, hup⟩ := findPaths_eq_ok hplan.paths
  have hpath : down = (later.reverse ++ [entry]) ++ done.reverse := by
    rw [← List.reverse_reverse down, hsplit]
    simp
  rw [hpath] at hdown
  obtain ⟨mid, hlow, hhigh⟩ := hdown.split
  have hfold := (disconnectSteps_eq_ok hdone).1
  rw [← List.reverse_reverse done] at hfold
  obtain ⟨blocks, rest, hbranch, hloads, hat, htip⟩ :=
    hbased.start.disconnectPath hbased.setting hhigh rfl hbased.owned hfold
  obtain ⟨s, hget, hentry, _⟩ := ascends_concat.mp hlow
  obtain ⟨s', hget', hheight⟩ := hlow.height hbased.setting.tree hroot hp
  obtain rfl := Option.mem_unique hget hget'
  have hne : rest ≠ [] := by
    rintro rfl
    obtain ⟨t, ht, htheight⟩ := hat.tip
    obtain rfl : s = t := Option.some.inj (hget.symm.trans (htip ▸ ht))
    have hzero := (hat.run.consistent hbased.setting.fresh).height_eq
    rw [hbased.setting.start] at hzero
    simp only [List.length_append, List.length_singleton] at hheight
    simp at hzero
    omega
  have hlen := hloads.length_eq
  refine ⟨blocks, rest, s, hbranch, by simpa using hlen.symm, hne, hat, htip ▸ hget,
    htip ▸ hentry, ?_⟩
  exact disconnectNews_undo hfold

theorem disconnectStep_of_removable (hremovable : Removable bs node.chainstate entry) :
    ∃ st, disconnectStep P bs old entry = .ok st := by
  obtain ⟨blocks, rest, s, hbranch, -, hne, hat, hget, rfl, hstore, hindex⟩ :=
    disconnecting_at hbased hroot hplan hsplit hdone
  have howned : Owned P bs rest := fun b hb =>
    hbased.owned b (by rw [hbranch]; exact List.mem_append_right _ hb)
  obtain ⟨cs', hcs'⟩ := Removable.disconnectNew hbased.setting hat howned hne hget
    ((removable_congr hstore hindex).mpr hremovable)
  rw [← disconnectStep_map, map_eq_ok] at hcs'
  obtain ⟨st, hst, -⟩ := hcs'
  exact ⟨st, hst⟩

theorem tip_ne_of_disconnecting (hne : done ≠ []) : old.chainstate.tip ≠ node.chainstate.tip := by
  obtain ⟨blocks, rest, s, hbranch, hlen, -, hat, -⟩ :=
    disconnecting_at hbased hroot hplan hsplit hdone
  intro heq
  have hnew := (hat.run.consistent hbased.setting.fresh).height_eq
  have hold := (hbased.start.run.consistent hbased.setting.fresh).height_eq
  have hpos := List.length_pos_iff.mpr hne
  rw [heq] at hnew
  rw [hbranch, List.length_append] at hold
  omega

theorem FailsFirst.nothing_disconnected (hfirst : FailsFirst P bs cs₀ node branch down up)
    (hfail : disconnectStep P bs old entry = .error error) : done = [] := by
  rcases hfirst with ⟨below, top, rfl, hstuck⟩ | ⟨hall, _⟩
  · cases done with
    | nil => rfl
    | cons first done =>
      simp only [List.reverse_append, List.reverse_singleton, List.cons_append,
        List.cons.injEq] at hsplit
      have hremovable := removable_of_disconnected (disconnectSteps_eq_ok hdone).1
      exact absurd (hremovable first List.mem_cons_self) (hsplit.1 ▸ hstuck)
  · have hmem : entry ∈ down := by
      rw [← List.mem_reverse, hsplit]
      exact List.mem_append_right done List.mem_cons_self
    obtain ⟨st, hst⟩ := disconnectStep_of_removable hbased hroot hplan hsplit hdone
      (hall entry hmem)
    cases hst.symm.trans hfail

end Stopped

omit hroot in
theorem FailsFirst.nothing_connected {new : Connecting} {e : LoadError}
    (hfirst : FailsFirst P bs cs₀ node branch down up) (hsplit : up = done ++ entry :: later)
    (hreach : Reaches P bs node down done old new)
    (hload : bs.loadAndDeserialize entry.1 = .error e) : down = [] ∧ done = [] := by
  rcases hfirst with ⟨below, top, rfl, hstuck⟩ | ⟨_, hreached⟩
  · have hold := (disconnectSteps_eq_ok hreach.disconnected).1
    exact absurd (removable_of_disconnected hold top (by simp)) hstuck
  · obtain ⟨_, _, -, -, hreplayed⟩ := Based.reached hbased hplan ⟨_, hsplit.symm⟩ hreach
    exact hreached done entry later hsplit hreplayed.valid
      (fun b hb => by cases hload.symm.trans hb)

theorem FailsFirst.abortConnect {new : Connecting} {result : Except ReorgError ActivateResult}
    (hfirst : FailsFirst P bs cs₀ node branch down up)
    (hunrepeated : Unrepeated P bs cs₀ branch down up)
    (hroom : node.chainstate.undoStore.fileNumber + up.length ≤ 0xFFFF)
    (hsplit : up = done ++ entry :: later) (hreach : Reaches P bs node down done old new)
    (hfail : connectStep P bs new entry = .error error)
    (hcall : Reorg.abortConnect P ord bs node.headers node.headers.bestTip.1 up
      old.disconnectedBlocks new error = .returned node' result) :
    node'.chainstate.utxos = node.chainstate.utxos ∧
      node'.chainstate.tip = node.chainstate.tip := by
  have hdone : done <+: up := ⟨entry :: later, hsplit.symm⟩
  have hentry : done ++ [entry] <+: up := ⟨later, by simp [hsplit]⟩
  obtain ⟨_, _, hunwound, -, hreplayed⟩ := Based.reached hbased hplan hdone hreach
  rcases connectOld_eq_error (connectOld_of_connectStep hfail) with ⟨e, hload, rfl⟩ | hrejected
  · -- the block does not load: the call stops where it is, and nothing has been done
    obtain ⟨rfl, rfl⟩ := hfirst.nothing_connected hbased hplan hsplit hreach hload
    obtain rfl := foldlM_nil_eq_ok.mp hreach.disconnected
    obtain rfl := foldlM_nil_eq_ok.mp hreach.connected
    rcases abortConnect_eq_returned hcall with ⟨_, _, h, -⟩ | ⟨_, _, _, h, -⟩ | ⟨_, _, hcs⟩
    · cases h
    · cases h
    · rw [hcs]
      exact ⟨rfl, rfl⟩
  · -- the block is refused: the rollback undoes blocks that repeat no transaction
    obtain ⟨b, hload⟩ := hrejected.1
    have hdistinct : ∀ blocks, Loads bs done blocks →
        DistinctBranch P (blocks.reverse ++ branch.drop down.length) := fun blocks =>
      hunrepeated done entry later blocks hsplit hreplayed.valid ⟨b, hload⟩
        (Based.not_valid_of_rejected hbased hroot hplan hroom hreach hentry hfail)
    rcases abortConnect_eq_returned hcall with ⟨_, _, _, _, hroll, _⟩ | ⟨_, _, _, _, _, hroll⟩ |
      ⟨hne, _, _⟩
    · obtain ⟨hat, htip⟩ := hbased.rollback hplan hdone hdistinct hreach hroll
      exact ⟨utxos_eq_of_at hbased.setting.fresh hat hbased.start, htip⟩
    · obtain ⟨blocks, -, hloads, -⟩ := hreplayed.replay
      obtain ⟨hcount, hblocks⟩ := rollback_args hreach hdone
      rw [hcount, hblocks] at hroll
      exact absurd hroll (rollback_ne_load hunwound.oldLoads hloads)
    · obtain ⟨height, e, herror⟩ := hrejected.2
      exact absurd herror (hne height e)

theorem failsFirst_of_atomic (hatomic : Atomic P ord bs node)
    (hroom : node.chainstate.undoStore.fileNumber + up.length ≤ 0xFFFF) :
    FailsFirst P bs cs₀ node branch down up := by
  rcases hold : foldUntil (disconnectStep P bs) node.disconnecting down.reverse with
    ⟨old, _ | error⟩
  · have hold' := foldUntil_eq_none.mp hold
    have hdown := (disconnectSteps_eq_ok hold').1
    refine .inr ⟨fun e he => removable_of_disconnected hdown e (List.mem_reverse.mpr he), ?_⟩
    intro done entry later hsplit hvalid hnoload
    have hpre : done <+: up := ⟨entry :: later, hsplit.symm⟩
    obtain ⟨new, hnew⟩ := Based.connects hbased hroot hplan hroom hpre hold' hvalid
    have hreach : Reaches P bs node down done old new := ⟨hold', hnew⟩
    cases hload : bs.loadAndDeserialize entry.1 with
    | ok b => exact absurd hload (hnoload b)
    | error e =>
      have hcall := activateBestChain_of_loadFailed ord hplan hreach hsplit hload
      obtain ⟨-, htip⟩ := hatomic _ _ hcall (by simp)
      by_contra hne
      obtain ⟨_, _, hunwound, hascent, -⟩ := Based.reached hbased hplan hpre hreach
      exact tip_ne_of_ascent hbased.setting.tree hroot hunwound hascent hpre (by tauto) htip
  · obtain ⟨done, entry, later, hsplit, hdone, hfail⟩ := foldUntil_eq_some.mp hold
    have hcall : activateBestChain P ord bs node =
        .returned { node with chainstate := old.chainstate } (.error error) := by
      simp only [Node.disconnecting] at hold
      simp only [hplan.activateBestChain, reorganize, hold]
    obtain ⟨-, htip⟩ := hatomic _ _ hcall (by simp)
    cases done with
    | nil =>
      refine .inl ⟨later.reverse, entry, ?_, fun hremovable => ?_⟩
      · rw [← List.reverse_reverse down, hsplit]
        simp
      · obtain ⟨st, hst⟩ := disconnectStep_of_removable hbased hroot hplan hsplit hdone hremovable
        cases hst.symm.trans hfail
    | cons first done =>
      exact absurd htip (tip_ne_of_disconnecting hbased hroot hplan hsplit hdone
        (List.cons_ne_nil _ _))

end Call

end

theorem atomic_of_failsFirst (hbased : Based P genesis bs cs₀ node branch)
    (hroot : node.headers.get genesis.prevHash = none)
    (hroom : ∀ down up, Planned bs node down up →
      node.chainstate.undoStore.fileNumber + up.length ≤ 0xFFFF)
    (hunrepeated : ∀ down up, Planned bs node down up → Unrepeated P bs cs₀ branch down up)
    (hfirst : ∀ down up, Planned bs node down up → FailsFirst P bs cs₀ node branch down up) :
    Atomic P ord bs node := by
  intro node' result hcall hnot
  have hact := activateBestChain_activation P ord bs node
  generalize activateBestChain P ord bs node = out at hcall hact
  cases hact with
  | alreadyBest | noPaths | needBlocks =>
    cases hcall
    exact ⟨rfl, rfl⟩
  | @disconnectFailed down up done later entry old error hplan hsplit hdone hfail =>
    cases hcall
    obtain rfl := (hfirst down up hplan).nothing_disconnected hbased hroot hplan hsplit hdone hfail
    obtain rfl := foldlM_nil_eq_ok.mp hdone
    exact ⟨rfl, rfl⟩
  | @connectFailed down up done later entry old new error hplan hsplit hreach hfail =>
    exact (hfirst down up hplan).abortConnect hbased hroot hplan (hunrepeated down up hplan)
      (hroom down up hplan) hsplit hreach hfail hcall
  | @finished down up old new hplan hreach =>
    obtain ⟨_, ⟨e, hswitch, _⟩ | ⟨_, _, hr⟩⟩ := finish_eq_returned hcall
    · obtain ⟨_, _, hunwound, hascent, hreplayed⟩ :=
        Based.reached hbased hplan (List.prefix_refl up) hreach
      obtain ⟨s, hget, _⟩ := hreplayed.tip
      rw [hascent.target_unique hunwound.ascent] at hget
      obtain ⟨headers', hok⟩ := switchActiveChain_isOk ord hbased.setting.tree hget
      cases hok.symm.trans hswitch
    · exact absurd hr (hnot _ _ _ _)

/-- An atomic call fails at its first block only. Conversely, if it can fail
only there, and no transaction is repeated on the blocks that a rollback
undoes, it is atomic. -/
theorem failsFirst_iff_atomic (P : Primitives) (genesis : BlockHeader) (bs : BlockStore)
    (cs₀ : ChainState) (node : Node) (branch : List Block) (ord : IterOrder)
    (hbased : Based P genesis bs cs₀ node branch)
    (hroot : node.headers.get genesis.prevHash = none)
    (hroom : ∀ down up, Planned bs node down up →
      node.chainstate.undoStore.fileNumber + up.length ≤ 0xFFFF) :
    (Atomic P ord bs node →
      ∀ down up, Planned bs node down up → FailsFirst P bs cs₀ node branch down up) ∧
    ((∀ down up, Planned bs node down up → Unrepeated P bs cs₀ branch down up) →
      (∀ down up, Planned bs node down up → FailsFirst P bs cs₀ node branch down up) →
      Atomic P ord bs node) :=
  ⟨fun hatomic down up hplan => failsFirst_of_atomic hbased hroot hplan hatomic (hroom down up hplan),
    atomic_of_failsFirst hbased hroot hroom⟩

/-- `B2` claims more than its subsidy: it is rejected, and the rollback returns
to `A1`. -/
theorem atomic_on_rejected_fork :
    (activateBestChain poly .id (forkStore [coinbaseTx 2 6000000000])
      (forkNode (Pool.empty 1000))).result = none ∧
    Atomic poly .id (forkStore [coinbaseTx 2 6000000000]) (forkNode (Pool.empty 1000)) := by
  refine ⟨by decide +kernel, ?_⟩
  have hready := forkNode_ready [coinbaseTx 2 6000000000] (Pool.empty 1000) (by decide +kernel)
    ⟨by decide +kernel, by decide +kernel⟩
  refine (failsFirst_iff_atomic poly easyGenesis _ emptyState _ [blockA1] .id
    hready.toBased ?_ ?_).2 ?_ ?_
  · simp only [forkNode]
    have hnone : (forkHeaders.get easyGenesis.prevHash).isNone = true := by decide +kernel
    exact Option.isNone_iff_eq_none.mp hnone
  · intro down up hplan
    obtain ⟨rfl, rfl⟩ := forkNode_paths hplan
    decide +kernel
  · intro down up hplan done e rest blocks hsplit _ _ _ hloads
    exact hready.distinct_of_prefix hplan ⟨e :: rest, hsplit.symm⟩ hloads
  · intro down up hplan
    obtain ⟨rfl, rfl⟩ := forkNode_paths hplan
    refine .inr ⟨fun e he => ?_, fun done e rest hsplit _ hnoload => ?_⟩
    · obtain rfl := List.mem_singleton.mp he
      refine ⟨blockA1, none, by decide +kernel, ?_⟩
      unfold loadBlockUndo
      exact if_neg (by decide)
    · have hloads : [(headerB1.blockHash poly, 1),
          (headerB2.blockHash poly, 2)].all (fun e => ((forkStore
            [coinbaseTx 2 6000000000]).loadAndDeserialize e.1).toOption.isSome) = true := by
        decide +kernel
      have hsome := List.all_eq_true.mp hloads e
        (hsplit ▸ List.mem_append_right done List.mem_cons_self)
      obtain ⟨b, hb⟩ := Option.isSome_iff_exists.mp hsome
      exact absurd (toOption_eq_some.mp hb) (hnoload b)

def tornStore : BlockStore :=
  { forkStore [coinbaseTx 2 0] with files := (forkStore [coinbaseTx 2 0]).files.erase 1 }

theorem lost_block_moves_tip : ¬ Atomic poly .id tornStore (forkNode (Pool.empty 1000)) := by
  intro hatomic
  rcases hout : activateBestChain poly .id tornStore (forkNode (Pool.empty 1000)) with
    ⟨node', result⟩ | node'
  · have hresult : (activateBestChain poly .id tornStore
        (forkNode (Pool.empty 1000))).result = none := by
      decide +kernel
    have htip : (activateBestChain poly .id tornStore
        (forkNode (Pool.empty 1000))).node.chainstate.tip ≠ stateA1.tip := by
      decide +kernel
    rw [hout] at hresult htip
    refine htip (hatomic node' result hout ?_).2
    rintro _ _ _ _ rfl
    cases hresult
  · have hreturned : (activateBestChain poly .id tornStore
        (forkNode (Pool.empty 1000))).isReturned = true := by
      decide +kernel
    rw [hout] at hreturned
    cases hreturned

end Ironcat.ReorgAtomicity
