import Ironcat.BatchInsert
import Ironcat.HeaderReload

/-!
# Batches that reach the disk later

`handle_headers` commits a batch under the write lock and writes it to the
database after the lock is gone; another peer's batch, or a fork header that
`accept_header` writes at once, may reach the disk first, and the write may fail
or never happen. A reload walks parent links on the disk, so it needs every
header there to have its parent there.
-/

namespace Ironcat.HeaderPersist

open Lib.Checked Lib.FiniteMap Lib.Runs Types Difficulty Headers HeaderTree HeaderRuns BatchInsert
open HeaderReload

variable {P : Primitives} {genesis : BlockHeader}

abbrev Batch := List (Hash256 × StoredHeader)

/-- The header store, and the batches whose handlers have not written yet. -/
structure Session where
  store : HeaderStore
  waiting : List Batch

inductive SessionOp
  | commit (headers : List BlockHeader)
  | persist (task : ℕ) (failed : Bool)
  | accept (header : BlockHeader) (failed : Bool)
deriving DecidableEq, Repr

namespace SessionOp

def headers : SessionOp → List BlockHeader
  | .commit headers => headers
  | .persist _ _ => []
  | .accept header _ => [header]

def apply (P : Primitives) (s : Session) : SessionOp → Session
  | .commit headers =>
    match s.store.validateAndCommit P headers with
    | .ok (store, batch) => ⟨store, s.waiting ++ [batch]⟩
    | .error _ => s
  | .persist task failed =>
    match s.waiting[task]? with
    | none => s
    | some batch =>
      ⟨if failed then s.store else s.store.persistBatch batch, s.waiting.eraseIdx task⟩
  | .accept header failed =>
    -- a failed write returns before the header is stored
    if failed then s
    else
      match s.store.acceptHeader P header with
      | .ok (store, _) => { s with store }
      | .error _ => s

end SessionOp

def startSession (P : Primitives) (ord : IterOrder) (genesis : BlockHeader)
    (params : ConsensusParams) : Session :=
  ⟨HeaderStore.withBackend P ord genesis params (some ⟨∅, []⟩), []⟩

/-- A crash here is followed by a load that finds a path of written headers. -/
def Reloads (genesis : Hash256) (ord : IterOrder) (s : Session) : Prop :=
  ∃ be l, s.store.backend = some be ∧ tryLoadFromBackend ord be genesis = .ok (some l, be) ∧
    Path genesis l.byHash l.activeChain ∧
    ∀ hash ∈ l.activeChain, ∃ stored, l.byHash.lookup hash = some stored ∧
      be.headers.lookup hash = some (encodeEntry stored)

structure HoldsStore (hs : HeaderStore) (m : HeaderMap) (be : Backend) : Prop where
  headers : ∀ hash, be.headers.lookup hash = (m.lookup hash).map encodeEntry
  unmarked : be.invalidTips = []
  inMemory : ∀ hash s, m.lookup hash = some s → hs.get hash = some s

/-- Every header of `m` but genesis has its parent in `m`. -/
structure ParentsHeld (genesis : Hash256) (m : HeaderMap) : Prop where
  root : genesis ∈ m
  parent : ∀ hash s, m.lookup hash = some s → hash ≠ genesis → s.header.prevHash ∈ m

section Disk

variable {hs hs' : HeaderStore} {m : HeaderMap} {be : Backend} {batch : Batch}

variable {hash : Hash256}

theorem HoldsStore.mem_iff (h : HoldsStore hs m be) : hash ∈ be.headers ↔ hash ∈ m := by
  rw [← AList.lookup_isSome, h.headers, Option.isSome_map, Finmap.lookup_isSome]

theorem HoldsStore.mono (h : HoldsStore hs m be) (hsub : ∀ k s, hs.get k = some s → hs'.get k = some s) :
    HoldsStore hs' m be :=
  ⟨h.headers, h.unmarked, fun hash s hs => hsub hash s (h.inMemory hash s hs)⟩

theorem HoldsStore.persistHeader (h : HoldsStore hs m be) {s : StoredHeader} (hget : hs.get hash = some s) :
    HoldsStore hs (m.insert hash s) (be.persistHeader hash s) := by
  refine ⟨fun k => ?_, h.unmarked, fun k v hk => ?_⟩
  · rw [lookup_insert_eq]
    by_cases hk : k = hash
    · subst hk
      simp [Backend.persistHeader]
    · simp [Backend.persistHeader, hk, h.headers]
  · rcases lookup_insert_cases hk with ⟨rfl, rfl⟩ | hk
    · exact hget
    · exact h.inMemory k v hk

theorem HoldsStore.persistAll (h : HoldsStore hs m be) (hmem : ∀ e ∈ batch, hs.get e.1 = some e.2) :
    HoldsStore hs (insertAll m batch) (persistAll be batch) := by
  induction batch generalizing m be with
  | nil => exact h
  | cons e batch ih =>
    rw [List.forall_mem_cons] at hmem
    exact ih (h.persistHeader hmem.1) hmem.2

theorem HoldsStore.rooted (h : HoldsStore hs m be) (hrooted : Rooted P genesis hs.byHash)
    (hclosed : ParentsHeld (genesis.blockHash P) m) : Rooted P genesis m := by
  refine ⟨?_, fun hash s hs' hne => ?_, fun hash s hs' => ?_, fun hash s hs' => ?_⟩
  · obtain ⟨s, hs'⟩ := Finmap.mem_iff.mp hclosed.root
    rw [hs', ← h.inMemory _ s hs', HeaderStore.get, hrooted.root]
  · obtain ⟨p, hp⟩ := Finmap.mem_iff.mp (hclosed.parent hash s hs' hne)
    obtain ⟨p', hp', hchild⟩ := hrooted.parent hash s (h.inMemory hash s hs') hne
    obtain rfl : p = p' := Option.some.inj ((h.inMemory _ p hp).symm.trans hp')
    exact ⟨p, hp, hchild⟩
  · exact hrooted.keyed hash s (h.inMemory hash s hs')
  · exact hrooted.bounded hash s (h.inMemory hash s hs')

theorem tree_of_rooted (params : ConsensusParams) (hrooted : Rooted P genesis m) :
    Tree P genesis { HeaderStore.makeFresh P genesis params none with byHash := m } := by
  refine ⟨hrooted, ⟨rfl, fun i hash hi => ?_⟩, by simp [HeaderStore.makeFresh]⟩
  simp [HeaderStore.makeFresh] at hi

theorem HoldsStore.reload (h : HoldsStore hs m be) (hrooted : Rooted P genesis hs.byHash)
    (hclosed : ParentsHeld (genesis.blockHash P) m) (ord : IterOrder)
    (hlen : be.headers.entries.length ≤ maxLoadableHeaders) :
    ∃ l, tryLoadFromBackend ord be (genesis.blockHash P) = .ok (some l, be) ∧
      Path (genesis.blockHash P) l.byHash l.activeChain ∧
      ∀ hash ∈ l.activeChain, ∃ stored, l.byHash.lookup hash = some stored ∧
        be.headers.lookup hash = some (encodeEntry stored) := by
  have hm := h.rooted hrooted hclosed
  have htree := tree_of_rooted hs.params hm
  have hmirrors : Mirrors { HeaderStore.makeFresh P genesis hs.params none with byHash := m } be :=
    ⟨h.headers, by simp [h.unmarked, HeaderStore.makeFresh]⟩
  obtain ⟨l, _, hload, hbyHash, hpath, _⟩ := hmirrors.loads htree ord hlen
  refine ⟨l, hload, hbyHash ▸ hpath, fun hash hmem => ?_⟩
  obtain ⟨i, hi⟩ := List.mem_iff_getElem?.mp hmem
  obtain ⟨stored, hstored, _⟩ := hpath.lookup hm.root hi
  exact ⟨stored, hbyHash ▸ hstored, by rw [h.headers, hstored]; rfl⟩

theorem ParentsHeld.insert {g : Hash256} {s : StoredHeader} (h : ParentsHeld g m)
    (hprev : s.header.prevHash ∈ m) : ParentsHeld g (m.insert hash s) := by
  refine ⟨Finmap.mem_insert.mpr (.inr h.root), fun k v hk hne => ?_⟩
  rcases lookup_insert_cases hk with ⟨_, rfl⟩ | hk
  · exact Finmap.mem_insert.mpr (.inr hprev)
  · exact Finmap.mem_insert.mpr (.inr (h.parent k v hk hne))

theorem mem_insertAll : hash ∈ insertAll m batch ↔ hash ∈ batch.map Prod.fst ∨ hash ∈ m := by
  by_cases hmem : hash ∈ batch.map Prod.fst
  · obtain ⟨s, _, hs⟩ := lookup_insertAll_of_mem m hmem
    exact iff_of_true (Finmap.mem_of_lookup_eq_some hs) (.inl hmem)
  · rw [← Finmap.lookup_isSome, lookup_insertAll_of_notMem m hmem, Finmap.lookup_isSome]
    exact (or_iff_right hmem).symm

theorem ParentsHeld.insertAll {g : Hash256} (h : ParentsHeld g m)
    (hprev : ∀ e ∈ batch, e.2.header.prevHash ∈ batch.map Prod.fst ∨ e.2.header.prevHash ∈ m) :
    ParentsHeld g (insertAll m batch) := by
  refine ⟨mem_insertAll.mpr (.inr h.root), fun k v hk hne => mem_insertAll.mpr ?_⟩
  by_cases hmem : k ∈ batch.map Prod.fst
  · obtain ⟨s, hs, hlookup⟩ := lookup_insertAll_of_mem m hmem
    obtain rfl := Option.mem_unique hlookup hk
    exact hprev _ hs
  · rw [lookup_insertAll_of_notMem m hmem] at hk
    exact .inr (h.parent k v hk hne)

end Disk

def Session.onDisk (s : Session) (hash : Hash256) : Bool :=
  s.store.backend.any fun be => hash ∈ be.headers

/-- A write that succeeds writes a header only when its parent is on the disk,
or reaches it in the same transaction. -/
def ParentsFirst (P : Primitives) (s : Session) : SessionOp → Prop
  | .commit _ => True
  | .persist task failed => failed = true ∨ ∀ batch, s.waiting[task]? = some batch → ∀ e ∈ batch,
      e.2.header.prevHash ∈ batch.map Prod.fst ∨ s.onDisk e.2.header.prevHash = true
  | .accept header failed => failed = true ∨ header.blockHash P ∈ s.store.byHash ∨
      s.onDisk header.prevHash = true

structure Recoverable (P : Primitives) (genesis : BlockHeader) (s : Session) : Prop where
  tree : Tree P genesis s.store
  waiting : ∀ batch ∈ s.waiting, ∀ e ∈ batch, s.store.get e.1 = some e.2
  disk : ∃ be m, s.store.backend = some be ∧ HoldsStore s.store m be ∧ ParentsHeld (genesis.blockHash P) m

variable {s : Session}

theorem Recoverable.commit {headers : List BlockHeader} (h : Recoverable P genesis s)
    (hinj : HashInjOn P {h | h ∈ headers}) :
    Recoverable P genesis ((SessionOp.commit headers).apply P s) := by
  simp only [SessionOp.apply]
  split
  next store batch hcommit =>
    simp only [HeaderStore.validateAndCommit, bind_eq_ok, pure_eq_ok, Prod.mk.injEq] at hcommit
    obtain ⟨batch, hbatch, rfl, rfl⟩ := hcommit
    obtain ⟨hatt, _⟩ := validateBatch_attached h.tree.trunk hinj hbatch
    obtain ⟨hnew, hold⟩ := get_of_attached hatt
    have hbackend := congrArg HeaderStore.backend (commitAll_backend s.store s.store.backend batch)
    obtain ⟨be, m, hbe, hholds, hclosed⟩ := h.disk
    refine ⟨hatt.tree h.tree, fun b hb e he => ?_, be, m, hbackend.trans hbe, hholds.mono hold,
      hclosed⟩
    rcases List.mem_append.mp hb with hb | hb
    · exact hold _ _ (h.waiting b hb e he)
    · exact hnew e (List.mem_singleton.mp hb ▸ he)
  next => exact h

theorem Recoverable.persist {task : ℕ} {failed : Bool} (h : Recoverable P genesis s)
    (hready : ParentsFirst P s (.persist task failed)) :
    Recoverable P genesis ((SessionOp.persist task failed).apply P s) := by
  simp only [SessionOp.apply]
  cases hbatch : s.waiting[task]? with
  | none => exact h
  | some batch =>
    have hwaiting : ∀ b ∈ s.waiting.eraseIdx task, ∀ e ∈ b, s.store.get e.1 = some e.2 :=
      fun b hb => h.waiting b (List.mem_of_mem_eraseIdx hb)
    cases failed with
    | true => exact ⟨h.tree, hwaiting, h.disk⟩
    | false =>
      obtain ⟨be, m, hbe, hholds, hclosed⟩ := h.disk
      have hmem := h.waiting batch (List.mem_of_getElem? hbatch)
      have hprev : ∀ e ∈ batch, e.2.header.prevHash ∈ batch.map Prod.fst ∨
          e.2.header.prevHash ∈ m := by
        simpa [Session.onDisk, hbe, hholds.mem_iff] using hready.resolve_left (by simp) batch hbatch
      simp only [Bool.false_eq_true, if_false, persistBatch_eq]
      refine ⟨⟨h.tree.rooted, h.tree.path, h.tree.active⟩, hwaiting, HeaderTree.persistAll be batch,
        insertAll m batch, by simp [hbe], ?_, hclosed.insertAll hprev⟩
      exact (hholds.persistAll hmem).mono fun _ _ => id

theorem Recoverable.accept {header : BlockHeader} {failed : Bool} (h : Recoverable P genesis s)
    (hready : ParentsFirst P s (.accept header failed)) :
    Recoverable P genesis ((SessionOp.accept header failed).apply P s) := by
  cases failed with
  | true => exact h
  | false =>
    simp only [SessionOp.apply, Bool.false_eq_true, if_false]
    split
    next store r haccept =>
      obtain ⟨_, rfl, _⟩ | ⟨_, p, extend, hp, hatt, _, rfl⟩ := acceptHeader_eq_ok haccept
      · exact h
      · obtain ⟨be, m, hbe, hholds, hclosed⟩ := h.disk
        obtain ⟨hnew, hold⟩ := get_of_attached (Attached.nil.snoc hatt)
        have hprev : header.prevHash ∈ m := by
          have hdisk := (hready.resolve_left (by simp)).resolve_left hatt.fresh
          simpa [Session.onDisk, hbe, hholds.mem_iff] using hdisk
        have htree := h.tree.attach hatt
        refine ⟨⟨htree.rooted, htree.path, htree.active⟩,
          fun b hb e he => hold _ _ (h.waiting b hb e he), _,
          m.insert (header.blockHash P) (storedBelow p header), by rw [hbe]; rfl, ?_,
          hclosed.insert hprev⟩
        exact ((hholds.mono hold).persistHeader (hnew _ (List.mem_singleton_self _))).mono
          fun _ _ => id
    next => exact h

theorem recoverable_step {op : SessionOp} (h : Recoverable P genesis s)
    (hinj : HashInjOn P {h | h ∈ op.headers})
    (hready : ParentsFirst P s op) : Recoverable P genesis (op.apply P s) := by
  cases op with
  | commit headers => exact h.commit hinj
  | persist task failed => exact h.persist hready
  | accept header failed => exact h.accept hready

theorem recoverable_start (P : Primitives) (ord : IterOrder) (genesis : BlockHeader)
    (params : ConsensusParams) : Recoverable P genesis (startSession P ord genesis params) := by
  rw [startSession, withBackend_empty]
  set root : StoredHeader := ⟨genesis, 0, workFromBits genesis.bits⟩
  have hempty : HoldsStore (HeaderStore.makeFresh P genesis params (some (Backend.persistHeader ⟨∅, []⟩
      (genesis.blockHash P) root))) ∅ ⟨∅, []⟩ :=
    ⟨fun _ => rfl, rfl, fun hash s hs => by simp at hs⟩
  have htree := tree_makeFresh P genesis params
    (some (Backend.persistHeader ⟨∅, []⟩ (genesis.blockHash P) root))
  refine ⟨htree, by simp, _, _, rfl, hempty.persistHeader htree.rooted.root, ?_⟩
  refine ⟨Finmap.mem_insert.mpr (.inl rfl), fun hash s hs hne => ?_⟩
  obtain ⟨rfl, _⟩ | hs := lookup_insert_cases hs
  · exact absurd rfl hne
  · simp at hs

def SessionHashSound (P : Primitives) (ops : List SessionOp) : Prop :=
  ∀ a ∈ ops.flatMap SessionOp.headers, ∀ b ∈ ops.flatMap SessionOp.headers,
    a.blockHash P = b.blockHash P → a = b

instance (P : Primitives) (ops : List SessionOp) : Decidable (SessionHashSound P ops) :=
  inferInstanceAs (Decidable (∀ a ∈ ops.flatMap SessionOp.headers, _))

theorem SessionHashSound.injOn {ops : List SessionOp} (h : SessionHashSound P ops) {op : SessionOp}
    (hop : op ∈ ops) : HashInjOn P {h | h ∈ op.headers} :=
  fun a ha b hb =>
    h a (List.mem_flatMap.mpr ⟨op, hop, ha⟩) b (List.mem_flatMap.mpr ⟨op, hop, hb⟩)

theorem recoverable_run {ops : List SessionOp} (h : Recoverable P genesis s)
    (hhash : SessionHashSound P ops) (hready : Along (SessionOp.apply P) (ParentsFirst P) s ops) :
    Recoverable P genesis (run (SessionOp.apply P) s ops) := by
  refine run_invariant (Recoverable P genesis) ?_ h (hready.and fun op => hhash.injOn)
  rintro s op h ⟨hready, hinj⟩
  exact recoverable_step h hinj hready

instance (P : Primitives) (s : Session) : (op : SessionOp) → Decidable (ParentsFirst P s op)
  | .commit _ => instDecidableTrue
  | .persist _ _ => inferInstanceAs (Decidable (_ ∨ ∀ _, _ → _))
  | .accept _ _ => inferInstanceAs (Decidable (_ ∨ _ ∨ _))

def Session.entries (s : Session) : ℕ :=
  s.store.backend.elim 0 fun be => be.headers.entries.length

theorem reloads_of_parentsFirst (P : Primitives) (ord₀ ord : IterOrder) (genesis : BlockHeader)
    (params : ConsensusParams) (ops : List SessionOp) (hhash : SessionHashSound P ops)
    (hready : Along (SessionOp.apply P) (ParentsFirst P) (startSession P ord₀ genesis params) ops)
    (hlen : (run (SessionOp.apply P) (startSession P ord₀ genesis params) ops).entries ≤
      maxLoadableHeaders) :
    Reloads (genesis.blockHash P) ord
      (run (SessionOp.apply P) (startSession P ord₀ genesis params) ops) := by
  have h := recoverable_run (recoverable_start P ord₀ genesis params) hhash hready
  obtain ⟨be, m, hbe, hholds, hclosed⟩ := h.disk
  rw [Session.entries, hbe] at hlen
  obtain ⟨l, hload, hpath, hchain⟩ := hholds.reload h.tree.rooted hclosed ord hlen
  exact ⟨be, l, hbe, hload, hpath, hchain⟩

/-- Two peers' batches written in the order they were committed, then a fork
header. -/
theorem reloads_after_ordered_writes :
    Reloads (easyGenesis.blockHash poly) .id (run (SessionOp.apply poly)
      (startSession poly .id easyGenesis ConsensusParams.testing)
      [.commit [headerA1], .commit [headerA2], .persist 0 false, .accept headerB1 false,
        .persist 0 false]) :=
  reloads_of_parentsFirst poly .id .id easyGenesis ConsensusParams.testing _
    (by decide +kernel) (by decide +kernel) (by decide +kernel)

/-- The second peer's handler writes first, and the node stops before the first
one's does: `A2` is on the disk without `A1`. -/
theorem later_batch_breaks_reload :
    ¬ Reloads (easyGenesis.blockHash poly) .id (run (SessionOp.apply poly)
      (startSession poly .id easyGenesis ConsensusParams.testing)
      [.commit [headerA1], .commit [headerA2], .persist 1 false]) := by
  rintro ⟨be, l, hbe, hload, _⟩
  have hfails : ((run (SessionOp.apply poly)
      (startSession poly .id easyGenesis ConsensusParams.testing)
      [.commit [headerA1], .commit [headerA2], .persist 1 false]).store.backend.map fun be =>
        (tryLoadFromBackend .id be (easyGenesis.blockHash poly)).isOk) = some false := by
    decide +kernel
  rw [hbe, Option.map_some, hload] at hfails
  cases hfails

end Ironcat.HeaderPersist
