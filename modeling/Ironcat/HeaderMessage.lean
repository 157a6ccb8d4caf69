import Ironcat.DownloadWindow
import Ironcat.Lib.Locks
import Ironcat.LocatorReply

/-!
# The headers handler and the lock of the header store

`handle_headers` with the acquisitions it makes itself and those of the
functions it calls. The lock does not let a task in that already holds it.
-/

namespace Ironcat.HeaderMessage

open Lib.ByteCodec Lib.Locks Types BlockWire Headers HeaderRuns LocatorReply
open BlockDownload NodeEvents DownloadWindow

def readHeaderEntry : Reader BlockHeader := do
  let header ← readHeader
  let txCount ← decodeVarint
  Reader.require (txCount = 0)
  return header

/-- `MessageHeaders::from_bytes`. -/
def messageHeaders (payload : Bytes) : Option (List BlockHeader) :=
  (readCounted maxHeadersPerMsg readHeaderEntry payload).map Prod.fst

def refreshChainCacheTask : Task System Unit :=
  Task.withLock .read (Task.update refreshChainCache)

/-- `is_in_ibd`: the header height is read under the lock, the chainstate tip
after it. -/
def isInIbdTask : Task System Bool := do
  let headerHeight ← Task.withLock .read (do return (← Task.look).node.headers.height)
  let s ← Task.look
  return 1000 < headerHeight - s.node.chainstate.tip.2.toNat

section

variable (P : Primitives) (ord : IterOrder) (mempoolLocked : Bool)

def tryActivateBestChainTask : Task System Unit := do
  if ← isInIbdTask then
    return
  let best ← Task.withLock .read (do return (← Task.look).node.headers.bestTip)
  if best.1 = (← Task.look).node.chainstate.tip.1 then
    return
  Task.withLock .write (if mempoolLocked then pure () else Task.update (activate P ord))

def acceptEach (hs : HeaderStore) (headers : List BlockHeader) : HeaderStore × Bool :=
  headers.foldl (fun st header =>
    match st.1.acceptHeader P header with
    | .ok (hs', .needReorg) => (hs', true)
    | .ok (hs', _) => (hs', st.2)
    | .error _ => st) (hs, false)

/-- The block of `handle_headers` under the write guard: the headers committed
as a batch and whether a reorg is needed, or nothing when it returns early. -/
def commitOrAccept (headers : List BlockHeader) :
    Task System (Option (List (Hash256 × StoredHeader) × Bool)) := do
  let s ← Task.look
  match s.node.headers.validateAndCommit P headers with
  | .ok (hs, batch) =>
    Task.update (setHeaders hs)
    return some (batch, false)
  | .error _ =>
    if ← isInIbdTask then
      return none
    let s ← Task.look
    let (hs, needReorg) := acceptEach P s.node.headers headers
    Task.update (setHeaders hs)
    return some ([], needReorg)

/-- The rest of `handle_headers`, after the guard is dropped. With `sendFailed` the
request for more headers that follows a full message cannot be sent. -/
def afterGuard (mempoolLocked sendFailed : Bool) (count : ℕ) (batch : List (Hash256 × StoredHeader))
    (needReorg : Bool) : Task System Unit := do
  if batch ≠ [] then
    refreshChainCacheTask
  if count = maxHeadersPerMsg ∧ batch ≠ [] ∧ sendFailed then
    return
  if batch ≠ [] then
    Task.withLock .read (Task.update (persistHeaders batch))
  if needReorg then
    tryActivateBestChainTask P ord mempoolLocked

def handleHeaders (mempoolLocked sendFailed : Bool) (payload : Bytes) : Task System Unit := do
  match messageHeaders payload with
  | none => return
  | some headers =>
    if headers = [] then
      return
    match ← Task.withLock .write (commitOrAccept P headers) with
    | none => return
    | some (batch, needReorg) =>
      afterGuard P ord mempoolLocked sendFailed headers.length batch needReorg

theorem isInIbdTask_alone (s : System) : isInIbdTask.alone s = (isInIbd s.node, s) := rfl

theorem tryActivateBestChainTask_alone (s : System) :
    (tryActivateBestChainTask P ord mempoolLocked).alone s =
      ((), tryActivateBestChain P ord mempoolLocked s) := by
  unfold tryActivateBestChainTask tryActivateBestChain
  rw [Task.alone_bind, isInIbdTask_alone]
  by_cases hibd : isInIbd s.node
  · simp [hibd]
  · by_cases hbest : s.node.headers.bestTip.1 = s.node.chainstate.tip.1
    · simp [hibd, hbest]
    · cases mempoolLocked <;> simp [hibd, hbest]

theorem afterGuard_alone (count : ℕ) (batch : List (Hash256 × StoredHeader)) (needReorg : Bool)
    (s : System) :
    ((afterGuard P ord mempoolLocked false count batch needReorg).alone s).2 =
      let s' := if batch = [] then s else persistHeaders batch (refreshChainCache s)
      if needReorg then tryActivateBestChain P ord mempoolLocked s' else s' := by
  unfold afterGuard
  by_cases hbatch : batch = [] <;> cases needReorg <;>
    simp [hbatch, refreshChainCacheTask, tryActivateBestChainTask_alone]

/-- A call that returns leaves what `receiveHeaders` computes. -/
theorem handleHeaders_alone (payload : Bytes) (s : System) {headers : List BlockHeader}
    (hmsg : messageHeaders payload = some headers)
    (hok : headers ≠ [] → ∃ batch, s.node.headers.validateBatch P headers = .ok batch) :
    ((handleHeaders P ord mempoolLocked false payload).alone s).2 = receiveHeaders P s headers := by
  unfold handleHeaders receiveHeaders
  rw [hmsg]
  by_cases hempty : headers = []
  · simp [hempty]
  · obtain ⟨batch, hbatch⟩ := hok hempty
    simp only [hempty, if_false, Task.alone_bind, Task.alone_withLock]
    unfold commitOrAccept
    rw [Task.alone_bind, Task.alone_look]
    simp [HeaderStore.validateAndCommit, hbatch, afterGuard_alone]

end

variable {Q : Unit → Option Mode → System → Prop} {s : System}

theorem refreshChainCacheTask_wp (hQ : ∀ s', Q () none s') : refreshChainCacheTask.wp Q none s := by
  simpa [refreshChainCacheTask] using hQ

theorem isInIbdTask_wp {Q : Bool → Option Mode → System → Prop} (hQ : ∀ b s', Q b none s') :
    isInIbdTask.wp Q none s := by
  simp [isInIbdTask, hQ]

section

variable (P : Primitives) (ord : IterOrder)

theorem tryActivateBestChainTask_wp (mempoolLocked : Bool) (hQ : ∀ s', Q () none s') :
    (tryActivateBestChainTask P ord mempoolLocked).wp Q none s := by
  unfold tryActivateBestChainTask
  rw [Task.wp_bind]
  refine isInIbdTask_wp fun b s' => ?_
  cases b with
  | true => exact hQ s'
  | false =>
    rw [if_neg (by simp)]
    simp only [Task.wp_bind, Task.wp_withLock, Task.wp_look, Task.wp_pure, Task.wp_look_free]
    intro _ s₁ s₂
    split_ifs
    · exact hQ s₂
    · simpa using hQ
    · simpa using hQ

theorem afterGuard_wp (mempoolLocked sendFailed : Bool) (count : ℕ)
    (batch : List (Hash256 × StoredHeader)) (needReorg : Bool) (hQ : ∀ s', Q () none s') :
    (afterGuard P ord mempoolLocked sendFailed count batch needReorg).wp Q none s := by
  have hreorg : ∀ s', Task.wp (if needReorg = true then tryActivateBestChainTask P ord mempoolLocked
      else pure ()) Q none s' := by
    intro s'
    split_ifs
    · exact tryActivateBestChainTask_wp P ord mempoolLocked hQ
    · exact hQ s'
  unfold afterGuard
  dsimp only
  by_cases hbatch : batch = []
  · simpa [hbatch] using hreorg s
  · rw [if_pos hbatch, Task.wp_bind]
    refine refreshChainCacheTask_wp fun s' => ?_
    by_cases hsend : count = maxHeadersPerMsg ∧ batch ≠ [] ∧ sendFailed = true
    · rw [if_pos hsend]
      exact hQ s'
    · rw [if_neg hsend, if_pos hbatch, Task.wp_bind, Task.wp_withLock, Task.wp_update]
      exact hreorg

theorem commitOrAccept_wp {headers : List BlockHeader}
    {Q : Option (List (Hash256 × StoredHeader) × Bool) → Option Mode → System → Prop}
    (hQ : ∀ r s', Q r (some .write) s') :
    (commitOrAccept P headers).wp Q (some .write) s ↔
      ∃ batch, s.node.headers.validateBatch P headers = .ok batch := by
  unfold commitOrAccept
  rw [Task.wp_bind, Task.wp_look]
  unfold HeaderStore.validateAndCommit
  cases hbatch : s.node.headers.validateBatch P headers with
  | ok batch => exact iff_of_true (hQ _ _) ⟨batch, rfl⟩
  | error e =>
    refine iff_of_false ?_ (by simp)
    change ¬ Task.wp (isInIbdTask >>= _) Q (some .write) s
    rw [Task.wp_bind, isInIbdTask, Task.wp_bind]
    exact Task.not_wp_withLock

theorem handleHeaders_wp (mempoolLocked sendFailed : Bool) (payload : Bytes) (s : System) :
    (handleHeaders P ord mempoolLocked sendFailed payload).wp (fun _ _ _ => True) none s ↔
      ∀ headers, messageHeaders payload = some headers → headers ≠ [] →
        ∃ batch, s.node.headers.validateBatch P headers = .ok batch := by
  unfold handleHeaders
  cases hmsg : messageHeaders payload with
  | none => simp
  | some headers =>
    by_cases hempty : headers = []
    · simp [hempty]
    · dsimp only
      rw [if_neg hempty, Task.wp_bind, Task.wp_withLock, commitOrAccept_wp]
      · simp [hempty]
      · intro r _ s'
        cases r with
        | none => trivial
        | some r => exact afterGuard_wp P ord mempoolLocked sendFailed _ r.1 r.2 fun _ => trivial

end

/-- The handler keeps clear of its own guard exactly when the store it locks
accepts the batch, or there is no batch to check. -/
theorem handler_never_reenters (P : Primitives) (ord : IterOrder)
    (mempoolLocked sendFailed : Bool) (payload : Bytes) (s : System) :
    ¬ Task.Reenters none s (handleHeaders P ord mempoolLocked sendFailed payload) ↔
      ∀ headers, messageHeaders payload = some headers → headers ≠ [] →
        ∃ batch, s.node.headers.validateBatch P headers = .ok batch := by
  rw [Task.not_reenters_iff]
  exact handleHeaders_wp P ord mempoolLocked sendFailed payload s

def orphanPayload : Bytes := 1 :: (headerA2.toBytes ++ [0])

theorem orphan_header_reenters :
    Task.Reenters none (start freshNode emptyBlocks true)
      (handleHeaders poly .id false false orphanPayload) := by
  by_contra h
  rw [Task.not_reenters_iff, handleHeaders_wp] at h
  obtain ⟨batch, hbatch⟩ := h [headerA2] (by decide +kernel) (by simp)
  have hrejected : (freshNode.headers.validateBatch poly [headerA2]).isOk = false := by
    decide +kernel
  rw [show freshNode.headers.validateBatch poly [headerA2] = .ok batch from hbatch] at hrejected
  cases hrejected

end Ironcat.HeaderMessage
