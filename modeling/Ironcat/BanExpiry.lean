import Ironcat.BanWrites

/-!
# How long a ban lasts

A ban is set by a message handler, and the table, the reaper and the saved peers
all respect it. The tasks of the banned address are what can end it: the end of
an incoming connection, a dial, a retry that is already due and a `verack` after
the version write the state without a look at the ban. A ban lasts until it
expires exactly when no such task is alive at the moment it is set.
-/

namespace Ironcat.BanExpiry

open Lib.FiniteMap Lib.Runs Peers BanWrites

variable {s : System} {mgr : NodeManager} {clock : Clock} {a address : IpAddr} {E : ℕ}
variable {versionReceived : Bool} {tasks : Map ℕ (IpAddr × Task)}

theorem Barred.stateOf (h : Barred E versionReceived (mgr.nodes.lookup a)) :
    ∃ state, mgr.stateOf a = some state ∧ BannedUntil E state := by
  obtain ⟨node, hnode, hbanned⟩ := h
  exact ⟨node.state, by simp [NodeManager.stateOf, hnode], hbanned.until_le⟩

def TasksHarmless (versionReceived : Bool) (a : IpAddr) (tasks : Map ℕ (IpAddr × Task)) : Prop :=
  ∀ id task, tasks.lookup id = some (a, task) → harmless versionReceived task

variable {task : Task}

theorem TasksHarmless.insert {id : ℕ} (h : TasksHarmless versionReceived a tasks)
    (htask : address = a → harmless versionReceived task) :
    TasksHarmless versionReceived a (tasks.insert id (address, task)) := by
  intro k t hk
  rcases lookup_insert_cases hk with ⟨_, heq⟩ | hk
  · obtain ⟨rfl, rfl⟩ := Prod.mk.inj heq
    exact htask rfl
  · exact h k t hk

theorem TasksHarmless.erase {id : ℕ} (h : TasksHarmless versionReceived a tasks) :
    TasksHarmless versionReceived a (tasks.erase id) := by
  intro k t hk
  rw [lookup_erase_eq] at hk
  split_ifs at hk
  exact h k t hk

theorem TasksHarmless.spawnIf {inserted : NodeManager × Bool}
    (h : TasksHarmless versionReceived a s.tasks)
    (htask : address = a → inserted.2 = true → harmless versionReceived task) :
    TasksHarmless versionReceived a (s.spawnIf inserted address task).tasks := by
  unfold System.spawnIf
  split_ifs with hinserted
  · exact h.insert fun ha => htask ha hinserted
  · exact h

theorem TasksHarmless.loadSavedPeers {db : PeerDb} (h : TasksHarmless versionReceived a s.tasks) :
    TasksHarmless versionReceived a (s.loadSavedPeers db).tasks := by
  unfold System.loadSavedPeers
  split_ifs
  · exact h
  · exact List.foldlRecOn (motive := fun t : System => TasksHarmless versionReceived a t.tasks)
      db.peers System.loadPeer h fun _ h _ _ => h.spawnIf fun _ _ => rfl

theorem TasksHarmless.reap (h : TasksHarmless versionReceived a s.tasks) :
    TasksHarmless versionReceived a s.reap.tasks := by
  unfold System.reap System.reapReady System.reapStale System.reapBan
  split
  · split_ifs
    · exact TasksHarmless.spawnIf (s := { s with reaper := _ }) h fun _ _ => rfl
    · exact h
  · split_ifs <;> exact h
  · split
    · split_ifs <;> exact h
    · exact h
  · exact h

theorem finishVersion_closed {version : MessageVersion} {isIncoming sentVersion sentVerack : Bool}
    (h : Barred E versionReceived (mgr.nodes.lookup a)) :
    (mgr.finishVersion clock a version isIncoming sentVersion sentVerack).2 = .closed := by
  obtain ⟨node, hnode, ⟨_, _, _, hstate, _⟩, _⟩ := h
  unfold NodeManager.finishVersion
  simp only [hnode, hstate, NodeState.isHandshaking, Bool.false_eq_true, if_false]
  split_ifs <;> rfl

theorem loopStep_not_reading {id : ℕ} {phase : LoopPhase} {event : TaskEvent}
    (h : Barred E versionReceived (mgr.nodes.lookup a)) (hphase : phase ≠ .reading) :
    (System.loopStep clock mgr a id phase event).2 ≠ .reading := by
  unfold System.loopStep
  split
  · exact absurd rfl hphase
  · simp [finishVersion_closed h]
  · simp
  · exact hphase

theorem TasksHarmless.taskStep {id : ℕ} {event : TaskEvent}
    (h : TasksHarmless versionReceived a s.tasks)
    (hbarred : Barred E versionReceived (s.manager.nodes.lookup a)) (hnow : s.clock.unix < E)
    (htask : address = a → harmless versionReceived task) :
    TasksHarmless versionReceived a (s.taskStep id address task event).tasks := by
  obtain ⟨state, hstate, huntil⟩ := Barred.stateOf hbarred
  unfold System.taskStep
  split
  · -- a task that has not started finds the ban
    split_ifs with hattempt
    · refine h.insert fun ha => ?_
      subst ha
      obtain ⟨_, _, _, rfl, _⟩ := huntil
      simp [NodeManager.shouldAttemptConnection, hstate, NodeState.isConnecting,
        NodeState.isConnectable] at hattempt
    · exact h.erase
  · exact h.insert fun ha => nomatch htask ha
  · exact h.erase
  · exact h.insert fun ha => nomatch htask ha
  · exact h.erase
  · -- the end of an outgoing connection looks at the ban
    split_ifs with hbanned
    · exact h.erase
    · refine h.insert fun ha => ?_
      subst ha
      rw [hstate] at hbanned
      exact absurd (huntil.isBanned hnow) hbanned
  case h_7 attempt phase _ =>
    refine h.insert fun ha => harmless_outgoing.mpr fun hreading => ?_
    subst ha
    by_cases hphase : phase = .reading
    · exact harmless_outgoing.mp (htask rfl) hphase
    · exact absurd hreading (loopStep_not_reading hbarred hphase)
  · exact h.erase
  · exact h.erase
  · exact h.insert fun ha => nomatch htask ha
  · exact h

structure Guarded (E : ℕ) (versionReceived : Bool) (a : IpAddr) (s : System) : Prop where
  node : Barred E versionReceived (s.manager.nodes.lookup a)
  tasks : TasksHarmless versionReceived a s.tasks
  renewed : E ≤ banExpiresAt s.clock.unix

theorem Guarded.harmless (h : Guarded E versionReceived a s) : Harmless s a := by
  intro id task htask node hnode
  obtain ⟨banned, hbanned, _, hreceived⟩ := h.node
  obtain rfl := Option.mem_unique hbanned hnode
  exact hreceived ▸ h.tasks id task htask

theorem reap_clock (s : System) : s.reap.clock = s.clock := by
  unfold System.reap System.reapReady System.reapStale System.reapBan
  repeat' split
  all_goals rfl

theorem taskStep_clock (s : System) (id : ℕ) (address : IpAddr) (task : Task) (event : TaskEvent) :
    (s.taskStep id address task event).clock = s.clock := by
  unfold System.taskStep
  split <;> first | rfl | (split_ifs <;> rfl)

theorem unix_le_step (s : System) (event : Event) : s.clock.unix ≤ (step s event).clock.unix := by
  cases event with
  | advance unix instant => exact Nat.le_add_right _ _
  | insert address port connectionType => exact le_rfl
  | insertOutgoing address port => exact spawnIf_clock ▸ le_rfl
  | insertIncoming address port => exact spawnIf_clock ▸ le_rfl
  | reviveIfNewer address port timestamp => exact spawnIf_clock ▸ le_rfl
  | loadSavedPeers db => exact (congrArg Clock.unix (loadSavedPeers_clock s db)).ge
  | scan address => exact (congrArg Clock.unix (scan_frame s address).2.2).ge
  | reap => exact (congrArg Clock.unix (reap_clock s)).ge
  | evict => exact le_rfl
  | task id event =>
    simp only [step]
    split
    · exact (congrArg Clock.unix (taskStep_clock _ _ _ _ _)).ge
    · exact le_rfl

variable {created : ℕ}

theorem banExpiresAt_mono {created' : ℕ} (h : created ≤ created') :
    banExpiresAt created ≤ banExpiresAt created' := by
  unfold banExpiresAt
  omega

theorem Guarded.tasks_step {event : Event} (h : Guarded E versionReceived a s)
    (hnow : s.clock.unix < E) : TasksHarmless versionReceived a (step s event).tasks := by
  cases event with
  | advance unix instant => exact h.tasks
  | insert address port connectionType => exact h.tasks
  | insertOutgoing address port => exact h.tasks.spawnIf fun _ _ => rfl
  | insertIncoming address port =>
    refine h.tasks.spawnIf fun ha hinserted => ?_
    subst ha
    rcases insertIncoming_cases s.clock s.manager address port with heq | ⟨_, _, heq⟩
    · rw [heq] at hinserted
      cases hinserted
    · rw [heq, h.node.not_inserted rfl] at hinserted
      cases hinserted
  | reviveIfNewer address port timestamp => exact h.tasks.spawnIf fun _ _ => rfl
  | loadSavedPeers db => exact h.tasks.loadSavedPeers
  | scan address => exact (scan_frame s address).2.1 ▸ h.tasks
  | reap => exact h.tasks.reap
  | evict => exact h.tasks
  | task id event =>
    simp only [step]
    split
    case h_1 address task htask =>
      exact h.tasks.taskStep h.node hnow fun ha => h.tasks id task (ha ▸ htask)
    case h_2 => exact h.tasks

theorem Guarded.step {event : Event} (h : Guarded E versionReceived a s) (hnow : s.clock.unix < E) :
    Guarded E versionReceived a (step s event) where
  node := (step_respects s event).keeps h.harmless h.renewed hnow h.node
  tasks := h.tasks_step hnow
  renewed := h.renewed.trans (banExpiresAt_mono (unix_le_step s event))

theorem unix_le_run (s : System) (events : List Event) :
    s.clock.unix ≤ (run step s events).clock.unix :=
  run_always (fun t => s.clock.unix ≤ t.clock.unix)
    (fun t event h => h.trans (unix_le_step t event)) le_rfl events

theorem Guarded.run {events : List Event} (h : Guarded E versionReceived a s)
    (hnow : (run Peers.step s events).clock.unix < E) :
    Guarded E versionReceived a (run Peers.step s events) :=
  run_always (fun s => s.clock.unix < E → Guarded E versionReceived a s)
    (fun s event ih hstep =>
      have hbefore := (unix_le_step s event).trans_lt hstep
      (ih hbefore).step hbefore)
    (fun _ => h) events hnow

theorem stateOf_update {node : Node} {f : Node → Node} (h : mgr.nodes.lookup a = some node) :
    (mgr.update a f).stateOf a = some (f node).state := by
  simp [NodeManager.stateOf, NodeManager.update, lookup_modify, h]

/-- The address is banned until `E`. -/
def Lasts (E : ℕ) (a : IpAddr) (s : System) : Prop :=
  ∃ state, s.manager.stateOf a = some state ∧ BannedUntil E state

theorem not_lasts {state : NodeState} (hstate : s.manager.stateOf a = some state)
    (hfree : NotBan state) : ¬ Lasts E a s := by
  intro ⟨state', hstate', _, _, _, hbanned, _⟩
  rw [hstate, Option.some.injEq] at hstate'
  exact hfree _ _ _ (hstate'.trans hbanned)

theorem retry_ends_ban {id attempt random : ℕ} {node : Node}
    (h : s.manager.nodes.lookup a = some node) : ¬ Lasts E a (s.retry id a attempt random) := by
  have hretry : ∃ state, (s.manager.scheduleRetry s.clock a attempt random).stateOf a =
      some state ∧ state.isInactive = true := by
    unfold NodeManager.scheduleRetry
    dsimp only
    split_ifs
    · exact ⟨_, stateOf_update h, rfl⟩
    · exact ⟨_, stateOf_update h, rfl⟩
  obtain ⟨state, hstate, hinactive⟩ := hretry
  exact not_lasts hstate (notBan_of_inactive hinactive)

theorem step_task {id : ℕ} (h : s.tasks.lookup id = some (address, task)) (event : TaskEvent) :
    step s (.task id event) = s.taskStep id address task event := by
  simp only [step, h]

theorem finished_ends_ban {id : ℕ} (h : Barred E versionReceived (s.manager.nodes.lookup a))
    (htask : s.tasks.lookup id = some (a, .incoming .closed)) :
    ¬ Lasts E a (step s (.task id .finished)) := by
  obtain ⟨node, hnode, _⟩ := h
  rw [step_task htask]
  exact not_lasts (stateOf_update hnode) fun _ _ _ => nofun

theorem handleVerack_connects {writer : ℕ} {sent : Bool} {node : Node}
    (h : mgr.nodes.lookup a = some node) (hreceived : node.versionReceived = true) :
    (mgr.handleVerack clock a writer sent).1.stateOf a = some (.connected writer) := by
  simp only [NodeManager.handleVerack, h, hreceived, not_true_eq_false, if_false]
  split
  · rw [NodeManager.stateOf, recordExternalIpVote_nodes]
    exact stateOf_update h
  · exact stateOf_update h

theorem verack_ends_ban {id attempt : ℕ} {node : Node} (h : s.manager.nodes.lookup a = some node)
    (hreceived : node.versionReceived = true) :
    ¬ Lasts E a (s.taskStep id a (.outgoing attempt .reading) (.received .verack true)) := by
  have hseen : (s.manager.updateLastSeen s.clock a).nodes.lookup a =
      some { node with lastSeen := s.clock.unix } := by
    simp [NodeManager.updateLastSeen, NodeManager.update, lookup_modify, h]
  exact not_lasts (handleVerack_connects hseen hreceived) (by simp [NotBan])

theorem exists_closing {id : ℕ} {phase : LoopPhase}
    (h : Barred E versionReceived (s.manager.nodes.lookup a))
    (hE : E ≤ banExpiresAt s.clock.unix) (hnow : s.clock.unix < E)
    (htask : s.tasks.lookup id = some (a, .incoming phase)) :
    ∃ event, Barred E versionReceived ((step s (.task id event)).manager.nodes.lookup a) ∧
      (step s (.task id event)).tasks.lookup id = some (a, .incoming .closed) := by
  cases phase with
  | reading =>
    refine ⟨.closed, ?_⟩
    rw [step_task htask]
    exact ⟨h, Finmap.lookup_insert _⟩
  | closed =>
    refine ⟨.closed, ?_⟩
    rw [step_task htask]
    exact ⟨h, Finmap.lookup_insert _⟩
  | replying version isIncoming =>
    refine ⟨.replied false false, ?_⟩
    rw [step_task htask]
    have hwrites : Writes s.clock (fun _ => True) none s.manager
        (s.manager.finishVersion s.clock a version isIncoming false false).1 := finishVersion_writes
    exact ⟨(hwrites.respects a).keeps trivial hE hnow h, (Finmap.lookup_insert _).trans
      (congrArg (fun phase => some (a, Task.incoming phase)) (finishVersion_closed h))⟩

theorem exists_end {id : ℕ} (h : Barred E versionReceived (s.manager.nodes.lookup a))
    (hE : E ≤ banExpiresAt s.clock.unix) (hnow : s.clock.unix < E)
    (htask : s.tasks.lookup id = some (a, task)) (hharm : harmless versionReceived task = false) :
    ∃ events, (run step s events).clock = s.clock ∧ ¬ Lasts E a (run step s events) := by
  have hclock : ∀ s id event, (step s (.task id event)).clock = s.clock := by
    intro s id event
    simp only [step]
    split
    · exact taskStep_clock _ _ _ _ _
    · rfl
  have hone : ∀ event, ¬ Lasts E a (s.taskStep id a task event) →
      ∃ events, (run step s events).clock = s.clock ∧ ¬ Lasts E a (run step s events) :=
    fun event hloss => ⟨[.task id event], hclock s id event, by
      rwa [run_cons, run_nil, step_task htask]⟩
  obtain ⟨node, hnode, hbanned⟩ := h
  cases task with
  | starting attempt => cases hharm
  | dialing attempt =>
    exact hone (.dialed true 0) (not_lasts (stateOf_update hnode) (by simp [NotBan]))
  | greeting attempt => exact hone (.greeted false 0) (retry_ends_ban hnode)
  | outgoing attempt phase =>
    cases phase with
    | reading =>
      have hreceived : node.versionReceived = true := by
        simpa [harmless, hbanned.received] using hharm
      exact hone (.received .verack true) (verack_ends_ban hnode hreceived)
    | replying version isIncoming => cases hharm
    | closed => cases hharm
  | retrying attempt => exact hone (.retried 0) (retry_ends_ban hnode)
  | incoming phase =>
    obtain ⟨event, hkept, hclosed⟩ := exists_closing ⟨node, hnode, hbanned⟩ hE hnow htask
    exact ⟨[.task id event, .task id .finished], (hclock _ _ _).trans (hclock _ _ _),
      finished_ends_ban hkept hclosed⟩

theorem lasts_iff {node : Node} {reason : BanReason} {expires : ℕ}
    (hnode : s.manager.nodes.lookup a = some node)
    (hbanned : node.state = .banned reason created expires) (hnow : s.clock.unix < expires)
    (hexpires : expires ≤ banExpiresAt s.clock.unix) :
    (∀ events, (run step s events).clock.unix < expires → Lasts expires a (run step s events)) ↔
      Harmless s a := by
  have hbarred : Barred expires node.versionReceived (s.manager.nodes.lookup a) :=
    ⟨node, hnode, ⟨reason, created, expires, hbanned, le_rfl⟩, rfl⟩
  constructor
  · intro hlasts id task htask node' hnode'
    obtain rfl := Option.mem_unique hnode hnode'
    by_contra hharm
    obtain ⟨events, hclock, hloss⟩ := exists_end hbarred hexpires hnow htask (by simpa using hharm)
    exact hloss (hlasts events (by rwa [hclock]))
  · intro hharmless events hlater
    have htasks : TasksHarmless node.versionReceived a s.tasks :=
      fun id task htask => hharmless id task htask node hnode
    exact Barred.stateOf (Guarded.run ⟨hbarred, htasks, hexpires⟩ hlater).node

theorem expires_of_enters {event : Event} {reason : BanReason} {expires : ℕ}
    (hbefore : s.manager.stateOf a ≠ some (.banned reason created expires))
    (hafter : (step s event).manager.stateOf a = some (.banned reason created expires)) :
    expires ≤ banExpiresAt (step s event).clock.unix := by
  rcases (step_respects s event).enters reason created expires hafter with hsame | hnow
  · exact absurd (hsame.symm.trans hafter) hbefore
  · exact hnow.le.trans (banExpiresAt_mono (unix_le_step s event))

/-- A node that enters a ban stays banned until the ban expires, whatever happens,
exactly when every task of its address is harmless at that moment. -/
theorem ban_lasts_iff (s : System) (event : Event) (a : IpAddr) (reason : BanReason)
    (created expires : ℕ)
    (hbefore : s.manager.stateOf a ≠ some (.banned reason created expires))
    (hafter : (step s event).manager.stateOf a = some (.banned reason created expires)) :
    (∀ events, (run step (step s event) events).clock.unix < expires →
        Lasts expires a (run step (step s event) events)) ↔
      ((step s event).clock.unix < expires → Harmless (step s event) a) := by
  have hexpires := expires_of_enters hbefore hafter
  obtain ⟨node, hnode, hbanned⟩ := Option.map_eq_some_iff.mp hafter
  constructor
  · intro hlasts hnow
    exact (lasts_iff hnode hbanned hnow hexpires).mp hlasts
  · intro hharmless events hlater
    have hnow : (step s event).clock.unix < expires :=
      (unix_le_run (step s event) events).trans_lt hlater
    exact (lasts_iff hnode hbanned hnow hexpires).mpr (hharmless hnow) events hlater

def peerAddress : IpAddr := .v4 0x05060708

def dialedPeer : System :=
  run step (System.start 7 ⟨1000, 0⟩) [.insertOutgoing peerAddress 9933, .task 0 .started,
    .task 0 (.dialed true 0), .task 0 (.greeted true 0)]

theorem outgoing_ban_lasts :
    (step dialedPeer (.task 0 (.received .verack true))).manager.stateOf peerAddress =
      some (.banned .protocolViolation 1000 87400) ∧
    ∀ events, (run step (step dialedPeer (.task 0 (.received .verack true))) events).clock.unix <
        87400 →
      Lasts 87400 peerAddress
        (run step (step dialedPeer (.task 0 (.received .verack true))) events) := by
  have hafter : (step dialedPeer (.task 0 (.received .verack true))).manager.stateOf peerAddress =
      some (.banned .protocolViolation 1000 87400) := by decide +kernel
  have htasks : (step dialedPeer (.task 0 (.received .verack true))).tasks =
      insertAll ∅ [(0, peerAddress, Task.outgoing 0 .closed)] := by decide +kernel
  refine ⟨hafter, (ban_lasts_iff dialedPeer _ peerAddress _ _ _ (by decide +kernel) hafter).mpr ?_⟩
  intro _ id task htask node _
  rw [htasks, insertAll_cons, insertAll_nil] at htask
  rcases lookup_insert_cases htask with ⟨_, heq⟩ | hnone
  · cases heq
    rfl
  · simp at hnone

/-- The peer connects by itself, sends the same message, and the end of the
connection forgets the ban. -/
theorem incoming_ban_forgotten :
    let s := run step (System.start 7 ⟨1000, 0⟩)
      [.insertIncoming peerAddress 9933, .task 0 (.received .verack true)]
    s.manager.stateOf peerAddress = some (.banned .protocolViolation 1000 87400) ∧
      (step s (.task 0 .finished)).clock.unix < 87400 ∧
      (step s (.task 0 .finished)).manager.stateOf peerAddress = some .dead := by
  decide +kernel

end Ironcat.BanExpiry
