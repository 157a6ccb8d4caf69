import Ironcat.Peers

/-!
# What the code may write to a node

Every function that writes the table of nodes, with what it does to an
address: whether it keeps a ban that has not expired, and that a ban it leaves
there is the one it found or one that starts now. The tasks of an address are
the only writers that do not look at the ban; `harmless` names those that
cannot end it. With it go the vote on the external address that the call casts
and the bound of the table.
-/

namespace Ironcat.BanWrites

open Lib.FiniteMap Peers

def BannedUntil (E : ℕ) (state : NodeState) : Prop :=
  ∃ reason created expires, state = .banned reason created expires ∧ E ≤ expires

structure Banned (E : ℕ) (versionReceived : Bool) (node : Node) : Prop where
  until_le : BannedUntil E node.state
  received : node.versionReceived = versionReceived

def Barred (E : ℕ) (versionReceived : Bool) (entry : Option Node) : Prop :=
  ∃ node, entry = some node ∧ Banned E versionReceived node

variable {versionReceived : Bool}

@[simp] theorem barred_some {E : ℕ} {node : Node} :
    Barred E versionReceived (some node) ↔ Banned E versionReceived node := by
  simp [Barred]

def harmless (versionReceived : Bool) : Task → Bool
  | .starting _ | .outgoing _ .closed | .outgoing _ (.replying _ _) => true
  | .outgoing _ .reading => !versionReceived
  | _ => false

variable {s : System} {mgr : NodeManager} {clock : Clock} {a address : IpAddr} {guard : Prop}

structure Respects (clock : Clock) (guard : Prop) (before after : Option Node) : Prop where
  keeps : guard → ∀ {E versionReceived}, E ≤ banExpiresAt clock.unix → clock.unix < E →
    Barred E versionReceived before → Barred E versionReceived after
  enters : ∀ reason created expires, after.map Node.state = some (.banned reason created expires) →
    after.map Node.state = before.map Node.state ∨ expires = banExpiresAt clock.unix

variable {state : NodeState}

theorem BannedUntil.isBanned {E : ℕ} (h : BannedUntil E state) (hnow : clock.unix < E) :
    state.isBanned clock = true := by
  obtain ⟨_, _, _, rfl, hle⟩ := h
  exact decide_eq_true (hnow.trans_le hle)

def NotBan (state : NodeState) : Prop :=
  ∀ reason created expires, state ≠ .banned reason created expires

namespace Respects

variable {before mid after : Option Node} {node node' : Node}

theorem refl (entry : Option Node) : Respects clock guard entry entry :=
  ⟨fun _ _ _ _ _ h => h, fun _ _ _ _ => .inl rfl⟩

theorem trans (h₁ : Respects clock guard before mid) (h₂ : Respects clock guard mid after) :
    Respects clock guard before after where
  keeps hguard _ _ hE hnow h := h₂.keeps hguard hE hnow (h₁.keeps hguard hE hnow h)
  enters reason created expires hafter := by
    rcases h₂.enters reason created expires hafter with hsame | hnow
    · exact (h₁.enters reason created expires (hsame ▸ hafter)).imp_left hsame.trans
    · exact .inr hnow

theorem mono {weaker : Prop} (h : Respects clock guard before after) (hguard : weaker → guard) :
    Respects clock weaker before after :=
  ⟨fun hweaker => h.keeps (hguard hweaker), h.enters⟩

theorem of_state_eq (hstate : node'.state = node.state)
    (hreceived : node'.versionReceived = node.versionReceived) :
    Respects clock guard (some node) (some node') where
  keeps _ _ _ _ _ h := by
    obtain ⟨huntil, hversion⟩ := barred_some.mp h
    exact barred_some.mpr ⟨hstate ▸ huntil, hreceived ▸ hversion⟩
  enters _ _ _ _ := .inl (congrArg some hstate)

theorem ban (reason : BanReason) : Respects clock guard (some node)
    (some { node with state := .banned reason clock.unix (banExpiresAt clock.unix) }) where
  keeps _ _ _ hE _ h := by
    obtain ⟨_, hversion⟩ := barred_some.mp h
    exact barred_some.mpr ⟨⟨reason, clock.unix, _, rfl, hE⟩, hversion⟩
  enters _ _ _ hafter := by
    cases hafter
    exact .inr rfl

theorem replace (hbefore : guard → node.state.isBanned clock = false)
    (hafter : NotBan node'.state) : Respects clock guard (some node) (some node') where
  keeps hguard _ _ _ hnow h := by
    have hactive := (barred_some.mp h).until_le.isBanned hnow
    rw [hbefore hguard] at hactive
    cases hactive
  enters _ _ _ heq := absurd (Option.some.inj heq) (hafter _ _ _)

theorem create (hafter : NotBan node'.state) : Respects clock guard none (some node') where
  keeps _ _ _ _ _ h := by
    obtain ⟨_, heq, _⟩ := h
    cases heq
  enters _ _ _ heq := absurd (Option.some.inj heq) (hafter _ _ _)

end Respects

theorem notBan_of_inactive (h : state.isInactive = true) : NotBan state := by
  rintro _ _ _ rfl
  cases h

theorem NotBan.isBanned (h : NotBan state) : state.isBanned clock = false := by
  cases state with
  | banned reason created expires => exact absurd rfl (h reason created expires)
  | _ => rfl

/-- The address that a message makes `handle_verack` record. -/
def completes (mgr : NodeManager) (address : IpAddr) : Message → Option IpAddr
  | .verack => (mgr.nodes.lookup address).bind fun node =>
      if node.versionReceived then node.pendingExternalIp else none
  | _ => none

def loopVote (mgr : NodeManager) (address : IpAddr) : LoopPhase → TaskEvent → Option IpAddr
  | .reading, .received message _ => completes mgr address message
  | _, _ => none

def taskVote (mgr : NodeManager) (address : IpAddr) : Task → TaskEvent → Option IpAddr
  | .outgoing _ phase, event => loopVote mgr address phase event
  | .incoming phase, event => loopVote mgr address phase event
  | _, _ => none

def handshakeOf (s : System) : Event → Option (IpAddr × IpAddr)
  | .task id event =>
    match s.tasks.lookup id with
    | some (address, task) => (taskVote s.manager address task event).map fun ip => (address, ip)
    | none => none
  | _ => none

def castVote (mgr : NodeManager) : Option IpAddr → NodeManager
  | some ip => mgr.recordExternalIpVote ip
  | none => mgr

variable {mgr' mgr'' : NodeManager} {guards : IpAddr → Prop} {vote : Option IpAddr}

theorem castVote_congr (h : mgr'.externalIpVotes = mgr.externalIpVotes) (vote : Option IpAddr) :
    (castVote mgr' vote).externalIpVotes = (castVote mgr vote).externalIpVotes := by
  cases vote with
  | none => exact h
  | some ip =>
    simp only [castVote, NodeManager.recordExternalIpVote, h]
    split_ifs
    · exact h
    · rfl
    · exact h

theorem recordExternalIpVote_nodes (mgr : NodeManager) (ip : IpAddr) :
    (mgr.recordExternalIpVote ip).nodes = mgr.nodes := by
  unfold NodeManager.recordExternalIpVote
  split_ifs <;> rfl

/-- What a call does to the table, where `guards` says of an address that the
call looks at its ban. -/
structure Writes (clock : Clock) (guards : IpAddr → Prop) (vote : Option IpAddr)
    (mgr mgr' : NodeManager) : Prop where
  respects : ∀ a, Respects clock (guards a) (mgr.nodes.lookup a) (mgr'.nodes.lookup a)
  votes : mgr'.externalIpVotes = (castVote mgr vote).externalIpVotes
  room : mgr.nodes.keys.card ≤ maxNodes → mgr'.nodes.keys.card ≤ maxNodes

namespace Writes

theorem refl (mgr : NodeManager) : Writes clock guards none mgr mgr :=
  ⟨fun _ => .refl _, rfl, id⟩

theorem trans (h : Writes clock guards none mgr mgr') (h' : Writes clock guards vote mgr' mgr'') :
    Writes clock guards vote mgr mgr'' where
  respects a := (h.respects a).trans (h'.respects a)
  votes := h'.votes.trans (castVote_congr h.votes vote)
  room hroom := h'.room (h.room hroom)

theorem mono {weaker : IpAddr → Prop} (h : Writes clock guards vote mgr mgr')
    (hguards : ∀ a, weaker a → guards a) : Writes clock weaker vote mgr mgr' :=
  ⟨fun a => (h.respects a).mono (hguards a), h.votes, h.room⟩

theorem congr (h : Writes clock guards vote mgr mgr') (hnodes : mgr''.nodes = mgr'.nodes)
    (hvotes : mgr''.externalIpVotes = mgr'.externalIpVotes) : Writes clock guards vote mgr mgr'' :=
  ⟨hnodes ▸ h.respects, hvotes.trans h.votes, hnodes ▸ h.room⟩

theorem update {f : Node → Node} (h : ∀ node, mgr.nodes.lookup address = some node →
      Respects clock (guards address) (some node) (some (f node))) :
    Writes clock guards none mgr (mgr.update address f) where
  respects a := by
    rw [NodeManager.update, lookup_modify]
    split_ifs with ha
    · subst ha
      cases hnode : mgr.nodes.lookup a with
      | none => exact .refl _
      | some node => exact h node hnode
    · exact .refl _
  votes := rfl
  room hroom := by rwa [NodeManager.update, keys_modify]

theorem ban (reason : BanReason) : Writes clock guards none mgr (mgr.ban clock address reason) :=
  update fun _ _ => .ban reason

theorem setState (hstate : NotBan state)
    (hold : guards address → ∀ node, mgr.nodes.lookup address = some node →
      node.state.isBanned clock = false) :
    Writes clock guards none mgr (mgr.setState address state) :=
  update fun node hnode => .replace (fun hguard => hold hguard node hnode) hstate

theorem setState_of_none (hstate : NotBan state)
    (hnone : guards address → mgr.nodes.lookup address = none) :
    Writes clock guards none mgr (mgr.setState address state) :=
  setState hstate fun hguard node hnode => by
    rw [hnone hguard] at hnode
    cases hnode

theorem insertNode {node : Node} (hroom : mgr.nodes.keys.card < maxNodes ∨ address ∈ mgr.nodes)
    (h : Respects clock (guards address) (mgr.nodes.lookup address) (some node)) :
    Writes clock guards none mgr { mgr with nodes := mgr.nodes.insert address node } where
  respects a := by
    rw [lookup_insert_eq]
    split_ifs with ha
    · exact ha ▸ h
    · exact .refl _
  votes := rfl
  room hfit := by
    rcases hroom with hlt | hmem
    · exact (card_keys_insert_le _ _ _).trans hlt
    · rwa [keys_insert, Finset.insert_eq_of_mem (Finmap.mem_keys.mpr hmem)]

end Writes

variable {inserted : NodeManager × Bool} {port : UInt16} {connectionType : ConnectionType}

theorem tryInsertOrReactivate_writes {reset : Bool} : Writes clock guards none mgr
    (mgr.tryInsertOrReactivate clock address port connectionType reset).1 := by
  unfold NodeManager.tryInsertOrReactivate
  split
  case isTrue => exact .refl _
  case isFalse hfull =>
    have hroom := Or.inl (b := address ∈ mgr.nodes) (not_le.mp hfull)
    split
    case h_1 node hnode =>
      split
      case isTrue hinactive =>
        have hold := notBan_of_inactive hinactive
        refine .insertNode hroom ?_
        rw [hnode]
        refine .replace (fun _ => hold.isBanned) ?_
        cases reset with
        | true => exact fun _ _ _ => nofun
        | false => exact hold
      case isFalse => exact .refl _
    case h_2 hnode =>
      refine .insertNode hroom ?_
      rw [hnode]
      refine .create fun _ _ _ => ?_
      cases reset <;> cases connectionType <;> exact nofun

theorem Barred.not_inserted {E : ℕ} {reset : Bool} (h : Barred E versionReceived (mgr.nodes.lookup a))
    (heq : mgr.tryInsertOrReactivate clock a port connectionType reset = inserted) :
    inserted.2 = false := by
  obtain ⟨node, hnode, ⟨_, _, _, hstate, _⟩, _⟩ := h
  subst heq
  unfold NodeManager.tryInsertOrReactivate
  simp only [hnode, hstate, NodeState.isInactive, Bool.false_eq_true, if_false]
  split_ifs <;> rfl

theorem insertIncoming_cases (clock : Clock) (mgr : NodeManager) (address : IpAddr)
    (port : UInt16) : (mgr.insertIncoming clock address port = (mgr, false)) ∨
      ∃ count cooldowns, mgr.insertIncoming clock address port =
        ({ (mgr.tryInsertOrReactivate clock address port .incoming true).1 with
            incomingCount := count, incomingCooldowns := cooldowns },
          (mgr.tryInsertOrReactivate clock address port .incoming true).2) := by
  unfold NodeManager.insertIncoming
  split_ifs
  · exact .inl rfl
  · exact .inl rfl
  · exact .inl rfl
  · split
    case h_1 heq => exact .inr ⟨_, _, by rw [heq]⟩
    case h_2 heq => exact .inr ⟨_, _, by rw [heq]⟩

theorem insertIncoming_writes :
    Writes clock guards none mgr (mgr.insertIncoming clock address port).1 := by
  rcases insertIncoming_cases clock mgr address port with heq | ⟨_, _, heq⟩
  · rw [heq]
    exact .refl _
  · rw [heq]
    exact tryInsertOrReactivate_writes.congr rfl rfl

theorem reviveIfNewer_writes {timestamp : UInt32} :
    Writes clock guards none mgr (mgr.reviveIfNewer clock address port timestamp).1 := by
  unfold NodeManager.reviveIfNewer
  split
  case h_1 node hnode =>
    split_ifs with hdead
    · refine .insertNode (.inr (Finmap.mem_of_lookup_eq_some hnode)) ?_
      rw [hnode]
      exact .replace (fun _ => by rw [hdead.1]; rfl) fun _ _ _ => nofun
    · exact .refl _
  case h_2 => exact .refl _

theorem handleVersion_writes {payload : Option MessageVersion} :
    Writes clock guards none mgr (mgr.handleVersion clock address payload).1 := by
  cases payload with
  | none => exact .refl _
  | some version =>
    simp only [NodeManager.handleVersion]
    split
    · exact .refl _
    · split_ifs
      · exact .ban _
      · exact .ban _
      · exact .refl _

theorem finishVersion_writes {version : MessageVersion} {isIncoming sentVersion sentVerack : Bool} :
    Writes clock guards none mgr
      (mgr.finishVersion clock address version isIncoming sentVersion sentVerack).1 := by
  unfold NodeManager.finishVersion
  split_ifs
  · exact .refl _
  · exact .ban _
  · split
    case h_1 => exact .refl _
    case h_2 node hnode =>
      split_ifs with hhandshaking
      · refine .update fun node' hnode' => ?_
        obtain rfl := Option.mem_unique hnode hnode'
        have hstate : NotBan node.state := fun _ _ _ heq => by
          simp [heq, NodeState.isHandshaking] at hhandshaking
        exact .replace (fun _ => hstate.isBanned) hstate
      · exact .refl _

def Silent (mgr : NodeManager) (a : IpAddr) : Prop :=
  ∀ node, mgr.nodes.lookup a = some node → node.versionReceived = false

theorem handleVerack_writes {writer : ℕ} {sent : Bool} :
    Writes clock (fun a => address = a → Silent mgr a) (completes mgr address .verack) mgr
      (mgr.handleVerack clock address writer sent).1 := by
  unfold NodeManager.handleVerack completes
  cases hnode : mgr.nodes.lookup address with
  | none => exact .refl _
  | some node =>
    dsimp only [Option.bind_some]
    by_cases hreceived : node.versionReceived
    · simp only [hreceived, not_true_eq_false, if_false, if_true]
      have hconnect : Writes clock (fun a => address = a → Silent mgr a) none mgr
          (mgr.update address fun node =>
            { node with state := .connected writer, pendingExternalIp := none }) := by
        refine .update fun node' hnode' => .replace (fun hsilent => ?_) fun _ _ _ => nofun
        have hnot := hsilent rfl node' hnode'
        obtain rfl := Option.mem_unique hnode hnode'
        rw [hreceived] at hnot
        cases hnot
      cases node.pendingExternalIp with
      | none => exact hconnect
      | some ip =>
        refine hconnect.trans ⟨fun a => ?_, rfl, fun h => ?_⟩
        · rw [recordExternalIpVote_nodes]
          exact .refl _
        · rwa [recordExternalIpVote_nodes]
    · simp only [hreceived, not_false_eq_true, if_true, Bool.false_eq_true, if_false]
      exact .ban _

theorem parseIncomingMessage_writes {writer : ℕ} {message : Message} {sent : Bool} :
    Writes clock (fun a => address = a → Silent mgr a) (completes mgr address message) mgr
      (mgr.parseIncomingMessage clock address writer message sent).1 := by
  cases message with
  | malformed => exact .refl _
  | version payload => exact handleVersion_writes
  | verack => exact handleVerack_writes
  | ping payload =>
    simp only [NodeManager.parseIncomingMessage]
    split_ifs
    · unfold NodeManager.handlePing
      split_ifs
      · exact .refl _
      · exact .ban _
      · exact .refl _
    · exact .refl _
  | other handled =>
    simp only [NodeManager.parseIncomingMessage]
    split_ifs <;> exact .refl _

theorem Silent.updateLastSeen (h : Silent mgr a) : Silent (mgr.updateLastSeen clock address) a := by
  intro node hnode
  rw [NodeManager.updateLastSeen, NodeManager.update, lookup_modify] at hnode
  split_ifs at hnode
  · obtain ⟨old, hold, rfl⟩ := Option.map_eq_some_iff.mp hnode
    exact h old hold
  · exact h node hnode

theorem completes_updateLastSeen (clock : Clock) (message : Message) :
    completes (mgr.updateLastSeen clock address) address message =
      completes mgr address message := by
  cases message with
  | verack =>
    simp only [completes, NodeManager.updateLastSeen, NodeManager.update, lookup_modify, if_true]
    cases mgr.nodes.lookup address <;> rfl
  | _ => rfl

theorem loopStep_writes {id : ℕ} {phase : LoopPhase} {event : TaskEvent} :
    Writes clock (fun a => address = a → phase = .reading → Silent mgr a)
      (loopVote mgr address phase event) mgr
      (System.loopStep clock mgr address id phase event).1 := by
  unfold System.loopStep
  split
  case h_1 message sent =>
    have hseen : Writes clock (fun a => address = a → LoopPhase.reading = .reading → Silent mgr a)
        none mgr (mgr.updateLastSeen clock address) := .update fun _ _ => .of_state_eq rfl rfl
    rw [loopVote, ← completes_updateLastSeen clock]
    refine hseen.trans (parseIncomingMessage_writes.mono ?_)
    exact fun _ hsilent ha => (hsilent ha rfl).updateLastSeen
  case h_2 => exact finishVersion_writes
  case h_3 => exact .refl _
  case h_4 hreceived _ _ =>
    have hnone : loopVote mgr address phase event = none := by
      unfold loopVote
      split
      · exact absurd rfl (hreceived _ _ rfl)
      · rfl
    rw [hnone]
    exact .refl _

theorem retry_writes {id attempt random : ℕ}
    (hnone : guards address → s.manager.nodes.lookup address = none) :
    Writes s.clock guards none s.manager (s.retry id address attempt random).manager := by
  unfold System.retry NodeManager.scheduleRetry
  dsimp only [System.endTask]
  split_ifs
  · exact .setState_of_none (fun _ _ _ => nofun) hnone
  · exact .setState_of_none (fun _ _ _ => nofun) hnone

def HarmlessAt (s : System) (a : IpAddr) (task : Task) : Prop :=
  ∀ node, s.manager.nodes.lookup a = some node → harmless node.versionReceived task

variable {task : Task}

theorem HarmlessAt.lookup_eq_none (h : HarmlessAt s a task)
    (hharm : ∀ versionReceived, harmless versionReceived task = false) :
    s.manager.nodes.lookup a = none := by
  cases hnode : s.manager.nodes.lookup a with
  | none => rfl
  | some node =>
    have hharmless := h node hnode
    rw [hharm] at hharmless
    cases hharmless

theorem harmless_outgoing {attempt : ℕ} {phase : LoopPhase} :
    harmless versionReceived (.outgoing attempt phase) ↔
      (phase = .reading → versionReceived = false) := by
  cases phase <;> simp [harmless]

theorem taskStep_writes {id : ℕ} {event : TaskEvent} :
    Writes s.clock (fun a => address = a → HarmlessAt s a task)
      (taskVote s.manager address task event) s.manager
      (s.taskStep id address task event).manager := by
  unfold System.taskStep
  split
  · split_ifs <;> exact .refl _
  · refine .update fun node hnode => .replace (fun hguard => ?_) fun _ _ _ => nofun
    rw [(hguard rfl).lookup_eq_none fun _ => rfl] at hnode
    cases hnode
  · exact retry_writes fun hguard => (hguard rfl).lookup_eq_none fun _ => rfl
  · exact .refl _
  · exact retry_writes fun hguard => (hguard rfl).lookup_eq_none fun _ => rfl
  · split_ifs <;> exact .refl _
  · refine loopStep_writes.mono fun a hguard ha hreading node hnode => ?_
    exact harmless_outgoing.mp (hguard ha node hnode) hreading
  · exact retry_writes fun hguard => (hguard rfl).lookup_eq_none fun _ => rfl
  · have hdead : NotBan .dead := fun _ _ _ => nofun
    refine .congr (.setState_of_none hdead fun hguard => ?_) rfl rfl
    exact (hguard rfl).lookup_eq_none fun _ => rfl
  · refine loopStep_writes.mono fun a hguard ha _ node hnode => ?_
    rw [(hguard ha).lookup_eq_none fun _ => rfl] at hnode
    cases hnode
  case h_11 _ _ hout hin _ _ _ _ _ _ _ _ =>
    have hnone : taskVote s.manager address task event = none := by
      cases task with
      | outgoing attempt phase => exact (hout attempt phase rfl).elim
      | incoming phase => exact (hin phase rfl).elim
      | _ => rfl
    rw [hnone]
    exact .refl _

theorem spawnIf_manager : (s.spawnIf inserted address task).manager = inserted.1 := by
  unfold System.spawnIf
  split_ifs <;> rfl

theorem spawnIf_clock : (s.spawnIf inserted address task).clock = s.clock := by
  unfold System.spawnIf
  split_ifs <;> rfl

theorem loadPeer_writes (s : System) (peer : SavedPeer) :
    Writes s.clock guards none s.manager (s.loadPeer peer).manager := by
  have hinsert : Writes s.clock guards none s.manager
      (s.manager.insert s.clock peer.ip peer.port .outgoing).1 := tryInsertOrReactivate_writes
  unfold System.loadPeer
  rw [spawnIf_manager]
  dsimp only
  split_ifs
  · exact hinsert.trans (.update fun _ _ => .of_state_eq rfl rfl)
  · exact hinsert

theorem loadSavedPeers_clock (s : System) (db : PeerDb) :
    (s.loadSavedPeers db).clock = s.clock := by
  unfold System.loadSavedPeers
  split_ifs
  · rfl
  · exact List.foldlRecOn (motive := fun t : System => t.clock = s.clock) db.peers System.loadPeer
      rfl fun t hclock peer _ => spawnIf_clock.trans hclock

theorem loadSavedPeers_writes (s : System) (db : PeerDb) :
    Writes s.clock guards none s.manager (s.loadSavedPeers db).manager := by
  unfold System.loadSavedPeers
  split_ifs
  · exact .refl _
  · refine (List.foldlRecOn (motive := fun t : System =>
      Writes s.clock guards none s.manager t.manager ∧ t.clock = s.clock) db.peers System.loadPeer
        ⟨.refl _, rfl⟩ ?_).1
    rintro t ⟨hwrites, hclock⟩ peer _
    exact ⟨hwrites.trans (hclock ▸ loadPeer_writes t peer), spawnIf_clock.trans hclock⟩

theorem isBanned_eq_false_of_any {test : NodeState → Bool} (hany : (mgr.stateOf a).any test)
    (htest : ∀ reason created expires, test (.banned reason created expires) = false)
    {node : Node} (hnode : mgr.nodes.lookup a = some node) :
    node.state.isBanned clock = false := by
  have hpassed : test node.state = true := by
    simpa [NodeManager.stateOf, hnode] using hany
  refine NotBan.isBanned fun reason created expires heq => ?_
  rw [heq, htest] at hpassed
  cases hpassed

theorem reap_writes (s : System) : Writes s.clock guards none s.manager s.reap.manager := by
  unfold System.reap
  split
  · unfold System.reapReady
    split_ifs with hready
    · rw [spawnIf_manager]
      exact .setState (fun _ _ _ => nofun) fun _ _ hnode =>
        isBanned_eq_false_of_any hready (fun _ _ _ => rfl) hnode
    · exact .refl _
  · unfold System.reapStale
    split_ifs with hstale
    · exact .setState (fun _ _ _ => nofun) fun _ _ hnode =>
        isBanned_eq_false_of_any hstale (fun _ _ _ => rfl) hnode
    · exact .refl _
  · unfold System.reapBan
    split
    case h_1 reason created expires hstate =>
      split_ifs with hactive
      · exact .refl _
      · refine .setState (fun _ _ _ => nofun) fun _ node hnode => ?_
        have heq : node.state = .banned reason created expires := by
          simpa [NodeManager.stateOf, hnode] using hstate
        rw [heq]
        simpa using hactive
    case h_2 => exact .refl _
  · exact .refl _

theorem scan_frame (s : System) (address : IpAddr) :
    (s.scan address).manager = s.manager ∧ (s.scan address).tasks = s.tasks ∧
      (s.scan address).clock = s.clock := by
  unfold System.scan
  repeat' split
  all_goals exact ⟨rfl, rfl, rfl⟩

/-- Every task of the address is harmless. -/
def Harmless (s : System) (a : IpAddr) : Prop :=
  ∀ id task, s.tasks.lookup id = some (a, task) → HarmlessAt s a task

variable {event : Event}

theorem step_writes (s : System) (hevict : event ≠ .evict) :
    Writes s.clock (Harmless s) ((handshakeOf s event).map Prod.snd) s.manager
      (step s event).manager := by
  cases event with
  | advance unix instant => exact .refl _
  | insert address port connectionType => exact tryInsertOrReactivate_writes
  | insertOutgoing address port =>
    simp only [step, spawnIf_manager]
    exact tryInsertOrReactivate_writes
  | insertIncoming address port =>
    simp only [step, spawnIf_manager]
    exact insertIncoming_writes
  | reviveIfNewer address port timestamp =>
    simp only [step, spawnIf_manager]
    exact reviveIfNewer_writes
  | loadSavedPeers db => exact loadSavedPeers_writes s db
  | scan address =>
    simp only [step, (scan_frame s address).1]
    exact .refl _
  | reap => exact reap_writes s
  | evict => exact absurd rfl hevict
  | task id event =>
    simp only [step, handshakeOf]
    cases hlook : s.tasks.lookup id with
    | none => exact .refl _
    | some entry =>
      have hvote : ((taskVote s.manager entry.1 entry.2 event).map
          fun ip => (entry.1, ip)).map Prod.snd = taskVote s.manager entry.1 entry.2 event := by
        rw [Option.map_map]
        exact Option.map_id'
      dsimp only
      rw [hvote]
      exact taskStep_writes.mono fun a hharmless ha => hharmless id entry.2 (ha ▸ hlook)

theorem step_respects (s : System) (event : Event) :
    Respects s.clock (Harmless s a) (s.manager.nodes.lookup a)
      ((step s event).manager.nodes.lookup a) := by
  by_cases hevict : event = .evict
  · subst hevict
    exact .refl _
  · exact (step_writes s hevict).respects a

end Ironcat.BanWrites
