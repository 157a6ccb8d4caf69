import Ironcat.BanWrites
import Ironcat.Lib.MapTotal

/-!
# Votes on the external address

A completed handshake adds a vote for the address the peer reported, and a pass
of the reaper drops the votes for addresses that are no connected peer. So a
vote stands from its handshake to the first pass that does not find the
reported address among the connected peers, whatever becomes of the peer that
cast it.
-/

namespace Ironcat.ExternalVotes

open Lib.FiniteMap Lib.MapTotal Lib.Runs Peers BanWrites

def isConnected (s : System) (address : IpAddr) : Bool :=
  (s.manager.stateOf address).any NodeState.isConnected

/-- The system with the address each peer reported last, and the handshakes
since the last pass that found their address not to be a connected peer. No
function of the node reads the two. -/
structure VoteLedger where
  system : System
  latest : Map IpAddr IpAddr
  standing : List (IpAddr × IpAddr)

namespace VoteLedger

def start (myNonce : UInt64) (clock : Clock) : VoteLedger := ⟨.start myNonce clock, ∅, []⟩

def observe (o : VoteLedger) (event : Event) : VoteLedger where
  system := step o.system event
  latest := insertAll o.latest (handshakeOf o.system event).toList
  standing :=
    match event with
    | .evict => o.standing.filter fun h => isConnected o.system h.2
    | _ => o.standing ++ (handshakeOf o.system event).toList

def votes (o : VoteLedger) (ip : IpAddr) : ℕ :=
  (o.system.manager.externalIpVotes.lookup ip).getD 0

def reporting (o : VoteLedger) : Finset IpAddr :=
  o.system.manager.nodes.keys.filter fun peer =>
    isConnected o.system peer ∧ (o.latest.lookup peer).isSome

def reporters (o : VoteLedger) (ip : IpAddr) : Finset IpAddr :=
  o.system.manager.nodes.keys.filter fun peer =>
    isConnected o.system peer ∧ o.latest.lookup peer = some ip

/-- The standing handshakes are the latest ones of the connected peers, one for
each. -/
structure Balanced (o : VoteLedger) : Prop where
  once : (o.standing.map Prod.fst).Nodup
  latest : ∀ h ∈ o.standing, isConnected o.system h.1 ∧ o.latest.lookup h.1 = some h.2
  all : ∀ peer ∈ o.reporting, peer ∈ o.standing.map Prod.fst

/-- A peer that completes a handshake has none standing, no handshake is dropped
by a pass, its peer stays connected, and no peer that reported an address
earlier is connected again without a new report. -/
def Steady (o : VoteLedger) (event : Event) : Prop :=
  let new := (handshakeOf o.system event).toList
  (∀ h ∈ new, h.1 ∉ o.standing.map Prod.fst) ∧
  (∀ h ∈ o.standing ++ new,
    h ∈ (o.observe event).standing ∧ isConnected (step o.system event) h.1) ∧
  ∀ peer ∈ (o.observe event).reporting, peer ∈ o.reporting ∨ peer ∈ new.map Prod.fst

instance (o : VoteLedger) (event : Event) : Decidable (Steady o event) :=
  inferInstanceAs (Decidable (_ ∧ _ ∧ _))

/-- The votes are the connected peers by the address they reported last, and
`get_external_ip` needs three of them and more than half. -/
def Counted (o : VoteLedger) : Prop :=
  (∀ ip, o.votes ip = (o.reporters ip).card) ∧
  ∀ ip, o.system.manager.isExternalIp ip →
    3 ≤ (o.reporters ip).card ∧ o.reporting.card < (o.reporters ip).card * 2

end VoteLedger

variable {mgr : NodeManager} {event : Event}

namespace VoteLedger

variable {A : Finset IpAddr} {o : VoteLedger}

structure Tallied (A : Finset IpAddr) (o : VoteLedger) : Prop where
  votes : ∀ ip, o.votes ip = min (o.standing.countP fun h => h.2 = ip) (2 ^ 32 - 1)
  known : o.system.manager.externalIpVotes.keys ⊆ A
  room : o.system.manager.nodes.keys.card ≤ maxNodes

theorem tallied_start (A : Finset IpAddr) (myNonce : UInt64) (clock : Clock) :
    Tallied A (start myNonce clock) :=
  ⟨fun _ => rfl, Finset.empty_subset _, Nat.zero_le _⟩

theorem votes_evict (o : VoteLedger) (ip : IpAddr) :
    (o.observe .evict).votes ip = if isConnected o.system ip then o.votes ip else 0 := by
  change ((retain o.system.manager.externalIpVotes fun ip _ => isConnected o.system ip).lookup
    ip).getD 0 = _
  rw [lookup_retain]
  unfold votes
  cases hlook : o.system.manager.externalIpVotes.lookup ip with
  | none => simp
  | some count =>
    rw [Option.filter_some]
    by_cases hconn : isConnected o.system ip <;> simp [hconn]

theorem Tallied.evict (h : Tallied A o) : Tallied A (o.observe .evict) where
  votes ip := by
    rw [votes_evict]
    change _ = min ((o.standing.filter fun h => isConnected o.system h.2).countP
      fun h => h.2 = ip) _
    rw [List.countP_filter]
    by_cases hconn : isConnected o.system ip
    · rw [if_pos hconn, h.votes ip]
      refine congrArg (min · _) (List.countP_congr fun e _ => ?_)
      simp only [decide_eq_true_eq, Bool.and_eq_true]
      exact ⟨fun heq => ⟨heq, heq ▸ hconn⟩, And.left⟩
    · rw [if_neg hconn, List.countP_eq_zero.mpr, Nat.zero_min]
      intro e _ he
      simp only [Bool.and_eq_true, decide_eq_true_eq] at he
      exact hconn (he.1 ▸ he.2)
  known ip hip := by
    refine h.known (Finmap.mem_keys.mpr ?_)
    obtain ⟨count, hcount⟩ := Finmap.mem_iff.mp (Finmap.mem_keys.mp hip)
    change (retain o.system.manager.externalIpVotes fun ip _ => isConnected o.system ip).lookup
      ip = some count at hcount
    rw [lookup_retain, Option.filter_eq_some_iff] at hcount
    exact Finmap.mem_of_lookup_eq_some hcount.1
  room := h.room

theorem recordExternalIpVote_votes {ip : IpAddr} (hroutable : ip.isRoutable)
    (hroom : mgr.externalIpVotes.keys.card < maxExternalIpVotes) :
    (mgr.recordExternalIpVote ip).externalIpVotes = mgr.externalIpVotes.insert ip
      (min ((mgr.externalIpVotes.lookup ip).getD 0 + 1) (2 ^ 32 - 1)) := by
  unfold NodeManager.recordExternalIpVote
  rw [if_neg (not_not.mpr hroutable), if_neg (not_le.mpr hroom)]

theorem observe_standing (hevict : event ≠ .evict) :
    (o.observe event).standing = o.standing ++ (handshakeOf o.system event).toList := by
  cases event with
  | evict => exact absurd rfl hevict
  | _ => rfl

theorem Tallied.cast (hA : A.card < maxExternalIpVotes) (h : Tallied A o) (hevict : event ≠ .evict)
    (hreports : ∀ report ∈ handshakeOf o.system event, report.2.isRoutable ∧ report.2 ∈ A) :
    Tallied A (o.observe event) := by
  have hwrites := step_writes o.system hevict
  have hstanding := observe_standing (o := o) hevict
  cases hshake : handshakeOf o.system event with
  | none =>
    rw [hshake] at hwrites hstanding
    refine ⟨fun ip => ?_, ?_, hwrites.room h.room⟩
    · rw [hstanding, Option.toList_none, List.append_nil, ← h.votes ip]
      exact congrArg (fun m => (m.lookup ip).getD 0) hwrites.votes
    · exact (congrArg Finmap.keys hwrites.votes).trans_subset h.known
  | some report =>
    obtain ⟨hroutable, hmem⟩ := hreports report hshake
    have hroom := (Finset.card_le_card h.known).trans_lt hA
    have hvotes := hwrites.votes
    rw [hshake, Option.map_some, castVote, recordExternalIpVote_votes hroutable hroom] at hvotes
    rw [hshake] at hwrites hstanding
    refine ⟨fun ip => ?_, fun ip hip => ?_, hwrites.room h.room⟩
    · have hold : (o.system.manager.externalIpVotes.lookup ip).getD 0 = _ := h.votes ip
      change ((step o.system event).manager.externalIpVotes.lookup ip).getD 0 = _
      rw [hvotes, hstanding, lookup_insert_eq, Option.toList_some, List.countP_append,
        List.countP_singleton]
      by_cases heq : ip = report.2
      · subst heq
        simp only [if_true, Option.getD_some, decide_true]
        omega
      · simp only [heq, Ne.symm heq, if_false, decide_false, Bool.false_eq_true] at hold ⊢
        omega
    · rw [Finmap.mem_keys] at hip
      change ip ∈ (step o.system event).manager.externalIpVotes at hip
      rw [hvotes, Finmap.mem_insert] at hip
      rcases hip with rfl | hold
      · exact hmem
      · exact h.known (Finmap.mem_keys.mpr hold)

/-- Every completed handshake reports a routable address, one of `A`. -/
def Reports (A : Finset IpAddr) (o : VoteLedger) (event : Event) : Prop :=
  ∀ report ∈ handshakeOf o.system event, report.2.isRoutable ∧ report.2 ∈ A

instance (A : Finset IpAddr) (o : VoteLedger) (event : Event) : Decidable (Reports A o event) :=
  inferInstanceAs (Decidable (∀ _ ∈ _, _))

theorem tallied_run (hA : A.card < maxExternalIpVotes) (myNonce : UInt64) (clock : Clock)
    {events : List Event} (hreports : Along observe (Reports A) (start myNonce clock) events) :
    Tallied A (run observe (start myNonce clock) events) := by
  refine run_invariant (Tallied A) (fun o event h hreport => ?_) (tallied_start A myNonce clock)
    hreports
  by_cases hevict : event = .evict
  · exact hevict ▸ h.evict
  · exact h.cast hA hevict hreport

theorem mem_reporters {peer ip : IpAddr} : peer ∈ o.reporters ip ↔
    isConnected o.system peer ∧ o.latest.lookup peer = some ip := by
  unfold reporters
  rw [Finset.mem_filter, Finmap.mem_keys]
  refine and_iff_right_of_imp fun h => ?_
  -- a connected peer is in the table
  have hstate := Option.isSome_of_any h.1
  rw [NodeManager.stateOf, Option.isSome_map, Finmap.lookup_isSome] at hstate
  exact hstate

theorem mem_reporting {peer : IpAddr} :
    peer ∈ o.reporting ↔ ∃ ip, peer ∈ o.reporters ip := by
  unfold reporting reporters
  simp only [Finset.mem_filter, Option.isSome_iff_exists]
  exact ⟨fun ⟨hmem, hconn, ip, hip⟩ => ⟨ip, hmem, hconn, hip⟩,
    fun ⟨ip, hmem, hconn, hip⟩ => ⟨hmem, hconn, ip, hip⟩⟩

theorem Balanced.countP_standing (h : Balanced o) (ip : IpAddr) :
    (o.standing.countP fun e => e.2 = ip) = (o.reporters ip).card := by
  have hnodup : ((o.standing.filter fun e => e.2 = ip).map Prod.fst).Nodup :=
    h.once.sublist (List.filter_sublist.map _)
  rw [List.countP_eq_length_filter, ← List.length_map (f := Prod.fst),
    ← List.toFinset_card_of_nodup hnodup]
  congr 1
  ext peer
  simp only [List.mem_toFinset, List.mem_map, List.mem_filter, decide_eq_true_eq]
  constructor
  · intro ⟨e, ⟨hmem, hip⟩, hpeer⟩
    have hlatest := h.latest e hmem
    rw [hpeer, hip] at hlatest
    exact mem_reporters.mpr hlatest
  · intro hpeer
    obtain ⟨e, hmem, rfl⟩ := List.mem_map.mp (h.all peer (mem_reporting.mpr ⟨ip, hpeer⟩))
    have hlatest := (h.latest e hmem).2.symm.trans (mem_reporters.mp hpeer).2
    exact ⟨e, ⟨hmem, Option.some.inj hlatest⟩, rfl⟩

theorem votes_eq_card_reporters (h : Tallied A o) (hbalanced : Balanced o) (ip : IpAddr) :
    o.votes ip = (o.reporters ip).card := by
  rw [h.votes ip, hbalanced.countP_standing ip, min_eq_left]
  have hle : (o.reporters ip).card ≤ o.system.manager.nodes.keys.card := Finset.card_filter_le _ _
  have hroom := h.room
  unfold maxNodes at hroom
  omega

theorem sum_votes (hvotes : ∀ ip, o.votes ip = (o.reporters ip).card) :
    (o.system.manager.externalIpVotes.entries.map fun e => e.2).sum = o.reporting.card := by
  have hunion : o.reporting = o.system.manager.externalIpVotes.keys.biUnion o.reporters := by
    ext peer
    rw [mem_reporting, Finset.mem_biUnion]
    constructor
    · intro ⟨ip, hpeer⟩
      refine ⟨ip, ?_, hpeer⟩
      -- an address with a reporter has a vote
      by_contra hnot
      have hnone := Finmap.lookup_eq_none.mpr fun hmem => hnot (Finmap.mem_keys.mpr hmem)
      have hzero := hvotes ip
      rw [votes, hnone, Option.getD_none] at hzero
      exact absurd hzero (Finset.card_pos.mpr ⟨peer, hpeer⟩).ne
    · exact fun ⟨ip, _, hpeer⟩ => ⟨ip, hpeer⟩
  have hdisjoint : ∀ ip ∈ o.system.manager.externalIpVotes.keys,
      ∀ ip' ∈ o.system.manager.externalIpVotes.keys, ip ≠ ip' →
        Disjoint (o.reporters ip) (o.reporters ip') := by
    intro ip _ ip' _ hne
    refine Finset.disjoint_left.mpr fun peer hip hip' => hne ?_
    exact Option.some.inj ((mem_reporters.mp hip).2.symm.trans (mem_reporters.mp hip').2)
  rw [sum_values, hunion, Finset.card_biUnion hdisjoint]
  exact Finset.sum_congr rfl fun ip _ => hvotes ip

theorem counted_of_balanced (h : Tallied A o) (hbalanced : Balanced o) : Counted o := by
  have hvotes := votes_eq_card_reporters h hbalanced
  refine ⟨hvotes, fun ip hexternal => ?_⟩
  unfold NodeManager.isExternalIp at hexternal
  dsimp only at hexternal
  rw [sum_votes hvotes, decide_eq_true_eq] at hexternal
  rw [← hvotes ip]
  exact hexternal

theorem balanced_start (myNonce : UInt64) (clock : Clock) : Balanced (start myNonce clock) :=
  ⟨List.nodup_nil, by simp [start], by simp [start, reporting, System.start, NodeManager.new]⟩

theorem standing_sublist (o : VoteLedger) (event : Event) : (o.observe event).standing.Sublist
    (o.standing ++ (handshakeOf o.system event).toList) := by
  cases event with
  | evict => exact List.filter_sublist.trans (List.sublist_append_left _ _)
  | _ => exact List.Sublist.refl _

theorem Balanced.observe (h : Balanced o) (hsteady : Steady o event) :
    Balanced (o.observe event) := by
  obtain ⟨honce, hstays, hjoins⟩ := hsteady
  have hsub := standing_sublist o event
  refine ⟨List.Nodup.sublist (hsub.map _) ?_, fun e he => ?_, fun peer hpeer => ?_⟩
  · rw [List.map_append]
    refine List.Nodup.append h.once ?_ ?_
    · cases handshakeOf o.system event <;> simp
    · rintro peer hold hnew
      obtain ⟨e, he, rfl⟩ := List.mem_map.mp hnew
      exact honce e he hold
  · refine ⟨(hstays e (hsub.subset he)).2, ?_⟩
    change (insertAll o.latest (handshakeOf o.system event).toList).lookup e.1 = some e.2
    rcases List.mem_append.mp (hsub.subset he) with hold | hnew
    · rw [lookup_insertAll_of_notMem _ fun hin => ?_]
      · exact (h.latest e hold).2
      · obtain ⟨e', he', heq⟩ := List.mem_map.mp hin
        exact honce e' he' (heq ▸ List.mem_map_of_mem hold)
    · rw [Option.mem_toList] at hnew
      rw [hnew, Option.toList_some, insertAll_cons, insertAll_nil, Finmap.lookup_insert]
  · rcases hjoins peer hpeer with hold | hnew
    · obtain ⟨e, he, rfl⟩ := List.mem_map.mp (h.all peer hold)
      exact List.mem_map_of_mem (hstays e (List.mem_append_left _ he)).1
    · obtain ⟨e, he, rfl⟩ := List.mem_map.mp hnew
      exact List.mem_map_of_mem (hstays e (List.mem_append_right _ he)).1

/-- When the standing handshakes after a pass are the latest ones of the
connected peers, the votes count those peers; and they do in every state of a
run of steady events. -/
theorem votes_count_connected (A : Finset IpAddr) (hA : A.card < maxExternalIpVotes)
    (myNonce : UInt64) (clock : Clock) (events : List Event)
    (hreports : Along observe (Reports A) (start myNonce clock) events) :
    (Balanced ((run observe (start myNonce clock) events).observe .evict) →
      Counted ((run observe (start myNonce clock) events).observe .evict)) ∧
    (Along observe Steady (start myNonce clock) events →
      Counted (run observe (start myNonce clock) events)) := by
  have htallied := tallied_run hA myNonce clock hreports
  refine ⟨counted_of_balanced htallied.evict, fun hsteady => counted_of_balanced htallied ?_⟩
  exact run_invariant Balanced (fun _ _ h => h.observe) (balanced_start myNonce clock) hsteady

def joins (id : ℕ) (peer reported : IpAddr) : List Event :=
  [.insertIncoming peer 9933, .task id (.received (.version (some ⟨1, 0, reported⟩)) true),
    .task id (.replied true true), .task id (.received .verack true)]

def peerA : IpAddr := .v4 0x05060708

def peerB : IpAddr := .v4 0x05060709

def peerC : IpAddr := .v4 0x0506070a

def ownAddress : IpAddr := .v4 0x08080808

def threeReport (reported : IpAddr) : List Event :=
  joins 0 peerA reported ++ joins 1 peerB reported ++ joins 2 peerC reported

def afterThree (reported : IpAddr) : VoteLedger :=
  (run observe (start 7 ⟨1000, 0⟩) (threeReport reported)).observe .evict

/-- Three connected peers agree on an address that is none of theirs: the pass
drops their votes. -/
theorem agreed_votes_dropped :
    Along observe (Reports {ownAddress}) (start 7 ⟨1000, 0⟩) (threeReport ownAddress) ∧
    ((afterThree ownAddress).reporters ownAddress).card = 3 ∧
    (afterThree ownAddress).votes ownAddress = 0 := by
  decide +kernel

/-- The three agree on the address of one of them. -/
theorem agreed_votes_kept :
    Along observe Steady (start 7 ⟨1000, 0⟩) (threeReport peerA ++ [.evict]) ∧
    (afterThree peerA).votes peerA = ((afterThree peerA).reporters peerA).card ∧
    (afterThree peerA).votes peerA = 3 := by
  have hsteady : Along observe Steady (start 7 ⟨1000, 0⟩) (threeReport peerA ++ [.evict]) := by
    decide +kernel
  have hcounted := (votes_count_connected {peerA} (by decide) 7 ⟨1000, 0⟩
    (threeReport peerA ++ [.evict]) (by decide +kernel)).2 hsteady
  exact ⟨hsteady, hcounted.1 peerA, by decide +kernel⟩

end VoteLedger

end Ironcat.ExternalVotes
