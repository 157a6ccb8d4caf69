import Ironcat.BatchInsert
import Ironcat.HeaderReload
import Ironcat.Quarantine
import Ironcat.ReorgHistory

/-!
# Reorganizations and chainwork

`activate_best_chain` compares hashes, so that it moves to more work rests on
`best_known_tip`: it has to be the active tip or strictly heavier. Every
operation that recomputes it sees to that, as do `accept_header` and a reload.
The calls that extend the active chain do not look at a heavier fork.
-/

namespace Ironcat.MoreWork

open Lib.Checked Lib.FiniteMap Lib.Forest Lib.Runs Types Difficulty BlockFiles Headers
open HeaderTree HeaderRuns BestTip HeaderReload BatchInsert Quarantine Mempool Reorg ReorgHistory

variable {P : Primitives} {genesis : BlockHeader} {hs hs' : HeaderStore}
variable {hash : Hash256} {s : StoredHeader} {extend : Bool}

def BestExact (hs : HeaderStore) : Prop :=
  ∃ s, hs.get hs.bestKnownTip.1 = some s ∧ s.chainwork = hs.bestKnownTip.2

structure Led (hs : HeaderStore) : Prop where
  exact : BestExact hs
  lead : hs.bestKnownTip.1 = hs.tip.1 ∨
    ∀ t, hs.get hs.tip.1 = some t → t.chainwork < hs.bestKnownTip.2

theorem Led.tip_le (h : Led hs) {t : StoredHeader} (ht : hs.get hs.tip.1 = some t) :
    t.chainwork ≤ hs.bestKnownTip.2 := by
  rcases h.lead with heq | hlt
  · obtain ⟨s, hs', hwork⟩ := h.exact
    obtain rfl : s = t := Option.some.inj (hs'.symm.trans (heq ▸ ht))
    exact hwork.le
  · exact (hlt t ht).le

variable {v : StoredHeader}

theorem get_attach_of_get (ha : Attachable P hs hash s extend) {k : Hash256}
    (hk : hs.get k = some v) : (attach hs hash s extend).get k = some v := by
  rw [get_attach, if_neg, hk]
  rintro rfl
  exact ha.fresh (Finmap.mem_of_lookup_eq_some hk)

theorem led_attach (h : Led hs) (htree : Tree P genesis hs) (ha : Attachable P hs hash s extend)
    (hextend : extend = true → hs.bestKnownTip.2 < s.chainwork) : Led (attach hs hash s extend) := by
  obtain ⟨b, hb, hwork⟩ := h.exact
  obtain ⟨t, _, ht, _⟩ := htree.tip_eq
  by_cases hheavier : hs.bestKnownTip.2 < s.chainwork
  · have hbest : (attach hs hash s extend).bestKnownTip = (hash, s.chainwork) := if_pos hheavier
    refine ⟨⟨s, by rw [hbest, get_attach, if_pos rfl], by rw [hbest]⟩, ?_⟩
    rw [hbest, tip_attach ha]
    cases extend with
    | true => exact .inl rfl
    | false =>
      right
      intro t' ht'
      obtain rfl : t = t' := Option.some.inj ((get_attach_of_get ha ht).symm.trans ht')
      exact (h.tip_le ht).trans_lt hheavier
  · have hbest : (attach hs hash s extend).bestKnownTip = hs.bestKnownTip := if_neg hheavier
    have hfalse : extend = false := by
      cases extend with
      | true => exact absurd (hextend rfl) hheavier
      | false => rfl
    refine ⟨⟨b, by rw [hbest, get_attach_of_get ha hb], by rw [hbest, hwork]⟩, ?_⟩
    rw [hbest, tip_attach ha, hfalse]
    refine h.lead.imp id fun hlt t' ht' => ?_
    obtain rfl : t = t' := Option.some.inj ((get_attach_of_get ha ht).symm.trans ht')
    exact hlt t ht

structure BestIsTip (hs : HeaderStore) : Prop where
  exact : BestExact hs
  eq : hs.bestKnownTip.1 = hs.tip.1

theorem BestIsTip.led (h : BestIsTip hs) : Led hs := ⟨h.exact, .inl h.eq⟩

theorem bestIsTip_attach (h : BestIsTip hs) (htree : Tree P genesis hs)
    (ha : Attachable P hs hash s true) (hpos : 0 < workFromBits s.header.bits) :
    BestIsTip (attach hs hash s true) := by
  obtain ⟨b, hb, hwork⟩ := h.exact
  obtain ⟨_, hlast, _⟩ := htree.tip_eq
  obtain ⟨p, hp, _, hchild⟩ := ha.parent
  have hprev : s.header.prevHash = hs.bestKnownTip.1 :=
    (Option.some.inj ((ha.onTip rfl).symm.trans hlast)).trans h.eq.symm
  obtain rfl : p = b := Option.some.inj (hp.symm.trans (hprev ▸ hb))
  have hbest : (attach hs hash s true).bestKnownTip = (hash, s.chainwork) := if_pos (by omega)
  refine ⟨⟨s, by rw [hbest, get_attach, if_pos rfl], by rw [hbest]⟩, ?_⟩
  rw [hbest, tip_attach ha]
  rfl

variable {es : List (Hash256 × StoredHeader)}

theorem attached_length (h : Attached P hs es hs') :
    hs'.activeChain.length ≤ hs.activeChain.length + es.length := by
  induction h with
  | nil => simp
  | @snoc es T hash s extend _ _ ih =>
    cases extend with
    | false => exact ih.trans (by simp)
    | true =>
      simp only [attach, if_true, List.length_append, List.length_singleton]
      omega

theorem bestIsTip_attached (h : Attached P hs es hs') (htree : Tree P genesis hs)
    (hbest : BestIsTip hs) (hlen : hs'.activeChain.length = hs.activeChain.length + es.length)
    (hpos : ∀ e ∈ es, 0 < workFromBits e.2.header.bits) : BestIsTip hs' := by
  induction h with
  | nil => exact hbest
  | @snoc es T hash s extend hatt ha ih =>
    rw [List.forall_mem_append, List.forall_mem_singleton] at hpos
    have hle := attached_length hatt
    cases extend with
    | false =>
      -- the active chain would be too short
      have hlen : T.activeChain.length = hs.activeChain.length + (es ++ [(hash, s)]).length := hlen
      simp only [List.length_append, List.length_singleton] at hlen
      omega
    | true =>
      have hgrow : (attach T hash s true).activeChain.length = T.activeChain.length + 1 := by
        simp [attach]
      simp only [List.length_append, List.length_singleton] at hlen
      exact bestIsTip_attach (ih (by omega) hpos.1) (hatt.tree htree) ha hpos.2

theorem foldl_betterTip_lt (hs : HeaderStore) (l : List Hash256) (best : Hash256 × ℕ) :
    l.foldl hs.betterTip best = best ∨ best.2 < (l.foldl hs.betterTip best).2 := by
  induction l generalizing best with
  | nil => exact .inl rfl
  | cons t l ih =>
    have hstep : hs.betterTip best t = best ∨ best.2 < (hs.betterTip best t).2 := by
      unfold HeaderStore.betterTip
      cases hs.get t with
      | none => exact .inl rfl
      | some s =>
        by_cases hlt : best.2 < s.chainwork
        · exact .inr (by simp [hlt])
        · exact .inl (by simp [hlt])
    rw [List.foldl_cons]
    rcases ih (hs.betterTip best t) with heq | hlt
    · rw [heq]
      exact hstep
    · have hle : best.2 ≤ (hs.betterTip best t).2 :=
        hstep.elim (fun heq => heq.symm ▸ le_rfl) le_of_lt
      exact .inr (hle.trans_lt hlt)

theorem led_recomputeBestTip (htree : Tree P genesis hs) (ord : IterOrder) :
    Led (hs.recomputeBestTip ord) := by
  obtain ⟨t, _, ht, _⟩ := htree.tip_eq
  obtain ⟨c, _, s, hs', hbest, _⟩ := recomputeBestTip_spec ord hs ⟨t, ht⟩
  refine ⟨⟨s, by rw [hbest]; exact hs', by rw [hbest]⟩, ?_⟩
  rw [recomputeBestTip_start ord ht]
  refine (foldl_betterTip_lt hs (ord.list hs.tips) (hs.tip.1, t.chainwork)).imp ?_ ?_
  · intro heq
    rw [heq]
    rfl
  · intro hlt t' ht'
    obtain rfl := Option.mem_unique ht ht'
    exact hlt

def Working (hs : HeaderStore) : Prop :=
  ∀ hash s, hs.get hash = some s → 0 < s.height → 0 < workFromBits s.header.bits

theorem chainwork_lt_of_descends (htree : Tree P genesis hs) (hwork : Working hs) {a b : Hash256}
    {w : StoredHeader} (hdesc : Descends (parentOf hs) a b) (hne : a ≠ b) (ha : hs.get a = some v)
    (hb : hs.get b = some w) : w.chainwork < v.chainwork := by
  obtain heq | ⟨p, hp, hpb⟩ := descends_iff.mp hdesc
  · exact absurd heq hne
  · obtain ⟨v', hv', hpos, _⟩ := parentOf_eq_some.mp hp
    obtain rfl := Option.mem_unique ha hv'
    obtain ⟨v', q, hv', hq, _, hchild⟩ := htree.parentOf_get hp
    obtain rfl := Option.mem_unique ha hv'
    have hle := htree.chainwork_le hpb hq hb
    have := hwork a v ha hpos
    omega

theorem Working.inserts {headers : List BlockHeader} {persisted : Bool} (h : Working hs)
    (hpos : ∀ header ∈ headers, 0 < workFromBits header.bits)
    (hins : Inserts P hs hs' headers persisted) : Working hs' := by
  refine hins.invariant Working (fun _ _ h => h) ?_ h
  intro T hash s extend _ hmem hT k v hk hheight
  rw [get_attach] at hk
  split_ifs at hk
  · exact Option.some.inj hk ▸ hpos s.header hmem
  · exact hT k v hk hheight

theorem get_of_removeBranch {current k : Hash256} {fuel : ℕ}
    (hk : (hs.removeBranch fuel current).get k = some v) : hs.get k = some v := by
  induction fuel generalizing hs current with
  | zero => exact hk
  | succ fuel ih =>
    unfold HeaderStore.removeBranch at hk
    dsimp only at hk
    split_ifs at hk with hactive
    · exact hk
    · cases hget : hs.get current with
      | none => simpa [hget] using hk
      | some s =>
        simp only [hget] at hk
        split_ifs at hk
        · exact get_of_erase hk
        · exact get_of_erase (ih hk)

theorem keptByPurge_working {tips : List Hash256} :
    KeptByPurge tips fun hs => Prunable P genesis tips hs ∧ Working hs where
  subset _ h := keptByPurge_prunable.subset _ h.1
  drop _ tip h := ⟨keptByPurge_prunable.drop _ tip h.1, h.2⟩
  branch _ tip fuel htip h := ⟨keptByPurge_prunable.branch _ tip fuel htip h.1,
    fun k v hk => h.2 k v (get_of_removeBranch hk)⟩

/-- The calls that extend the active chain find the best tip on it, and purges
find leaves. -/
def ExtendsBest (hs : HeaderStore) : HeaderOp → Prop
  | .addHeader _ | .addHeaders _ | .validateAndCommit _ => hs.bestKnownTip.1 = hs.tip.1
  | op => LeafPurge hs op

variable {op : HeaderOp}

theorem leafPurge_of_extendsBest (h : ExtendsBest hs op) : LeafPurge hs op := by
  cases op <;> first | exact h | trivial

structure Leading (P : Primitives) (genesis : BlockHeader) (hs : HeaderStore) : Prop where
  tree : Tree P genesis hs
  led : Led hs
  working : Working hs

theorem led_batch {headers : List BlockHeader} (h : Leading P genesis hs)
    (hbest : hs.bestKnownTip.1 = hs.tip.1)
    (hinj : HashInjOn P {h | h ∈ headers})
    (hpos : ∀ header ∈ headers, 0 < workFromBits header.bits)
    (hes : hs.validateBatch P headers = .ok es) : Led (hs.commitAll es) := by
  obtain ⟨hatt, hmem⟩ := validateBatch_attached h.tree.trunk hinj hes
  refine (bestIsTip_attached hatt h.tree ⟨h.led.exact, hbest⟩ ?_ ?_).led
  · rw [commitAll_activeChain, List.length_append, List.length_map]
  · exact fun e he => hpos _ (hmem e he)

theorem led_apply (h : Leading P genesis hs)
    (hinj : HashInjOn P {h | h ∈ op.headers})
    (hpos : ∀ header ∈ op.headers, 0 < workFromBits header.bits) (hop : ExtendsBest hs op) :
    Led (op.apply P hs) := by
  have houtcome := outcome_apply P hs op
  generalize op.apply P hs = hs' at houtcome
  cases houtcome with
  | unchanged op => exact h.led
  | added hok =>
    obtain ⟨s, hs', hatt, rfl⟩ := addHeader_attaches h.tree.trunk hok
    have hled := (bestIsTip_attach ⟨h.led.exact, hop⟩ h.tree hatt
      (hs'.symm ▸ hpos _ (List.mem_singleton_self _))).led
    exact ⟨hled.exact, hled.lead⟩
  | batchAdded hbatch =>
    have hled := led_batch h hop hinj hpos hbatch
    rw [persistBatch_eq, commitAll_backend]
    exact ⟨hled.exact, hled.lead⟩
  | committed hbatch => exact led_batch h hop hinj hpos hbatch
  | accepted hok =>
    obtain ⟨_, rfl, _⟩ | ⟨_, p, extend, _, ha, hextend, rfl⟩ := acceptHeader_eq_ok hok
    · exact h.led
    · have hled := led_attach h.led h.tree ha hextend
      exact ⟨hled.exact, hled.lead⟩
  | marked ord hash =>
    have htree : Tree P genesis (withMarks ord hs hash) :=
      ⟨h.tree.rooted, h.tree.path, h.tree.active⟩
    exact led_recomputeBestTip htree ord
  | @switched ord newTip _ hok =>
    obtain ⟨_, chain, _, _, _, _, hpath, rfl⟩ := switchActiveChain_eq_ok h.tree hok
    have htree : ∀ tips, Tree P genesis
        { hs with activeChain := chain, activeSet := chain.toFinset, tips := tips } :=
      fun _ => ⟨h.tree.rooted, hpath, rfl⟩
    exact led_recomputeBestTip (htree _) ord
  | purged ord activeTipHeight =>
    obtain ⟨hs₁, hend, heq⟩ := keptByPurge_prunable.purgeStaleForks
      ⟨h.tree, hop, fun _ => id⟩ ord activeTipHeight
    rw [heq]
    exact led_recomputeBestTip hend.tree ord

theorem Working.apply (h : Working hs) (htree : Tree P genesis hs)
    (hinj : HashInjOn P {h | h ∈ op.headers})
    (hpos : ∀ header ∈ op.headers, 0 < workFromBits header.bits) (hpurge : LeafPurge hs op) :
    Working (op.apply P hs) := by
  have heffect := op.effect htree.trunk hinj
  generalize op.apply P hs = hs' at heffect
  cases heffect with
  | insert hins => exact h.inserts hpos hins
  | mark ord hash => exact h
  | switch hswitch =>
    obtain ⟨_, _, _, _, _, _, _, rfl⟩ := switchActiveChain_eq_ok htree hswitch
    exact h
  | purge ord activeTipHeight =>
    obtain ⟨hs₁, hend, heq⟩ := (keptByPurge_working (P := P)).purgeStaleForks
      ⟨⟨htree, hpurge, fun _ => id⟩, h⟩ ord activeTipHeight
    rw [heq]
    exact hend.2

theorem leading_run {ops : List HeaderOp} (h : Leading P genesis hs) (hhash : HeaderHashSound P ops)
    (hpos : ∀ header ∈ ops.flatMap HeaderOp.headers, 0 < workFromBits header.bits)
    (hops : Along (HeaderOp.apply P) ExtendsBest hs ops) :
    Leading P genesis (run (HeaderOp.apply P) hs ops) := by
  refine run_invariant (Leading P genesis) ?_ h (hops.and fun op hop => And.intro (hhash.injOn hop)
    fun header hheader => hpos header (List.mem_flatMap.mpr ⟨op, hop, hheader⟩))
  rintro hs op h ⟨hop, hinj, hpos⟩
  have hpurge := leafPurge_of_extendsBest hop
  exact ⟨tree_apply h.tree hinj hpurge, led_apply h hinj hpos hop,
    h.working.apply h.tree hinj hpos hpurge⟩

/-- A fresh store, or one loaded from a database that mirrors a tree in which
some leaf is not marked. -/
inductive Opened (P : Primitives) (genesis : BlockHeader) (params : ConsensusParams) :
    HeaderStore → Prop
  | fresh (backend : Option Backend) :
      Opened P genesis params (HeaderStore.makeFresh P genesis params backend)
  | loaded {old : HeaderStore} {be : Backend} {leaf : Hash256} (ord : IterOrder)
      (htree : Tree P genesis old) (hwork : Working old) (hmirror : Mirrors old be)
      (hleaf : OpenLeaf old leaf) (hlen : be.headers.entries.length ≤ maxLoadableHeaders) :
      Opened P genesis params (HeaderStore.withBackend P ord genesis params (some be))

theorem activeSet_of_load {ord : IterOrder} {be be' : Backend} {l : Loaded} {g : Hash256}
    (h : tryLoadFromBackend ord be g = .ok (some l, be')) :
    l.activeSet = l.activeChain.toFinset := by
  simp only [tryLoadFromBackend, bind_eq_ok] at h
  obtain ⟨raw, _, h⟩ := h
  split_ifs at h with hnil hgen
  · simp [pure_eq_ok] at h
  · obtain ⟨chain, _, h⟩ := bind_eq_ok.mp h
    split_ifs at h
    · simp only [pure_eq_ok, Prod.mk.injEq, Option.some.injEq] at h
      rw [← h.1]
    · simp [pure_eq_ok] at h
  · simp [pure_eq_ok] at h

theorem Opened.leading {params : ConsensusParams} (h : Opened P genesis params hs) :
    Leading P genesis hs := by
  cases h with
  | fresh backend =>
    have htree := tree_makeFresh P genesis params backend
    refine ⟨htree, ⟨⟨_, htree.rooted.root, rfl⟩, .inl rfl⟩, fun hash s hs' hpos => ?_⟩
    simp only [HeaderStore.get, HeaderStore.makeFresh, lookup_insert_eq] at hs'
    split_ifs at hs'
    · rw [← Option.some.inj hs'] at hpos
      exact absurd hpos (lt_irrefl _)
    · simp at hs'
  | @loaded old be leaf ord htree hwork hmirror hleaf hlen =>
    obtain ⟨l, hload, hbyHash, hpath, hlast, ⟨s, _, hs', hsw⟩, _⟩ :=
      hmirror.load htree ord hlen hleaf
    have hset := activeSet_of_load hload
    have heq : HeaderStore.withBackend P ord genesis params (some be) =
        ⟨l.byHash, l.activeChain, l.activeSet, l.tips, l.bestKnownTip, l.invalidTips, some be,
          params⟩ := by
      simp only [HeaderStore.withBackend, hload]
    rw [heq]
    obtain ⟨byHash, activeChain, activeSet, tips, best, invalid⟩ := l
    simp only at hbyHash hpath hlast hs' hsw hset
    subst hbyHash hset
    refine ⟨⟨htree.rooted, hpath, rfl⟩, ⟨⟨s, hs', hsw.symm⟩, .inl ?_⟩, hwork⟩
    change best.1 = activeChain.getLastD 0
    rw [List.getLastD_eq_getLast?, hlast]
    rfl

section

variable {ord : IterOrder} {bs : BlockStore} {node node' : Node} {oldTip newTip : Hash256}
variable {disconnected connected : ℕ}

theorem reorganized_newTip (h : activateBestChain P ord bs node =
      .returned node' (.ok (.reorganized oldTip newTip disconnected connected))) :
    newTip = node.headers.bestTip.1 ∧ node.headers.bestTip.1 ≠ node.chainstate.tip.1 := by
  obtain ⟨_, _, _, _, hplan, _, hfinish⟩ := activateBestChain_finished h
  obtain ⟨_, ⟨_, _, hr⟩ | ⟨_, _, hr⟩⟩ := finish_eq_returned hfinish
  · cases hr
  · cases hr
    exact ⟨rfl, hplan.ne⟩

/-- The chain state is on the active chain of the headers, or has less work than
its tip. -/
def Anchored (headers : HeaderStore) (tip : Hash256) : Prop :=
  tip ∈ headers.activeSet ∨ ∀ s t, headers.get tip = some s → headers.get headers.tip.1 = some t →
    s.chainwork < t.chainwork

theorem chainwork_lt_best (h : Leading P genesis hs) {tip : Hash256} (hanchored : Anchored hs tip)
    (hne : hs.bestTip.1 ≠ tip) (htip : hs.get tip = some s) :
    ∃ b, hs.get hs.bestTip.1 = some b ∧ s.chainwork < b.chainwork := by
  obtain ⟨b, hb, hwork⟩ := h.led.exact
  obtain ⟨t, _, ht, _⟩ := h.tree.tip_eq
  have hle := h.led.tip_le ht
  refine ⟨b, hb, ?_⟩
  rcases hanchored with hactive | hless
  · rcases h.led.lead with heq | hlt
    · have hdesc := heq ▸ tip_descends h.tree hactive
      exact chainwork_lt_of_descends h.tree h.working hdesc hne hb htip
    · have := h.tree.chainwork_le (tip_descends h.tree hactive) ht htip
      have := hlt t ht
      omega
  · have := hless s t htip ht
    omega

/-- From a fresh or a loaded store, if headers add work and the calls that extend
the active chain are made while the best tip is on it, a chain state that is on
the active chain, or behind it in work, is only reorganized to more work. -/
theorem reorganized_to_more_work (params : ConsensusParams) {start : HeaderStore}
    (hstart : Opened P genesis params start) (ops : List HeaderOp) (hhash : HeaderHashSound P ops)
    (hpos : ∀ header ∈ ops.flatMap HeaderOp.headers, 0 < workFromBits header.bits)
    (hops : Along (HeaderOp.apply P) ExtendsBest start ops)
    (hheaders : node.headers = run (HeaderOp.apply P) start ops)
    (htip : node.headers.get node.chainstate.tip.1 = some s)
    (hanchored : Anchored node.headers node.chainstate.tip.1)
    (h : activateBestChain P ord bs node =
      .returned node' (.ok (.reorganized oldTip newTip disconnected connected))) :
    ∃ b, node.headers.get newTip = some b ∧ s.chainwork < b.chainwork := by
  obtain ⟨rfl, hne⟩ := reorganized_newTip h
  have hleading : Leading P genesis node.headers :=
    hheaders ▸ leading_run hstart.leading hhash hpos hops
  exact chainwork_lt_best hleading hanchored hne htip

end

theorem fork_reorganized_to_more_work :
    ∃ node' b, activateBestChain poly .id (forkStore [coinbaseTx 2 0])
        (forkNode (Pool.empty 1000)) = .returned node' (.ok (.reorganized
          (headerA1.blockHash poly) (headerB2.blockHash poly) 1 2)) ∧
      (forkNode (Pool.empty 1000)).headers.get (headerB2.blockHash poly) = some b ∧
      2 * workFromBits 0x1e0ffff0 < b.chainwork := by
  obtain ⟨node', hnode'⟩ := forkNode_reorganizes
  have hstart : Opened poly easyGenesis ConsensusParams.testing easyStore := .fresh none
  have hheaders : (forkNode (Pool.empty 1000)).headers =
      run (HeaderOp.apply poly) easyStore forkRun := by
    rw [forkNode_headers, forkHeaders]
  have htip : (forkNode (Pool.empty 1000)).headers.get (forkNode (Pool.empty 1000)).chainstate.tip.1 =
      some ⟨headerA1, 1, 2 * workFromBits 0x1e0ffff0⟩ := by
    rw [forkNode_headers, forkNode_tip]
    decide +kernel
  have hanchored : Anchored (forkNode (Pool.empty 1000)).headers
      (forkNode (Pool.empty 1000)).chainstate.tip.1 := by
    rw [forkNode_headers, forkNode_tip]
    exact .inl (by decide +kernel)
  obtain ⟨b, hb, hlt⟩ := reorganized_to_more_work ConsensusParams.testing hstart forkRun
    (by decide +kernel) (by decide +kernel) ⟨trivial, trivial, trivial, trivial⟩ hheaders htip
    hanchored hnode'
  exact ⟨node', b, hnode', hb, hlt⟩

def reversed : IterOrder := ⟨List.reverse, fun l => l.reverse_perm⟩

def tieBackend : Option Backend :=
  (run (HeaderOp.apply poly) easyBackedStore
    [.acceptHeader headerA1, .acceptHeader headerB1]).backend

def tieHeaders : HeaderStore :=
  HeaderStore.withBackend poly reversed easyGenesis ConsensusParams.testing tieBackend

def tieNode : Node where
  headers := tieHeaders
  chainstate := stateA1
  mempool := Pool.empty 1000

/-- The load takes the last of the tips of equal work, `B1`, and the node leaves
`A1` for it. -/
theorem reload_reorganizes_on_tie :
    (activateBestChain poly .id (forkStore [coinbaseTx 2 0]) tieNode).result =
      some (.reorganized (headerA1.blockHash poly) (headerB1.blockHash poly) 1 1) ∧
    (tieHeaders.get (headerA1.blockHash poly)).map StoredHeader.chainwork =
      some (2 * workFromBits 0x1e0ffff0) ∧
    (tieHeaders.get (headerB1.blockHash poly)).map StoredHeader.chainwork =
      some (2 * workFromBits 0x1e0ffff0) := by
  decide +kernel

end Ironcat.MoreWork
