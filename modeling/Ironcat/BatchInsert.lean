import Ironcat.ForkLookup

/-!
# Batches of headers

`add_headers` validates a batch against an overlay of the store, a shadow tip
and a deferred proof-of-work check, and commits at the end. It succeeds exactly
when `add_header` does for each new header in turn, with the same store.
-/

namespace Ironcat.BatchInsert

open Lib.Checked Lib.FiniteMap Types Difficulty Headers HeaderTree HeaderRuns ForkLookup

variable {P : Primitives} {genesis : BlockHeader} {hs hs' : HeaderStore}
variable {headers rest : List BlockHeader} {header : BlockHeader}
variable {st st' : HeaderStore.BatchState} {es : List (Hash256 × StoredHeader)}

/-- Adding the batch headers that are not stored one after the other. -/
def addEach (P : Primitives) (hs : HeaderStore) (headers : List BlockHeader) :
    Except HeaderError HeaderStore :=
  (headers.filter fun header => header.blockHash P ∉ hs.byHash).foldlM (HeaderStore.addHeader P) hs

theorem commitAll_activeChain (hs : HeaderStore) (es : List (Hash256 × StoredHeader)) :
    (hs.commitAll es).activeChain = hs.activeChain ++ es.map Prod.fst := by
  induction es using List.reverseRecOn with
  | nil => simp [HeaderStore.commitAll]
  | append_singleton es e ih =>
    rw [commitAll_concat, List.map_append, ← List.append_assoc, ← ih]
    rfl

theorem commitAll_params (hs : HeaderStore) (es : List (Hash256 × StoredHeader)) :
    (hs.commitAll es).params = hs.params := by
  induction es using List.reverseRecOn with
  | nil => rfl
  | append_singleton es e ih => rw [commitAll_concat, ← ih]; rfl

theorem get_of_attached (h : Attached P hs es hs') :
    (∀ e ∈ es, hs'.get e.1 = some e.2) ∧ ∀ k s, hs.get k = some s → hs'.get k = some s := by
  induction h with
  | nil => simp
  | @snoc es T hash s extend _ ha ih =>
    have hkeep : ∀ k v, T.get k = some v → (attach T hash s extend).get k = some v := by
      intro k v hk
      rw [get_attach, if_neg, hk]
      rintro rfl
      exact ha.fresh (Finmap.mem_of_lookup_eq_some hk)
    refine ⟨?_, fun k v hk => hkeep k v (ih.2 k v hk)⟩
    intro e he
    rcases List.mem_append.mp he with he | he
    · exact hkeep _ _ (ih.1 e he)
    · rw [List.mem_singleton.mp he, get_attach, if_pos rfl]

theorem headerAt_eq {h : ℕ} {hash : Hash256} {s : StoredHeader}
    (hhash : hs.activeChain[h]? = some hash) (hget : hs.get hash = some s) :
    hs.headerAt h = some (timeAndBits s) := by
  simp [HeaderStore.headerAt, hhash, hget, timeAndBits]

theorem height_of_attached (htree : Tree P genesis hs) (h : Attached P hs es (hs.commitAll es))
    {i : ℕ} {e : Hash256 × StoredHeader} (hi : es[i]? = some e) :
    e.2.height = hs.activeChain.length + i := by
  have hT := h.tree htree
  have hchain : (hs.commitAll es).activeChain[hs.activeChain.length + i]? = some e.1 := by
    simp [commitAll_activeChain, List.getElem?_append_right, hi]
  obtain ⟨s, hs', hheight⟩ := hT.path.lookup hT.rooted.root hchain
  have hget := (get_of_attached h).1 e (List.mem_of_getElem? hi)
  obtain rfl := Option.mem_unique hget hs'
  exact hheight

theorem batchLookup_eq (htree : Tree P genesis hs) (h : Attached P hs es (hs.commitAll es)) :
    hs.batchLookup es = (hs.commitAll es).headerAt := by
  obtain ⟨hnew, hold⟩ := get_of_attached h
  have hfirst : ∀ e, es.head? = some e → e.2.height = hs.activeChain.length := by
    intro e he
    rw [List.head?_eq_getElem?] at he
    simpa using height_of_attached htree h he
  funext k
  by_cases hk : k < hs.activeChain.length
  · -- below the batch
    have hchain := List.getElem?_eq_getElem hk
    obtain ⟨s, hs', _⟩ := htree.path.lookup htree.rooted.root hchain
    have hbelow : hs.headerAt k = some (timeAndBits s) := headerAt_eq hchain hs'
    have hover : (hs.commitAll es).headerAt k = some (timeAndBits s) :=
      headerAt_eq (by rw [commitAll_activeChain, List.getElem?_append_left hk, hchain]) (hold _ _ hs')
    rw [hover, HeaderStore.batchLookup, hbelow]
    cases hhead : es.head? with
    | none => rfl
    | some e =>
      have := hfirst e hhead
      simp only [Option.bind_eq_bind, Option.bind_some, if_neg (by omega : ¬ e.2.height ≤ k)]
      rfl
  · have hnone : hs.activeChain[k]? = none := List.getElem?_eq_none (by omega)
    have hbelow : hs.headerAt k = none := by simp [HeaderStore.headerAt, hnone]
    have hindex : (hs.commitAll es).activeChain[k]? =
        (es[k - hs.activeChain.length]?).map Prod.fst := by
      rw [commitAll_activeChain, List.getElem?_append_right (by omega), List.getElem?_map]
    rw [HeaderStore.batchLookup, hbelow, Option.or_none]
    cases hhead : es.head? with
    | none =>
      obtain rfl := List.head?_eq_none_iff.mp hhead
      simp [HeaderStore.headerAt, hindex]
    | some first =>
      have hheight := hfirst first hhead
      simp only [Option.bind_eq_bind, Option.bind_some, hheight,
        if_pos (by omega : hs.activeChain.length ≤ k)]
      cases he : es[k - hs.activeChain.length]? with
      | none => simp [HeaderStore.headerAt, hindex, he]
      | some e =>
        rw [headerAt_eq (by simp [hindex, he]) (hnew e (List.mem_of_getElem? he))]
        rfl

def batchStore (hs : HeaderStore) (es : List (Hash256 × StoredHeader)) : HeaderStore :=
  (hs.persistBatch es).commitAll es

theorem batchStore_eq (hs : HeaderStore) (es : List (Hash256 × StoredHeader)) :
    batchStore hs es =
      { hs.commitAll es with backend := hs.backend.map fun be => persistAll be es } := by
  rw [batchStore, persistBatch_eq, commitAll_backend]

theorem batchStore_concat (hs : HeaderStore) (es : List (Hash256 × StoredHeader)) (hash : Hash256)
    (s : StoredHeader) : batchStore hs (es ++ [(hash, s)]) =
      ((batchStore hs es).persist hash s).commitToMemory hash s := by
  rw [batchStore_eq, batchStore_eq, commitAll_concat]
  simp [HeaderStore.persist, HeaderStore.commitToMemory, persistAll, Function.comp_def]

structure ValidAbove (P : Primitives) (hs : HeaderStore) (tip : Hash256 × ℕ) (chain : ChainLookup)
    (parentWork : ℕ) (header : BlockHeader) : Prop where
  prev : header.prevHash = tip.1
  height : tip.2 + 1 < 2 ^ 32
  difficulty : HeaderStore.checkDifficulty P hs chain header (tip.2 + 1) = .ok ()
  checkpoint : hs.checkCheckpoint (header.blockHash P) (tip.2 + 1) = .ok ()
  work : parentWork + workFromBits header.bits < 2 ^ 256

def storedAbove (tip : Hash256 × ℕ) (parentWork : ℕ) (header : BlockHeader) : StoredHeader :=
  ⟨header, tip.2 + 1, parentWork + workFromBits header.bits⟩

def tipWork (hs : HeaderStore) : ℕ := ((hs.get hs.tip.1).map StoredHeader.chainwork).getD 0

theorem addHeader_eq_ok : hs.addHeader P header = .ok hs' ↔
    header.blockHash P ∉ hs.byHash ∧ ValidAbove P hs hs.tip hs.headerAt (tipWork hs) header ∧
      HeaderStore.checkPow P hs header (hs.tip.2 + 1) = .ok () ∧
      hs' = (hs.persist (header.blockHash P) (storedAbove hs.tip (tipWork hs) header)).commitToMemory
        (header.blockHash P) (storedAbove hs.tip (tipWork hs) header) := by
  simp only [HeaderStore.addHeader, HeaderStore.validatePowAndCheckpoint, bind_eq_ok, ensure_eq_ok,
    pure_eq_ok, validateChainsToTip_eq_ok, addWork_eq_ok]
  constructor
  · rintro ⟨_, hfresh, _, ⟨hprev, hheight, rfl⟩, _, hdiff, _, ⟨_, hcp, hpow⟩, _, ⟨hwork, rfl⟩, rfl⟩
    exact ⟨hfresh, ⟨hprev, hheight, hdiff, hcp, hwork⟩, hpow, rfl⟩
  · rintro ⟨hfresh, h, hpow, rfl⟩
    exact ⟨(), hfresh, _, ⟨h.prev, h.height, rfl⟩, (), h.difficulty, (), ⟨(), h.checkpoint, hpow⟩, _,
      ⟨h.work, rfl⟩, rfl⟩

theorem validateStep_eq_ok (hfresh : header.blockHash P ∉ hs.byHash) :
    hs.validateStep P st header = .ok st' ↔
      ValidAbove P hs st.shadowTip (hs.batchLookup st.validated)
        (hs.batchParentWork st.validated header.prevHash) header ∧
      st' = ⟨st.validated ++ [(header.blockHash P, storedAbove st.shadowTip
          (hs.batchParentWork st.validated header.prevHash) header)],
        (header.blockHash P, st.shadowTip.2 + 1)⟩ := by
  simp only [HeaderStore.validateStep, hfresh, if_false, bind_eq_ok, pure_eq_ok,
    validateChainsToTip_eq_ok, addWork_eq_ok]
  constructor
  · rintro ⟨_, ⟨hprev, hheight, rfl⟩, _, hdiff, _, hcp, _, ⟨hwork, rfl⟩, rfl⟩
    exact ⟨⟨hprev, hheight, hdiff, hcp, hwork⟩, rfl⟩
  · rintro ⟨h, rfl⟩
    exact ⟨_, ⟨h.prev, h.height, rfl⟩, (), h.difficulty, (), h.checkpoint, _, ⟨h.work, rfl⟩, rfl⟩

theorem validAbove_congr {tip : Hash256 × ℕ} {chain : ChainLookup} {work work' : ℕ}
    (hparams : hs'.params = hs.params) (hwork : header.prevHash = tip.1 → work' = work)
    (h : ValidAbove P hs tip chain work header) : ValidAbove P hs' tip chain work' header where
  prev := h.prev
  height := h.height
  difficulty := by
    have hdiff := h.difficulty
    unfold HeaderStore.checkDifficulty at hdiff ⊢
    rwa [hparams]
  checkpoint := by
    have hcp := h.checkpoint
    unfold HeaderStore.checkCheckpoint at hcp ⊢
    rwa [hparams]
  work := hwork h.prev ▸ h.work

theorem batchStore_tip (h : BatchInv P hs headers st) :
    (batchStore hs st.validated).tip = st.shadowTip := by
  rw [batchStore_eq]
  exact h.tip

theorem batchStore_params (hs : HeaderStore) (es : List (Hash256 × StoredHeader)) :
    (batchStore hs es).params = hs.params := by
  rw [batchStore_eq]
  exact commitAll_params hs es

theorem batchStore_headerAt (htree : Tree P genesis hs) (h : BatchInv P hs headers st) :
    (batchStore hs st.validated).headerAt = hs.batchLookup st.validated := by
  rw [batchStore_eq, batchLookup_eq htree h.attached]
  rfl

theorem batchParentWork_shadowTip (htree : Tree P genesis hs) (h : BatchInv P hs headers st) :
    hs.batchParentWork st.validated st.shadowTip.1 = tipWork (batchStore hs st.validated) := by
  obtain ⟨p, _, hp, _⟩ := (h.attached.tree htree).tip_eq
  rw [h.tip] at hp
  have hget : (batchStore hs st.validated).get st.shadowTip.1 = some p := by
    rw [batchStore_eq]
    exact hp
  rw [h.batchParentWork_eq hp, tipWork, batchStore_tip h, hget]
  rfl

theorem validAbove_batchStore_iff (htree : Tree P genesis hs) (h : BatchInv P hs headers st) :
    ValidAbove P (batchStore hs st.validated) (batchStore hs st.validated).tip
        (batchStore hs st.validated).headerAt (tipWork (batchStore hs st.validated)) header ↔
      ValidAbove P hs st.shadowTip (hs.batchLookup st.validated)
        (hs.batchParentWork st.validated header.prevHash) header := by
  have hwork : header.prevHash = st.shadowTip.1 → hs.batchParentWork st.validated header.prevHash =
      tipWork (batchStore hs st.validated) := by
    intro hprev
    rw [hprev, batchParentWork_shadowTip htree h]
  rw [batchStore_tip h, batchStore_headerAt htree h]
  exact ⟨validAbove_congr (batchStore_params _ _).symm hwork,
    validAbove_congr (batchStore_params _ _) fun hprev => (hwork hprev).symm⟩

theorem addHeader_batchStore (htree : Tree P genesis hs)
    (hinj : HashInjOn P {h | h ∈ headers}) (h : BatchInv P hs headers st)
    (hmem : header ∈ headers) (hfresh : header.blockHash P ∉ hs.byHash) :
    (batchStore hs st.validated).addHeader P header = .ok hs' ↔
      HeaderStore.checkPow P hs header (st.shadowTip.2 + 1) = .ok () ∧
      ∃ st', hs.validateStep P st header = .ok st' ∧ hs' = batchStore hs st'.validated := by
  have hpow : HeaderStore.checkPow P (batchStore hs st.validated) header (st.shadowTip.2 + 1) =
      HeaderStore.checkPow P hs header (st.shadowTip.2 + 1) := by
    unfold HeaderStore.checkPow
    rw [batchStore_params]
  have hstore : ∀ hvalid : ValidAbove P hs st.shadowTip (hs.batchLookup st.validated)
      (hs.batchParentWork st.validated header.prevHash) header,
      hs.batchParentWork st.validated header.prevHash = tipWork (batchStore hs st.validated) :=
    fun hvalid => hvalid.prev.symm ▸ batchParentWork_shadowTip htree h
  rw [addHeader_eq_ok, validAbove_batchStore_iff htree h]
  simp only [validateStep_eq_ok hfresh, batchStore_tip h, hpow]
  constructor
  · rintro ⟨_, hvalid, hp, rfl⟩
    refine ⟨hp, _, ⟨hvalid, rfl⟩, ?_⟩
    rw [batchStore_concat, hstore hvalid]
  · rintro ⟨hp, _, ⟨hvalid, rfl⟩, rfl⟩
    refine ⟨?_, hvalid, hp, ?_⟩
    · rw [batchStore_eq]
      exact h.hash_notMem htree.trunk hinj hmem hfresh (h.tip ▸ hvalid.prev)
    · rw [batchStore_concat, hstore hvalid]

def HasPow (P : Primitives) (hs : HeaderStore) (es : List (Hash256 × StoredHeader)) : Prop :=
  ∀ e ∈ es, HeaderStore.checkPow P hs e.2.header e.2.height = .ok ()

theorem validateStep_of_mem (hmem : header.blockHash P ∈ hs.byHash) :
    hs.validateStep P st header = .ok st := by
  simp only [HeaderStore.validateStep, hmem, if_true]
  rfl

theorem hasPow_step (hfresh : header.blockHash P ∉ hs.byHash)
    (hstep : hs.validateStep P st header = .ok st') :
    HasPow P hs st'.validated ↔ HasPow P hs st.validated ∧
      HeaderStore.checkPow P hs header (st.shadowTip.2 + 1) = .ok () := by
  obtain ⟨_, rfl⟩ := (validateStep_eq_ok hfresh).mp hstep
  rw [HasPow, List.forall_mem_append, List.forall_mem_singleton]
  rfl

theorem hasPow_of_fold (hfold : rest.foldlM (HeaderStore.validateStep P hs) st = .ok st')
    (hpow : HasPow P hs st'.validated) : HasPow P hs st.validated := by
  induction rest generalizing st with
  | nil =>
    obtain rfl := foldlM_nil_eq_ok.mp hfold
    exact hpow
  | cons header rest ih =>
    obtain ⟨mid, hstep, hrest⟩ := foldlM_cons_eq_ok.mp hfold
    by_cases hmem : header.blockHash P ∈ hs.byHash
    · obtain rfl := Except.ok.inj ((validateStep_of_mem hmem).symm.trans hstep)
      exact ih hrest
    · exact ((hasPow_step hmem hstep).mp (ih hrest)).1

theorem fold_eq_ok_iff (htree : Tree P genesis hs)
    (hinj : HashInjOn P {h | h ∈ headers}) (h : BatchInv P hs headers st)
    (hpow : HasPow P hs st.validated) (hsub : ∀ header ∈ rest, header ∈ headers) :
    (rest.filter fun header => header.blockHash P ∉ hs.byHash).foldlM (HeaderStore.addHeader P)
        (batchStore hs st.validated) = .ok hs' ↔
      ∃ st', rest.foldlM (HeaderStore.validateStep P hs) st = .ok st' ∧
        HasPow P hs st'.validated ∧ hs' = batchStore hs st'.validated := by
  induction rest generalizing st with
  | nil =>
    simp only [List.filter_nil, foldlM_nil_eq_ok]
    constructor
    · rintro rfl
      exact ⟨st, rfl, hpow, rfl⟩
    · rintro ⟨_, rfl, _, rfl⟩
      rfl
  | cons header rest ih =>
    rw [List.forall_mem_cons] at hsub
    by_cases hmem : header.blockHash P ∈ hs.byHash
    · rw [List.filter_cons_of_neg (by simpa using hmem),
        foldlM_cons_of_eq_ok (validateStep_of_mem hmem)]
      exact ih h hpow hsub.2
    · rw [List.filter_cons_of_pos (by simpa using hmem)]
      simp only [foldlM_cons_eq_ok, addHeader_batchStore htree hinj h hsub.1 hmem]
      constructor
      · rintro ⟨_, ⟨hp, mid, hstep, rfl⟩, hrest⟩
        have hpow' := (hasPow_step hmem hstep).mpr ⟨hpow, hp⟩
        obtain ⟨st', hfold, hend⟩ := (ih (h.step htree.trunk hinj hsub.1 hstep) hpow' hsub.2).mp hrest
        exact ⟨st', ⟨mid, hstep, hfold⟩, hend⟩
      · rintro ⟨st', ⟨mid, hstep, hfold⟩, hend⟩
        have hpow' := hasPow_of_fold hfold hend.1
        refine ⟨_, ⟨((hasPow_step hmem hstep).mp hpow').2, mid, hstep, rfl⟩, ?_⟩
        exact (ih (h.step htree.trunk hinj hsub.1 hstep) hpow' hsub.2).mpr ⟨st', hfold, hend⟩

theorem checkContinuity_eq_ok {i : ℕ} : HeaderStore.checkContinuity P i headers = .ok () ↔
    headers.IsChain fun a b => b.prevHash = a.blockHash P := by
  induction headers generalizing i with
  | nil => simp [HeaderStore.checkContinuity, pure, Except.pure]
  | cons a rest ih =>
    cases rest with
    | nil => simp [HeaderStore.checkContinuity, pure, Except.pure]
    | cons b rest =>
      rw [HeaderStore.checkContinuity, bind_eq_ok, List.isChain_cons_cons, ← ih (i := i + 1)]
      simp

/-- For distinct headers that chain to each other, the batch call and the single
calls succeed together and end in the same store; a failing batch changes
nothing. -/
theorem addHeaders_eq_addEach (htree : Tree P genesis hs) (headers : List BlockHeader)
    (hchain : headers.IsChain fun a b => b.prevHash = a.blockHash P)
    (hdistinct : (headers.map (BlockHeader.blockHash P)).Nodup) :
    (∀ hs', hs.addHeaders P headers = .ok hs' ↔ addEach P hs headers = .ok hs') ∧
    ∀ e, hs.addHeaders P headers = .error e → (HeaderOp.addHeaders headers).apply P hs = hs := by
  have hinj : Set.InjOn (BlockHeader.blockHash P) {h | h ∈ headers} :=
    fun a ha b hb => List.inj_on_of_nodup_map hdistinct ha hb
  have hstart : BatchInv P hs headers ⟨[], hs.tip⟩ := ⟨.nil, rfl, by simp, by simp, by simp⟩
  constructor
  · intro hs'
    have hfold : addEach P hs headers = .ok hs' ↔ _ :=
      fold_eq_ok_iff htree hinj hstart (by simp [HasPow]) fun _ => id
    refine Iff.trans ?_ hfold.symm
    simp only [HeaderStore.addHeaders, HeaderStore.validateBatch, bind_eq_ok, pure_eq_ok,
      forM_eq_ok]
    constructor
    · rintro ⟨_, ⟨_, _, st, hst, _, hpow, rfl⟩, rfl⟩
      exact ⟨st, hst, hpow, rfl⟩
    · rintro ⟨st, hst, hpow, rfl⟩
      exact ⟨_, ⟨(), checkContinuity_eq_ok.mpr hchain, st, hst, (), hpow, rfl⟩, rfl⟩
  · intro e he
    simp [HeaderOp.apply, he, Except.toOption]

theorem two_headers_added_as_batch :
    (easyStore.addHeaders poly [headerA1, headerA2]).isOk ∧
    ∀ hs', easyStore.addHeaders poly [headerA1, headerA2] = .ok hs' ↔
      addEach poly easyStore [headerA1, headerA2] = .ok hs' :=
  ⟨by decide +kernel, (addHeaders_eq_addEach (tree_makeFresh _ _ _ _) _ (by decide +kernel)
    (by decide +kernel)).1⟩

inductive Outcome (P : Primitives) (hs : HeaderStore) : HeaderOp → HeaderStore → Prop
  | unchanged (op : HeaderOp) : Outcome P hs op hs
  | added {header : BlockHeader} {hs' : HeaderStore} (h : hs.addHeader P header = .ok hs') :
      Outcome P hs (.addHeader header) hs'
  | batchAdded {headers : List BlockHeader} {es : List (Hash256 × StoredHeader)}
      (h : hs.validateBatch P headers = .ok es) :
      Outcome P hs (.addHeaders headers) ((hs.persistBatch es).commitAll es)
  | committed {headers : List BlockHeader} {es : List (Hash256 × StoredHeader)}
      (h : hs.validateBatch P headers = .ok es) :
      Outcome P hs (.validateAndCommit headers) (hs.commitAll es)
  | accepted {header : BlockHeader} {hs' : HeaderStore} {result : HeaderStore.AcceptResult}
      (h : hs.acceptHeader P header = .ok (hs', result)) :
      Outcome P hs (.acceptHeader header) hs'
  | marked (ord : IterOrder) (hash : Hash256) :
      Outcome P hs (.markInvalid ord hash) (hs.markInvalid ord hash)
  | switched {ord : IterOrder} {newTip : Hash256} {hs' : HeaderStore}
      (h : hs.switchActiveChain ord newTip = .ok hs') :
      Outcome P hs (.switchActiveChain ord newTip) hs'
  | purged (ord : IterOrder) (activeTipHeight : ℕ) :
      Outcome P hs (.purgeStaleForks ord activeTipHeight) (hs.purgeStaleForks ord activeTipHeight)

theorem outcome_apply (P : Primitives) (hs : HeaderStore) (op : HeaderOp) :
    Outcome P hs op (op.apply P hs) := by
  cases op with
  | addHeader header =>
    cases h : hs.addHeader P header with
    | error e => simpa [HeaderOp.apply, h, Except.toOption] using Outcome.unchanged _
    | ok hs' => simpa [HeaderOp.apply, h, Except.toOption] using Outcome.added h
  | addHeaders headers =>
    cases h : hs.validateBatch P headers with
    | error e =>
      simpa [HeaderOp.apply, HeaderStore.addHeaders, h, bind, Except.bind, Except.toOption]
        using Outcome.unchanged _
    | ok es =>
      simpa [HeaderOp.apply, HeaderStore.addHeaders, h, bind, Except.bind, pure, Except.pure,
        Except.toOption] using Outcome.batchAdded h
  | validateAndCommit headers =>
    cases h : hs.validateBatch P headers with
    | error e =>
      simpa [HeaderOp.apply, HeaderStore.validateAndCommit, h, bind, Except.bind, Except.toOption]
        using Outcome.unchanged _
    | ok es =>
      simpa [HeaderOp.apply, HeaderStore.validateAndCommit, h, bind, Except.bind, pure, Except.pure,
        Except.toOption] using Outcome.committed h
  | acceptHeader header =>
    cases h : hs.acceptHeader P header with
    | error e => simpa [HeaderOp.apply, h, Except.toOption] using Outcome.unchanged _
    | ok r => simpa [HeaderOp.apply, h, Except.toOption] using Outcome.accepted h
  | markInvalid ord hash => exact .marked ord hash
  | switchActiveChain ord newTip =>
    cases h : hs.switchActiveChain ord newTip with
    | error e => simpa [HeaderOp.apply, h, Except.toOption] using Outcome.unchanged _
    | ok hs' => simpa [HeaderOp.apply, h, Except.toOption] using Outcome.switched h
  | purgeStaleForks ord activeTipHeight => exact .purged ord activeTipHeight

def AllStored (Q : Hash256 → StoredHeader → Prop) (hs : HeaderStore) : Prop :=
  ∀ hash s, hs.get hash = some s → Q hash s

section Stored

variable {Q : Hash256 → StoredHeader → Prop}

theorem AllStored.insert {hash : Hash256} {s : StoredHeader} (h : AllStored Q hs) (hnew : Q hash s)
    (hmap : hs'.byHash = hs.byHash.insert hash s) : AllStored Q hs' := by
  intro k v hk
  rw [HeaderStore.get, hmap] at hk
  rcases lookup_insert_cases hk with ⟨rfl, rfl⟩ | hk
  · exact hnew
  · exact h k v hk

theorem AllStored.commitAll (h : AllStored Q hs) (hes : ∀ e ∈ es, Q e.1 e.2) :
    AllStored Q (hs.commitAll es) := by
  induction es using List.reverseRecOn with
  | nil => exact h
  | append_singleton es e ih =>
    rw [List.forall_mem_append, List.forall_mem_singleton] at hes
    rw [commitAll_concat]
    exact (ih hes.1).insert hes.2 rfl

theorem validateBatch_forall {headers : List BlockHeader}
    (hstep : ∀ (st : HeaderStore.BatchState) header, (∀ e ∈ st.validated, Q e.1 e.2) →
      ValidAbove P hs st.shadowTip (hs.batchLookup st.validated)
        (hs.batchParentWork st.validated header.prevHash) header →
      Q (header.blockHash P) (storedAbove st.shadowTip
        (hs.batchParentWork st.validated header.prevHash) header))
    (h : hs.validateBatch P headers = .ok es) : ∀ e ∈ es, Q e.1 e.2 := by
  simp only [HeaderStore.validateBatch, bind_eq_ok, pure_eq_ok] at h
  obtain ⟨_, _, st, hfold, _, _, rfl⟩ := h
  refine foldlM_invariant (fun st => ∀ e ∈ st.validated, Q e.1 e.2) ?_ (by simp) hfold
  intro header _ st st' hst hok
  by_cases hmem : header.blockHash P ∈ hs.byHash
  · obtain rfl := Except.ok.inj ((validateStep_of_mem hmem).symm.trans hok)
    exact hst
  · obtain ⟨hvalid, rfl⟩ := (validateStep_eq_ok hmem).mp hok
    rw [List.forall_mem_append, List.forall_mem_singleton]
    exact ⟨hst, hstep st header hst hvalid⟩

end Stored

end Ironcat.BatchInsert
