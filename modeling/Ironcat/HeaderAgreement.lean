import Ironcat.HeaderBranches

/-!
# Nodes that hear the same headers agree

Headers reach `accept_header` in any order, with repetitions and with headers
that do not belong anywhere. Afterwards the tree holds exactly the branches that
are valid in their own terms and arrived oldest first. Two nodes that heard the
same headers, parents first, hold the same tree and the same best work, whatever
their active chains are.
-/

namespace Ironcat.HeaderAgreement

open Lib.FiniteMap Lib.Runs Types Difficulty Headers HeaderTree HeaderRuns
open HeaderBranches

variable {P : Primitives} {params : ConsensusParams} {genesis header : BlockHeader}
variable {hs hs' : HeaderStore} {branch below headers headers' : List BlockHeader}
variable {hash : Hash256} {s : StoredHeader}

/-- A branch of distinct headers, each valid above the ones below it. -/
def Valid (P : Primitives) (params : ConsensusParams) (genesis : BlockHeader) :
    List BlockHeader → Prop
  | [] => True
  | header :: below => Valid P params genesis below ∧ ValidOn P params genesis below header ∧
      ∀ n, header.blockHash P ≠ tipHash P genesis (below.drop n)

section

variable (P : Primitives) (params : ConsensusParams) (genesis : BlockHeader)
variable (headers : List BlockHeader)

/-- The store of a node that hears the headers in this order. -/
def heard : HeaderStore :=
  run (HeaderOp.apply P) (HeaderStore.makeFresh P genesis params none) (headers.map .acceptHeader)

def Reached (hash : Hash256) (s : StoredHeader) : Prop :=
  ∃ branch, Valid P params genesis branch ∧ branch.reverse.Sublist headers ∧
    tipHash P genesis branch = hash ∧ storedTip genesis branch = s

end

structure Arrived (P : Primitives) (params : ConsensusParams) (genesis : BlockHeader)
    (headers : List BlockHeader) (hs : HeaderStore) : Prop where
  tree : Tree P genesis hs
  params_eq : hs.params = params
  unmarked : hs.invalidTips = ∅
  stored : ∀ hash s, hs.get hash = some s ↔ Reached P params genesis headers hash s
  best_stored : ∃ s, hs.get hs.bestKnownTip.1 = some s ∧ hs.bestKnownTip.2 = s.chainwork
  best_max : ∀ hash s, hs.get hash = some s → s.chainwork ≤ hs.bestKnownTip.2

theorem arrived_fresh : Arrived P params genesis [] (HeaderStore.makeFresh P genesis params none) := by
  have hget : ∀ hash s, (HeaderStore.makeFresh P genesis params none).get hash = some s ↔
      hash = genesis.blockHash P ∧ s = ⟨genesis, 0, workFromBits genesis.bits⟩ := by
    intro hash s
    simp only [HeaderStore.get, HeaderStore.makeFresh, lookup_insert_eq]
    split_ifs with heq <;> simp [heq, eq_comm]
  refine ⟨tree_makeFresh P genesis params none, rfl, rfl, ?_, ⟨_, (hget _ _).mpr ⟨rfl, rfl⟩, rfl⟩, ?_⟩
  · intro hash s
    rw [hget]
    constructor
    · rintro ⟨rfl, rfl⟩
      exact ⟨[], trivial, .slnil, rfl, rfl⟩
    · rintro ⟨branch, _, hsub, rfl, rfl⟩
      obtain rfl : branch = [] := by simpa using hsub
      exact ⟨rfl, rfl⟩
  · intro hash s h
    obtain ⟨_, rfl⟩ := (hget hash s).mp h
    exact le_rfl

theorem Arrived.holds (h : Arrived P params genesis headers hs) (hvalid : Valid P params genesis branch)
    (hsub : branch.reverse.Sublist headers) : HoldsBranch P genesis hs branch := by
  induction branch with
  | nil => exact (h.stored _ _).mpr ⟨[], trivial, by simp, rfl, rfl⟩
  | cons header below ih =>
    have hbelow : below.reverse.Sublist headers := by
      refine List.Sublist.trans ?_ hsub
      rw [List.reverse_cons]
      exact List.sublist_append_left _ _
    exact ⟨hvalid.2.1.prev, (h.stored _ _).mpr ⟨_, hvalid, hsub, rfl, rfl⟩, ih hvalid.1 hbelow⟩

theorem Reached.mono (h : Reached P params genesis headers hash s) (header : BlockHeader) :
    Reached P params genesis (headers ++ [header]) hash s := by
  obtain ⟨branch, hvalid, hsub, htip, hs⟩ := h
  exact ⟨branch, hvalid, hsub.trans (List.sublist_append_left _ _), htip, hs⟩

theorem reached_concat : Reached P params genesis (headers ++ [header]) hash s ↔
    Reached P params genesis headers hash s ∨ ∃ below, Valid P params genesis (header :: below) ∧
      below.reverse.Sublist headers ∧ header.blockHash P = hash ∧
      storedTip genesis (header :: below) = s := by
  constructor
  · rintro ⟨branch, hvalid, hsub, htip, hs⟩
    obtain ⟨older, last, heq, holder, hlast⟩ := List.sublist_append_iff.mp hsub
    rcases List.sublist_singleton.mp hlast with rfl | rfl
    · rw [List.append_nil] at heq
      exact .inl ⟨branch, hvalid, heq ▸ holder, htip, hs⟩
    · obtain rfl : branch = header :: older.reverse := by
        rw [← branch.reverse_reverse, heq, List.reverse_append, List.reverse_singleton,
          List.singleton_append]
      exact .inr ⟨_, hvalid, by rwa [List.reverse_reverse], htip, hs⟩
  · rintro (h | ⟨below, hvalid, hsub, htip, hs⟩)
    · exact h.mono header
    · refine ⟨header :: below, hvalid, ?_, htip, hs⟩
      rw [List.reverse_cons]
      exact hsub.append (List.Sublist.refl _)

/-- No two of the headers share a hash. -/
def HashSound (P : Primitives) (headers : List BlockHeader) : Prop :=
  ∀ a ∈ headers, ∀ b ∈ headers, a.blockHash P = b.blockHash P → a = b

instance (P : Primitives) (headers : List BlockHeader) : Decidable (HashSound P headers) :=
  inferInstanceAs (Decidable (∀ a ∈ headers, _))

section

variable (h : Arrived P params genesis headers hs)
include h

theorem Arrived.get_of_known (hinj : HashSound P (headers ++ [header]))
    (hvalid : Valid P params genesis (header :: below)) (hsub : below.reverse.Sublist headers)
    (hmem : header.blockHash P ∈ hs.byHash) :
    hs.get (header.blockHash P) = some (storedTip genesis (header :: below)) := by
  obtain ⟨s, hget⟩ := Finmap.mem_iff.mp hmem
  obtain ⟨branch, hvalid', hsub', htip, rfl⟩ := (h.stored _ _).mp hget
  cases branch with
  | nil =>
    have hne := hvalid.2.2 below.length
    rw [List.drop_length] at hne
    exact absurd htip.symm hne
  | cons header' below' =>
    have hmem' : header' ∈ headers := hsub'.subset (by simp)
    obtain rfl : header' = header :=
      hinj _ (List.mem_append_left _ hmem') _ (List.mem_append_right _ (by simp)) htip
    have hprev : tipHash P genesis below = tipHash P genesis below' :=
      hvalid.2.1.prev.symm.trans hvalid'.2.1.prev
    have hsub'' : below'.reverse.Sublist headers := by
      refine List.Sublist.trans ?_ hsub'
      rw [List.reverse_cons]
      exact List.sublist_append_left _ _
    have hbelow := (h.holds hvalid.1 hsub).get
    rw [hprev, (h.holds hvalid'.1 hsub'').get, Option.some.injEq] at hbelow
    exact hget.trans (congrArg some (storedTip_cons_congr hbelow))

theorem Arrived.valid_cons (hvalid : Valid P params genesis below)
    (hsub : below.reverse.Sublist headers) (hon : ValidOn P params genesis below header)
    (hnew : header.blockHash P ∉ hs.byHash) : Valid P params genesis (header :: below) := by
  refine ⟨hvalid, hon, fun n heq => hnew ?_⟩
  rw [heq]
  exact Finmap.mem_of_lookup_eq_some ((h.holds hvalid hsub).drop n).get

theorem Arrived.of_rejected (hrejected : ∀ r, hs.acceptHeader P header ≠ .ok r) :
    Arrived P params genesis (headers ++ [header]) hs := by
  refine ⟨h.tree, h.params_eq, h.unmarked, fun hash s => ?_, h.best_stored, h.best_max⟩
  rw [h.stored, reached_concat]
  refine ⟨.inl, ?_⟩
  rintro (hreached | ⟨below, hvalid, hsub, _, _⟩)
  · exact hreached
  · have hbelow := h.holds hvalid.1 hsub
    by_cases hmem : header.blockHash P ∈ hs.byHash
    · have hknown : hs.acceptHeader P header = .ok (hs, .alreadyKnown) := by
        simp [HeaderStore.acceptHeader, hmem, pure, Except.pure]
      exact absurd hknown (hrejected _)
    · have hon : ValidOn P hs.params genesis below header := h.params_eq ▸ hvalid.2.1
      obtain ⟨r, hr⟩ :=
        acceptHeader_of_validOn h.tree (by simp [h.unmarked]) hbelow hmem hon
      exact absurd hr (hrejected r)

theorem Arrived.of_known (hinj : HashSound P (headers ++ [header]))
    (hmem : header.blockHash P ∈ hs.byHash) :
    Arrived P params genesis (headers ++ [header]) hs := by
  refine ⟨h.tree, h.params_eq, h.unmarked, fun hash s => ?_, h.best_stored, h.best_max⟩
  rw [reached_concat]
  constructor
  · exact fun hget => .inl ((h.stored hash s).mp hget)
  · rintro (hreached | ⟨below, hvalid, hsub, rfl, rfl⟩)
    · exact (h.stored hash s).mpr hreached
    · exact h.get_of_known hinj hvalid hsub hmem

theorem Arrived.of_attached (hs' : HeaderStore) {r : HeaderStore.AcceptResult}
    (htree : Tree P genesis hs') (hnew : header.blockHash P ∉ hs.byHash)
    (hok : hs.acceptHeader P header = .ok (hs', r)) :
    Arrived P params genesis (headers ++ [header]) hs' := by
  obtain ⟨hmem, _⟩ | ⟨_, p, extend, hp, _, _, heq⟩ := acceptHeader_eq_ok hok
  · exact absurd hmem hnew
  obtain ⟨below, hvalid, hsub, htip, hstored⟩ := (h.stored _ _).mp hp
  have hon : ValidOn P params genesis below header := h.params_eq ▸
    validOn_of_acceptHeader h.tree (h.holds hvalid hsub) htip.symm hnew hok
  have hbranch := h.valid_cons hvalid hsub hon hnew
  have htop : storedTip genesis (header :: below) = storedBelow p header := by
    rw [← hstored]
    rfl
  have hget : ∀ k, hs'.get k =
      if k = header.blockHash P then some (storedTip genesis (header :: below)) else hs.get k := by
    intro k
    rw [htop, heq]
    exact @get_attach hs _ _ extend k
  have hbest : hs'.bestKnownTip = if hs.bestKnownTip.2 < (storedTip genesis (header :: below)).chainwork
      then (header.blockHash P, (storedTip genesis (header :: below)).chainwork)
      else hs.bestKnownTip := by
    rw [htop, heq]
    rfl
  refine ⟨htree, by rw [heq]; exact h.params_eq, by rw [heq]; exact h.unmarked, ?_, ?_, ?_⟩
  · intro hash s
    rw [hget, reached_concat]
    split_ifs with hk
    · constructor
      · intro hsome
        exact .inr ⟨below, hbranch, hsub, hk.symm, Option.some.inj hsome⟩
      · rintro (hreached | ⟨below', hvalid', hsub', _, rfl⟩)
        · have hold := (h.stored hash s).mpr hreached
          exact absurd (Finmap.mem_of_lookup_eq_some hold) (hk ▸ hnew)
        · rw [(h.holds hvalid hsub).unique (h.holds hvalid'.1 hsub')
            (htip.trans hvalid'.2.1.prev)]
    · rw [h.stored]
      refine ⟨.inl, ?_⟩
      rintro (hreached | ⟨_, _, _, hash_eq, _⟩)
      · exact hreached
      · exact absurd hash_eq.symm hk
  · rw [hbest]
    split_ifs with hmore
    · exact ⟨_, by rw [hget, if_pos rfl], rfl⟩
    · obtain ⟨s, hbest', hwork⟩ := h.best_stored
      have hne : hs.bestKnownTip.1 ≠ header.blockHash P := fun heq =>
        hnew (heq ▸ Finmap.mem_of_lookup_eq_some hbest')
      exact ⟨s, by rw [hget, if_neg hne]; exact hbest', hwork⟩
  · intro hash s hsome
    rw [hget] at hsome
    rw [hbest]
    split_ifs at hsome with hk
    · obtain rfl := Option.some.inj hsome
      split_ifs with hmore
      · exact le_rfl
      · exact not_lt.mp hmore
    · have hle := h.best_max hash s hsome
      split_ifs with hmore
      · exact hle.trans hmore.le
      · exact hle

theorem Arrived.step (hinj : HashSound P (headers ++ [header])) :
    Arrived P params genesis (headers ++ [header]) ((HeaderOp.acceptHeader header).apply P hs) := by
  have htree : Tree P genesis ((HeaderOp.acceptHeader header).apply P hs) :=
    tree_apply h.tree (by simp [HashInjOn, HeaderOp.headers]) trivial
  simp only [HeaderOp.apply] at htree ⊢
  cases hok : hs.acceptHeader P header with
  | error e => exact h.of_rejected (by simp [hok])
  | ok result =>
    obtain ⟨hs', r⟩ := result
    rw [hok] at htree
    by_cases hmem : header.blockHash P ∈ hs.byHash
    · obtain ⟨_, rfl, _⟩ | ⟨_, p, extend, _, hatt, _⟩ := acceptHeader_eq_ok hok
      · exact h.of_known hinj hmem
      · exact absurd hmem hatt.fresh
    · exact h.of_attached hs' htree hmem hok

end

theorem arrived_heard (hinj : HashSound P headers) :
    Arrived P params genesis headers (heard P params genesis headers) := by
  induction headers using List.reverseRecOn with
  | nil => exact arrived_fresh
  | append_singleton headers header ih =>
    have hprefix : HashSound P headers := fun a ha b hb =>
      hinj a (List.mem_append_left _ ha) b (List.mem_append_left _ hb)
    simp only [heard, run, List.map_append, List.foldl_append]
    exact (ih hprefix).step hinj

/-- A header does not come before its parent unless the parent has been there
already. -/
def Ancestral (P : Primitives) (headers : List BlockHeader) : Prop :=
  ∀ i : Fin headers.length, ∀ j : Fin headers.length, i < j →
    (headers.get j).blockHash P = (headers.get i).prevHash → headers.get j ∈ headers.take i

instance (P : Primitives) (headers : List BlockHeader) : Decidable (Ancestral P headers) :=
  inferInstanceAs (Decidable (∀ _ : Fin headers.length, _))

theorem Ancestral.idxOf_lt {parent : BlockHeader} (h : Ancestral P headers)
    (hheader : header ∈ headers) (hparent : parent ∈ headers) (hne : header ≠ parent)
    (hhash : parent.blockHash P = header.prevHash) :
    headers.idxOf parent < headers.idxOf header := by
  by_contra hle
  have hi := List.idxOf_lt_length_iff.mpr hheader
  have hj := List.idxOf_lt_length_iff.mpr hparent
  have hlt : headers.idxOf header < headers.idxOf parent := by
    refine lt_of_le_of_ne (not_lt.mp hle) fun heq => hne ?_
    rw [← List.getElem_idxOf hi, ← List.getElem_idxOf hj]
    simp only [heq]
  have hmem := h ⟨_, hi⟩ ⟨_, hj⟩ hlt (by simpa using hhash)
  rw [List.get_eq_getElem, List.getElem_idxOf] at hmem
  exact hle ((List.mem_take_iff_idxOf_lt hparent).mp hmem)

theorem Ancestral.sublist (h : Ancestral P headers)
    (hvalid : Valid P params genesis (header :: below)) (hmem : ∀ b ∈ header :: below, b ∈ headers) :
    below.reverse.Sublist (headers.take (headers.idxOf header)) := by
  induction below generalizing header with
  | nil => simp
  | cons parent below ih =>
    have hparent : parent ∈ headers := hmem parent (by simp)
    have hne : header ≠ parent := fun heq => hvalid.2.2 0 (by simp [heq])
    have hlt := h.idxOf_lt (hmem header (by simp)) hparent hne hvalid.2.1.prev.symm
    have hbelow := ih hvalid.1 fun b hb => hmem b (List.mem_cons_of_mem _ hb)
    have hj := List.idxOf_lt_length_iff.mpr hparent
    have htake : headers.take (headers.idxOf parent + 1) =
        headers.take (headers.idxOf parent) ++ [parent] := by
      rw [List.take_succ_eq_append_getElem hj]
      simp
    rw [List.reverse_cons]
    refine (hbelow.append (List.Sublist.refl [parent])).trans ?_
    rw [← htake]
    exact (List.take_prefix_take_left hlt).sublist

theorem reached_iff_of_parentsFirst (h : Ancestral P headers) :
    Reached P params genesis headers hash s ↔ ∃ branch, Valid P params genesis branch ∧
      (∀ b ∈ branch, b ∈ headers) ∧ tipHash P genesis branch = hash ∧ storedTip genesis branch = s := by
  constructor
  · rintro ⟨branch, hvalid, hsub, htip, hs⟩
    exact ⟨branch, hvalid, fun b hb => hsub.subset (List.mem_reverse.mpr hb), htip, hs⟩
  · rintro ⟨branch, hvalid, hmem, htip, hs⟩
    refine ⟨branch, hvalid, ?_, htip, hs⟩
    cases branch with
    | nil => simp
    | cons header below =>
      have hlast := List.idxOf_lt_length_iff.mpr (hmem header (by simp))
      have hbelow := h.sublist hvalid hmem
      rw [List.reverse_cons]
      refine (hbelow.append (List.Sublist.refl [header])).trans ?_
      have htake := List.take_succ_eq_append_getElem hlast
      rw [List.getElem_idxOf] at htake
      rw [← htake]
      exact List.take_sublist _ _

theorem Arrived.best_eq (h : Arrived P params genesis headers hs)
    (h' : Arrived P params genesis headers' hs') (hsame : hs.byHash = hs'.byHash) :
    hs.bestKnownTip.2 = hs'.bestKnownTip.2 := by
  have hget : ∀ hash, hs.get hash = hs'.get hash := fun hash => by
    rw [HeaderStore.get, HeaderStore.get, hsame]
  obtain ⟨s, hs, hwork⟩ := h.best_stored
  obtain ⟨s', hs', hwork'⟩ := h'.best_stored
  refine le_antisymm ?_ ?_
  · rw [hwork]
    exact h'.best_max _ s (hget _ ▸ hs)
  · rw [hwork']
    exact h.best_max _ s' (hget _ ▸ hs')

/-- After any arrivals the store holds exactly the valid branches among them
that arrived oldest first. -/
theorem heard_iff_reached (P : Primitives) (params : ConsensusParams) (genesis : BlockHeader)
    (headers : List BlockHeader) (hinj : HashSound P headers) (hash : Hash256) (s : StoredHeader) :
    (heard P params genesis headers).get hash = some s ↔
      ∃ branch, Valid P params genesis branch ∧ branch.reverse.Sublist headers ∧
        tipHash P genesis branch = hash ∧ storedTip genesis branch = s :=
  (arrived_heard hinj).stored hash s

theorem heard_branch_of_B :
    (heard poly .testing easyGenesis [headerB2, headerB1, headerA1, headerB2]).get
      (headerB2.blockHash poly) = some (storedTip easyGenesis [headerB2, headerB1]) ∧
    ∃ branch, Valid poly .testing easyGenesis branch ∧
      branch.reverse.Sublist [headerB2, headerB1, headerA1, headerB2] ∧
      tipHash poly easyGenesis branch = headerB2.blockHash poly ∧
      storedTip easyGenesis branch = storedTip easyGenesis [headerB2, headerB1] :=
  have hget : (heard poly .testing easyGenesis [headerB2, headerB1, headerA1, headerB2]).get
      (headerB2.blockHash poly) = some (storedTip easyGenesis [headerB2, headerB1]) := by
    decide +kernel
  ⟨hget, (heard_iff_reached poly .testing easyGenesis _ (by decide +kernel) _ _).mp hget⟩

/-- Two nodes that hear the same headers, each with its parents first, hold the
same headers at the same heights and with the same work, and agree on the most
work there is. -/
theorem nodes_agree (P : Primitives) (params : ConsensusParams) (genesis : BlockHeader)
    (headers headers' : List BlockHeader) (hinj : HashSound P headers)
    (hsame : ∀ header, header ∈ headers ↔ header ∈ headers') (hfirst : Ancestral P headers)
    (hfirst' : Ancestral P headers') :
    (heard P params genesis headers).byHash = (heard P params genesis headers').byHash ∧
    (heard P params genesis headers).bestTip.2.2 = (heard P params genesis headers').bestTip.2.2 := by
  have h : Arrived P params genesis headers _ := arrived_heard hinj
  have hinj' : HashSound P headers' := by simpa only [HashSound, hsame] using hinj
  have h' : Arrived P params genesis headers' _ := arrived_heard hinj'
  have hget : ∀ hash s, (heard P params genesis headers).get hash = some s ↔
      (heard P params genesis headers').get hash = some s := by
    intro hash s
    rw [h.stored, h'.stored, reached_iff_of_parentsFirst hfirst, reached_iff_of_parentsFirst hfirst']
    simp only [hsame]
  have hmap : (heard P params genesis headers).byHash = (heard P params genesis headers').byHash :=
    Finmap.ext_lookup fun hash => Option.ext fun s => hget hash s
  exact ⟨hmap, h.best_eq h' hmap⟩

/-- `B2` needs `B1`; two nodes hear the branches of `A` and `B` in turn. -/
theorem nodes_agree_on_two_branches :
    (heard poly .testing easyGenesis [headerA1, headerB1, headerB2]).activeChain ≠
      (heard poly .testing easyGenesis [headerB1, headerB2, headerA1]).activeChain ∧
    (heard poly .testing easyGenesis [headerA1, headerB1, headerB2]).byHash =
      (heard poly .testing easyGenesis [headerB1, headerB2, headerA1]).byHash :=
  ⟨by decide +kernel, (nodes_agree poly .testing easyGenesis _ _ (by decide +kernel)
    (fun _ => List.Perm.mem_iff (by decide +kernel)) (by decide +kernel) (by decide +kernel)).1⟩

end Ironcat.HeaderAgreement
