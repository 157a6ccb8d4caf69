import Ironcat.HeaderRuns

/-!
# Difficulty on a branch

`ForkLookup` collects the headers of a branch down to the active chain and asks
the active chain below. In a tree this is the branch's own ancestry at every
height, so the bits that `accept_header` expects are a function of the ancestry
of a header.
-/

namespace Ironcat.ForkLookup

open Lib.Checked Lib.FiniteMap Lib.Forest Lib.Runs Types Difficulty Headers HeaderTree HeaderRuns

variable {P : Primitives} {genesis genesis' : BlockHeader} {hs hs' : HeaderStore}
variable {a b current : Hash256} {s p : StoredHeader}

def timeAndBits (s : StoredHeader) : UInt32 × UInt32 := (s.header.timestamp, s.header.bits)

theorem headerAt_of_active (htree : Tree P genesis hs) (hmem : a ∈ hs.activeSet)
    (hget : hs.get a = some s) : hs.headerAt s.height = some (timeAndBits s) := by
  simp [HeaderStore.headerAt, htree.activeChain_of_mem hmem hget, hget, timeAndBits]

variable {acc : Map ℕ (UInt32 × UInt32)}

theorem forkHeaders_above (htree : Tree P genesis hs) {fuel k : ℕ} (hk : heightOf hs current < k) :
    (hs.forkHeaders fuel current acc).lookup k = acc.lookup k := by
  induction fuel generalizing current acc with
  | zero => rfl
  | succ fuel ih =>
    unfold HeaderStore.forkHeaders
    cases hget : hs.get current with
    | none => rfl
    | some s =>
      rw [heightOf_of_get hget] at hk
      have hinsert : ∀ v, (acc.insert s.height v).lookup k = acc.lookup k :=
        fun v => Finmap.lookup_insert_of_ne _ (by omega)
      dsimp only
      split_ifs with hactive hzero
      · rfl
      · exact hinsert _
      · have hparent : parentOf hs current = some s.header.prevHash :=
          parentOf_eq_some.mpr ⟨s, hget, Nat.pos_of_ne_zero hzero, rfl⟩
        have hrank := htree.ranked _ _ hparent
        rw [heightOf_of_get hget] at hrank
        rw [ih (by omega), hinsert]

theorem forkHeaders_succ {fuel : ℕ}
    (hget : hs.get current = some s) (hoff : current ∉ hs.activeSet) :
    hs.forkHeaders (fuel + 1) current acc =
      if s.height = 0 then acc.insert s.height (timeAndBits s)
      else hs.forkHeaders fuel s.header.prevHash (acc.insert s.height (timeAndBits s)) := by
  rw [HeaderStore.forkHeaders]
  simp only [hget, hoff, if_false]
  rfl

theorem forkHeaders_of_active {fuel : ℕ} (hon : current ∈ hs.activeSet) :
    hs.forkHeaders fuel current acc = acc := by
  cases fuel with
  | zero => rfl
  | succ fuel =>
    rw [HeaderStore.forkHeaders]
    cases hs.get current <;> simp [hon]

theorem forkHeaders_lookup (htree : Tree P genesis hs) {fuel : ℕ}
    (acc : Map ℕ (UInt32 × UInt32)) (hfuel : heightOf hs current < fuel)
    (hdesc : Descends (parentOf hs) current a) (ha : hs.get a = some s) :
    (hs.forkHeaders fuel current acc).lookup s.height =
      if a ∈ hs.activeSet then acc.lookup s.height else some (timeAndBits s) := by
  induction fuel generalizing current acc with
  | zero => omega
  | succ fuel ih =>
    by_cases hon : current ∈ hs.activeSet
    · rw [forkHeaders_of_active hon, if_pos (htree.descends_active hon hdesc)]
    rcases descends_iff.mp hdesc with rfl | ⟨q, hq, hqa⟩
    · rw [forkHeaders_succ ha hon, if_neg hon]
      split_ifs with hzero
      · exact Finmap.lookup_insert _
      · have hparent : parentOf hs current = some s.header.prevHash :=
          parentOf_eq_some.mpr ⟨s, ha, Nat.pos_of_ne_zero hzero, rfl⟩
        have hrank := htree.ranked _ _ hparent
        rw [heightOf_of_get ha] at hrank
        rw [forkHeaders_above htree (by omega), Finmap.lookup_insert]
    · obtain ⟨c, hc, hpos, rfl⟩ := parentOf_eq_some.mp hq
      have hrank := htree.ranked _ _ hq
      have hle : heightOf hs a ≤ heightOf hs c.header.prevHash :=
        hqa.le_of_monotone fun x y hxy => by
          have := htree.ranked _ _ hxy
          omega
      rw [heightOf_of_get ha] at hle
      rw [heightOf_of_get hc] at hrank hfuel
      rw [forkHeaders_succ hc hon, if_neg (by omega), ih _ (by omega) hqa,
        Finmap.lookup_insert_of_ne _ (by omega)]

theorem forkLookup_of_descends (htree : Tree P genesis hs)
    (hdesc : Descends (parentOf hs) current a) (ha : hs.get a = some s) :
    hs.forkLookup current s.height = some (timeAndBits s) := by
  have hwalk := forkHeaders_lookup htree ∅ (htree.height_lt_fuel current) hdesc ha
  unfold HeaderStore.forkLookup
  rw [hwalk]
  split_ifs with hon
  · rw [Finmap.lookup_empty, Option.none_or, headerAt_of_active htree hon ha]
  · rfl

theorem exists_ancestor (htree : Tree P genesis hs) (hp : hs.get current = some p) {k : ℕ}
    (hk : k ≤ p.height) :
    ∃ a s, Descends (parentOf hs) current a ∧ hs.get a = some s ∧ s.height = k := by
  rw [← heightOf_of_get hp] at hk
  obtain ⟨a, hdesc, hrank⟩ :=
    exists_descends_rank htree.ranked (fun _ => heightOf_of_parentOf_none) hk
  have hmem := htree.descends_mem hdesc (Finmap.mem_of_lookup_eq_some hp)
  obtain ⟨s, hs'⟩ := Finmap.mem_iff.mp hmem
  exact ⟨a, s, hdesc, hs', (heightOf_of_get hs').symm.trans hrank⟩

def expectedBits (P : Primitives) (hs : HeaderStore) (header : BlockHeader) :
    Except HeaderError UInt32 := do
  let parent ← okOr (.orphan (header.blockHash P) header.prevHash) (hs.get header.prevHash)
  let height ← nextHeight parent.height
  (getNextWorkRequired P hs.params height (hs.forkLookup header.prevHash)).mapError .difficulty

/-- Two stores hold the same ancestry of a header. -/
def SameAncestry (hs hs' : HeaderStore) (hash : Hash256) : Prop :=
  ∀ a, Descends (parentOf hs) hash a → hs'.get a = hs.get a

theorem SameAncestry.descends (h : SameAncestry hs hs' current)
    (hdesc : Descends (parentOf hs) current a) : Descends (parentOf hs') current a := by
  induction hdesc with
  | refl => exact Descends.refl _
  | tail hbelow hstep ih =>
    refine ih.trans (Descends.head ?_ (Descends.refl _))
    rw [parentOf, h _ hbelow]
    exact hstep

theorem forkLookup_congr (htree : Tree P genesis hs) (htree' : Tree P genesis' hs')
    (hp : hs.get current = some p) (hsame : SameAncestry hs hs' current) {k : ℕ}
    (hk : k ≤ p.height) : hs'.forkLookup current k = hs.forkLookup current k := by
  obtain ⟨a, s, hdesc, ha, rfl⟩ := exists_ancestor htree hp hk
  rw [forkLookup_of_descends htree hdesc ha,
    forkLookup_of_descends htree' (hsame.descends hdesc) ((hsame a hdesc).trans ha)]

/-- For a stored header the lookup returns its ancestor at every height up to its
own, and the bits expected of a child are the same in every store with the same
ancestry, whatever its active chain is. -/
theorem expectedBits_of_ancestry (htree : Tree P genesis hs) (hp : hs.get current = some p) :
    (∀ k ≤ p.height, ∃ a s, Descends (parentOf hs) current a ∧ hs.get a = some s ∧ s.height = k ∧
      hs.forkLookup current k = some (s.header.timestamp, s.header.bits)) ∧
    ∀ genesis' hs', Tree P genesis' hs' → hs'.params = hs.params → SameAncestry hs hs' current →
      ∀ header : BlockHeader, header.prevHash = current →
        expectedBits P hs' header = expectedBits P hs header := by
  constructor
  · intro k hk
    obtain ⟨a, s, hdesc, ha, rfl⟩ := exists_ancestor htree hp hk
    exact ⟨a, s, hdesc, ha, rfl, forkLookup_of_descends htree hdesc ha⟩
  · rintro genesis' hs' htree' hparams hsame header rfl
    unfold expectedBits
    rw [hparams, hsame _ (Descends.refl _), hp]
    refine bind_congr_of_ok fun parent hparent => bind_congr_of_ok fun height hheight => ?_
    obtain rfl := Except.ok.inj hparent
    obtain ⟨_, rfl⟩ := nextHeight_eq_ok.mp hheight
    rw [getNextWorkRequired_congr P fun k hk =>
      forkLookup_congr htree htree' hp hsame (Nat.le_of_lt_succ hk)]

def arrivals (headers : List BlockHeader) : HeaderStore :=
  run (HeaderOp.apply poly) easyStore (headers.map .acceptHeader)

theorem tree_arrivals (headers : List BlockHeader)
    (hhash : HeaderHashSound poly (headers.map .acceptHeader)) :
    Tree poly easyGenesis (arrivals headers) := by
  refine tree_run (tree_makeFresh _ _ _ _) hhash (along_of_forall fun op hop _ => ?_)
  obtain ⟨header, _, rfl⟩ := List.mem_map.mp hop
  exact trivial

theorem arrivals_params (headers : List BlockHeader) :
    (arrivals headers).params = ConsensusParams.testing := by
  have hops : Along (HeaderOp.apply poly) (fun _ op => ∃ header, op = .acceptHeader header)
      easyStore (headers.map .acceptHeader) := by
    refine along_of_forall fun op hop _ => ?_
    obtain ⟨header, _, rfl⟩ := List.mem_map.mp hop
    exact ⟨header, rfl⟩
  refine run_invariant (fun hs : HeaderStore => hs.params = ConsensusParams.testing) ?_ rfl hops
  rintro hs _ hparams ⟨header, rfl⟩
  have hins : Inserts poly hs (HeaderOp.apply poly hs (.acceptHeader header)) [header] true := by
    refine inserts_getD fun hs' h => ?_
    obtain ⟨r, hr, rfl⟩ := Option.map_eq_some_iff.mp h
    exact acceptHeader_inserts (toOption_eq_some.mp hr)
  rw [hins.params, hparams]

theorem expectedBits_of_arrivals :
    (arrivals [headerA1, headerB1]).activeChain ≠ (arrivals [headerB1, headerA1]).activeChain ∧
    expectedBits poly (arrivals [headerB1, headerA1]) headerB2 =
      expectedBits poly (arrivals [headerA1, headerB1]) headerB2 := by
  refine ⟨by decide +kernel, ?_⟩
  have hstored : (arrivals [headerA1, headerB1]).get headerB2.prevHash =
      some ⟨headerB1, 1, workFromBits 0x1e0ffff0 + workFromBits 0x1e0ffff0⟩ := by decide +kernel
  have hmaps : (arrivals [headerB1, headerA1]).byHash = (arrivals [headerA1, headerB1]).byHash := by
    decide +kernel
  refine (expectedBits_of_ancestry (tree_arrivals _ (by decide +kernel)) hstored).2 easyGenesis _
    (tree_arrivals _ (by decide +kernel)) ?_ (fun a _ => ?_) headerB2 rfl
  · rw [arrivals_params, arrivals_params]
  · exact congrArg (fun m : Map Hash256 StoredHeader => m.lookup a) hmaps

end Ironcat.ForkLookup
