import Ironcat.HeaderPaths
import Ironcat.ForkLookup

/-!
# Fork points

In a tree of headers `find_fork_point` ends at the highest common ancestor of
any two stored headers, within its step limit, and `get_path` lists the headers
above it. These two decide which blocks a reorg undoes and which it connects.
-/

namespace Ironcat.ForkPoints

open Lib.Checked Lib.Forest Types Headers HeaderTree HeaderRuns ForkLookup

variable {P : Primitives} {genesis : BlockHeader} {hs : HeaderStore} {root a b : Hash256}
variable {s sa sb : StoredHeader}

/-- Headers closed under parents, with a single one of height zero. -/
structure ParentClosed (root : Hash256) (hs : HeaderStore) : Prop where
  single : ∀ hash s, hs.get hash = some s → (s.height = 0 ↔ hash = root)
  parent : ∀ hash s, hs.get hash = some s → 0 < s.height →
    ∃ p, hs.get s.header.prevHash = some p ∧ s.height = p.height + 1

theorem parentClosed_of_tree (h : Tree P genesis hs) : ParentClosed (genesis.blockHash P) hs where
  single _ _ hget := h.rooted.height_eq_zero_iff hget
  parent hash s hget hpos := by
    obtain ⟨_, p, hget', hp, hchild⟩ :=
      h.parentOf_get (parentOf_eq_some.mpr ⟨s, hget, hpos, rfl⟩)
    obtain rfl := Option.mem_unique hget hget'
    exact ⟨p, hp, hchild.1⟩

namespace ParentClosed

theorem ranked (h : ParentClosed root hs) : Ranked (parentOf hs) (heightOf hs) := by
  intro a b hab
  obtain ⟨s, hget, hpos, rfl⟩ := parentOf_eq_some.mp hab
  obtain ⟨p, hp, hheight⟩ := h.parent a s hget hpos
  rw [heightOf_of_get hget, heightOf_of_get hp, hheight]

theorem height_lt_fuel (h : ParentClosed root hs) (ha : hs.get a = some s) :
    s.height < hs.fuel := by
  have hmem : a ∈ hs.byHash := Finmap.mem_of_lookup_eq_some ha
  rw [← heightOf_of_get ha]
  refine Nat.lt_succ_of_lt (rank_lt_card h.ranked ?_ ?_ (Finmap.mem_keys.mpr hmem))
  · intro c _ d hcd
    obtain ⟨t, hget, hpos, rfl⟩ := parentOf_eq_some.mp hcd
    obtain ⟨p, hp, _⟩ := h.parent c t hget hpos
    exact Finmap.mem_keys.mpr (Finmap.mem_of_lookup_eq_some hp)
  · exact fun c _ hnone => heightOf_of_parentOf_none hnone

theorem ancestor_ok (h : ParentClosed root hs) {n : ℕ} (ha : hs.get a = some s)
    (hn : n ≤ s.height) : ∃ c t, hs.ancestor n a = .ok c ∧ hs.get c = some t ∧
      t.height + n = s.height ∧ Descends (parentOf hs) a c := by
  induction n generalizing a s with
  | zero => exact ⟨a, s, rfl, ha, rfl, Descends.refl a⟩
  | succ n ih =>
    have hpos : 0 < s.height := by omega
    obtain ⟨p, hp, hheight⟩ := h.parent a s ha hpos
    obtain ⟨c, t, hwalk, hc, hlen, hdesc⟩ := ih hp (by omega)
    refine ⟨c, t, ?_, hc, by omega, Descends.head (parentOf_eq_some.mpr ⟨s, ha, hpos, rfl⟩) hdesc⟩
    exact bind_eq_ok.mpr ⟨s, okOr_eq_ok.mpr ha, hwalk⟩

theorem meet_ok (h : ParentClosed root hs) {n : ℕ} (ha : hs.get a = some sa)
    (hb : hs.get b = some sb) (heq : sa.height = sb.height) (hn : sa.height < n) :
    ∃ m, hs.meet n a b = .ok m ∧ IsMeet (parentOf hs) a b m := by
  induction n generalizing a b sa sb with
  | zero => omega
  | succ n ih =>
    by_cases hab : a = b
    · exact ⟨a, if_pos hab, hab ▸ isMeet_self a⟩
    · have hpos : 0 < sa.height := by
        by_contra hzero
        have hra := (h.single a sa ha).mp (by omega)
        have hrb := (h.single b sb hb).mp (by omega)
        exact hab (hra.trans hrb.symm)
      obtain ⟨p, hp, hpheight⟩ := h.parent a sa ha hpos
      obtain ⟨q, hq, hqheight⟩ := h.parent b sb hb (by omega)
      obtain ⟨m, hmeet, hism⟩ := ih hp hq (by omega) (by omega)
      refine ⟨m, ?_, IsMeet.of_parents h.ranked ?_ hab
        (parentOf_eq_some.mpr ⟨sa, ha, hpos, rfl⟩)
        (parentOf_eq_some.mpr ⟨sb, hb, by omega, rfl⟩) hism⟩
      · refine (if_neg hab).trans ?_
        exact bind_eq_ok.mpr ⟨sa, okOr_eq_ok.mpr ha, bind_eq_ok.mpr ⟨sb, okOr_eq_ok.mpr hb, hmeet⟩⟩
      · rw [heightOf_of_get ha, heightOf_of_get hb, heq]

theorem findForkPoint_ok (h : ParentClosed root hs) (ha : hs.get a = some sa)
    (hb : hs.get b = some sb) :
    ∃ m, hs.findForkPoint a b = .ok m ∧ IsMeet (parentOf hs) a b m := by
  obtain ⟨a', ta, hwalkA, ha', hlenA, hdescA⟩ := h.ancestor_ok ha (Nat.sub_le sa.height sb.height)
  obtain ⟨b', tb, hwalkB, hb', hlenB, hdescB⟩ := h.ancestor_ok hb (Nat.sub_le sb.height sa.height)
  obtain ⟨m, hmeet, hism⟩ := h.meet_ok (n := min sa.height sb.height + 1) ha' hb'
    (by omega) (by omega)
  have hranks : heightOf hs a' = heightOf hs b' ∧
      heightOf hs b' = min (heightOf hs a) (heightOf hs b) := by
    rw [heightOf_of_get ha, heightOf_of_get hb, heightOf_of_get ha', heightOf_of_get hb']
    omega
  refine ⟨m, ?_, ?_⟩
  · refine bind_eq_ok.mpr ⟨sa, okOr_eq_ok.mpr ha, bind_eq_ok.mpr ⟨sb, okOr_eq_ok.mpr hb, ?_⟩⟩
    exact bind_eq_ok.mpr ⟨a', hwalkA, bind_eq_ok.mpr ⟨b', hwalkB, hmeet⟩⟩
  · have hleft : IsMeet (parentOf hs) a b' m := by
      refine hism.of_descends h.ranked hdescA fun c _ hbc => ?_
      exact (hbc.rank_le h.ranked).trans hranks.1.ge
    refine (hleft.symm.of_descends h.ranked hdescB fun c hbc hac => ?_).symm
    rw [hranks.2]
    exact le_min (hac.rank_le h.ranked) (hbc.rank_le h.ranked)

end ParentClosed

/-- The path lists the ancestors of `target` above `fork`, one for each height in
ascending order, and ends in `target`. -/
structure ExactPath (hs : HeaderStore) (fork target : Hash256) (path : List (Hash256 × ℕ)) :
    Prop where
  entries : ∀ hash height, (hash, height) ∈ path ↔ Descends (parentOf hs) target hash ∧
    heightOf hs fork < heightOf hs hash ∧ height = heightOf hs hash
  heights : path.map Prod.snd =
    List.range' (heightOf hs fork + 1) (heightOf hs target - heightOf hs fork)
  last : path.getLast? = if target = fork then none else some (target, heightOf hs target)

theorem exactPath_nil (hrank : Ranked (parentOf hs) (heightOf hs)) (fork : Hash256) :
    ExactPath hs fork fork [] where
  entries hash height := by
    simp only [List.not_mem_nil, false_iff, not_and]
    intro hdesc hlt
    exact absurd (hdesc.rank_le hrank) (not_le.mpr hlt)
  heights := by simp
  last := by simp

variable {fork : Hash256}

theorem ExactPath.concat {target p : Hash256} {path : List (Hash256 × ℕ)}
    (hrank : Ranked (parentOf hs) (heightOf hs)) (hp : parentOf hs target = some p)
    (hdesc : Descends (parentOf hs) p fork) (h : ExactPath hs fork p path) :
    ExactPath hs fork target (path ++ [(target, heightOf hs target)]) := by
  have hstep := hrank target p hp
  have hbelow := hdesc.rank_le hrank
  refine ⟨fun hash height => ?_, ?_, ?_⟩
  · rw [List.mem_append, List.mem_singleton, h.entries, Prod.mk.injEq, descends_iff (a := target)]
    constructor
    · rintro (⟨hd, hlt, rfl⟩ | ⟨rfl, rfl⟩)
      · exact ⟨.inr ⟨p, hp, hd⟩, hlt, rfl⟩
      · exact ⟨.inl rfl, by omega, rfl⟩
    · rintro ⟨rfl | ⟨q, hq, hd⟩, hlt, rfl⟩
      · exact .inr ⟨rfl, rfl⟩
      · obtain rfl := Option.mem_unique hp hq
        exact .inl ⟨hd, hlt, rfl⟩
  · have hlen : heightOf hs target - heightOf hs fork = heightOf hs p - heightOf hs fork + 1 := by
      omega
    rw [List.map_append, h.heights, hlen, List.range'_concat]
    simp only [List.map_cons, List.map_nil, one_mul]
    congr 2
    omega
  · have hne : target ≠ fork := by
      rintro rfl
      omega
    rw [if_neg hne, List.getLast?_concat]

theorem ParentClosed.pathDown_ok (h : ParentClosed root hs) {fuel : ℕ}
    (hdesc : Descends (parentOf hs) a fork) (hfuel : heightOf hs a < fuel) :
    ∃ path, hs.pathDown fork fuel a = .ok path ∧ ExactPath hs fork a path.reverse := by
  induction fuel generalizing a with
  | zero => omega
  | succ fuel ih =>
    rcases descends_iff.mp hdesc with rfl | ⟨p, hp, hpf⟩
    · exact ⟨[], if_pos rfl, exactPath_nil h.ranked a⟩
    · have hstep := h.ranked a p hp
      obtain ⟨path, hpath, hexact⟩ := ih hpf (by omega)
      obtain ⟨s, hget, _, rfl⟩ := parentOf_eq_some.mp hp
      have hne : a ≠ fork := by
        rintro rfl
        have := hpf.rank_le h.ranked
        omega
      refine ⟨(a, s.height) :: path, ?_, ?_⟩
      · refine (if_neg hne).trans ?_
        exact bind_eq_ok.mpr ⟨s, okOr_eq_ok.mpr hget, bind_eq_ok.mpr ⟨path, hpath, rfl⟩⟩
      · rw [List.reverse_cons, ← heightOf_of_get hget]
        exact hexact.concat h.ranked hp hpf

theorem ParentClosed.getPath_ok (h : ParentClosed root hs) (ha : hs.get a = some s)
    (hdesc : Descends (parentOf hs) a fork) :
    ∃ path, hs.getPath fork a = .ok path ∧ ExactPath hs fork a path := by
  have hfuel := h.height_lt_fuel ha
  rw [← heightOf_of_get ha] at hfuel
  obtain ⟨path, hpath, hexact⟩ := h.pathDown_ok hdesc hfuel
  exact ⟨path.reverse, bind_eq_ok.mpr ⟨path, hpath, rfl⟩, hexact⟩

/-- The fork point is the highest common ancestor, and the path from it is exact. -/
theorem forkPoint_exact (h : ParentClosed root hs) (ha : a ∈ hs.byHash) (hb : b ∈ hs.byHash) :
    ∃ fork path, hs.findForkPoint a b = .ok fork ∧ IsMeet (parentOf hs) a b fork ∧
      (∀ c, Descends (parentOf hs) a c → Descends (parentOf hs) b c →
        heightOf hs c ≤ heightOf hs fork) ∧
      hs.getPath fork a = .ok path ∧ ExactPath hs fork a path := by
  obtain ⟨sa, hsa⟩ := Finmap.mem_iff.mp ha
  obtain ⟨sb, hsb⟩ := Finmap.mem_iff.mp hb
  obtain ⟨fork, hfork, hmeet⟩ := h.findForkPoint_ok hsa hsb
  obtain ⟨path, hpath, hexact⟩ := h.getPath_ok hsa hmeet.left
  exact ⟨fork, path, hfork, hmeet, fun c hac hbc => (hmeet.highest c hac hbc).rank_le h.ranked,
    hpath, hexact⟩

theorem forkPoint_exact_genesis : ∃ fork path,
    (arrivals [headerA1, headerB1, headerB2]).findForkPoint (headerB2.blockHash poly)
      (headerA1.blockHash poly) = .ok fork ∧
    fork = easyGenesis.blockHash poly ∧
    (arrivals [headerA1, headerB1, headerB2]).getPath fork (headerB2.blockHash poly) = .ok path ∧
    path = [(headerB1.blockHash poly, 1), (headerB2.blockHash poly, 2)] := by
  obtain ⟨fork, path, hfork, _, _, hpath, _⟩ :=
    forkPoint_exact (parentClosed_of_tree (tree_arrivals [headerA1, headerB1, headerB2]
      (by decide +kernel))) (a := headerB2.blockHash poly)
      (b := headerA1.blockHash poly) (by decide +kernel) (by decide +kernel)
  have hforkEq : fork = easyGenesis.blockHash poly :=
    Except.ok.inj (hfork.symm.trans (by decide +kernel))
  subst hforkEq
  exact ⟨_, path, hfork, rfl, hpath, Except.ok.inj (hpath.symm.trans (by decide +kernel))⟩

end Ironcat.ForkPoints
