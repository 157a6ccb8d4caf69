import Ironcat.Headers
import Ironcat.Lib.Forest
import Ironcat.Lib.Runs

/-!
# The header tree

What every operation of the header store does to its maps: headers are attached
below a stored parent, the active chain is a path from genesis, and a purge
deletes leaves. The invariant `Tree` follows for every run in which a purge
finds only leaves among the fork tips.
-/

namespace Ironcat.HeaderTree

open Lib.Checked Lib.FiniteMap Lib.Forest Types Difficulty Headers

variable {P : Primitives} {genesis : BlockHeader} {hs hs' : HeaderStore}

abbrev HeaderMap := Map Hash256 StoredHeader

/-- No two headers of the set share a hash. -/
def HashInjOn (P : Primitives) (H : Set BlockHeader) : Prop := Set.InjOn (BlockHeader.blockHash P) H

def ChildOf (s p : StoredHeader) : Prop :=
  s.height = p.height + 1 ∧ s.chainwork = p.chainwork + workFromBits s.header.bits

structure Rooted (P : Primitives) (genesis : BlockHeader) (m : HeaderMap) : Prop where
  root : m.lookup (genesis.blockHash P) = some ⟨genesis, 0, workFromBits genesis.bits⟩
  parent : ∀ hash s, m.lookup hash = some s → hash ≠ genesis.blockHash P →
    ∃ p, m.lookup s.header.prevHash = some p ∧ ChildOf s p
  keyed : ∀ hash s, m.lookup hash = some s → s.header.blockHash P = hash
  bounded : ∀ hash s, m.lookup hash = some s → s.height < 2 ^ 32 ∧ s.chainwork < 2 ^ 256

structure Path (genesis : Hash256) (m : HeaderMap) (chain : List Hash256) : Prop where
  first : chain[0]? = some genesis
  linked : ∀ i hash, chain[i + 1]? = some hash →
    ∃ s, m.lookup hash = some s ∧ chain[i]? = some s.header.prevHash ∧ s.height = i + 1

structure Tree (P : Primitives) (genesis : BlockHeader) (hs : HeaderStore) : Prop where
  rooted : Rooted P genesis hs.byHash
  path : Path (genesis.blockHash P) hs.byHash hs.activeChain
  active : hs.activeSet = hs.activeChain.toFinset

structure Trunk (P : Primitives) (genesis : BlockHeader) (hs : HeaderStore) : Prop where
  root : hs.byHash.lookup (genesis.blockHash P) = some ⟨genesis, 0, workFromBits genesis.bits⟩
  keyed : ∀ hash s, hs.byHash.lookup hash = some s → s.header.blockHash P = hash
  path : Path (genesis.blockHash P) hs.byHash hs.activeChain
  active : hs.activeSet = hs.activeChain.toFinset

theorem Tree.trunk (h : Tree P genesis hs) : Trunk P genesis hs :=
  ⟨h.rooted.root, h.rooted.keyed, h.path, h.active⟩

section Maps

variable {m : HeaderMap} {chain : List Hash256} {hash : Hash256} {s : StoredHeader}

theorem Rooted.height_eq_zero_iff (h : Rooted P genesis m) (hs : m.lookup hash = some s) :
    s.height = 0 ↔ hash = genesis.blockHash P := by
  constructor
  · intro hzero
    by_contra hne
    obtain ⟨p, _, hheight, _⟩ := h.parent hash s hs hne
    omega
  · rintro rfl
    rw [h.root, Option.some.injEq] at hs
    simp [← hs]

theorem Rooted.insert (h : Rooted P genesis m) (hfresh : hash ∉ m)
    (hkey : s.header.blockHash P = hash)
    (hparent : ∃ p, m.lookup s.header.prevHash = some p ∧ ChildOf s p)
    (hbound : s.height < 2 ^ 32 ∧ s.chainwork < 2 ^ 256) :
    Rooted P genesis (m.insert hash s) := by
  have hold : ∀ {k v}, m.lookup k = some v → (m.insert hash s).lookup k = some v := by
    intro k v hk
    rw [Finmap.lookup_insert_of_ne _ _, hk]
    rintro rfl
    exact hfresh (Finmap.mem_of_lookup_eq_some hk)
  have hcases : ∀ {k v}, (m.insert hash s).lookup k = some v → k = hash ∧ v = s ∨
      m.lookup k = some v := by
    intro k v hk
    rw [lookup_insert_eq] at hk
    split_ifs at hk with heq
    · exact .inl ⟨heq, (Option.some.inj hk).symm⟩
    · exact .inr hk
  constructor
  · exact hold h.root
  · intro k v hk hne
    rcases hcases hk with ⟨rfl, rfl⟩ | hk
    · obtain ⟨p, hp, hchild⟩ := hparent
      exact ⟨p, hold hp, hchild⟩
    · obtain ⟨p, hp, hchild⟩ := h.parent k v hk hne
      exact ⟨p, hold hp, hchild⟩
  · intro k v hk
    rcases hcases hk with ⟨rfl, rfl⟩ | hk
    · exact hkey
    · exact h.keyed k v hk
  · intro k v hk
    rcases hcases hk with ⟨rfl, rfl⟩ | hk
    · exact hbound
    · exact h.bounded k v hk

theorem Rooted.erase (h : Rooted P genesis m) (hne : hash ≠ genesis.blockHash P)
    (hleaf : ∀ k v, m.lookup k = some v → v.header.prevHash ≠ hash) :
    Rooted P genesis (m.erase hash) := by
  have hold : ∀ {k v}, (m.erase hash).lookup k = some v → m.lookup k = some v := by
    intro k v hk
    rw [lookup_erase_eq] at hk
    split_ifs at hk
    exact hk
  constructor
  · rw [Finmap.lookup_erase_ne hne.symm, h.root]
  · intro k v hk hk0
    obtain ⟨p, hp, hchild⟩ := h.parent k v (hold hk) hk0
    refine ⟨p, ?_, hchild⟩
    rw [Finmap.lookup_erase_ne (hleaf k v (hold hk)), hp]
  · exact fun k v hk => h.keyed k v (hold hk)
  · exact fun k v hk => h.bounded k v (hold hk)

theorem Path.insert (h : Path (genesis.blockHash P) m chain) (hfresh : hash ∉ m) :
    Path (genesis.blockHash P) (m.insert hash s) chain := by
  refine ⟨h.first, fun i k hk => ?_⟩
  obtain ⟨v, hv, hprev, hheight⟩ := h.linked i k hk
  refine ⟨v, ?_, hprev, hheight⟩
  rw [Finmap.lookup_insert_of_ne, hv]
  rintro rfl
  exact hfresh (Finmap.mem_of_lookup_eq_some hv)

theorem Path.erase (h : Path (genesis.blockHash P) m chain) (hnot : hash ∉ chain) :
    Path (genesis.blockHash P) (m.erase hash) chain := by
  refine ⟨h.first, fun i k hk => ?_⟩
  obtain ⟨v, hv, hprev, hheight⟩ := h.linked i k hk
  refine ⟨v, ?_, hprev, hheight⟩
  rw [Finmap.lookup_erase_ne, hv]
  rintro rfl
  exact hnot (List.mem_of_getElem? hk)

theorem Path.concat {g : Hash256} (h : Path g m chain) (hs : m.lookup hash = some s)
    (hlast : chain.getLast? = some s.header.prevHash) (hheight : s.height = chain.length) :
    Path g m (chain ++ [hash]) := by
  have hpos : 0 < chain.length := by
    cases chain with
    | nil => simp at hlast
    | cons => simp
  constructor
  · rw [List.getElem?_append_left hpos, h.first]
  · intro i k hk
    by_cases hi : i + 1 < chain.length
    · rw [List.getElem?_append_left hi] at hk
      rw [List.getElem?_append_left (by omega)]
      exact h.linked i k hk
    · have heq : i + 1 = chain.length := by
        have := (List.getElem?_eq_some_iff.mp hk).1
        simp only [List.length_append, List.length_singleton] at this
        omega
      rw [heq, List.getElem?_concat_length, Option.some.injEq] at hk
      subst hk
      refine ⟨s, hs, ?_, by omega⟩
      rw [List.getElem?_append_left (by omega), ← hlast, List.getLast?_eq_getElem?, ← heq]
      rfl

theorem Path.lookup (h : Path (genesis.blockHash P) m chain)
    (hroot : m.lookup (genesis.blockHash P) = some ⟨genesis, 0, workFromBits genesis.bits⟩) {i : ℕ}
    (hi : chain[i]? = some hash) : ∃ s, m.lookup hash = some s ∧ s.height = i := by
  cases i with
  | zero =>
    rw [h.first, Option.some.injEq] at hi
    exact hi ▸ ⟨_, hroot, rfl⟩
  | succ i =>
    obtain ⟨s, hs, _, hheight⟩ := h.linked i hash hi
    exact ⟨s, hs, hheight⟩

theorem Path.getLast (h : Path (genesis.blockHash P) m chain)
    (hroot : m.lookup (genesis.blockHash P) = some ⟨genesis, 0, workFromBits genesis.bits⟩) :
    ∃ tip s, chain.getLast? = some tip ∧ m.lookup tip = some s ∧ s.height + 1 = chain.length := by
  have hpos : 0 < chain.length := (List.getElem?_eq_some_iff.mp h.first).1
  have hlast : chain[chain.length - 1]? = some (chain.get ⟨chain.length - 1, by omega⟩) := by simp
  obtain ⟨s, hs, hheight⟩ := h.lookup hroot hlast
  refine ⟨_, s, ?_, hs, by omega⟩
  rw [List.getLast?_eq_getElem?, hlast]

end Maps

def attach (hs : HeaderStore) (hash : Hash256) (s : StoredHeader) (extend : Bool) : HeaderStore :=
  { hs with
    tips := insertTip hash (removeTip s.header.prevHash hs.tips)
    byHash := hs.byHash.insert hash s
    activeChain := if extend then hs.activeChain ++ [hash] else hs.activeChain
    activeSet := if extend then insert hash hs.activeSet else hs.activeSet
    bestKnownTip := if hs.bestKnownTip.2 < s.chainwork then (hash, s.chainwork) else hs.bestKnownTip }

structure Attachable (P : Primitives) (hs : HeaderStore) (hash : Hash256) (s : StoredHeader)
    (extend : Bool) : Prop where
  fresh : hash ∉ hs.byHash
  keyed : s.header.blockHash P = hash
  parent : ∃ p, hs.get s.header.prevHash = some p ∧ ChildOf s p
  bounded : s.height < 2 ^ 32 ∧ s.chainwork < 2 ^ 256
  onTip : extend = true → hs.activeChain.getLast? = some s.header.prevHash
  offTip : extend = false → s.header.prevHash ∉ hs.invalidTips

theorem Trunk.attach {hash : Hash256} {s : StoredHeader} {extend : Bool} (h : Trunk P genesis hs)
    (ha : Attachable P hs hash s extend) : Trunk P genesis (attach hs hash s extend) := by
  have hpath := h.path.insert (s := s) ha.fresh
  refine ⟨?_, fun k v hk => ?_, ?_, ?_⟩
  · change (hs.byHash.insert hash s).lookup _ = _
    rw [Finmap.lookup_insert_of_ne, h.root]
    rintro rfl
    exact ha.fresh (Finmap.mem_of_lookup_eq_some h.root)
  · change (hs.byHash.insert hash s).lookup k = some v at hk
    rw [lookup_insert_eq] at hk
    split_ifs at hk with heq
    · rw [heq, ← Option.some.inj hk, ha.keyed]
    · exact h.keyed k v hk
  · cases extend with
    | false => exact hpath
    | true =>
      obtain ⟨p, hp, hheight, _⟩ := ha.parent
      obtain ⟨tip, st, htip, hst, hlen⟩ := h.path.getLast h.root
      have hlast := ha.onTip rfl
      rw [htip, Option.some.injEq] at hlast
      subst hlast
      obtain rfl := Option.mem_unique hst hp
      exact hpath.concat (Finmap.lookup_insert _) (ha.onTip rfl) (by omega)
  · cases extend with
    | false => exact h.active
    | true =>
      change insert hash hs.activeSet = (hs.activeChain ++ [hash]).toFinset
      rw [h.active, List.toFinset_append, Finset.union_comm]
      rfl

theorem Tree.attach {hash : Hash256} {s : StoredHeader} {extend : Bool} (h : Tree P genesis hs)
    (ha : Attachable P hs hash s extend) : Tree P genesis (attach hs hash s extend) :=
  ⟨h.rooted.insert ha.fresh ha.keyed ha.parent ha.bounded, (h.trunk.attach ha).path,
    (h.trunk.attach ha).active⟩

inductive Attached (P : Primitives) (hs : HeaderStore) :
    List (Hash256 × StoredHeader) → HeaderStore → Prop
  | nil : Attached P hs [] hs
  | snoc {es hs' hash s extend} : Attached P hs es hs' → Attachable P hs' hash s extend →
      Attached P hs (es ++ [(hash, s)]) (attach hs' hash s extend)

variable {es : List (Hash256 × StoredHeader)}

theorem Attached.tree (h : Attached P hs es hs') (htree : Tree P genesis hs) :
    Tree P genesis hs' := by
  induction h with
  | nil => exact htree
  | snoc _ ha ih => exact ih.attach ha

theorem Attached.trunk (h : Attached P hs es hs') (htrunk : Trunk P genesis hs) :
    Trunk P genesis hs' := by
  induction h with
  | nil => exact htrunk
  | snoc _ ha ih => exact ih.attach ha

def persistAll (be : Backend) (es : List (Hash256 × StoredHeader)) : Backend :=
  es.foldl (fun be e => be.persistHeader e.1 e.2) be

def Inserts (P : Primitives) (hs hs' : HeaderStore) (headers : List BlockHeader)
    (persisted : Bool) : Prop :=
  ∃ es T, Attached P hs es T ∧ (∀ e ∈ es, e.2.header ∈ headers) ∧
    hs' = { T with backend :=
      if persisted then hs.backend.map fun be => persistAll be es else hs.backend }

theorem Inserts.refl (headers : List BlockHeader) (persisted : Bool) :
    Inserts P hs hs headers persisted := by
  refine ⟨[], hs, .nil, by simp, ?_⟩
  have hid : (fun be => persistAll be []) = (id : Backend → Backend) := rfl
  cases persisted <;> simp [hid]

variable {persisted : Bool}

theorem Inserts.invariant {headers : List BlockHeader} (I : HeaderStore → Prop)
    (hbackend : ∀ hs be, I hs → I { hs with backend := be })
    (hstep : ∀ hs hash s extend, Attachable P hs hash s extend → s.header ∈ headers → I hs →
      I (attach hs hash s extend)) (h : Inserts P hs hs' headers persisted) (hs₀ : I hs) :
    I hs' := by
  obtain ⟨es, T, hatt, hmem, rfl⟩ := h
  apply hbackend
  clear hbackend
  induction hatt with
  | nil => exact hs₀
  | snoc _ ha ih =>
    rw [List.forall_mem_append] at hmem
    exact hstep _ _ _ _ ha (hmem.2 _ (List.mem_singleton_self _)) (ih hmem.1)

theorem Tree.inserts {headers : List BlockHeader} (h : Tree P genesis hs)
    (hins : Inserts P hs hs' headers persisted) : Tree P genesis hs' :=
  hins.invariant (Tree P genesis) (fun _ _ h => ⟨h.rooted, h.path, h.active⟩)
    (fun _ _ _ _ ha _ h => h.attach ha) h

theorem Inserts.params {headers : List BlockHeader} (hins : Inserts P hs hs' headers persisted) :
    hs'.params = hs.params :=
  hins.invariant (fun T => T.params = hs.params) (fun _ _ h => h) (fun _ _ _ _ _ _ h => h) rfl

theorem Trunk.tip_eq (h : Trunk P genesis hs) :
    ∃ s, hs.activeChain.getLast? = some hs.tip.1 ∧ hs.get hs.tip.1 = some s ∧ s.height = hs.tip.2 := by
  obtain ⟨tip, s, htip, hget, hlen⟩ := h.path.getLast h.root
  have htip' : hs.tip.1 = tip := by
    change hs.activeChain.getLastD 0 = tip
    rw [List.getLastD_eq_getLast?, htip]
    rfl
  refine ⟨s, htip'.symm ▸ htip, htip'.symm ▸ hget, ?_⟩
  change s.height = hs.activeChain.length - 1
  omega

theorem Tree.tip_eq (h : Tree P genesis hs) :
    ∃ s, hs.activeChain.getLast? = some hs.tip.1 ∧ hs.get hs.tip.1 = some s ∧ s.height = hs.tip.2 :=
  h.trunk.tip_eq

theorem nextHeight_eq_ok {height n : ℕ} :
    nextHeight height = .ok n ↔ height + 1 < 2 ^ 32 ∧ n = height + 1 := by
  simp only [nextHeight, bind_eq_ok, ensure_eq_ok, pure_eq_ok]
  grind

theorem addWork_eq_ok {parent n : ℕ} {bits : UInt32} :
    addWork parent bits = .ok n ↔
      parent + workFromBits bits < 2 ^ 256 ∧ n = parent + workFromBits bits := by
  simp only [addWork, bind_eq_ok, ensure_eq_ok, pure_eq_ok]
  grind

theorem validateChainsToTip_eq_ok {hash : Hash256} {header : BlockHeader} {tip : Hash256 × ℕ}
    {n : ℕ} : hs.validateChainsToTip hash header tip = .ok n ↔
      header.prevHash = tip.1 ∧ tip.2 + 1 < 2 ^ 32 ∧ n = tip.2 + 1 := by
  simp only [HeaderStore.validateChainsToTip, bind_eq_ok, ensure_eq_ok, nextHeight_eq_ok]
  grind

theorem addHeader_attaches {header : BlockHeader} (htrunk : Trunk P genesis hs)
    (h : hs.addHeader P header = .ok hs') : ∃ s : StoredHeader, s.header = header ∧
      Attachable P hs (header.blockHash P) s true ∧
      hs' = { attach hs (header.blockHash P) s true with
        backend := hs.backend.map fun be => be.persistHeader (header.blockHash P) s } := by
  obtain ⟨p, hlast, hp, hheight⟩ := htrunk.tip_eq
  simp only [HeaderStore.addHeader, bind_eq_ok, ensure_eq_ok, pure_eq_ok] at h
  obtain ⟨_, hfresh, height, hchains, _, _, _, _, chainwork, hwork, rfl⟩ := h
  obtain ⟨hprev, hbound, rfl⟩ := validateChainsToTip_eq_ok.mp hchains
  rw [hp] at hwork
  obtain ⟨hbound', rfl⟩ := addWork_eq_ok.mp hwork
  refine ⟨⟨header, hs.tip.2 + 1, p.chainwork + workFromBits header.bits⟩, rfl, ?_, ?_⟩
  · refine ⟨hfresh, rfl, ⟨p, ?_, ?_, rfl⟩, ⟨hbound, hbound'⟩, fun _ => ?_, by simp⟩
    · exact hprev.symm ▸ hp
    · rw [hheight]
    · exact hprev.symm ▸ hlast
  · rfl

theorem addHeader_inserts {header : BlockHeader} (htrunk : Trunk P genesis hs)
    (h : hs.addHeader P header = .ok hs') : Inserts P hs hs' [header] true := by
  obtain ⟨s, hs', hatt, rfl⟩ := addHeader_attaches htrunk h
  exact ⟨[(header.blockHash P, s)], _, .snoc .nil hatt, by simp [hs'], rfl⟩

/-- The header that `accept_header` stores below `p`. -/
def storedBelow (p : StoredHeader) (header : BlockHeader) : StoredHeader :=
  ⟨header, p.height + 1, p.chainwork + workFromBits header.bits⟩

variable {r : HeaderStore.AcceptResult}

theorem acceptHeader_eq_ok {header : BlockHeader} (h : hs.acceptHeader P header = .ok (hs', r)) :
    (header.blockHash P ∈ hs.byHash ∧ hs' = hs ∧ r = .alreadyKnown) ∨
    (header.prevHash ∉ hs.invalidTips ∧ ∃ p extend, hs.get header.prevHash = some p ∧
      Attachable P hs (header.blockHash P) (storedBelow p header) extend ∧
      (extend = true → hs.bestKnownTip.2 < (storedBelow p header).chainwork) ∧
      hs' = { attach hs (header.blockHash P) (storedBelow p header) extend with
        backend := hs.backend.map fun be =>
          be.persistHeader (header.blockHash P) (storedBelow p header) }) := by
  by_cases hmem : header.blockHash P ∈ hs.byHash
  · simp only [HeaderStore.acceptHeader, hmem, if_true, pure_eq_ok, Prod.mk.injEq] at h
    exact .inl ⟨hmem, h.1.symm, h.2.symm⟩
  · simp only [HeaderStore.acceptHeader, hmem, if_false, bind_eq_ok, ensure_eq_ok, okOr_eq_ok] at h
    obtain ⟨_, hvalid, p, hp, height, hheight, chainwork, hwork, _, _, _, _, h⟩ := h
    obtain ⟨hbound, rfl⟩ := nextHeight_eq_ok.mp hheight
    obtain ⟨hbound', rfl⟩ := addWork_eq_ok.mp hwork
    have hatt : ∀ extend, (extend = true → hs.activeChain.getLast? = some header.prevHash) →
        Attachable P hs (header.blockHash P) (storedBelow p header) extend :=
      fun extend honTip => ⟨hmem, rfl, ⟨p, hp, rfl, rfl⟩, ⟨hbound, hbound'⟩, honTip, fun _ => hvalid⟩
    refine .inr ⟨hvalid, p, ?_⟩
    by_cases hbest : hs.bestKnownTip.2 < p.chainwork + workFromBits header.bits
    · by_cases hlast : hs.activeChain.getLast? = some header.prevHash
      · simp only [hbest, hlast, if_true, ne_eq, not_true_eq_false, if_false, pure_eq_ok,
          Prod.mk.injEq] at h
        refine ⟨true, hp, hatt true fun _ => hlast, fun _ => hbest, ?_⟩
        simp [← h.1, attach, HeaderStore.insertHeader, HeaderStore.persist, storedBelow, hbest]
      · simp only [hbest, hlast, if_true, ne_eq, not_false_eq_true, pure_eq_ok,
          Prod.mk.injEq] at h
        refine ⟨false, hp, hatt false (by simp), by simp, ?_⟩
        simp [← h.1, attach, HeaderStore.insertHeader, HeaderStore.persist, storedBelow, hbest]
    · simp only [hbest, if_false, pure_eq_ok, Prod.mk.injEq] at h
      refine ⟨false, hp, hatt false (by simp), by simp, ?_⟩
      simp [← h.1, attach, HeaderStore.insertHeader, HeaderStore.persist, storedBelow, hbest]

theorem acceptHeader_inserts {header : BlockHeader} (h : hs.acceptHeader P header = .ok (hs', r)) :
    Inserts P hs hs' [header] true := by
  obtain ⟨_, rfl, _⟩ | ⟨_, p, extend, hp, hatt, _, rfl⟩ := acceptHeader_eq_ok h
  · exact Inserts.refl _ _
  · exact ⟨[(header.blockHash P, storedBelow p header)], _, .snoc .nil hatt, by simp [storedBelow],
      rfl⟩

@[simp] theorem commitAll_concat (hs : HeaderStore) (es : List (Hash256 × StoredHeader))
    (e : Hash256 × StoredHeader) :
    hs.commitAll (es ++ [e]) = (hs.commitAll es).commitToMemory e.1 e.2 := by
  simp [HeaderStore.commitAll]

theorem get_commitAll (hs : HeaderStore) (es : List (Hash256 × StoredHeader)) (hash : Hash256) :
    (hs.commitAll es).get hash =
      ((es.reverse.find? fun e => e.1 = hash).map Prod.snd).or (hs.get hash) := by
  induction es using List.reverseRecOn with
  | nil => rfl
  | append_singleton es e ih =>
    rw [commitAll_concat, List.reverse_append, List.reverse_singleton, List.singleton_append,
      List.find?_cons]
    change ((hs.commitAll es).byHash.insert e.1 e.2).lookup hash = _
    rw [lookup_insert_eq]
    by_cases heq : e.1 = hash
    · simp [heq]
    · have hne : hash ≠ e.1 := fun h => heq h.symm
      simp only [heq, hne, if_false, decide_false]
      exact ih

/-- The loop invariant of `validate_batch`. -/
structure BatchInv (P : Primitives) (hs : HeaderStore) (headers : List BlockHeader)
    (st : HeaderStore.BatchState) : Prop where
  attached : Attached P hs st.validated (hs.commitAll st.validated)
  tip : (hs.commitAll st.validated).tip = st.shadowTip
  fresh : ∀ e ∈ st.validated, e.1 ∉ hs.byHash
  header_mem : ∀ e ∈ st.validated, e.2.header ∈ headers
  active : ∀ e ∈ st.validated, e.1 ∈ (hs.commitAll st.validated).activeChain

section Batch

variable {headers : List BlockHeader} {st st' : HeaderStore.BatchState} {header : BlockHeader}
  {s p : StoredHeader}

theorem BatchInv.batchParentWork_eq (h : BatchInv P hs headers st) {hash : Hash256}
    (hp : (hs.commitAll st.validated).get hash = some p) :
    hs.batchParentWork st.validated hash = p.chainwork := by
  rw [get_commitAll] at hp
  unfold HeaderStore.batchParentWork
  cases hfind : st.validated.reverse.find? fun e => e.1 = hash with
  | none =>
    simp only [hfind, Option.map_none, Option.none_or] at hp
    simp [hp]
  | some e =>
    simp only [hfind, Option.map_some, Option.some_or, Option.some.injEq] at hp
    have hkey : e.1 = hash := by simpa using List.find?_some hfind
    have hmem : e ∈ st.validated := List.mem_reverse.mp (List.mem_of_find?_eq_some hfind)
    have hnone : hs.get hash = none := Finmap.lookup_eq_none.mpr (hkey ▸ h.fresh e hmem)
    simp [hnone, hp]

section

variable (h : BatchInv P hs headers st) (htrunk : Trunk P genesis hs)
variable (hinj : HashInjOn P {h | h ∈ headers}) (hmem : header ∈ headers)
include h htrunk hinj hmem

theorem BatchInv.hash_notMem (hfresh : header.blockHash P ∉ hs.byHash)
    (hprev : header.prevHash = (hs.commitAll st.validated).tip.1) :
    header.blockHash P ∉ (hs.commitAll st.validated).byHash := by
  intro hstored
  have hT := h.attached.trunk htrunk
  obtain ⟨s, hs'⟩ := Finmap.mem_iff.mp hstored
  have hget := get_commitAll hs st.validated (header.blockHash P)
  rw [show (hs.commitAll st.validated).get _ = some s from hs',
    show hs.get _ = none from Finmap.lookup_eq_none.mpr hfresh, Option.or_none] at hget
  obtain ⟨e, hfind, rfl⟩ := Option.map_eq_some_iff.mp hget.symm
  have hkey : e.1 = header.blockHash P := by simpa using List.find?_some hfind
  have he : e ∈ st.validated := List.mem_reverse.mp (List.mem_of_find?_eq_some hfind)
  have heq : e.2.header = header := hinj (h.header_mem e he) hmem (hT.keyed _ _ hs')
  obtain ⟨i, hi⟩ := List.mem_iff_getElem?.mp (h.active e he)
  have hlt := (List.getElem?_eq_some_iff.mp hi).1
  have hpos : i ≠ 0 := by
    rintro rfl
    rw [hT.path.first, Option.some.injEq, hkey] at hi
    exact hfresh (hi ▸ Finmap.mem_of_lookup_eq_some htrunk.root)
  obtain ⟨j, rfl⟩ := Nat.exists_eq_succ_of_ne_zero hpos
  obtain ⟨s', hs'', hbelow, _⟩ := hT.path.linked j _ hi
  rw [hkey, hs', Option.some.injEq] at hs''
  subst hs''
  rw [heq, hprev] at hbelow
  obtain ⟨p, hp, hpheight⟩ := hT.path.lookup hT.root hbelow
  obtain ⟨t, _, ht, htheight⟩ := hT.tip_eq
  have hpt : p = t := Option.mem_unique hp ht
  have htip : (hs.commitAll st.validated).tip.2 = (hs.commitAll st.validated).activeChain.length - 1 :=
    rfl
  subst hpt
  omega

theorem BatchInv.step (hstep : hs.validateStep P st header = .ok st') :
    BatchInv P hs headers st' := by
  by_cases hfresh : header.blockHash P ∈ hs.byHash
  · simp only [HeaderStore.validateStep, hfresh, if_true, pure_eq_ok] at hstep
    exact hstep ▸ h
  · simp only [HeaderStore.validateStep, hfresh, if_false, bind_eq_ok, pure_eq_ok] at hstep
    obtain ⟨height, hchains, _, _, _, _, chainwork, hwork, rfl⟩ := hstep
    obtain ⟨hprev, hbound, rfl⟩ := validateChainsToTip_eq_ok.mp hchains
    obtain ⟨p, hlast, hp, hheight⟩ := (h.attached.trunk htrunk).tip_eq
    rw [h.tip] at hlast hp hheight
    rw [← hprev] at hlast hp
    rw [h.batchParentWork_eq hp] at hwork
    obtain ⟨hbound', rfl⟩ := addWork_eq_ok.mp hwork
    have hatt : Attachable P (hs.commitAll st.validated) (header.blockHash P)
        ⟨header, st.shadowTip.2 + 1, p.chainwork + workFromBits header.bits⟩ true :=
      ⟨h.hash_notMem htrunk hinj hmem hfresh (h.tip ▸ hprev), rfl,
        ⟨p, hp, by rw [hheight], rfl⟩, ⟨hbound, hbound'⟩, fun _ => hlast, by simp⟩
    refine ⟨?_, ?_, ?_, ?_, ?_⟩
    · rw [commitAll_concat]
      exact .snoc h.attached hatt
    · rw [commitAll_concat]
      have hpos : 0 < (hs.commitAll st.validated).activeChain.length :=
        List.length_pos_of_mem (List.mem_of_getLast? hlast)
      have hlen : (hs.commitAll st.validated).activeChain.length - 1 = st.shadowTip.2 :=
        congrArg Prod.snd h.tip
      simp only [HeaderStore.tip, HeaderStore.height, HeaderStore.commitToMemory,
        List.length_append, List.length_singleton, Prod.mk.injEq]
      exact ⟨by simp, by omega⟩
    · simpa [or_imp, forall_and] using ⟨fun a b => h.fresh (a, b), hfresh⟩
    · simpa [or_imp, forall_and] using ⟨fun a b => h.header_mem (a, b), hmem⟩
    · rw [commitAll_concat]
      intro e he
      rcases List.mem_append.mp he with he | he
      · exact List.mem_append_left _ (h.active e he)
      · rw [List.mem_singleton.mp he]
        exact List.mem_append_right _ (List.mem_singleton_self _)

end

theorem validateBatch_attached {batch : List (Hash256 × StoredHeader)} (htrunk : Trunk P genesis hs)
    (hinj : HashInjOn P {h | h ∈ headers})
    (h : hs.validateBatch P headers = .ok batch) :
    Attached P hs batch (hs.commitAll batch) ∧ ∀ e ∈ batch, e.2.header ∈ headers := by
  simp only [HeaderStore.validateBatch, bind_eq_ok, pure_eq_ok] at h
  obtain ⟨_, _, st, hfold, _, _, rfl⟩ := h
  have hstart : BatchInv P hs headers ⟨[], hs.tip⟩ := ⟨.nil, rfl, by simp, by simp, by simp⟩
  have hinv := foldlM_invariant (BatchInv P hs headers)
    (fun header hmem st st' h hstep => h.step htrunk hinj hmem hstep) hstart hfold
  exact ⟨hinv.attached, hinv.header_mem⟩

end Batch

theorem commitAll_backend (hs : HeaderStore) (be : Option Backend)
    (es : List (Hash256 × StoredHeader)) :
    ({ hs with backend := be } : HeaderStore).commitAll es =
      { hs.commitAll es with backend := be } := by
  induction es generalizing hs with
  | nil => rfl
  | cons e es ih => exact ih (hs.commitToMemory e.1 e.2)

theorem persistBatch_eq (hs : HeaderStore) (es : List (Hash256 × StoredHeader)) :
    hs.persistBatch es = { hs with backend := hs.backend.map fun be => persistAll be es } := by
  induction es generalizing hs with
  | nil =>
    have hid : (fun be => persistAll be []) = (id : Backend → Backend) := rfl
    simp [HeaderStore.persistBatch, hid]
  | cons e es ih =>
    change (hs.persist e.1 e.2).persistBatch es = _
    rw [ih]
    simp [HeaderStore.persist, persistAll, Function.comp_def]

theorem addHeaders_inserts {headers : List BlockHeader} (htrunk : Trunk P genesis hs)
    (hinj : HashInjOn P {h | h ∈ headers})
    (h : hs.addHeaders P headers = .ok hs') : Inserts P hs hs' headers true := by
  simp only [HeaderStore.addHeaders, bind_eq_ok, pure_eq_ok] at h
  obtain ⟨batch, hbatch, rfl⟩ := h
  obtain ⟨hatt, hmem⟩ := validateBatch_attached htrunk hinj hbatch
  refine ⟨batch, _, hatt, hmem, ?_⟩
  rw [persistBatch_eq, commitAll_backend]
  rfl

theorem validateAndCommit_inserts {headers : List BlockHeader} {batch : List (Hash256 × StoredHeader)}
    (htrunk : Trunk P genesis hs)
    (hinj : HashInjOn P {h | h ∈ headers})
    (h : hs.validateAndCommit P headers = .ok (hs', batch)) : Inserts P hs hs' headers false := by
  simp only [HeaderStore.validateAndCommit, bind_eq_ok, pure_eq_ok, Prod.mk.injEq] at h
  obtain ⟨_, hbatch, rfl, rfl⟩ := h
  obtain ⟨hatt, hmem⟩ := validateBatch_attached htrunk hinj hbatch
  refine ⟨_, _, hatt, hmem, ?_⟩
  have h := commitAll_backend hs hs.backend
  exact h _

/-- The parent link that every walk follows. -/
def parentOf (hs : HeaderStore) (hash : Hash256) : Option Hash256 :=
  match hs.get hash with
  | some s => if 0 < s.height then some s.header.prevHash else none
  | none => none

def heightOf (hs : HeaderStore) (hash : Hash256) : ℕ :=
  ((hs.get hash).map StoredHeader.height).getD 0

theorem parentOf_eq_some {a b : Hash256} :
    parentOf hs a = some b ↔ ∃ s, hs.get a = some s ∧ 0 < s.height ∧ s.header.prevHash = b := by
  unfold parentOf
  cases hs.get a <;> simp

theorem Tree.parentOf_get {a b : Hash256} (h : Tree P genesis hs) (hab : parentOf hs a = some b) :
    ∃ s p, hs.get a = some s ∧ hs.get b = some p ∧ ChildOf s p := by
  obtain ⟨s, hs, hpos, rfl⟩ := parentOf_eq_some.mp hab
  have hne : a ≠ genesis.blockHash P := by
    intro heq
    have := (h.rooted.height_eq_zero_iff hs).mpr heq
    omega
  obtain ⟨p, hp, hchild⟩ := h.rooted.parent a s hs hne
  exact ⟨s, p, hs, hp, hchild⟩

theorem Tree.descends_mem {a b : Hash256} (h : Tree P genesis hs)
    (hab : Descends (parentOf hs) a b) (ha : a ∈ hs.byHash) : b ∈ hs.byHash := by
  induction hab with
  | refl => exact ha
  | tail _ hstep _ =>
    obtain ⟨_, p, _, hp, _⟩ := h.parentOf_get hstep
    exact Finmap.mem_of_lookup_eq_some hp

theorem Tree.ranked (h : Tree P genesis hs) : Ranked (parentOf hs) (heightOf hs) := by
  intro a b hab
  obtain ⟨s, p, hs, hp, hchild⟩ := h.parentOf_get hab
  simp [heightOf, hs, hp, hchild.1]

theorem Tree.height_lt_fuel (h : Tree P genesis hs) (hash : Hash256) :
    heightOf hs hash < hs.fuel := by
  by_cases hmem : hash ∈ hs.byHash
  · refine Nat.lt_succ_of_lt (rank_lt_card h.ranked ?_ ?_ (Finmap.mem_keys.mpr hmem))
    · intro a _ b hab
      obtain ⟨_, p, _, hp, _⟩ := h.parentOf_get hab
      exact Finmap.mem_keys.mpr (Finmap.mem_of_lookup_eq_some hp)
    · intro a ha hnone
      obtain ⟨s, hlookup⟩ := Finmap.mem_iff.mp (Finmap.mem_keys.mp ha)
      have hget : hs.get a = some s := hlookup
      simpa [parentOf, heightOf, hget] using hnone
  · have hnone : hs.get hash = none := Finmap.lookup_eq_none.mpr hmem
    simp [heightOf, hnone, HeaderStore.fuel]

theorem descendsFrom_eq_reaches (hs : HeaderStore) (anc : Hash256) (fuel : ℕ) (hash : Hash256) :
    hs.descendsFrom anc fuel hash = reaches (parentOf hs) anc fuel hash := by
  induction fuel generalizing hash with
  | zero => rfl
  | succ fuel ih =>
    simp only [HeaderStore.descendsFrom, reaches, parentOf]
    cases hs.get hash with
    | none => simp
    | some s =>
      by_cases hpos : 0 < s.height
      · simp [hpos, ih]
      · simp [hpos]

theorem Tree.descendsFrom_iff (h : Tree P genesis hs) {anc hash : Hash256} :
    hs.descendsFrom anc hs.fuel hash = true ↔ Descends (parentOf hs) hash anc := by
  rw [descendsFrom_eq_reaches]
  exact reaches_iff h.ranked (h.height_lt_fuel hash)

theorem Tree.chainDown_path (h : Tree P genesis hs) {hash : Hash256} {s : StoredHeader} {fuel : ℕ}
    (hs' : hs.byHash.lookup hash = some s) (hfuel : s.height < fuel) :
    ∃ chain, chainDown hs.byHash fuel hash = .ok chain ∧ chain.head? = some hash ∧
      chain.length = s.height + 1 ∧ Path (genesis.blockHash P) hs.byHash chain.reverse := by
  induction fuel generalizing hash s with
  | zero => omega
  | succ fuel ih =>
    by_cases hzero : s.height = 0
    · obtain rfl := (h.rooted.height_eq_zero_iff hs').mp hzero
      refine ⟨[genesis.blockHash P], ?_, rfl, by simp [hzero], ?_⟩
      · simp [chainDown, hs', okOr, hzero, pure, Except.pure, bind, Except.bind]
      · exact ⟨rfl, by simp⟩
    · have hne : hash ≠ genesis.blockHash P := fun heq =>
        hzero ((h.rooted.height_eq_zero_iff hs').mpr heq)
      obtain ⟨p, hp, hheight, _⟩ := h.rooted.parent hash s hs' hne
      obtain ⟨chain, hchain, hhead, hlen, hpath⟩ := ih hp (by omega)
      refine ⟨hash :: chain, ?_, rfl, by simp [hlen, hheight], ?_⟩
      · simp [chainDown, hs', okOr, hzero, hchain, pure, Except.pure, bind,
          Except.bind]
      · rw [List.reverse_cons]
        refine hpath.concat hs' ?_ ?_
        · rw [List.getLast?_reverse, hhead]
        · rw [List.length_reverse, hlen, hheight]

theorem Tree.chainwork_le {a b : Hash256} {s p : StoredHeader} (h : Tree P genesis hs)
    (hab : Descends (parentOf hs) a b) (ha : hs.get a = some s) (hb : hs.get b = some p) :
    p.chainwork ≤ s.chainwork := by
  have hle := hab.le_of_monotone (f := fun k => ((hs.get k).map StoredHeader.chainwork).getD 0) <| by
    intro x y hxy
    obtain ⟨s, p, hs, hp, _, hwork⟩ := h.parentOf_get hxy
    simp [hs, hp, hwork]
  simpa [ha, hb] using hle

section Active

variable {a b : Hash256} {s : StoredHeader}

theorem heightOf_of_get (hget : hs.get a = some s) : heightOf hs a = s.height := by
  simp [heightOf, hget]

theorem heightOf_of_parentOf_none (h : parentOf hs a = none) : heightOf hs a = 0 := by
  cases hget : hs.get a with
  | none => simp [heightOf, hget]
  | some s => simpa [parentOf, heightOf, hget] using h

theorem Tree.activeChain_of_mem (htree : Tree P genesis hs) (hmem : a ∈ hs.activeSet)
    (hget : hs.get a = some s) : hs.activeChain[s.height]? = some a := by
  rw [htree.active, List.mem_toFinset] at hmem
  obtain ⟨i, hi⟩ := List.mem_iff_getElem?.mp hmem
  obtain ⟨s', hs', rfl⟩ := htree.path.lookup htree.rooted.root hi
  obtain rfl := Option.mem_unique hget hs'
  exact hi

theorem Tree.parentOf_active (htree : Tree P genesis hs) (hmem : a ∈ hs.activeSet)
    (hab : parentOf hs a = some b) : b ∈ hs.activeSet := by
  obtain ⟨s, hget, hpos, rfl⟩ := parentOf_eq_some.mp hab
  have hi := htree.activeChain_of_mem hmem hget
  obtain ⟨i, hsucc⟩ : ∃ i, s.height = i + 1 := ⟨s.height - 1, by omega⟩
  rw [hsucc] at hi
  obtain ⟨s', hs', hprev, _⟩ := htree.path.linked i a hi
  obtain rfl := Option.mem_unique hget hs'
  rw [htree.active, List.mem_toFinset]
  exact List.mem_of_getElem? hprev

theorem Tree.descends_active (htree : Tree P genesis hs) (hmem : a ∈ hs.activeSet)
    (hab : Descends (parentOf hs) a b) : b ∈ hs.activeSet := by
  induction hab with
  | refl => exact hmem
  | tail _ hstep ih => exact htree.parentOf_active ih hstep

end Active

section Attach

variable {hash : Hash256} {s : StoredHeader} {extend : Bool}

variable {k : Hash256}

theorem get_attach : (attach hs hash s extend).get k = if k = hash then some s else hs.get k :=
  lookup_insert_eq _ _ _ _

theorem parentOf_attach (hk : k ≠ hash) : parentOf (attach hs hash s extend) k = parentOf hs k := by
  simp [parentOf, get_attach, hk]

theorem Attachable.prevHash_ne (ha : Attachable P hs hash s extend) : s.header.prevHash ≠ hash := by
  obtain ⟨p, hp, _⟩ := ha.parent
  rintro rfl
  exact ha.fresh (Finmap.mem_of_lookup_eq_some hp)

theorem Attachable.parentOf_hash (ha : Attachable P hs hash s extend) :
    parentOf (attach hs hash s extend) hash = some s.header.prevHash := by
  obtain ⟨p, _, hheight, _⟩ := ha.parent
  simp [parentOf, get_attach, hheight]

theorem Attachable.descends_iff_of_ne (ha : Attachable P hs hash s extend)
    (htree : Tree P genesis hs) {m : Hash256} (hk : k ≠ hash) :
    Descends (parentOf (attach hs hash s extend)) k m ↔ Descends (parentOf hs) k m := by
  refine descends_congr (· ≠ hash) (fun a => parentOf_attach) ?_ hk
  rintro a b _ hab rfl
  obtain ⟨_, p, _, hp, _⟩ := htree.parentOf_get hab
  exact ha.fresh (Finmap.mem_of_lookup_eq_some hp)

theorem Attachable.descends_hash_iff (ha : Attachable P hs hash s extend) (htree : Tree P genesis hs)
    {m : Hash256} :
    Descends (parentOf (attach hs hash s extend)) hash m ↔
      hash = m ∨ Descends (parentOf hs) s.header.prevHash m := by
  rw [descends_iff, ha.parentOf_hash]
  simp [ha.descends_iff_of_ne htree ha.prevHash_ne]

end Attach

end Ironcat.HeaderTree
