import Ironcat.Lib.Runs

/-!
# Gossip over wires

Parties that hold keyed items and spread them to their peers over first-in
first-out wires: a message tells its receiver of a key the sender holds, or
asks for one the receiver holds. `Lawful` says what the steps of a party have to
do for that. Then linked parties hold the same keys when nothing is left to do,
and every order of steps comes to that end.
-/

namespace Ironcat.Lib.Gossip

open Lib.Runs

variable {ι κ τ σ μ : Type}

structure Protocol (ι τ σ μ : Type) where
  peers : ι → List ι
  accept : ι → σ → τ → σ
  handle : ι → σ → ι → μ → σ × List (ι × μ)
  relay : ι → σ → Option (σ × List (ι × μ))

structure Reading (ι κ τ σ μ : Type) where
  key : τ → κ
  valid : τ → Prop
  good : ι → σ → Prop
  plain : μ → Prop
  holds : σ → κ → Prop
  known : σ → ι → κ → Prop
  waits : σ → ι → κ → Prop
  tells : μ → κ → Prop
  asks : μ → κ → Prop
  cost : ι → σ → ℕ
  price : μ → ℕ

def Reading.load (R : Reading ι κ τ σ μ) (messages : List μ) : ℕ := (messages.map R.price).sum

structure Acts (G : Protocol ι τ σ μ) (R : Reading ι κ τ σ μ) (new : κ → Prop)
    (told : ι → κ → Prop) (a : ι) (p p' : σ) (out : List (ι × μ)) : Prop where
  good : R.good a p'
  keeps : ∀ k, R.holds p k → R.holds p' k
  gains : ∀ k, R.holds p' k → R.holds p k ∨ new k
  sends : ∀ o ∈ out, o.1 ∈ G.peers a ∧ R.plain o.2 ∧
    ∀ k, (R.tells o.2 k → R.holds p' k) ∧ (R.asks o.2 k → told o.1 k)
  known : ∀ c k, R.known p' c k → R.known p c k ∨ told c k ∨ ∃ m, (c, m) ∈ out ∧ R.tells m k
  waits : ∀ c ∈ G.peers a, ∀ k, R.waits p c k ∨ R.holds p' k ∧ ¬ R.holds p k →
    R.waits p' c k ∨ R.known p c k ∨ ∃ m, (c, m) ∈ out ∧ R.tells m k

structure Handles (G : Protocol ι τ σ μ) (R : Reading ι κ τ σ μ) (a peer : ι) (m : μ) (p p' : σ)
    (out : List (ι × μ)) : Prop
    extends Acts G R (R.tells m) (fun c k => c = peer ∧ R.tells m k) a p p' out where
  told : ∀ k, R.tells m k → R.holds p' k ∨ ∃ r, (peer, r) ∈ out ∧ R.asks r k
  asked : ∀ k, R.asks m k → ∃ r, (peer, r) ∈ out ∧ R.tells r k
  cost : R.cost a p' + R.load (out.map Prod.snd) < R.cost a p + R.price m

structure Lawful (G : Protocol ι τ σ μ) (R : Reading ι κ τ σ μ) : Prop where
  symm : ∀ a, ∀ b ∈ G.peers a, a ∈ G.peers b
  accept : ∀ a p x, R.good a p → R.valid x →
    Acts G R (· = R.key x) (fun _ _ => False) a p (G.accept a p x) [] ∧
      R.holds (G.accept a p x) (R.key x)
  handle : ∀ a p peer m, R.good a p → peer ∈ G.peers a → R.plain m →
    (∀ k, R.asks m k → R.holds p k) →
    Handles G R a peer m p (G.handle a p peer m).1 (G.handle a p peer m).2
  relay : ∀ a p p' out, R.good a p → G.relay a p = some (p', out) →
    Acts G R (fun _ => False) (fun _ _ => False) a p p' out ∧
      R.cost a p' + R.load (out.map Prod.snd) < R.cost a p
  rests : ∀ a p, R.good a p → G.relay a p = none → ∀ c k, ¬ R.waits p c k

structure State (ι σ μ : Type) where
  node : ι → σ
  wire : ι × ι → List μ

inductive Event (ι τ : Type)
  | submit (self : ι) (item : τ)
  | deliver (sender receiver : ι)
  | relay (self : ι)

/-- What is left to do without anything from outside. -/
def Enabled (G : Protocol ι τ σ μ) (s : State ι σ μ) : Event ι τ → Prop
  | .submit _ _ => False
  | .deliver sender receiver => s.wire (sender, receiver) ≠ []
  | .relay self => G.relay self (s.node self) ≠ none

/-- Only these items come from outside. -/
def Event.Within (p : ι → τ → Prop) : Event ι τ → Prop
  | .submit self item => p self item
  | _ => True

theorem Enabled.within {G : Protocol ι τ σ μ} {s : State ι σ μ} {e : Event ι τ}
    (he : Enabled G s e) (p : ι → τ → Prop) : e.Within p := by
  cases e with
  | submit self item => exact he.elim
  | deliver sender receiver => trivial
  | relay self => trivial

def Told (R : Reading ι κ τ σ μ) (s : State ι σ μ) (a b : ι) (k : κ) : Prop :=
  R.holds (s.node b) k ∨ (∃ m ∈ s.wire (a, b), R.tells m k) ∨ ∃ m ∈ s.wire (b, a), R.asks m k

structure Party (G : Protocol ι τ σ μ) (R : Reading ι κ τ σ μ) (source : ι → κ → Prop)
    (s : State ι σ μ) (a : ι) (p : σ) : Prop where
  good : R.good a p
  known : ∀ b k, R.known p b k → Told R s a b k
  spread : ∀ k, R.holds p k → ∀ b ∈ G.peers a, R.waits p b k ∨ Told R s a b k
  source : ∀ k, R.holds p k → source a k

structure Sound (G : Protocol ι τ σ μ) (R : Reading ι κ τ σ μ) (source : ι → κ → Prop)
    (s : State ι σ μ) : Prop where
  party : ∀ a, Party G R source s a (s.node a)
  wire : ∀ l, ∀ m ∈ s.wire l, l.2 ∈ G.peers l.1 ∧ R.plain m ∧
    ∀ k, (R.tells m k → R.holds (s.node l.1) k) ∧ (R.asks m k → R.holds (s.node l.2) k)

def Keeps (R : Reading ι κ τ σ μ) (s s' : State ι σ μ) : Prop :=
  ∀ a k, R.holds (s.node a) k → R.holds (s'.node a) k

/-- Nothing is held, told or asked yet. -/
structure Blank (R : Reading ι κ τ σ μ) (s : State ι σ μ) : Prop where
  good : ∀ a, R.good a (s.node a)
  holds : ∀ a k, ¬ R.holds (s.node a) k
  known : ∀ a b k, ¬ R.known (s.node a) b k
  wire : ∀ l, s.wire l = []

section Network

variable {G : Protocol ι τ σ μ} {R : Reading ι κ τ σ μ} {source : ι → κ → Prop}
variable {s s' : State ι σ μ}

theorem Blank.sound (h : Blank R s) : Sound G R source s where
  party := fun a => ⟨h.good a, fun b k hk => (h.known a b k hk).elim,
    fun k hk => (h.holds a k hk).elim, fun k hk => (h.holds a k hk).elim⟩
  wire := by simp [h.wire]

theorem Party.mono {a : ι} {p : σ} (h : Party G R source s a p)
    (htold : ∀ b k, Told R s a b k → Told R s' a b k) : Party G R source s' a p where
  good := h.good
  known := fun b k hk => htold b k (h.known b k hk)
  spread := fun k hk b hb => (h.spread k hk b hb).imp_right (htold b k)
  source := h.source

theorem Sound.holds_of_quiet (h : Sound G R source s) (hG : Lawful G R)
    (hquiet : ∀ e, ¬ Enabled G s e) {a b : ι} (hb : b ∈ G.peers a) {k : κ}
    (hk : R.holds (s.node a) k) : R.holds (s.node b) k := by
  have hwire : ∀ c d, s.wire (c, d) = [] := fun c d => not_not.mp (hquiet (.deliver c d))
  have hrests := hG.rests a _ (h.party a).good (not_not.mp (hquiet (.relay a)))
  rcases (h.party a).spread k hk b hb with hwaits | hheld | ⟨m, hm, _⟩ | ⟨m, hm, _⟩
  · exact absurd hwaits (hrests b k)
  · exact hheld
  · simp [hwire] at hm
  · simp [hwire] at hm

variable [DecidableEq ι]

variable {out : List (ι × μ)}

theorem Sound.act (h : Sound G R source s) {a : ι} {p : σ} {new : κ → Prop} {told : ι → κ → Prop}
    (hacts : Acts G R new told a (s.node a) p out) (hnode : s'.node = Function.update s.node a p)
    (hwire : ∀ l, ∀ m ∈ s'.wire l, m ∈ s.wire l ∨ l.1 = a ∧ (l.2, m) ∈ out)
    (hsent : ∀ b m, (b, m) ∈ out → m ∈ s'.wire (a, b))
    (htells : ∀ b c k, ∀ m ∈ s.wire (b, c), R.tells m k → Told R s' b c k)
    (hasks : ∀ b c k, ∀ m ∈ s.wire (c, b), R.asks m k → Told R s' b c k)
    (hnew : ∀ k, new k → source a k) (htold : ∀ b k, told b k → R.holds (s.node b) k) :
    Sound G R source s' ∧ Keeps R s s' := by
  have ha := h.party a
  have hkeeps : Keeps R s s' := by
    rw [Keeps, hnode,
      Function.forall_update_iff s.node fun c q => ∀ k, R.holds (s.node c) k → R.holds q k]
    exact ⟨hacts.keeps, fun c _ k => id⟩
  have hstays : ∀ b c k, Told R s b c k → Told R s' b c k := fun b c k ht =>
    ht.elim (fun hk => .inl (hkeeps c k hk)) fun ht => ht.elim
      (fun ⟨m, hm, hk⟩ => htells b c k m hm hk) fun ⟨m, hm, hk⟩ => hasks b c k m hm hk
  have hout : ∀ b k, (∃ m, (b, m) ∈ out ∧ R.tells m k) → Told R s' a b k :=
    fun b k ⟨m, hm, hk⟩ => .inr (.inl ⟨m, hsent b m hm, hk⟩)
  refine ⟨⟨?_, fun l m hm => ?_⟩, hkeeps⟩
  · rw [hnode, Function.forall_update_iff s.node fun c q => Party G R source s' c q]
    refine ⟨⟨hacts.good, fun b k hk => ?_, fun k hk b hb => ?_, fun k hk =>
      (hacts.gains k hk).elim (ha.source k) (hnew k)⟩, fun c _ => (h.party c).mono (hstays c)⟩
    · rcases hacts.known b k hk with hold | htold' | hout'
      · exact hstays a b k (ha.known b k hold)
      · exact .inl (hkeeps b k (htold b k htold'))
      · exact hout b k hout'
    · -- a peer is passed over only when it has been told
      have hwaits : R.waits (s.node a) b k ∨ R.holds p k ∧ ¬ R.holds (s.node a) k →
          R.waits p b k ∨ Told R s' a b k := fun hwaits =>
        (hacts.waits b hb k hwaits).imp_right fun hknown =>
          hknown.elim (fun hknown => hstays a b k (ha.known b k hknown)) (hout b k)
      by_cases hold : R.holds (s.node a) k
      · exact (ha.spread k hold b hb).elim (fun hw => hwaits (.inl hw)) fun ht =>
          .inr (hstays a b k ht)
      · exact hwaits (.inr ⟨hk, hold⟩)
  · rcases hwire l m hm with hold | ⟨rfl, hnew'⟩
    · obtain ⟨hpeer, hplain, hbacked⟩ := h.wire l m hold
      exact ⟨hpeer, hplain, fun k => ⟨fun hk => hkeeps _ k ((hbacked k).1 hk),
        fun hk => hkeeps _ k ((hbacked k).2 hk)⟩⟩
    · obtain ⟨hpeer, hplain, hbacked⟩ := hacts.sends _ hnew'
      refine ⟨hpeer, hplain, fun k => ⟨fun hk => ?_, fun hk =>
        hkeeps _ k (htold _ k ((hbacked k).2 hk))⟩⟩
      rw [hnode, Function.update_self]
      exact (hbacked k).1 hk

def send (wire : ι × ι → List μ) (self : ι) (out : List (ι × μ)) : ι × ι → List μ := fun l =>
  wire l ++ (out.filter fun o => (self, o.1) = l).map Prod.snd

theorem mem_send {wire : ι × ι → List μ} {self : ι} {l : ι × ι} {m : μ} :
    m ∈ send wire self out l ↔ m ∈ wire l ∨ l.1 = self ∧ (l.2, m) ∈ out := by
  obtain ⟨b, c⟩ := l
  simp only [send, List.mem_append, List.mem_map, List.mem_filter, decide_eq_true_eq, Prod.mk.injEq,
    Prod.exists]
  aesop

def step (G : Protocol ι τ σ μ) (s : State ι σ μ) : Event ι τ → State ι σ μ
  | .submit self item =>
    { s with node := Function.update s.node self (G.accept self (s.node self) item) }
  | .deliver sender receiver =>
    match s.wire (sender, receiver) with
    | [] => s
    | m :: rest =>
      let r := G.handle receiver (s.node receiver) sender m
      { node := Function.update s.node receiver r.1
        wire := send (Function.update s.wire (sender, receiver) rest) receiver r.2 }
  | .relay self =>
    match G.relay self (s.node self) with
    | none => s
    | some r =>
      { node := Function.update s.node self r.1, wire := send s.wire self r.2 }

variable (hG : Lawful G R) (hlinked : ∀ a, ∀ b ∈ G.peers a, ∀ k, source a k → source b k)
include hG hlinked

theorem Sound.deliver (h : Sound G R source s) (a b : ι) :
    Sound G R source (step G s (.deliver a b)) ∧ Keeps R s (step G s (.deliver a b)) := by
  simp only [step]
  split
  · exact ⟨h, fun _ _ => id⟩
  rename_i m rest hcons
  obtain ⟨hpeer, hplain, hbacked⟩ := h.wire (a, b) m (by simp [hcons])
  have hhandle := hG.handle b (s.node b) a m (h.party b).good (hG.symm a b hpeer) hplain
    fun k hk => (hbacked k).2 hk
  set r := G.handle b (s.node b) a m with hr
  have hstays : ∀ l, ∀ m' ∈ s.wire l, l = (a, b) ∧ m' = m ∨
      m' ∈ send (Function.update s.wire (a, b) rest) b r.2 l := by
    intro l m' hm'
    by_cases hl : l = (a, b)
    · subst hl
      rw [hcons, List.mem_cons] at hm'
      refine hm'.imp (fun hm => ⟨rfl, hm⟩) fun hm => mem_send.mpr (.inl ?_)
      rwa [Function.update_self]
    · refine .inr (mem_send.mpr (.inl ?_))
      rwa [Function.update_of_ne hl]
  refine h.act hhandle.toActs rfl (fun l m' hm' => ?_) (fun c m' hm' =>
    mem_send.mpr (.inr ⟨rfl, hm'⟩)) (fun c d k m' hm' hk => ?_) (fun c d k m' hm' hk => ?_)
    (fun k hk => hlinked a b hpeer k ((h.party a).source k ((hbacked k).1 hk))) ?_
  · refine (mem_send.mp hm').imp_left fun hold => ?_
    by_cases hl : l = (a, b)
    · subst hl
      rw [Function.update_self] at hold
      exact hcons ▸ List.mem_cons_of_mem m hold
    · rwa [Function.update_of_ne hl] at hold
  · -- what the message tells is held now or asked for
    rcases hstays _ m' hm' with ⟨heq, rfl⟩ | hm'
    · obtain ⟨rfl, rfl⟩ := Prod.mk.inj heq
      refine (hhandle.told k hk).imp (fun hheld => ?_) fun ⟨r', hr', hasks⟩ =>
        .inr ⟨r', mem_send.mpr (.inr ⟨rfl, hr'⟩), hasks⟩
      simpa using hheld
    · exact .inr (.inl ⟨m', hm', hk⟩)
  · rcases hstays _ m' hm' with ⟨heq, rfl⟩ | hm'
    · obtain ⟨rfl, rfl⟩ := Prod.mk.inj heq
      obtain ⟨r', hr', htells⟩ := hhandle.asked k hk
      exact .inr (.inl ⟨r', mem_send.mpr (.inr ⟨rfl, hr'⟩), htells⟩)
    · exact .inr (.inr ⟨m', hm', hk⟩)
  · rintro c k ⟨rfl, hk⟩
    exact (hbacked k).1 hk

theorem Sound.step (h : Sound G R source s) {e : Event ι τ}
    (he : e.Within fun a x => R.valid x ∧ source a (R.key x)) :
    Sound G R source (step G s e) ∧ Keeps R s (step G s e) := by
  cases e with
  | submit a x =>
    refine h.act (hG.accept a _ x (h.party a).good he.1).1 rfl (fun l m hm => .inl hm) (by simp)
      (fun b c k m hm hk => .inr (.inl ⟨m, hm, hk⟩)) (fun b c k m hm hk => .inr (.inr ⟨m, hm, hk⟩))
      ?_ fun b k hk => hk.elim
    rintro k rfl
    exact he.2
  | deliver a b => exact h.deliver hG hlinked a b
  | relay a =>
    simp only [Gossip.step]
    split
    · exact ⟨h, fun _ _ => id⟩
    · rename_i r hcase
      exact h.act (hG.relay a _ r.1 r.2 (h.party a).good hcase).1 rfl (fun l m => mem_send.mp)
        (fun b m hm => mem_send.mpr (.inr ⟨rfl, hm⟩))
        (fun b c k m hm hk => .inr (.inl ⟨m, mem_send.mpr (.inl hm), hk⟩))
        (fun b c k m hm hk => .inr (.inr ⟨m, mem_send.mpr (.inl hm), hk⟩))
        (fun k hk => hk.elim) fun b k hk => hk.elim

theorem Sound.run (h : Sound G R source s) {es : List (Event ι τ)}
    (hes : ∀ e ∈ es, e.Within fun a x => R.valid x ∧ source a (R.key x)) :
    Sound G R source (run (Gossip.step G) s es) ∧ Keeps R s (run (Gossip.step G) s es) ∧
      ∀ a x, .submit a x ∈ es → R.holds ((run (Gossip.step G) s es).node a) (R.key x) := by
  induction es generalizing s with
  | nil => exact ⟨h, fun _ _ => id, by simp⟩
  | cons e es ih =>
    rw [List.forall_mem_cons] at hes
    obtain ⟨hsound, hkeeps⟩ := h.step hG hlinked hes.1
    obtain ⟨hsound', hkeeps', hheld⟩ := ih hsound hes.2
    refine ⟨hsound', fun a k hk => hkeeps' a k (hkeeps a k hk), fun a x hx => ?_⟩
    rcases List.mem_cons.mp hx with rfl | hx
    · refine hkeeps' a _ ?_
      simpa [Gossip.step] using (hG.accept a _ x (h.party a).good hes.1.1).2
    · exact hheld a x hx

end Network

section Work

variable [Fintype ι] {G : Protocol ι τ σ μ} {R : Reading ι κ τ σ μ}
variable {source : ι → κ → Prop} {s : State ι σ μ}

def work (R : Reading ι κ τ σ μ) (s : State ι σ μ) : ℕ :=
  ∑ a, R.cost a (s.node a) + ∑ l, R.load (s.wire l)

variable [DecidableEq ι]

theorem sum_update_add {α β : Type} [Fintype α] [DecidableEq α] (f : α → β) (g : α → β → ℕ)
    (i : α) (v : β) :
    ∑ x, g x (Function.update f i v x) + g i (f i) = ∑ x, g x (f x) + g i v := by
  have hrest : ∑ x ∈ Finset.univ.erase i, g x (Function.update f i v x) =
      ∑ x ∈ Finset.univ.erase i, g x (f x) :=
    Finset.sum_congr rfl fun x hx => by rw [Function.update_of_ne (Finset.ne_of_mem_erase hx)]
  rw [← Finset.sum_erase_add _ _ (Finset.mem_univ i), hrest, Function.update_self,
    ← Finset.sum_erase_add _ (fun x => g x (f x)) (Finset.mem_univ i)]
  omega

theorem sum_load_send (R : Reading ι κ τ σ μ) (wire : ι × ι → List μ) (self : ι)
    (out : List (ι × μ)) :
    ∑ l, R.load (send wire self out l) = ∑ l, R.load (wire l) + R.load (out.map Prod.snd) := by
  simp only [send, Reading.load, List.map_append, List.sum_append, Finset.sum_add_distrib,
    Nat.add_left_cancel_iff]
  induction out with
  | nil => simp
  | cons o out ih =>
    have hsplit : ∀ l, ((((o :: out).filter fun o' => (self, o'.1) = l).map Prod.snd).map
        R.price).sum = (if (self, o.1) = l then R.price o.2 else 0) +
          (((out.filter fun o' => (self, o'.1) = l).map Prod.snd).map R.price).sum := by
      intro l
      by_cases hl : (self, o.1) = l <;> simp [hl]
    simp only [hsplit, Finset.sum_add_distrib, ih, Finset.sum_ite_eq, Finset.mem_univ, if_true,
      List.map_cons, List.sum_cons]

theorem Sound.work_lt (h : Sound G R source s) (hG : Lawful G R) {e : Event ι τ}
    (he : Enabled G s e) : work R (Gossip.step G s e) < work R s := by
  cases e with
  | submit a x => exact he.elim
  | deliver a b =>
    obtain ⟨m, rest, hcons⟩ := List.exists_cons_of_ne_nil he
    obtain ⟨hpeer, hplain, hbacked⟩ := h.wire (a, b) m (by simp [hcons])
    have hcost := (hG.handle b (s.node b) a m (h.party b).good (hG.symm a b hpeer) hplain
      fun k hk => (hbacked k).2 hk).cost
    have hnode := sum_update_add s.node R.cost b (G.handle b (s.node b) a m).1
    have hwire := sum_update_add s.wire (fun _ => R.load) (a, b) rest
    have hload : R.load (s.wire (a, b)) = R.price m + R.load rest := by simp [hcons, Reading.load]
    simp only [work, Gossip.step, hcons, sum_load_send]
    omega
  | relay a =>
    obtain ⟨r, hcase⟩ := Option.ne_none_iff_exists'.mp he
    have hcost := (hG.relay a _ r.1 r.2 (h.party a).good hcase).2
    have hnode := sum_update_add s.node R.cost a r.1
    simp only [work, Gossip.step, hcase, sum_load_send]
    omega

theorem holds_iff_of_quiet (hG : Lawful G R) (hs : Blank R s) {es : List (Event ι τ)}
    (hes : ∀ e ∈ es, e.Within fun _ x => R.valid x) :
    let s' := run (Gossip.step G) s es
    (∃ n, ∀ more, Along (Gossip.step G) (Enabled G) s' more → more.length ≤ n) ∧
    (∃ more, Along (Gossip.step G) (Enabled G) s' more ∧
      ∀ e, ¬ Enabled G (run (Gossip.step G) s' more) e) ∧
    ((∀ e, ¬ Enabled G s' e) → ∀ a k, R.holds (s'.node a) k ↔
      ∃ c x, Relation.ReflTransGen (fun c d => d ∈ G.peers c) c a ∧ .submit c x ∈ es ∧
        R.key x = k) := by
  intro s'
  let source : ι → κ → Prop := fun a k => ∃ c x,
    Relation.ReflTransGen (fun c d => d ∈ G.peers c) c a ∧ .submit c x ∈ es ∧ R.key x = k
  have hlinked : ∀ a, ∀ b ∈ G.peers a, ∀ k, source a k → source b k :=
    fun a b hb k ⟨c, x, hca, hx⟩ => ⟨c, x, hca.tail hb, hx⟩
  have hstart : Sound G R source s := hs.sound
  obtain ⟨hsound, _, hheld⟩ := hstart.run hG hlinked fun e he => by
    cases e with
    | submit a x => exact ⟨hes _ he, a, x, .refl, he, rfl⟩
    | deliver a b => trivial
    | relay a => trivial
  have hstep : ∀ t e, Sound G R source t → Enabled G t e → Sound G R source (Gossip.step G t e) :=
    fun t e ht he => (ht.step hG hlinked (he.within _)).1
  have hless : ∀ t e, Sound G R source t → Enabled G t e →
      work R (Gossip.step G t e) < work R t := fun t e ht he => ht.work_lt hG he
  refine ⟨⟨_, fun more halong => length_le_of_decreasing hstep hless hsound halong⟩,
    exists_run_to_end hstep hless hsound, fun hquiet a k => ⟨(hsound.party a).source k, ?_⟩⟩
  rintro ⟨c, x, hlinks, hx, rfl⟩
  induction hlinks with
  | refl => exact hheld c x hx
  | tail _ hpeer ih => exact hsound.holds_of_quiet hG hquiet hpeer ih

end Work

end Ironcat.Lib.Gossip
