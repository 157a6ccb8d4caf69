import Ironcat.Lib.Hoare
import Ironcat.Script.Engine

/-!
# Opcodes do not panic

Every opcode keeps the elements of the stacks, the operation count and the
position of the last separator in bounds, and its indices are in range.
-/

namespace Ironcat.Script

open Lib.ByteCodec Lib.Checked Lib.Hoare Types BlockContext SignatureHash

section Vec

variable {α : Type} {v : List α} {i j n : ℕ}

theorem index_eq_ok (h : i < v.length) : index v i = .ok (v.get ⟨i, h⟩) := by
  simp [index, okOr, h]

theorem lenMinus_eq_ok (h : n ≤ v.length) : lenMinus v n = .ok (v.length - n) := by
  simp [lenMinus, ensure, h]

theorem swap_eq_ok (hi : i < v.length) (hj : j < v.length) :
    ∃ w, swap v i j = .ok w ∧ w.length = v.length ∧ w ⊆ v := by
  refine ⟨(v.set i (v.get ⟨j, hj⟩)).set j (v.get ⟨i, hi⟩), ?_, by simp, ?_⟩
  · rw [swap, index_eq_ok hi, index_eq_ok hj]
    rfl
  · intro x hx
    rcases List.mem_or_eq_of_mem_set hx with hx | rfl
    · rcases List.mem_or_eq_of_mem_set hx with hx | rfl
      · exact hx
      · exact List.get_mem v ⟨j, hj⟩
    · exact List.get_mem v ⟨i, hi⟩

theorem remove_eq_ok (h : i < v.length) :
    ∃ a w, remove v i = .ok (a, w) ∧ a ∈ v ∧ w.length + 1 = v.length ∧ w ⊆ v := by
  refine ⟨v.get ⟨i, h⟩, v.eraseIdx i, ?_, List.get_mem v ⟨i, h⟩, ?_, List.eraseIdx_subset⟩
  · rw [remove, index_eq_ok h]
    rfl
  · rw [List.length_eraseIdx_of_lt h]
    omega

theorem insert_eq_ok {a : α} (h : i ≤ v.length) :
    ∃ w, insert v i a = .ok w ∧ ∀ x ∈ w, x = a ∨ x ∈ v := by
  refine ⟨v.insertIdx i a, ?_, fun x hx => (List.mem_insertIdx h).mp hx⟩
  simp [insert, ensure, h]

theorem sliceFrom_eq_ok (h : i ≤ v.length) : sliceFrom v i = .ok (v.drop i) := by
  simp [sliceFrom, ensure, h]

end Vec

def Rearranges (n : ℕ) (f : List Bytes → Except Fault (List Bytes)) : Prop :=
  ∀ v, n ≤ v.length → ∃ w, f v = .ok w ∧ w ⊆ v

theorem rearranges_copyDeep {n : ℕ} {depths : List ℕ} (h : ∀ d ∈ depths, 0 < d ∧ d ≤ n) :
    Rearranges n (copyDeep depths) := by
  intro v hn
  have hget : ∀ d ∈ depths, v.length - d < v.length := by
    intro d hd
    have hpos := h d hd
    omega
  have hitems : depths.mapM (fun d => do index v (← lenMinus v d)) =
      .ok (depths.map fun d => v.getD (v.length - d) []) := by
    refine mapM_eq_ok fun d hd => ?_
    rw [lenMinus_eq_ok ((h d hd).2.trans hn), ok_bind, index_eq_ok (hget d hd), List.get_eq_getElem,
      List.getD_eq_getElem v [] (hget d hd)]
  refine ⟨v ++ depths.map fun d => v.getD (v.length - d) [], ?_, ?_⟩
  · rw [copyDeep, hitems]
    rfl
  · refine List.append_subset.mpr ⟨List.Subset.refl v, fun x hx => ?_⟩
    obtain ⟨d, hd, rfl⟩ := List.mem_map.mp hx
    rw [List.getD_eq_getElem v [] (hget d hd)]
    exact List.getElem_mem _

theorem rearranges_moveUp {n d : ℕ} (hd : 0 < d) (hn : d ≤ n) : Rearranges n (moveUp d) := by
  intro v hv
  obtain ⟨a, w, hw, ha, -, hsub⟩ := @remove_eq_ok _ v (v.length - d) (by omega)
  refine ⟨w ++ [a], ?_,
    List.append_subset.mpr ⟨hsub, List.cons_subset.mpr ⟨ha, List.nil_subset _⟩⟩⟩
  rw [moveUp, lenMinus_eq_ok (hn.trans hv), ok_bind, hw]
  rfl

theorem rearranges_drop : Rearranges 2 fun v => .ok v.dropLast.dropLast :=
  fun v _ => ⟨_, rfl, List.Subset.trans (List.dropLast_subset _) (List.dropLast_subset v)⟩

theorem rearranges_nip : Rearranges 2 nip := by
  intro v hv
  obtain ⟨a, w, hw, -, -, hsub⟩ := @remove_eq_ok _ v (v.length - 2) (by omega)
  refine ⟨w, ?_, hsub⟩
  rw [nip, lenMinus_eq_ok hv, ok_bind, hw]
  rfl

theorem rearranges_tuck : Rearranges 2 tuck := by
  intro v hv
  have hne : v ≠ [] := List.ne_nil_of_length_pos (by omega)
  have htop : v.getLast? = some (v.getLast hne) := List.getLast?_eq_some_getLast hne
  obtain ⟨w, hw, hmem⟩ := @insert_eq_ok _ v (v.length - 2) (v.getLast hne) (by omega)
  refine ⟨w, ?_, fun x hx => ?_⟩
  · rw [tuck, htop, lenMinus_eq_ok hv]
    exact hw
  · rcases hmem x hx with rfl | hx
    · exact List.getLast_mem hne
    · exact hx

theorem rearranges_rotPairs : Rearranges 6 rotPairs := by
  intro v hv
  obtain ⟨a, w, hw, ha, hlen, hsub⟩ := @remove_eq_ok _ v (v.length - 6) (by omega)
  obtain ⟨b, w', hw', hb, -, hsub'⟩ := @remove_eq_ok _ w (v.length - 6) (by omega)
  refine ⟨w' ++ [a] ++ [b], ?_, ?_⟩
  · simp only [rotPairs, lenMinus_eq_ok hv, ok_bind, hw, hw']
    rfl
  · refine List.append_subset.mpr ⟨List.append_subset.mpr ⟨?_, ?_⟩, ?_⟩
    · exact List.Subset.trans hsub' hsub
    · exact List.cons_subset.mpr ⟨ha, List.nil_subset _⟩
    · exact List.cons_subset.mpr ⟨hsub hb, List.nil_subset _⟩

theorem rearranges_swapTop : Rearranges 2 swapTop := by
  intro v hv
  obtain ⟨w, hw, -, hsub⟩ := @swap_eq_ok _ v (v.length - 1) (v.length - 2) (by omega) (by omega)
  refine ⟨w, ?_, hsub⟩
  rw [swapTop, lenMinus_eq_ok (Nat.le_of_lt hv), lenMinus_eq_ok hv]
  exact hw

theorem rearranges_swapPairs : Rearranges 4 swapPairs := by
  intro v hv
  obtain ⟨w, hw, hlen, hsub⟩ := @swap_eq_ok _ v (v.length - 4) (v.length - 2) (by omega) (by omega)
  obtain ⟨w', hw', -, hsub'⟩ := @swap_eq_ok _ w (v.length - 3) (v.length - 1) (by omega) (by omega)
  refine ⟨w', ?_, List.Subset.trans hsub' hsub⟩
  rw [swapPairs, lenMinus_eq_ok hv, lenMinus_eq_ok (n := 2) (by omega), ok_bind, ok_bind, hw,
    lenMinus_eq_ok (n := 3) (by omega), lenMinus_eq_ok (n := 1) (by omega)]
  exact hw'

variable {e : ScriptError}

theorem require_eq_ok {c : Prop} [Decidable c] (h : c) : require c e = .ok () :=
  if_pos h

theorem demand_eq_ok {α : Type} {o : Option α} {a : α} (h : o = some a) : demand e o = .ok a :=
  okOr_eq_ok.mpr h

theorem length_encodeScriptNumber (n : ℤ) : (encodeScriptNumber n).length ≤ 9 := by
  have hlen := length_minimalBytes 8 n.natAbs
  unfold encodeScriptNumber
  dsimp only
  cases hlast : (minimalBytes 8 n.natAbs).getLast? with
  | none => simp
  | some last =>
    dsimp only
    split_ifs
    · exact (List.length_append).trans_le (Nat.add_le_add_right hlen 1)
    · exact (List.length_append).trans_le (Nat.add_le_add_right hlen 1)
    · rw [List.length_append, List.length_dropLast, List.length_singleton]
      omega
    · omega

section Positions

variable (script : Bytes) (m : Machine)

theorem readByte_eq : readByte script m = match script[m.pc]? with
    | none => .error (.error .invalidPushSize)
    | some b => .ok (b, { m with pc := m.pc + 1 }) := by
  rw [readByte, get_bind_apply, liftM_bind_apply]
  cases script[m.pc]? <;> rfl

variable {script m} in
theorem readLen_eq (hpc : m.pc ≤ script.length) (k : ℕ) : readLen script k m =
    if m.pc + k ≤ script.length then
      .ok (ofLeBytes ((script.drop m.pc).take k), { m with pc := m.pc + k })
    else .error (.error .invalidPushSize) := by
  induction k generalizing m with
  | zero =>
    rw [if_pos (by omega), List.take_zero]
    rfl
  | succ k ih =>
    rw [readLen, bind_apply, readByte_eq]
    rcases Nat.lt_or_ge m.pc script.length with hlt | hge
    · have hrest := @ih { m with pc := m.pc + 1 } hlt
      rw [List.getElem?_eq_getElem hlt, List.drop_eq_getElem_cons hlt, List.take_succ_cons, ofLeBytes,
        ok_bind, bind_apply, hrest]
      simp only [Nat.add_assoc, Nat.add_comm 1 k]
      split_ifs <;> rfl
    · rw [List.getElem?_eq_none hge, if_neg (by omega)]
      rfl

theorem skipBytes_eq (n : ℕ) : skipBytes script n m =
    if m.pc + n ≤ script.length then .ok ((), { m with pc := m.pc + n })
    else .error (.error .invalidPushSize) := by
  change (ensure (m.pc + n ≤ script.length) (Fault.error .invalidPushSize) >>= fun u =>
    Except.ok (u, { m with pc := m.pc + n })) = _
  unfold ensure
  split_ifs <;> rfl

theorem pushData_eq (n : ℕ) : pushData script n m =
    if n ≤ maxPushSize ∧ m.pc + n ≤ script.length then
      .ok ((), { m with stack := m.stack ++ [(script.drop m.pc).take n], pc := m.pc + n })
    else .error (.error .invalidPushSize) := by
  rw [pushData, liftM_bind_apply, require, ensure]
  by_cases hsize : n ≤ maxPushSize
  · rw [if_pos hsize, ok_bind, get_bind_apply, liftM_bind_apply, require, ensure]
    by_cases hend : m.pc + n ≤ script.length
    · rw [if_pos hend, if_pos ⟨hsize, hend⟩]
      rfl
    · rw [if_neg hend, if_neg fun h => hend h.2]
      rfl
  · rw [if_neg hsize, if_neg fun h => hsize h.1]
    rfl

theorem addOps_eq (n : ℕ) : addOps n m =
    if m.opCount + n ≤ maxOps then .ok ((), { m with opCount := m.opCount + n })
    else .error (.error .tooManyOps) := by
  change (ensure (m.opCount + n ≤ maxOps) (Fault.error .tooManyOps) >>= fun u =>
    Except.ok (u, { m with opCount := m.opCount + n })) = _
  unfold ensure
  split_ifs <;> rfl

end Positions

/-- What holds of the machine all through an opcode that ends at `p`: the
elements are bounded, and so are the operations and the position of the last
separator. -/
structure Machine.Within (len bound p : ℕ) (m : Machine) : Prop where
  stack : ∀ x ∈ m.stack, x.length ≤ bound
  altStack : ∀ x ∈ m.altStack, x.length ≤ bound
  pc : m.pc = p
  ops : m.opCount ≤ maxOps
  codesep : m.codesepPos ≤ len

def NoPanic (f : Fault) : Prop := f ≠ .panic

variable {len bound p : ℕ}

abbrev Safe {α : Type} (len bound p : ℕ) (prog : Exec α) (result : α → Prop) : Prop :=
  Keeps (Machine.Within len bound p) prog result NoPanic

theorem Machine.Within.withStack {m : Machine} (h : m.Within len bound p) {stack : List Bytes}
    (hstack : ∀ x ∈ stack, x.length ≤ bound) : Machine.Within len bound p { m with stack } :=
  ⟨hstack, h.altStack, h.pc, h.ops, h.codesep⟩

theorem Machine.Within.withAltStack {m : Machine} (h : m.Within len bound p) {altStack : List Bytes}
    (haltStack : ∀ x ∈ altStack, x.length ≤ bound) : Machine.Within len bound p { m with altStack } :=
  ⟨h.stack, haltStack, h.pc, h.ops, h.codesep⟩

theorem Machine.Within.pushed {m : Machine} (h : m.Within len bound p) {x : Bytes}
    (hx : x.length ≤ bound) : Machine.Within len bound p { m with stack := m.stack ++ [x] } := by
  refine h.withStack fun y hy => ?_
  rcases List.mem_append.mp hy with hy | hy
  · exact h.stack y hy
  · rw [List.mem_singleton.mp hy]
    exact hx

theorem noPanic_error (e : ScriptError) : NoPanic (.error e) := nofun

section Rules

variable {σ α β : Type} {pre : σ → Prop} {post : β → σ → Prop}

theorem triple_require {c : Prop} [Decidable c] {next : Unit → StateT σ (Except Fault) β}
    (h : c → Triple pre (next ()) post NoPanic) :
    Triple pre (liftM (require c e) >>= next) post NoPanic := by
  refine triple_liftM_bind (fun _ hok => h (ensure_eq_ok.mp hok)) fun f hf => ?_
  unfold require ensure at hf
  split_ifs at hf
  cases hf
  exact noPanic_error e

theorem triple_demand {o : Option α} {next : α → StateT σ (Except Fault) β}
    (h : ∀ a, o = some a → Triple pre (next a) post NoPanic) :
    Triple pre (liftM (demand e o) >>= next) post NoPanic := by
  refine triple_liftM_bind (fun a hok => h a (okOr_eq_ok.mp hok)) fun f hf => ?_
  cases o with
  | none =>
    cases hf
    exact noPanic_error e
  | some a => cases hf

end Rules

theorem safe_require {c : Prop} [Decidable c] (e : ScriptError) :
    Safe len bound p (liftM (require c e)) fun _ => c := by
  rw [← bind_pure (liftM (require c e) : Exec Unit)]
  exact triple_require fun hc => keeps_pure hc

theorem safe_push {x : Bytes} (hx : x.length ≤ bound) :
    Safe len bound p (push x) fun _ => True :=
  triple_modify fun _ hm => ⟨trivial, hm.pushed hx⟩

theorem safe_peek : Safe len bound p peek fun x => x.length ≤ bound := by
  refine triple_get_bind fun m hm => ?_
  rw [← bind_pure (liftM (demand _ m.stack.getLast?) : Exec Bytes)]
  refine triple_demand fun top htop => ?_
  refine triple_pure fun m' hm' => ⟨hm.stack top (List.mem_of_getLast? htop), ?_⟩
  rwa [hm']

theorem safe_pop : Safe len bound p pop fun x => x.length ≤ bound := by
  refine triple_get_bind fun m hm => triple_demand fun top htop => ?_
  refine triple_set_bind (triple_pure fun m' hm' => ⟨hm.stack top (List.mem_of_getLast? htop), ?_⟩)
  rw [hm']
  exact hm.withStack fun x hx => hm.stack x (List.dropLast_subset _ hx)

theorem safe_requireStack (n : ℕ) : Safe len bound p (requireStack n) fun _ => True := by
  refine triple_get_bind fun m hm => ?_
  rw [← bind_pure (liftM (require _ _) : Exec Unit)]
  exact triple_require fun _ => triple_pure fun m' hm' => ⟨trivial, hm' ▸ hm⟩

theorem safe_rearrange {n : ℕ} {f : List Bytes → Except Fault (List Bytes)} (h : Rearranges n f) :
    Safe len bound p (rearrange n f) fun _ => True := by
  unfold Safe Keeps rearrange requireStack
  rw [bind_assoc]
  refine triple_get_bind fun m hm => triple_require fun hn => triple_get_bind fun m' hm' => ?_
  subst hm'
  obtain ⟨w, hw, hsub⟩ := h m'.stack hn
  refine triple_ok_bind hw (triple_set fun _ _ => ⟨trivial, ?_⟩)
  exact hm.withStack fun x hx => hm.stack x (hsub hx)

theorem safe_popMany (n : ℕ) : Safe len bound p (popMany n) fun xs =>
    xs.length = n ∧ ∀ x ∈ xs, x.length ≤ bound := by
  induction n with
  | zero => exact keeps_pure ⟨rfl, List.forall_mem_nil _⟩
  | succ n ih =>
    refine safe_pop.bind fun x hx => ih.bind fun xs hxs => ?_
    exact keeps_pure ⟨by rw [List.length_cons, hxs.1], List.forall_mem_cons.mpr ⟨hx, hxs.2⟩⟩

theorem noPanic_mapError {x : Except ScriptError ℤ} {g : ScriptError → ScriptError} {f : Fault}
    (h : x.mapError (fun e => Fault.error (g e)) = .error f) : NoPanic f := by
  obtain ⟨e, -, rfl⟩ := mapError_eq_error.mp h
  exact noPanic_error _

theorem safe_popNumber : Safe len bound p popNumber fun _ => True := by
  refine safe_pop.bind fun val _ => ?_
  rw [← bind_pure (liftM ((decodeScriptNumber val).mapError Fault.error) : Exec ℤ)]
  exact triple_liftM_bind (fun n _ => keeps_pure trivial) fun f hf => noPanic_mapError (g := id) hf

theorem safe_popIndex : Safe len bound p popIndex fun _ => True := by
  refine safe_pop.bind fun val _ => ?_
  refine triple_liftM_bind (fun n _ => triple_require fun _ => keeps_pure trivial) fun f hf => ?_
  exact noPanic_mapError hf

theorem safe_popTwoNumbers : Safe len bound p popTwoNumbers fun _ => True :=
  safe_popNumber.bind fun _ _ => safe_popNumber.bind fun _ _ => keeps_pure trivial

section Bounded

variable (hbound : maxPushSize ≤ bound)

include hbound

theorem safe_pushNumber (n : ℤ) : Safe len bound p (pushNumber n) fun _ => True := by
  have hlen := length_encodeScriptNumber n
  have hmax : maxPushSize = 520 := rfl
  exact safe_push (by omega)

theorem safe_unaryNumber (f : ℤ → Option ℤ) : Safe len bound p (unaryNumber f) fun _ => True :=
  safe_popNumber.bind fun _ _ => triple_demand fun _ _ => safe_pushNumber hbound _

theorem safe_binaryNumber (f : ℤ → ℤ → Option ℤ) : Safe len bound p (binaryNumber f) fun _ => True :=
  safe_popTwoNumbers.bind fun _ _ => triple_demand fun _ _ => safe_pushNumber hbound _

theorem safe_hashTop {hash : Bytes → Bytes} (h : ∀ data, (hash data).length ≤ 32) :
    Safe len bound p (hashTop hash) fun _ => True := by
  have hmax : maxPushSize = 520 := rfl
  refine safe_pop.bind fun data _ => safe_push ?_
  have hlen := h data
  omega

end Bounded

theorem safe_addOps (n : ℕ) : Safe len bound p (addOps n) fun _ => True := by
  intro m hm
  rw [addOps_eq]
  split_ifs with hops
  · exact ⟨trivial, hm.stack, hm.altStack, hm.pc, hops, hm.codesep⟩
  · exact noPanic_error _

section Signatures

variable {env : Env}

theorem signatureHash_isSome (P : Primitives) {tx : Transaction} {inputIdx : ℕ}
    (h : inputIdx < tx.vin.length) (scriptCode : Bytes) (hashType : UInt8) :
    ∃ hash, signatureHash P tx inputIdx scriptCode hashType = some hash := by
  have hinputs := @inputsBytes_eq tx inputIdx (removeCodeseparators scriptCode) hashType _
    (List.getElem?_eq_getElem h)
  unfold signatureHash
  split_ifs
  · exact ⟨1, rfl⟩
  · rw [signatureBytes, hinputs]
    exact ⟨_, rfl⟩

theorem sighash_eq_ok (ctx : SignatureContext) (scriptCode : Bytes) (hashType : UInt8) :
    ∃ hash, sighash env ctx scriptCode hashType = .ok hash := by
  obtain ⟨hash, h⟩ := signatureHash_isSome env.crypto.toPrimitives ctx.inputIdx.isLt scriptCode
    hashType
  exact ⟨hash, okOr_eq_ok.mpr h⟩

theorem hashTypeByte_eq_ok {sig : Bytes} (h : sig ≠ []) : hashTypeByte sig = .ok (sig.getLast h) := by
  have hpos : 1 ≤ sig.length := List.length_pos_of_ne_nil h
  rw [hashTypeByte, lenMinus_eq_ok hpos, ok_bind, index_eq_ok (Nat.sub_lt hpos one_pos),
    List.getLast_eq_getElem h]
  rfl

theorem matchKey_eq_ok (sig : Bytes) (hash : Hash256) (keys : List Bytes) (fuel keyIdx : ℕ) :
    ∃ r, matchKey env sig hash keys keys.length fuel keyIdx = .ok r := by
  induction fuel generalizing keyIdx with
  | zero => exact ⟨_, rfl⟩
  | succ fuel ih =>
    rw [matchKey]
    split_ifs with hlt
    · rw [index_eq_ok hlt, ok_bind]
      split_ifs
      · exact ⟨_, rfl⟩
      · exact ih (keyIdx + 1)
    · exact ⟨_, rfl⟩

theorem matchSigs_eq_ok (ctx : SignatureContext) (scriptCode : Bytes) (keys sigs : List Bytes)
    (keyIdx : ℕ) : ∃ b, matchSigs env ctx scriptCode keys keys.length sigs keyIdx = .ok b := by
  induction sigs generalizing keyIdx with
  | nil => exact ⟨true, rfl⟩
  | cons sig sigs ih =>
    rw [matchSigs]
    split_ifs with hempty
    · exact ⟨false, rfl⟩
    · obtain ⟨hash, hhash⟩ := @sighash_eq_ok env ctx scriptCode (sig.getLast hempty)
      obtain ⟨⟨matched, next⟩, hkey⟩ := @matchKey_eq_ok env sig hash keys (keys.length - keyIdx) keyIdx
      rw [hashTypeByte_eq_ok hempty, ok_bind, hhash, ok_bind, hkey, ok_bind]
      dsimp only
      split_ifs
      · exact ih next
      · exact ⟨false, rfl⟩

theorem safe_pushResult {verify : Bool} (hbound : maxPushSize ≤ bound) (b : Bool) :
    Safe len bound p (if b then (if verify then pure () else push [1])
      else do require (¬ verify) e; push []) fun _ => True := by
  have hone : 1 ≤ bound := by
    have hmax : maxPushSize = 520 := rfl
    omega
  refine triple_ite (fun _ => triple_ite (fun _ => keeps_pure trivial) fun _ => safe_push hone)
    fun _ => triple_require fun _ => safe_push (Nat.zero_le _)

theorem safe_opChecksig (hbound : maxPushSize ≤ bound) (verify : Bool) :
    Safe env.script.length bound p (opChecksig env verify) fun _ => True := by
  refine safe_pop.bind fun pubkey _ => safe_pop.bind fun sig _ => triple_ite (fun _ => ?_) fun hne => ?_
  · exact triple_require fun _ => safe_push (Nat.zero_le _)
  · refine triple_demand fun ctx _ => triple_ok_bind (hashTypeByte_eq_ok hne) ?_
    refine triple_get_bind fun m hm => triple_ok_bind (sliceFrom_eq_ok hm.codesep) ?_
    obtain ⟨hash, hhash⟩ := @sighash_eq_ok env ctx
      (findAndDelete (env.script.drop m.codesepPos) sig) (sig.getLast hne)
    refine triple_ok_bind hhash ?_
    exact (safe_pushResult hbound _).of_imp fun m' hm' => hm' ▸ hm

theorem safe_opCheckmultisig (hbound : maxPushSize ≤ bound) (verify : Bool) :
    Safe env.script.length bound p (opCheckmultisig env verify) fun _ => True := by
  refine safe_popNumber.bind fun nKeys _ => triple_require fun _ => ?_
  refine (safe_requireStack _).bind fun _ _ => (safe_popMany _).bind fun keys hkeys => ?_
  refine (safe_addOps _).bind fun _ _ => safe_popNumber.bind fun nSigs _ => triple_require fun _ => ?_
  refine (safe_requireStack _).bind fun _ _ => (safe_popMany _).bind fun sigs _ => ?_
  refine safe_pop.bind fun _ _ => triple_demand fun ctx _ => ?_
  refine triple_get_bind fun m hm => triple_ok_bind (sliceFrom_eq_ok hm.codesep) ?_
  obtain ⟨success, hsuccess⟩ := @matchSigs_eq_ok env ctx
    (removeSigs (env.script.drop m.codesepPos) sigs) keys sigs 0
  rw [hkeys.1] at hsuccess
  refine triple_ok_bind hsuccess ?_
  exact (safe_pushResult hbound _).of_imp fun m' hm' => hm' ▸ hm

end Signatures

section Opcodes

variable {env : Env}

theorem safe_plainOpcode (hbound : maxPushSize ≤ bound) (hp : p ≤ env.script.length) {op : Opcode}
    (hop : ¬ op.hasPayload) :
    Safe env.script.length bound p (plainOpcode env op) fun _ => True := by
  have hsmall : ∀ {x : Bytes}, x.length ≤ 32 → x.length ≤ bound := by
    have hmax : maxPushSize = 520 := rfl
    omega
  cases op with
  | pushBytes | pushData1 | pushData2 | pushData4 => exact absurd rfl hop
  | op0 | op1Negate | opN => exact safe_push (hsmall (by simp))
  | opNop | opIf | opNotIf | opElse | opEndIf | opCheckLockTimeVerify | opCheckSequenceVerify =>
    exact keeps_pure trivial
  | opReturn | disabled | invalid => exact keeps_throw (noPanic_error _)
  | opDup => exact safe_peek.bind fun x hx => safe_push hx
  | opDrop => exact safe_pop.bind fun _ _ => keeps_pure trivial
  | opSwap => exact safe_rearrange rearranges_swapTop
  | opOver | op2Dup | op3Dup | op2Over => exact safe_rearrange (rearranges_copyDeep (by decide))
  | opRot => exact safe_rearrange (rearranges_moveUp (by decide) (le_refl 3))
  | opNip => exact safe_rearrange rearranges_nip
  | opTuck => exact safe_rearrange rearranges_tuck
  | op2Drop => exact safe_rearrange rearranges_drop
  | op2Rot => exact safe_rearrange rearranges_rotPairs
  | op2Swap => exact safe_rearrange rearranges_swapPairs
  | opPick =>
    exact safe_popIndex.bind fun n _ => safe_rearrange (rearranges_copyDeep (by simp))
  | opRoll =>
    exact safe_popIndex.bind fun n _ => safe_rearrange (rearranges_moveUp n.succ_pos le_rfl)
  | opIfDup =>
    exact safe_peek.bind fun x hx => triple_ite (fun _ => safe_push hx) fun _ => keeps_pure trivial
  | opDepth =>
    refine triple_get_bind fun m hm => (safe_pushNumber hbound _).of_imp fun m' hm' => ?_
    exact hm' ▸ hm
  | opSize => exact safe_peek.bind fun x _ => safe_pushNumber hbound _
  | opToAltStack =>
    refine safe_pop.bind fun x hx => triple_modify fun m hm => ⟨trivial, ?_⟩
    exact hm.withAltStack (List.forall_mem_append.mpr ⟨hm.altStack, List.forall_mem_singleton.mpr hx⟩)
  | opFromAltStack =>
    refine triple_get_bind fun m hm => triple_demand fun x hx => triple_set_bind ?_
    have hx' := hm.altStack x (List.mem_of_getLast? hx)
    refine (safe_push hx').of_imp fun m' hm' => hm' ▸ hm.withAltStack fun y hy => ?_
    exact hm.altStack y (List.dropLast_subset _ hy)
  | opEqual =>
    refine (safe_requireStack 2).bind fun _ _ => safe_pop.bind fun b _ => safe_pop.bind fun a _ => ?_
    refine safe_push (hsmall ?_)
    split_ifs <;> simp
  | opEqualVerify =>
    exact (safe_requireStack 2).bind fun _ _ => safe_pop.bind fun _ _ => safe_pop.bind fun _ _ =>
      (safe_require _).weaken
  | opVerify => exact safe_pop.bind fun _ _ => (safe_require _).weaken
  | opNumEqualVerify => exact safe_popTwoNumbers.bind fun _ _ => (safe_require _).weaken
  | op1Add | op1Sub | opNegate | opAbs | opNot | op0NotEqual =>
    rw [plainOpcode]
    exact safe_unaryNumber hbound _
  | opAdd | opSub | opBoolAnd | opBoolOr | opNumEqual | opNumNotEqual | opLessThan | opGreaterThan
  | opLessThanOrEqual | opGreaterThanOrEqual | opMin | opMax =>
    rw [plainOpcode]
    exact safe_binaryNumber hbound _
  | opWithin =>
    exact safe_popNumber.bind fun _ _ => safe_popNumber.bind fun _ _ =>
      safe_popNumber.bind fun _ _ => safe_pushNumber hbound _
  | opRipemd160 | opHash160 =>
    exact safe_hashTop hbound fun _ => (env.crypto.length_ripemd160 _).trans_le (by decide)
  | opSha1 => exact safe_hashTop hbound fun _ => (env.crypto.length_sha1 _).trans_le (by decide)
  | opSha256 | opHash256 => exact safe_hashTop hbound fun _ => (env.crypto.length_sha256 _).le
  | opCodeSeparator =>
    refine triple_modify fun m hm => ⟨trivial, hm.stack, hm.altStack, hm.pc, hm.ops, ?_⟩
    exact hm.pc.trans_le hp
  | opCheckSig => exact safe_opChecksig hbound false
  | opCheckSigVerify => exact safe_opChecksig hbound true
  | opCheckMultiSig => exact safe_opCheckmultisig hbound false
  | opCheckMultiSigVerify => exact safe_opCheckmultisig hbound true

end Opcodes

end Ironcat.Script
