import Ironcat.Lib.OrderedMatch
import Ironcat.Script.Safety

/-!
# OP_CHECKMULTISIG

The loops of `op_checkmultisig` give each signature the first key left that
verifies it. They accept exactly when the signatures can be matched with keys in
order.
-/

namespace Ironcat.Script

open Lib.ByteCodec Lib.Checked Lib.Hoare Lib.OrderedMatch Types SignatureHash

section Matching

variable (env : Env) (ctx : SignatureContext) (scriptCode : Bytes)

def verifies (sig key : Bytes) : Bool :=
  sig.getLast?.any fun hashType =>
    (signatureHash env.crypto.toPrimitives ctx.tx ctx.inputIdx scriptCode hashType).any fun hash =>
      env.crypto.verifyEcdsa sig key hash

variable {env ctx scriptCode}

variable {sig : Bytes}

theorem verifies_eq {key : Bytes} {hash : Hash256} (hne : sig ≠ [])
    (hhash : sighash env ctx scriptCode (sig.getLast hne) = .ok hash) :
    verifies env ctx scriptCode sig key = env.crypto.verifyEcdsa sig key hash := by
  rw [verifies, List.getLast?_eq_some_getLast hne, Option.any_some, okOr_eq_ok.mp hhash,
    Option.any_some]

variable {ok : Bytes → Bytes → Bool}

theorem matchKey_greedy {hash : Hash256} {keys : List Bytes}
    (hok : ∀ key, ok sig key = env.crypto.verifyEcdsa sig key hash) (sigs : List Bytes)
    {fuel keyIdx : ℕ} (hfuel : keys.length ≤ keyIdx + fuel) :
    ∃ matched next, matchKey env sig hash keys keys.length fuel keyIdx = .ok (matched, next) ∧
      greedy ok (sig :: sigs) (keys.drop keyIdx) = (matched && greedy ok sigs (keys.drop next)) := by
  induction fuel generalizing keyIdx with
  | zero =>
    refine ⟨false, keyIdx, rfl, ?_⟩
    rw [List.drop_of_length_le (Nat.add_zero keyIdx ▸ hfuel)]
    rfl
  | succ fuel ih =>
    rw [matchKey]
    split_ifs with hlt
    · have hrest := @ih (keyIdx + 1) (by omega)
      rw [index_eq_ok hlt, ok_bind, List.get_eq_getElem, List.drop_eq_getElem_cons hlt, greedy, hok]
      split_ifs with hverify
      · exact ⟨true, keyIdx + 1, rfl, rfl⟩
      · exact hrest
    · refine ⟨false, keyIdx, rfl, ?_⟩
      rw [List.drop_of_length_le (Nat.le_of_not_lt hlt)]
      rfl

theorem greedy_of_false (h : ∀ key, ok sig key = false) (sigs keys : List Bytes) :
    greedy ok (sig :: sigs) keys = false := by
  induction keys with
  | nil => rfl
  | cons key keys ih => rw [greedy, h, if_neg Bool.false_ne_true, ih]

theorem matchSigs_greedy (sigs keys : List Bytes) (keyIdx : ℕ) :
    matchSigs env ctx scriptCode keys keys.length sigs keyIdx =
      .ok (greedy (verifies env ctx scriptCode) sigs (keys.drop keyIdx)) := by
  induction sigs generalizing keyIdx with
  | nil =>
    rw [matchSigs, greedy]
  | cons sig sigs ih =>
    rw [matchSigs]
    split_ifs with hempty
    · rw [greedy_of_false (fun key => by rw [hempty]; rfl)]
    · obtain ⟨hash, hhash⟩ := @sighash_eq_ok env ctx scriptCode (sig.getLast hempty)
      have hfuel : keys.length ≤ keyIdx + (keys.length - keyIdx) := by omega
      obtain ⟨matched, next, hkey, hgreedy⟩ :=
        matchKey_greedy (fun _ => verifies_eq hempty hhash) sigs hfuel
      rw [hashTypeByte_eq_ok hempty, ok_bind, hhash, ok_bind, hkey, ok_bind, hgreedy]
      cases matched with
      | true => exact ih next
      | false => rfl

end Matching

variable {m' : Machine}

section Call

variable {s alt : List Bytes} {pc ops codesep : ℕ} {x : Bytes}

theorem pop_append : pop ⟨s ++ [x], alt, pc, ops, codesep⟩ = .ok (x, ⟨s, alt, pc, ops, codesep⟩) := by
  rw [pop, get_bind_apply, liftM_bind_apply, List.getLast?_concat]
  change Except.ok (x, (⟨(s ++ [x]).dropLast, alt, pc, ops, codesep⟩ : Machine)) = _
  rw [List.dropLast_concat]

theorem pop_eq_ok {m : Machine} (h : pop m = .ok (x, m')) :
    m = { m' with stack := m'.stack ++ [x] } := by
  rw [pop, get_bind_apply] at h
  obtain ⟨top, htop, h⟩ := liftM_bind_apply_eq_ok.mp h
  cases h
  have hlast := List.dropLast_append_getLast? x (okOr_eq_ok.mp htop)
  rw [hlast]

theorem popNumber_eq_ok {m : Machine} {n : ℤ} (h : popNumber m = .ok (n, m')) :
    ∃ x, m = { m' with stack := m'.stack ++ [x] } ∧ decodeScriptNumber x = .ok n := by
  obtain ⟨x, mid, hpop, h⟩ := bind_apply_eq_ok.mp h
  cases hdecode : decodeScriptNumber x with
  | ok n' =>
    rw [hdecode] at h
    cases h
    exact ⟨x, pop_eq_ok hpop, hdecode⟩
  | error e =>
    rw [hdecode] at h
    cases h

variable {n : ℕ}

theorem popMany_eq_ok {m : Machine} {xs : List Bytes} (h : popMany n m = .ok (xs, m')) :
    xs.length = n ∧ m = { m' with stack := m'.stack ++ xs.reverse } := by
  induction n generalizing m xs with
  | zero =>
    cases h
    exact ⟨rfl, by simp⟩
  | succ n ih =>
    obtain ⟨x, mid, hpop, h⟩ := bind_apply_eq_ok.mp h
    obtain ⟨ys, mid', hmany, h⟩ := bind_apply_eq_ok.mp h
    cases h
    obtain ⟨hlen, hmid⟩ := ih hmany
    refine ⟨by rw [List.length_cons, hlen], ?_⟩
    rw [pop_eq_ok hpop, hmid, List.reverse_cons, List.append_assoc]

theorem popMany_append (xs : List Bytes) :
    popMany xs.length ⟨s ++ xs.reverse, alt, pc, ops, codesep⟩ =
      .ok (xs, ⟨s, alt, pc, ops, codesep⟩) := by
  induction xs generalizing s with
  | nil =>
    rw [List.reverse_nil, List.append_nil]
    rfl
  | cons x xs ih =>
    rw [List.length_cons, popMany, List.reverse_cons, ← List.append_assoc,
      bind_apply_of_ok pop_append, bind_apply_of_ok ih]
    rfl

theorem popNumber_append {n : ℤ} (h : decodeScriptNumber x = .ok n) :
    popNumber ⟨s ++ [x], alt, pc, ops, codesep⟩ = .ok (n, ⟨s, alt, pc, ops, codesep⟩) := by
  rw [popNumber, bind_apply_of_ok pop_append, h]
  rfl

theorem requireStack_of_le {m : Machine} (h : n ≤ m.stack.length) :
    requireStack n m = .ok ((), m) := by
  rw [requireStack, get_bind_apply, require, ensure, if_pos h]
  rfl

theorem requireStack_eq_ok {m : Machine} {u : Unit} (h : requireStack n m = .ok (u, m')) :
    m' = m := by
  rw [requireStack, get_bind_apply, require, ensure] at h
  split_ifs at h
  · cases h
    rfl
  · cases h

theorem addOps_eq_ok {m : Machine} {u : Unit} (h : addOps n m = .ok (u, m')) :
    m.opCount + n ≤ maxOps ∧ m' = { m with opCount := m.opCount + n } := by
  rw [addOps_eq] at h
  split_ifs at h with hops
  cases h
  exact ⟨hops, rfl⟩

end Call

/-- The stack of a call on which all checks pass: the number of keys on top, the
keys, the number of signatures, the signatures, and one element more. Keys and
signatures are listed from the top. -/
structure MultisigCall (m : Machine) (rest keys sigs : List Bytes) : Prop where
  stack : ∃ dummy keyCount sigCount, m.stack =
      rest ++ [dummy] ++ sigs.reverse ++ [sigCount] ++ keys.reverse ++ [keyCount] ∧
    decodeScriptNumber keyCount = .ok (keys.length : ℤ) ∧
    decodeScriptNumber sigCount = .ok (sigs.length : ℤ)
  keyCount : (keys.length : ℤ) ≤ maxMultisigKeys
  sigCount : sigs.length ≤ keys.length
  ops : m.opCount + keys.length ≤ maxOps

section Result

variable {env : Env} {ctx : SignatureContext} {m : Machine} {rest keys sigs : List Bytes}

theorem opCheckmultisig_eq (hctx : env.sigCtx = some ctx)
    (hcode : m.codesepPos ≤ env.script.length) (hcall : MultisigCall m rest keys sigs) :
    opCheckmultisig env false m = .ok ((), { m with
      stack := rest ++ [if greedy (verifies env ctx
        (removeSigs (env.script.drop m.codesepPos) sigs)) sigs keys then [1] else []]
      opCount := m.opCount + keys.length }) := by
  obtain ⟨⟨dummy, keyCount, sigCount, hstack, hkeyCount, hsigCount⟩, hkeys, hsigs, hops⟩ := hcall
  obtain ⟨stack, alt, pc, ops, codesep⟩ := m
  subst hstack
  have hkeysLen : keys.length ≤ (rest ++ [dummy] ++ sigs.reverse ++ [sigCount] ++
      keys.reverse).length := by
    rw [List.length_append, List.length_reverse]
    exact Nat.le_add_left _ _
  have hsigsLen : sigs.length ≤ (rest ++ [dummy] ++ sigs.reverse).length := by
    rw [List.length_append, List.length_reverse]
    exact Nat.le_add_left _ _
  have hadd : addOps keys.length
      ⟨rest ++ [dummy] ++ sigs.reverse ++ [sigCount], alt, pc, ops, codesep⟩ =
      .ok ((), ⟨rest ++ [dummy] ++ sigs.reverse ++ [sigCount], alt, pc, ops + keys.length, codesep⟩) := by
    rw [addOps_eq]
    exact if_pos hops
  rw [opCheckmultisig, bind_apply_of_ok (popNumber_append hkeyCount),
    ok_bind_apply (require_eq_ok ⟨Int.natCast_nonneg _, hkeys⟩)]
  dsimp only
  rw [Int.toNat_natCast, bind_apply_of_ok (requireStack_of_le hkeysLen),
    bind_apply_of_ok (popMany_append keys), bind_apply_of_ok hadd,
    bind_apply_of_ok (popNumber_append hsigCount),
    ok_bind_apply (require_eq_ok ⟨Int.natCast_nonneg _, Int.ofNat_le.mpr hsigs⟩)]
  rw [Int.toNat_natCast, bind_apply_of_ok (requireStack_of_le hsigsLen),
    bind_apply_of_ok (popMany_append sigs), bind_apply_of_ok pop_append,
    ok_bind_apply (demand_eq_ok hctx), get_bind_apply, ok_bind_apply (sliceFrom_eq_ok hcode),
    ok_bind_apply (matchSigs_greedy sigs keys 0), List.drop_zero]
  dsimp only
  cases greedy (verifies env ctx (removeSigs (env.script.drop codesep) sigs)) sigs keys with
  | true => rfl
  | false => rfl

theorem multisigCall_of_ok (h : opCheckmultisig env false m = .ok ((), m')) :
    ∃ rest keys sigs, MultisigCall m rest keys sigs := by
  obtain ⟨nKeys, m₁, hkeyCount, h⟩ := bind_apply_eq_ok.mp h
  obtain ⟨_, hkeys, h⟩ := liftM_bind_apply_eq_ok.mp h
  obtain ⟨_, m₂, hdepth, h⟩ := bind_apply_eq_ok.mp h
  obtain ⟨keys, m₃, hmany, h⟩ := bind_apply_eq_ok.mp h
  obtain ⟨_, m₄, hops, h⟩ := bind_apply_eq_ok.mp h
  obtain ⟨nSigs, m₅, hsigCount, h⟩ := bind_apply_eq_ok.mp h
  obtain ⟨_, hsigs, h⟩ := liftM_bind_apply_eq_ok.mp h
  obtain ⟨_, m₆, hdepth', h⟩ := bind_apply_eq_ok.mp h
  obtain ⟨sigs, m₇, hmany', h⟩ := bind_apply_eq_ok.mp h
  obtain ⟨dummy, m₈, hdummy, -⟩ := bind_apply_eq_ok.mp h
  have hkeys' := ensure_eq_ok.mp hkeys
  have hsigs' := ensure_eq_ok.mp hsigs
  -- the stack, from the last pop back to the first
  obtain ⟨keyCount, hm, hdecodeKeys⟩ := popNumber_eq_ok hkeyCount
  obtain rfl := requireStack_eq_ok hdepth
  obtain ⟨hkeysLen, hm₁⟩ := popMany_eq_ok hmany
  obtain ⟨hmax, rfl⟩ := addOps_eq_ok hops
  obtain ⟨sigCount, hm₃, hdecodeSigs⟩ := popNumber_eq_ok hsigCount
  obtain rfl := requireStack_eq_ok hdepth'
  obtain ⟨hsigsLen, hm₅⟩ := popMany_eq_ok hmany'
  have hm₇ := pop_eq_ok hdummy
  have hnKeys : nKeys = keys.length := by omega
  have hnSigs : nSigs = sigs.length := by omega
  subst hnKeys hnSigs
  have hstack₃ : m₃.stack = m₆.stack ++ [sigCount] := congrArg Machine.stack hm₃
  refine ⟨m₈.stack, keys, sigs, ⟨dummy, keyCount, sigCount, ?_, hdecodeKeys, hdecodeSigs⟩, hkeys'.2,
    ?_, ?_⟩
  · rw [congrArg Machine.stack hm, congrArg Machine.stack hm₁, hstack₃, congrArg Machine.stack hm₅,
      congrArg Machine.stack hm₇]
  · rw [Int.toNat_natCast] at hsigs'
    exact Int.ofNat_le.mp hsigs'.2
  · rw [Int.toNat_natCast] at hmax
    rw [congrArg Machine.opCount hm, congrArg Machine.opCount hm₁]
    exact hmax

def Matching (env : Env) (ctx : SignatureContext) (scriptCode : Bytes) (sigs keys : List Bytes) :
    Prop :=
  ∃ f : Fin sigs.length → Fin keys.length, StrictMono f ∧
    ∀ i, sigs.get i ≠ [] ∧ verifies env ctx scriptCode (sigs.get i) (keys.get (f i))

theorem greedy_verifies_iff {scriptCode : Bytes} :
    greedy (verifies env ctx scriptCode) sigs keys ↔ Matching env ctx scriptCode sigs keys := by
  rw [greedy_iff, sublistForall₂_iff_exists_orderEmbedding]
  constructor
  · rintro ⟨f, hf⟩
    refine ⟨f, f.strictMono, fun i => ⟨?_, hf i⟩⟩
    intro hempty
    have hi := hf i
    rw [hempty] at hi
    cases hi
  · rintro ⟨f, hmono, hf⟩
    exact ⟨OrderEmbedding.ofStrictMono f hmono, fun i => (hf i).2⟩

/-- Where the checks pass, the answer is true exactly when there is a matching, under
the script code without the signatures. The position of the last separator is in
the script, as at every turn of the loop. -/
theorem checkmultisig_accepts_matchings (hctx : env.sigCtx = some ctx)
    (hcode : m.codesepPos ≤ env.script.length) :
    (∀ rest keys sigs, MultisigCall m rest keys sigs → ∃ success : Bool,
      opCheckmultisig env false m = .ok ((), { m with
        stack := rest ++ [if success then [1] else []], opCount := m.opCount + keys.length }) ∧
      (success ↔ Matching env ctx (removeSigs (env.script.drop m.codesepPos) sigs) sigs keys)) ∧
      ∀ m', opCheckmultisig env false m = .ok ((), m') →
        ∃ rest keys sigs, MultisigCall m rest keys sigs :=
  ⟨fun _ _ _ hcall => ⟨_, opCheckmultisig_eq hctx hcode hcall, greedy_verifies_iff⟩,
    fun _ => multisigCall_of_ok⟩

def twoOfThree : Machine := ⟨[[], [2, 1], [3, 1], [2], [1], [2], [3], [3]], [], 0, 0, 0⟩

theorem two_of_three_matched :
    ∃ success : Bool, opCheckmultisig ⟨plainCrypto, [0xae], some plainContext⟩ false twoOfThree =
        .ok ((), { twoOfThree with stack := [if success then [1] else []], opCount := 3 }) ∧
      (success ↔ Matching ⟨plainCrypto, [0xae], some plainContext⟩ plainContext
        (removeSigs [0xae] [[3, 1], [2, 1]]) [[3, 1], [2, 1]] [[3], [2], [1]]) :=
  (checkmultisig_accepts_matchings rfl (Nat.zero_le _)).1 [] [[3], [2], [1]] [[3, 1], [2, 1]]
    ⟨⟨[], [3], [2], by decide, by decide, by decide⟩, by decide, by decide, by decide⟩

end Result

end Ironcat.Script
