import Ironcat.Lib.ByteCodec

/-!
# Encodings that mark their own end

An encoding splits when, whatever follows it, the symbols determine a key of
what was encoded and where the encoding ends. Encodings that split may be
concatenated, and so may a counted list of them.
-/

namespace Ironcat.Lib.PrefixCode

open Lib.ByteCodec

variable {α β κ κ' σ : Type} {p : α → Prop} {q : β → Prop} {bound : ℕ}

def Splits (p : α → Prop) (encode : α → List σ) (key : α → κ) : Prop :=
  ∀ a b, p a → p b → ∀ t u, encode a ++ t = encode b ++ u → key a = key b ∧ t = u

theorem Splits.key_eq {encode : α → List σ} {key : α → κ} (h : Splits p encode key) {a b : α}
    (ha : p a) (hb : p b) (heq : encode a = encode b) : key a = key b :=
  (h a b ha hb [] [] (by rw [heq])).1

theorem Splits.append {e₁ e₂ : α → List σ} {k₁ : α → κ} {k₂ : α → κ'} (h₁ : Splits p e₁ k₁)
    (h₂ : Splits p e₂ k₂) : Splits p (fun a => e₁ a ++ e₂ a) fun a => (k₁ a, k₂ a) := by
  intro a b ha hb t u h
  rw [List.append_assoc, List.append_assoc] at h
  obtain ⟨hk₁, h⟩ := h₁ a b ha hb _ _ h
  obtain ⟨hk₂, htu⟩ := h₂ a b ha hb t u h
  exact ⟨Prod.ext hk₁ hk₂, htu⟩

theorem Splits.comap {encode : α → List σ} {key : α → κ} (h : Splits p encode key) (f : β → α)
    (hq : ∀ b, q b → p (f b)) : Splits q (fun b => encode (f b)) fun b => key (f b) :=
  fun a b ha hb => h (f a) (f b) (hq a ha) (hq b hb)

theorem Splits.congr {e e' : α → List σ} {k : α → κ} {k' : α → κ'} (h : Splits p e k)
    (hencode : ∀ a, e' a = e a) (hkey : ∀ a b, k a = k b → k' a = k' b) : Splits p e' k' := by
  intro a b ha hb t u heq
  rw [hencode, hencode] at heq
  obtain ⟨hk, htu⟩ := h a b ha hb t u heq
  exact ⟨hkey a b hk, htu⟩

theorem Splits.sized {count : ℕ → List σ} (h : Splits (· < bound) count id) :
    Splits (fun l : List σ => l.length < bound) (fun l => count l.length ++ l) id := by
  intro a b ha hb t u heq
  rw [List.append_assoc, List.append_assoc] at heq
  obtain ⟨hlen, heq⟩ := h a.length b.length ha hb _ _ heq
  exact List.append_inj heq hlen

theorem Splits.flatMap {encode : α → List σ} (h : Splits p encode id) {xs ys : List α}
    (hlen : xs.length = ys.length) (hxs : ∀ x ∈ xs, p x) (hys : ∀ y ∈ ys, p y) {t u : List σ}
    (heq : xs.flatMap encode ++ t = ys.flatMap encode ++ u) : xs = ys ∧ t = u := by
  induction xs generalizing ys with
  | nil =>
    obtain rfl := List.length_eq_zero_iff.mp hlen.symm
    exact ⟨rfl, heq⟩
  | cons x xs ih =>
    cases ys with
    | nil => cases hlen
    | cons y ys =>
      rw [List.forall_mem_cons] at hxs hys
      rw [List.flatMap_cons, List.flatMap_cons, List.append_assoc, List.append_assoc] at heq
      obtain ⟨hxy, heq⟩ := h x y hxs.1 hys.1 _ _ heq
      obtain ⟨hrest, htu⟩ := ih (Nat.succ.inj hlen) hxs.2 hys.2 heq
      exact ⟨by rw [show x = y from hxy, hrest], htu⟩

theorem Splits.counted {count : ℕ → List σ} {encode : α → List σ}
    (hcount : Splits (· < bound) count id) (h : Splits p encode id) :
    Splits (fun xs : List α => xs.length < bound ∧ ∀ x ∈ xs, p x)
      (fun xs => count xs.length ++ xs.flatMap encode) id := by
  intro xs ys hxs hys t u heq
  rw [List.append_assoc, List.append_assoc] at heq
  obtain ⟨hlen, heq⟩ := hcount xs.length ys.length hxs.1 hys.1 _ _ heq
  exact h.flatMap hlen hxs.2 hys.2 heq

theorem splits_of_reads {r : Reader α} {encode : α → Bytes}
    (h : ∀ a, p a → Reader.Reads r (encode a) a) : Splits p encode id := by
  intro a b ha hb t u heq
  have hread := h a ha t
  rw [heq, h b hb u, Option.some.injEq, Prod.mk.injEq] at hread
  exact ⟨hread.1.symm, hread.2.symm⟩

end Ironcat.Lib.PrefixCode
