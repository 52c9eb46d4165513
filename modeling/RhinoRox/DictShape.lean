import RhinoRox.DictTraversals

/-!
# The tree behind a dictionary

The representation invariant in the terms of `rr_dict.c`: critical bits advance on every way
down, they are the first in which the keys below a node differ, and they send every key to
the side of its own bit.
-/

namespace RhinoRox

open CritBitTree

variable {α : Type}

/-- The bit of a key at a position; bytes past its end are 0. -/
def keyBit (k : Bytes) (p : CritPos) : Bool := (byteAt k p.byteIdx).toNat.testBit p.bitIdx

/-- `byte_idx` ascends, and `bit_idx` descends within a byte. -/
def CritPos.Before (p q : CritPos) : Prop :=
  p.byteIdx < q.byteIdx ∨ p.byteIdx = q.byteIdx ∧ q.bitIdx < p.bitIdx

/-- The crit-bit representation invariant. -/
structure DictT.CritBit (d : DictT α) : Prop where
  advancing : ∀ ps ∈ d.dict.paths, ps.Pairwise CritPos.Before
  agree : ∀ {p : CritPos} {zero one : Dict α}, (.node p zero one : Dict α).Subtree d.dict →
    ∀ k ∈ zero.keys ++ one.keys, ∀ k' ∈ zero.keys ++ one.keys, ∀ q : CritPos, q.Before p →
      keyBit k q = keyBit k' q
  zeros : ∀ {p : CritPos} {zero one : Dict α}, (.node p zero one : Dict α).Subtree d.dict →
    ∀ k ∈ zero.keys, keyBit k p = false
  ones : ∀ {p : CritPos} {zero one : Dict α}, (.node p zero one : Dict α).Subtree d.dict →
    ∀ k ∈ one.keys, keyBit k p = true
  children : ∀ {p : CritPos} {zero one : Dict α}, (.node p zero one : Dict α).Subtree d.dict →
    zero.keys ≠ [] ∧ one.keys ≠ []
  size : d.dict.keys.length = d.size

theorem direction_eq_keyBit : direction = keyBit := by
  funext k p
  exact direction_eq k p

/-- Every dictionary that `dict_set`, `dict_del` and `dict_clear` produce is a crit-bit tree. -/
theorem dict_is_crit_bit {d : DictT α} (h : DictReachable d) : d.CritBit := by
  have hi := h.inv
  have hsize : d.dict.keys.length = d.size := by
    rw [hi.size_eq, Tree.keys, List.length_map]
    rfl
  have hvalid : Valid keyBit d.dict := direction_eq_keyBit ▸ hi.valid
  have hnode : ∀ {p : CritPos} {zero one : Dict α}, (.node p zero one : Dict α).Subtree d.dict →
      WellFormed keyBit (.node p zero one) := by
    intro p zero one hs
    rcases hvalid with he | hw
    · rw [he] at hs
      cases hs
    · exact hw.subtree hs
  constructor
  · intro ps hps
    rcases hvalid with he | hw
    · simp [he, Tree.paths] at hps
    · exact (hw.paths_sorted hps).imp fun hlt => CritPos.lt_iff.mp hlt
  · intro p zero one hs k hk k' hk' q hq
    cases hnode hs with
    | node _ _ _ _ agree => exact agree k hk k' hk' q (CritPos.lt_iff.mpr hq)
  · intro p zero one hs
    cases hnode hs with
    | node _ _ hzero _ _ => exact hzero
  · intro p zero one hs
    cases hnode hs with
    | node _ _ _ hone _ => exact hone
  · intro p zero one hs
    cases hnode hs with
    | node left right _ _ _ =>
      obtain ⟨k, hk⟩ := left.exists_key
      obtain ⟨k', hk'⟩ := right.exists_key
      exact ⟨List.ne_nil_of_mem hk, List.ne_nil_of_mem hk'⟩
  · exact hsize

theorem dict_is_crit_bit_two_keys : twoKeys.CritBit := dict_is_crit_bit twoKeys_reachable

end RhinoRox
