import Mathlib.Data.UInt

/-!
# Facts about single bytes

A fact about every byte is decided by its 256 values.
-/

namespace Octets

theorem forall_byte
    {p : UInt8 → Prop} (h : ∀ n < 256, p (UInt8.ofNat n))
    (b : UInt8) : p b := by
  have hb := h b.toNat b.toNat_lt
  rwa [UInt8.ofNat_toNat] at hb

instance decidableForall (p : UInt8 → Prop) [DecidablePred p] :
    Decidable (∀ b, p b) :=
  decidable_of_iff (∀ n < 256, p (UInt8.ofNat n)) ⟨forall_byte, fun h _ _ => h _⟩

end Octets
