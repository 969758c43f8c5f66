import Motion.Proofs.Blur
import Motion.Spec.Objects

/-! How far a pixel is from the mean around it. -/

namespace Motion

instance : DecidableRel Adj8 := fun _ _ => inferInstanceAs (Decidable (_ ∧ _))

/-- The pixels of the frame that touch a pixel. -/
def neighbours (width height : Nat) (p : Pixel) : Finset Pixel :=
  (frame width height).filter (Adj8 p)

theorem mem_neighbours {width height : Nat} {p q : Pixel} :
    q ∈ neighbours width height p ↔ InFrame width height q ∧ Adj8 p q := by
  unfold neighbours
  rw [Finset.mem_filter, mem_frame]

/-- The mean of a channel around a pixel, which counts for three of its neighbours. -/
def smoothed (b : Buf UInt8) (width height : Nat) (p : Pixel) (c : Nat) : Nat :=
  (9 * (b (byteAt width p c)).toNat +
    3 * ∑ q ∈ neighbours width height p, (b (byteAt width q c)).toNat) /
  (9 + 3 * (neighbours width height p).card)

theorem smoothed_le (b : Buf UInt8) (width height : Nat) (p : Pixel) (c : Nat) :
    smoothed b width height p c ≤ 255 := by
  unfold smoothed
  have hbyte : ∀ q, (b (byteAt width q c)).toNat ≤ 255 := by
    intro q
    have := (b (byteAt width q c)).toNat_lt
    omega
  have hsum : ∑ q ∈ neighbours width height p, (b (byteAt width q c)).toNat ≤
      (neighbours width height p).card * 255 := by
    simpa using Finset.sum_le_card_nsmul _ _ 255 (fun q _ => hbyte q)
  have := hbyte p
  exact Nat.le_trans (Nat.div_le_div_right (by omega : _ ≤ 255 * (9 + 3 * _)))
    (Nat.mul_div_cancel _ (by omega)).le

end Motion
