import Motion.Proofs.Capacity
import Motion.Proofs.Components
import Motion.Proofs.Pictures
import Motion.Proofs.Shading

/-! The greys `blob_detect` paints the blobs in, and what is left of them in a file: the image
holds 30 times the label modulo 65536, the file the low byte of that. -/

namespace Motion

variable {w width height : Nat} {output : Buf Nat} {input : Buf UInt8} {p q : Pixel}

/-- An active pixel that neither the box nor the cross covers. -/
def Bare (b : Blob w) (input : Buf UInt8) (width height : Nat) (p : Pixel) : Prop :=
  Moving input width height p ∧ ¬drawn b p = true

theorem shade_black_iff (l : Nat) : ushort (l * 30) = 0 ↔ 32768 ∣ l := by
  unfold ushort
  omega

theorem shade_eq_iff (l k : Nat) : ushort (l * 30) = ushort (k * 30) ↔ l % 32768 = k % 32768 := by
  unfold ushort
  omega

/-- A shade is even, the box is not. -/
theorem shade_ne_box (l : Nat) : ushort (l * 30) ≠ 255 := by
  unfold ushort
  omega

theorem shade_byte_iff (l k : Nat) :
    UInt8.ofNat (ushort (l * 30)) = UInt8.ofNat (ushort (k * 30)) ↔ l % 128 = k % 128 := by
  rw [ofNat_byte_eq]
  unfold ushort
  omega

/-- The last pass on a pixel that is bare. -/
theorem blobDetect_bare (stack : Buf (Blob w)) (biggest : Blob w)
    (hp : Bare (blobDetect stack biggest output input width height).biggestBlob input width
      height p) :
    (blobDetect stack biggest output input width height).output (idx width p) =
      ushort ((blobDetect stack biggest output input width height).relabelled (idx width p) *
        30) :=
  (draw_apply _ _ _ hp.1.1).trans (if_neg hp.2)

/-- Where the labels fit the table, and with fewer than 32768 starts, `blob_detect` paints no two
objects alike: a bare pixel is neither black nor of the box's grey, two bare pixels have the same
grey exactly if they have the same label, and then belong to one object. A file tells labels
apart modulo 128 only. -/
theorem blobDetect_greys (stack : Buf (Blob w)) (biggest : Blob w)
    (border : BorderZero width height output) (fit : LabelsFit w width height output input)
    (few : (starts input width height).length < 32768) :
    let d := blobDetect stack biggest output input width height
    (∀ p, Bare d.biggestBlob input width height p →
      d.output (idx width p) ≠ 0 ∧ d.output (idx width p) ≠ 255) ∧
    (∀ p q, Bare d.biggestBlob input width height p → Bare d.biggestBlob input width height q →
      (d.output (idx width p) = d.output (idx width q) ↔
        d.relabelled (idx width p) = d.relabelled (idx width q)) ∧
      (d.output (idx width p) = d.output (idx width q) → Connected input width height p q) ∧
      (UInt8.ofNat (d.output (idx width p)) = UInt8.ofNat (d.output (idx width q)) ↔
        d.relabelled (idx width p) % 128 = d.relabelled (idx width q) % 128)) := by
  have hcount : (labelLoop w width height output input).labelCounter =
      (starts input width height).length + 1 := labelCounter_eq border
  have hfit := fit.counter_le
  have h := labelLoop_labelled border hfit
  intro d
  have hon : ∀ p, Moving input width height p → d.relabelled (idx width p) =
      links (redirected (labelLoop w width height output input))
        (labelAt width (labelLoop w width height output input) p) :=
    fun p hp => h.relabelled_on hfit stack hp
  have hrange : ∀ p, Moving input width height p →
      1 ≤ d.relabelled (idx width p) ∧ d.relabelled (idx width p) < 32768 := by
    intro p hp
    obtain ⟨q, hq, he⟩ := h.mergeable.carried p (mem_moving.mpr hp)
    have hr := h.range (mem_moving.mp hq)
    rw [hon p hp]
    omega
  have hshade : ∀ p, Bare d.biggestBlob input width height p →
      d.output (idx width p) = ushort (d.relabelled (idx width p) * 30) :=
    fun p hp => blobDetect_bare stack biggest hp
  refine ⟨?_, ?_⟩
  · intro p hp
    have hr := hrange p hp.1
    rw [hshade p hp]
    refine ⟨?_, shade_ne_box _⟩
    rw [Ne, shade_black_iff]
    omega
  · intro p q hp hq
    have hrp := hrange p hp.1
    have hrq := hrange q hq.1
    have hsame : d.output (idx width p) = d.output (idx width q) ↔
        d.relabelled (idx width p) = d.relabelled (idx width q) := by
      rw [hshade p hp, hshade q hq, shade_eq_iff]
      omega
    refine ⟨hsame, fun he => ?_, ?_⟩
    · have hl := hsame.mp he
      rw [hon p hp.1, hon q hq.1] at hl
      exact (h.linked_of_root hp.1 hq.1 hl).mono (fun r hr => hr.1)
    · rw [hshade p hp, hshade q hq, shade_byte_iff]

theorem blobDetect_greys_twoArms :
    let d := blobDetect (w := 32) (Buf.all Blob.zero) Blob.zero (Buf.all 0) twoArms 7 5
    (∀ p, Bare d.biggestBlob twoArms 7 5 p →
      d.output (idx 7 p) ≠ 0 ∧ d.output (idx 7 p) ≠ 255) ∧
    (∀ p q, Bare d.biggestBlob twoArms 7 5 p → Bare d.biggestBlob twoArms 7 5 q →
      (d.output (idx 7 p) = d.output (idx 7 q) ↔
        d.relabelled (idx 7 p) = d.relabelled (idx 7 q)) ∧
      (d.output (idx 7 p) = d.output (idx 7 q) → Connected twoArms 7 5 p q) ∧
      (UInt8.ofNat (d.output (idx 7 p)) = UInt8.ofNat (d.output (idx 7 q)) ↔
        d.relabelled (idx 7 p) % 128 = d.relabelled (idx 7 q) % 128)) := by
  have border := BorderZero.all 7 5
  have hcount : (labelLoop 32 7 5 (Buf.all 0) twoArms).labelCounter =
      (starts twoArms 7 5).length + 1 := labelCounter_eq border
  have hfour : (labelLoop 32 7 5 (Buf.all 0) twoArms).labelCounter = 4 := by decide +kernel
  exact blobDetect_greys (Buf.all Blob.zero) Blob.zero border twoArms_labelsFit (by omega)

end Motion
