import Motion.Proofs.Stitches

/-! Which label a pixel is given, told from the image alone: its band's first label and
one more for each label the band has taken before the pixel's start. -/

namespace Motion
open Labelling

open Classical in
/-- How many labels a band takes at pixels before an index. -/
noncomputable def labelsBefore (input : Buf UInt8) (width : Nat) (order : List Band)
    (b : Band) (n : Nat) : Nat :=
  ((b.pixels width).filter
    (fun x => TakesLabel input width order x ∧ idx width x < n)).length

/-- The label a start is given. -/
def GivenTo (input : Buf UInt8) (width : Nat) (order : List Band) (n l : Nat) : Prop :=
  ∃ b ∈ bands, IdxIn width b n ∧ l = b.startLabel + labelsBefore input width order b n

/-- The label a pixel is given. -/
def GivenLabel (input : Buf UInt8) (width : Nat) (order : List Band) (q : Pixel) (l : Nat) :
    Prop :=
  GivenTo input width order (parStart input width order q) l

/-- Numbers apart, as many as an interval holds and all in it, fill it. -/
theorem image_fills {α : Type} {S : Finset α} {f : α → Nat} {first : Nat}
    (inj : Set.InjOn f S) (range : ∀ x ∈ S, first ≤ f x ∧ f x < first + S.card) :
    S.image f = Finset.Ico first (first + S.card) := by
  have hsub : S.image f ⊆ Finset.Ico first (first + S.card) := by
    intro k hk
    obtain ⟨x, hx, rfl⟩ := Finset.mem_image.mp hk
    exact Finset.mem_Ico.mpr (range x hx)
  refine Finset.eq_of_subset_of_card_le hsub ?_
  rw [Nat.card_Ico, Finset.card_image_of_injOn inj]
  omega

/-- They are found at their ranks. -/
theorem card_below {α : Type} {S : Finset α} {f : α → Nat} {first m : Nat}
    (inj : Set.InjOn f S) (range : ∀ x ∈ S, first ≤ f x ∧ f x < first + S.card)
    (hlo : first ≤ m) (hhi : m < first + S.card) :
    first + (S.filter (fun x => f x < m)).card = m := by
  have hbelow : (S.filter (fun x => f x < m)).image f = Finset.Ico first m := by
    ext k
    have hk := Finset.ext_iff.mp (image_fills inj range) k
    simp only [Finset.mem_image, Finset.mem_filter, Finset.mem_Ico] at hk ⊢
    constructor
    · rintro ⟨x, ⟨hx, hlt⟩, rfl⟩
      exact ⟨(range x hx).1, hlt⟩
    · rintro ⟨hge, hlt⟩
      obtain ⟨x, hx, rfl⟩ := hk.mpr ⟨hge, by omega⟩
      exact ⟨x, ⟨hx, hlt⟩, rfl⟩
  have hcard := congrArg Finset.card hbelow
  rw [Finset.card_image_of_injOn (inj.mono (Finset.filter_subset _ _)), Nat.card_Ico] at hcard
  omega

open Classical in
/-- The pixels at which a band takes its labels. -/
noncomputable def takers (input : Buf UInt8) (width : Nat) (order : List Band) (b : Band) :
    Finset Pixel :=
  ((b.pixels width).filter (TakesLabel input width order)).toFinset

variable {w width : Nat} {input : Buf UInt8} {order : List Band} {top : Band → Nat}
  {out : Buf Nat} {blobs : Table w} {b b' : Band} {q x : Pixel}

theorem pixels_nodup (width : Nat) (b : Band) : (b.pixels width).Nodup := by
  refine (pixels_sorted width b).imp ?_
  rintro p _ hlt rfl
  exact Before.irrefl p hlt

theorem mem_takers : x ∈ takers input width order b ↔
    x ∈ b.pixels width ∧ TakesLabel input width order x := by
  simp [takers]

theorem card_takers : (takers input width order b).card = labelsTaken input width order b :=
  List.toFinset_card_of_nodup ((pixels_nodup width b).filter _)

/-- An index lies in the rows of one band only. -/
theorem IdxIn.unique {n : Nat} (hb : b ∈ bands) (hb' : b' ∈ bands) (h : IdxIn width b n)
    (h' : IdxIn width b' n) : b = b' := by
  unfold IdxIn at h h'
  cases bands_apart hb hb' with
  | inl he => exact he
  | inr hap =>
    cases hap with
    | inl hap =>
      have : (b.endRow + 1) * width ≤ b'.startRow * width := Nat.mul_le_mul_right _ hap.1
      omega
    | inr hap =>
      have : (b'.endRow + 1) * width ≤ b.startRow * width := Nat.mul_le_mul_right _ hap.1
      omega

/-- A start is given one label only. -/
theorem GivenTo.unique {n l k : Nat} (h : GivenTo input width order n l)
    (h' : GivenTo input width order n k) : l = k := by
  obtain ⟨b, hb, hin, rfl⟩ := h
  obtain ⟨b', hb', hin', rfl⟩ := h'
  rw [hin.unique hb hb' hin']

namespace Run

variable (h : Bands w input width order top out blobs) (fair : order.Perm bands)
  (counts : ∀ b ∈ bands, top b = b.startLabel + labelsTaken input width order b)

include h fair

/-- The pixels at which a band takes its labels carry different ones. -/
theorem takers_inj (b : Band) :
    Set.InjOn (fun x => out (idx width x)) (takers input width order b) := by
  intro x hx y hy he
  obtain ⟨hxm, hxt⟩ := mem_takers.mp hx
  obtain ⟨hym, hyt⟩ := mem_takers.mp hy
  have hstarts := (h.label_eq fair hxt.1 hyt.1).mp he
  rw [hxt.start, hyt.start] at hstarts
  have hxc := mem_pixels.mp hxm
  have hyc := mem_pixels.mp hym
  exact idx_inj (by omega) (by omega) hstarts

include counts

/-- They carry the labels it takes. -/
theorem taken_range (hb : b ∈ bands) (hx : x ∈ b.pixels width)
    (htakes : TakesLabel input width order x) :
    b.startLabel ≤ out (idx width x) ∧
      out (idx width x) < b.startLabel + labelsTaken input width order b := by
  obtain ⟨b', hb', hlo, hhi, hin⟩ := h.home x ((live_iff w fair).mpr htakes.1)
  have hx := mem_pixels.mp hx
  rw [htakes.start] at hin
  obtain rfl := hin.unique hb' hb (idxIn_of_inRows (by omega) hx.1)
  exact ⟨hlo, by rwa [← counts b' hb']⟩

theorem takers_range (hb : b ∈ bands) : ∀ x ∈ takers input width order b,
    b.startLabel ≤ out (idx width x) ∧
      out (idx width x) < b.startLabel + (takers input width order b).card := by
  intro x hx
  rw [card_takers]
  exact h.taken_range fair counts hb (mem_takers.mp hx).1 (mem_takers.mp hx).2

/-- Every label a band takes is carried. -/
theorem taken_carried (hb : b ∈ bands) {i : Nat} (hlo : b.startLabel ≤ i)
    (hhi : i < b.startLabel + labelsTaken input width order b) :
    ∃ x, Moving input width labelledHeight x ∧ out (idx width x) = i := by
  have hi : i ∈ (takers input width order b).image (fun x => out (idx width x)) := by
    rw [image_fills (h.takers_inj fair b) (h.takers_range fair counts hb), card_takers]
    exact Finset.mem_Ico.mpr ⟨hlo, hhi⟩
  obtain ⟨x, hx, he⟩ := Finset.mem_image.mp hi
  exact ⟨x, (mem_takers.mp hx).2.1, he⟩

/-- A pixel carries the label it is given. -/
theorem given_label (hq : Moving input width labelledHeight q) :
    GivenLabel input width order q (out (idx width q)) := by
  classical
  obtain ⟨b, hb, hlo, hhi, hin⟩ := h.home q ((live_iff w fair).mpr hq)
  rw [counts b hb] at hhi
  refine ⟨b, hb, hin, ?_⟩
  have hbelow : (takers input width order b).filter
        (fun x => out (idx width x) < out (idx width q)) =
      ((b.pixels width).filter (fun x => TakesLabel input width order x ∧
        idx width x < parStart input width order q)).toFinset := by
    ext x
    rw [Finset.mem_filter, mem_takers, List.mem_toFinset, List.mem_filter, decide_eq_true_eq,
      and_assoc]
    refine and_congr_right (fun _ => and_congr_right (fun htakes => ?_))
    rw [h.label_lt fair htakes.1 hq, htakes.start]
  have hrank := card_below (h.takers_inj fair b) (h.takers_range fair counts hb) hlo
    (by rwa [card_takers])
  rw [hbelow, List.toFinset_card_of_nodup ((pixels_nodup width b).filter _)] at hrank
  exact hrank.symm

end Run

end Motion
