import Motion.Proofs.BandScan
import Motion.Spec.Seams

/-! The calls of `stitch`, on the labels the calls of `label` leave. -/

namespace Motion
open Labelling

/-- The stitches as one pass over the pixels of the seams. -/
def stitchAll (width : Nat) (output : Buf Nat) (l : List Pixel) (blobs : Table w) : Table w :=
  l.foldl (fun t p => stitchPixel width p.1 output t p.2) blobs

theorem stitch_foldl (width : Nat) (stitches : List Nat) (sh : Shared w) :
    stitches.foldl (stitch width) sh =
      { sh with blobs := stitchAll width sh.output (seamPixels width stitches) sh.blobs } := by
  induction stitches generalizing sh with
  | nil => rfl
  | cons r rs ih =>
    rw [List.foldl_cons, ih]
    simp only [stitchAll, seamPixels, raster, stitch, List.flatMap_cons, List.foldl_append,
      List.foldl_map]

theorem mem_above {width l : Nat} {out : Buf Nat} {p : Pixel} (hr : 1 ≤ p.1) (hc : 1 ≤ p.2) :
    l ∈ [out (idx width (p.1 - 1, p.2 - 1)), out (idx width (p.1 - 1, p.2)),
      out (idx width (p.1 - 1, p.2 + 1))] ↔ ∃ q, Above p q ∧ out (idx width q) = l := by
  simp only [List.mem_cons, List.not_mem_nil, or_false, Above]
  constructor
  · rintro (h | h | h)
    · exact ⟨(p.1 - 1, p.2 - 1), ⟨Nat.sub_add_cancel hr, Or.inl (Nat.sub_add_cancel hc)⟩, h.symm⟩
    · exact ⟨(p.1 - 1, p.2), ⟨Nat.sub_add_cancel hr, Or.inr (Or.inl rfl)⟩, h.symm⟩
    · exact ⟨(p.1 - 1, p.2 + 1), ⟨Nat.sub_add_cancel hr, Or.inr (Or.inr rfl)⟩, h.symm⟩
  · rintro ⟨⟨r, c⟩, ⟨hr', hc'⟩, rfl⟩
    simp only at hr' hc'
    obtain rfl : r = p.1 - 1 := by omega
    rcases hc' with h | h | h
    · obtain rfl : c = p.2 - 1 := by omega
      exact Or.inl rfl
    · obtain rfl : c = p.2 := h
      exact Or.inr (Or.inl rfl)
    · obtain rfl : c = p.2 + 1 := h
      exact Or.inr (Or.inr rfl)

variable {w width : Nat} {input : Buf UInt8} {order : List Band} {top : Band → Nat}
  {out : Buf Nat} {blobs : Table w} {p q x : Pixel}

/-- The labels of a pixel of a seam and of those above it. -/
def Touched (width : Nat) (out : Buf Nat) (p : Pixel) (k : Nat) : Prop :=
  k = out (idx width p) ∨ ∃ q, Above p q ∧ out (idx width q) = k

/-- All that one step of `stitch` can do: nothing where nothing moves above the seam,
else it points the labels there at the least of those above. -/
inductive StitchStep (input : Buf UInt8) (width : Nat) (out : Buf Nat) (p : Pixel)
    (t t' : Table w) : Prop
  | idle (none : ∀ q, ¬OverSeam input width p q) (same : t' = t)
  | join (a : Pixel) (above : OverSeam input width p a)
      (least : ∀ q, OverSeam input width p q → out (idx width a) ≤ out (idx width q))
      (write : ∀ k, Touched width out p k → k ≠ out (idx width a) →
        t' k = { t k with label := out (idx width a) })
      (keep : ∀ k, k = out (idx width a) ∨ ¬Touched width out p k → t' k = t k)

/-- What the calls of `label` leave. -/
abbrev Bands (w : Nat) (input : Buf UInt8) (width : Nat) (order : List Band) (top : Band → Nat)
    (out : Buf Nat) (blobs : Table w) : Prop :=
  Run input width order top (order.flatMap (Band.pixels width)) out blobs

namespace Run

theorem live_iff (w : Nat) (fair : order.Perm bands) : p ∈ live (parScene w input width order)
    (order.flatMap (Band.pixels width)).toFinset ↔ Moving input width labelledHeight p := by
  rw [live_par w input width fair]
  rfl

variable (h : Bands w input width order top out blobs) (fair : order.Perm bands)

include h

theorem clear (hp : p.2 < width) (hn : ¬Moving input width labelledHeight p) :
    out (idx width p) = 0 := by
  by_cases hm : p ∈ order.flatMap (Band.pixels width)
  · exact (h.marked.zero p (by simpa using hm)).mpr hn
  · refine h.frame _ (fun q hq he => hm ?_)
    rwa [idx_inj hp (h.col_lt (s := ⟨out, blobs, 0⟩) hq) he]

include fair

/-- The entry of a label in use describes the moving pixels that carry it. -/
theorem describes (hq : Moving input width labelledHeight q) :
    Describes (blobs (out (idx width q)))
      ((moving input width labelledHeight).filter
        (fun p => out (idx width p) = out (idx width q))) := by
  have hlive := (live_iff w fair).mpr hq
  have hr : region (order.flatMap (Band.pixels width)).toFinset (marks width out blobs)
      (out (idx width q)) = (moving input width labelledHeight).filter
        (fun p => out (idx width p) = out (idx width q)) := by
    ext p
    simp only [region, Finset.mem_filter, mem_moving]
    constructor
    · rintro ⟨hp, he⟩
      exact ⟨h.marked.on_of_eq hlive.1 hp hq he, he⟩
    · rintro ⟨hp, he⟩
      exact ⟨((live_iff w fair).mpr hp).1, he⟩
  rw [← hr]
  exact h.gathered q hlive.1 hq

theorem label_range (hp : Moving input width labelledHeight p) :
    1 ≤ out (idx width p) ∧ out (idx width p) < maxBlobsPerThread * 4 := by
  obtain ⟨b, hb, hlo, hhi, _⟩ := h.home p ((live_iff w fair).mpr hp)
  have htop := h.tops b hb
  have hrange := bands_range hb
  omega

theorem label_lt (hp : Moving input width labelledHeight p)
    (hq : Moving input width labelledHeight q) :
    out (idx width p) < out (idx width q) ↔
      parStart input width order p < parStart input width order q :=
  h.ordered.order p ((live_iff w fair).mpr hp) q ((live_iff w fair).mpr hq)

theorem label_eq (hp : Moving input width labelledHeight p)
    (hq : Moving input width labelledHeight q) :
    out (idx width p) = out (idx width q) ↔
      parStart input width order p = parStart input width order q :=
  h.ordered.lab_eq_iff ((live_iff w fair).mpr hp) ((live_iff w fair).mpr hq)

theorem stitchPixel_step (hx : Inside width labelledHeight x) (t : Table w) :
    StitchStep input width out x t (stitchPixel width x.1 out t x.2) := by
  unfold Inside at hx
  have hmem : ∀ l, l ∈ [out (idx width (x.1 - 1, x.2 - 1)), out (idx width (x.1 - 1, x.2)),
      out (idx width (x.1 - 1, x.2 + 1))] ↔ ∃ q, Above x q ∧ out (idx width q) = l :=
    fun l => mem_above hx.1 hx.2.2.1
  have hcol : ∀ q, Above x q → q.2 < width := by
    intro q hq
    have := hq.near
    omega
  have hmoves : ∀ q, Above x q → out (idx width q) ≠ 0 → OverSeam input width x q := by
    intro q hq h0
    by_contra hn
    exact h0 (h.clear (hcol q hq) (fun hm => hn ⟨hq, hm⟩))
  have hlabel : ∀ q, OverSeam input width x q → out (idx width q) ≠ 0 ∧
      out (idx width q) < 9999 := by
    intro q hq
    have := h.label_range fair hq.2
    unfold maxBlobsPerThread at this
    omega
  simp only [stitchPixel]
  by_cases hm : minLabel 9999 [out (idx width (x.1 - 1, x.2 - 1)), out (idx width (x.1 - 1, x.2)),
      out (idx width (x.1 - 1, x.2 + 1))] = 9999
  · refine .idle (fun q hq => ?_) (if_neg (by simpa using hm))
    have hl := hlabel q hq
    have := minLabel_eq_iff.mp hm _ ((hmem _).mpr ⟨q, hq.1, rfl⟩) hl.1
    omega
  · obtain ⟨hin, h0, _⟩ := minLabel_mem hm
    obtain ⟨a, ha, he⟩ := (hmem _).mp hin
    rw [if_pos hm, ← he]
    rw [← he] at h0
    have htouch : ∀ k, k ∈ out (idx width x) :: [out (idx width (x.1 - 1, x.2 - 1)),
        out (idx width (x.1 - 1, x.2)), out (idx width (x.1 - 1, x.2 + 1))] ↔
        Touched width out x k := by
      intro k
      rw [List.mem_cons, hmem]
      rfl
    refine .join a (hmoves a ha h0) (fun q hq => ?_) (fun k hk hne => ?_) (fun k hk => ?_)
    · rw [he]
      exact minLabel_least ((hmem _).mpr ⟨q, hq.1, rfl⟩) (hlabel q hq).1
    · rw [linkAll_apply]
      exact if_pos ⟨(htouch k).mpr hk, hne⟩
    · exact linkAll_other (hk.imp id (fun hn hm => hn ((htouch k).mp hm)))

/-- What the stitches keep, whatever the image: labels in use lead to labels in use, and
nothing but links changes. -/
structure Tied (input : Buf UInt8) (width : Nat) (out : Buf Nat) (blobs t : Table w) : Prop where
  same : ∀ i, SameBut (blobs i) (t i)
  carried : ∀ q, Moving input width labelledHeight q → ∃ r, Moving input width labelledHeight r ∧
    out (idx width r) = links t (out (idx width q))
  slot : links t 0 = 0 ∨ ∃ r, Moving input width labelledHeight r ∧ out (idx width r) = links t 0
  unused : ∀ i ≠ 0, (∀ q, Moving input width labelledHeight q → out (idx width q) ≠ i) →
    t i = Blob.zero

theorem tied_start : Tied input width out blobs blobs where
  same := fun _ => SameBut.refl _
  carried := by
    intro q hq
    obtain ⟨r, hr, he, _⟩ := h.sound.carried q ((live_iff w fair).mpr hq)
    exact ⟨r, (live_iff w fair).mp hr, he⟩
  slot := by
    cases hz : lastSpill input width order (order.flatMap (Band.pixels width)) with
    | none => exact Or.inl (h.spilled.1 hz)
    | some z =>
      obtain ⟨q, hq, he, _⟩ := h.spilled.2 z hz
      exact Or.inr ⟨q, (live_iff w fair).mp hq, he⟩
  unused := fun i h0 hi => h.unused i h0 (fun q hq => hi q ((live_iff w fair).mp hq))

omit fair in
/-- The label of a pixel at a seam is in use, or 0. -/
theorem touched_used (hx : Inside width labelledHeight x) {k : Nat} (h0 : k ≠ 0)
    (hk : Touched width out x k) :
    ∃ y, (y = x ∨ Above x y) ∧ Moving input width labelledHeight y ∧ out (idx width y) = k := by
  unfold Inside at hx
  have hmoves : ∀ y : Pixel, y.2 < width → out (idx width y) = k →
      Moving input width labelledHeight y := by
    intro y hy he
    by_contra hn
    exact h0 (he.symm.trans (h.clear hy hn))
  rcases hk with he | ⟨y, hy, he⟩
  · exact ⟨x, Or.inl rfl, hmoves x (by omega) he.symm, he.symm⟩
  · have := hy.near
    exact ⟨y, Or.inr hy, hmoves y (by omega) he, he⟩

omit fair in
theorem tied_step (hx : Inside width labelledHeight x) {t t' : Table w}
    (ht : Tied input width out blobs t) (hs : StitchStep input width out x t t') :
    Tied input width out blobs t' := by
  cases hs with
  | idle _ same => rwa [same]
  | join a ha _ write keep =>
    have hsplit : ∀ k, t' k = { t k with label := out (idx width a) } ∨ t' k = t k := by
      intro k
      by_cases hk : Touched width out x k ∧ k ≠ out (idx width a)
      · exact Or.inl (write k hk.1 hk.2)
      · exact Or.inr (keep k (by tauto))
    constructor
    · intro i
      rcases hsplit i with he | he
      · rw [he]
        exact (ht.same i).relabel _
      · rw [he]
        exact ht.same i
    · intro q hq
      unfold links
      rcases hsplit (out (idx width q)) with he | he
      · rw [he]
        exact ⟨a, ha.2, rfl⟩
      · rw [he]
        exact ht.carried q hq
    · unfold links
      rcases hsplit 0 with he | he
      · rw [he]
        exact Or.inr ⟨a, ha.2, rfl⟩
      · rw [he]
        exact ht.slot
    · intro i h0 hi
      rw [keep i (Or.inr (fun hk => ?_)), ht.unused i h0 hi]
      obtain ⟨y, _, hy, he⟩ := h.touched_used hx h0 hk
      exact hi y hy he

theorem stitchAll_tied {l : List Pixel} (hl : ∀ p ∈ l, Inside width labelledHeight p) :
    Tied input width out blobs (stitchAll width out l blobs) :=
  Fold.invariant (P := Tied input width out blobs) l blobs (h.tied_start fair)
    (fun p hp t ht => h.tied_step (hl p hp) ht (h.stitchPixel_step fair (hl p hp) t))

/-- Where the pixel below does not rise, no label at a seam lies below the least above it. -/
theorem touched_least {a : Pixel} (hx : Inside width labelledHeight x)
    (level : ¬Rises input width order x) (ha : OverSeam input width x a)
    (least : ∀ q, OverSeam input width x q → out (idx width a) ≤ out (idx width q))
    {k : Nat} (h0 : k ≠ 0) (hk : Touched width out x k) : out (idx width a) ≤ k := by
  obtain ⟨y, hy, hym, he⟩ := h.touched_used hx h0 hk
  rw [← he]
  rcases hy with rfl | hy
  · by_contra hlt
    refine level ⟨hym, ⟨a, ha⟩, fun b hb => ?_⟩
    have := least b hb
    exact (h.label_lt fair hym hb.2).mp (by omega)
  · exact least y ⟨hy, hym⟩

/-- Where no pixel of a seam rises no link leads up. -/
theorem stitchAll_falls {l : List Pixel} (hl : ∀ p ∈ l, Inside width labelledHeight p)
    (level : ∀ p ∈ l, ¬Rises input width order p) (hq : Moving input width labelledHeight q) :
    links (stitchAll width out l blobs) (out (idx width q)) ≤ out (idx width q) := by
  refine Fold.invariant (P := fun t : Table w => links t (out (idx width q)) ≤ out (idx width q))
    l blobs (h.sound.fall q ((live_iff w fair).mpr hq)) ?_
  intro p hp t ht
  cases h.stitchPixel_step fair (hl p hp) t with
  | idle _ same => rwa [same]
  | join a ha least write keep =>
    unfold links at ht ⊢
    by_cases hk : Touched width out p (out (idx width q)) ∧ out (idx width q) ≠ out (idx width a)
    · rw [write _ hk.1 hk.2]
      have h0 := (h.label_range fair hq).1
      exact h.touched_least fair (hl p hp) (level p hp) ha least (by omega) hk.1
    · rw [keep _ (by tauto)]
      exact ht

/-- A label leads elsewhere after the scans exactly where its start is met. -/
theorem met_iff (hq : Moving input width labelledHeight q) :
    links blobs (out (idx width q)) ≠ out (idx width q) ↔ Met input width order q := by
  have hlive := (live_iff w fair).mpr hq
  refine (h.marked.met q hlive.1 hq).trans ?_
  constructor
  · rintro ⟨x, _, y, hy, he, hlt⟩
    exact ⟨x, y, hy, (h.label_eq fair hy.2.1 hq).mp he, (h.label_lt fair hy.1 hq).mp hlt⟩
  · rintro ⟨x, y, hy, he, hlt⟩
    exact ⟨x, ((live_iff w fair).mpr hy.1).1, y, hy, (h.label_eq fair hy.2.1 hq).mpr he,
      (h.label_lt fair hy.1 hq).mpr hlt⟩

/-- One step of `stitch` writes a label's link exactly where its start is sewn. -/
theorem sewn_step (hx : Inside width labelledHeight x) (hq : Moving input width labelledHeight q)
    {t t' : Table w} (hs : StitchStep input width out x t t') :
    links t' (out (idx width q)) = out (idx width q) ↔
      links t (out (idx width q)) = out (idx width q) ∧ ¬SewnAt input width order x q := by
  have h0 := (h.label_range fair hq).1
  cases hs with
  | idle none same =>
    rw [same]
    exact ⟨fun he => ⟨he, fun ⟨a, ha, _⟩ => none a ha⟩, fun he => he.1⟩
  | join a ha least write keep =>
    have hleast : ∀ b, OverSeam input width x b →
        parStart input width order a ≤ parStart input width order b := by
      intro b hb
      by_contra hlt
      have := (h.label_lt fair hb.2 ha.2).mpr (by omega)
      have := least b hb
      omega
    by_cases hk : Touched width out x (out (idx width q)) ∧ out (idx width q) ≠ out (idx width a)
    · obtain ⟨y, hy, hym, he⟩ := h.touched_used hx (by omega) hk.1
      refine iff_of_false ?_ (fun hn => hn.2 ⟨a, ha, hleast, y, hy, hym,
        (h.label_eq fair hym hq).mp he, fun hne => hk.2 ?_⟩)
      · unfold links
        rw [write _ hk.1 hk.2]
        exact fun he => hk.2 he.symm
      · exact (h.label_eq fair hq ha.2).mpr hne.symm
    · have hsewn : ¬SewnAt input width order x q := by
        rintro ⟨b, hb, hbl, y, hy, hym, he, hne⟩
        have hab : parStart input width order b = parStart input width order a :=
          Nat.le_antisymm (hbl a ha) (hleast b hb)
        refine hk ⟨?_, fun hl => hne ?_⟩
        · have hl := (h.label_eq fair hym hq).mpr he
          cases hy with
          | inl hy => exact Or.inl (hy ▸ hl.symm)
          | inr hy => exact Or.inr ⟨y, hy, hl⟩
        · exact hab.trans ((h.label_eq fair ha.2 hq).mp hl.symm)
      unfold links
      rw [keep _ (by tauto)]
      exact ⟨fun he => ⟨he, hsewn⟩, fun he => he.1⟩

/-- So after all stitches a label is its own link exactly if its start survives. -/
theorem stitchAll_self_iff {stitches : List Nat}
    (hl : ∀ p ∈ seamPixels width stitches, Inside width labelledHeight p)
    (hq : Moving input width labelledHeight q) :
    links (stitchAll width out (seamPixels width stitches) blobs) (out (idx width q)) =
        out (idx width q) ↔ Survives input width order stitches q := by
  have hloop := Fold.prefix_induction
    (P := fun pre (t : Table w) => links t (out (idx width q)) = out (idx width q) ↔
      ¬Met input width order q ∧ ∀ x ∈ pre, ¬SewnAt input width order x q)
    (f := fun t p => stitchPixel width p.1 out t p.2) (seamPixels width stitches) blobs
    (by
      rw [← h.met_iff fair hq]
      simp)
    (by
      intro pre x post t hsplit ih
      have hx := hl x (by simp [hsplit])
      rw [h.sewn_step fair hx hq (h.stitchPixel_step fair hx t), ih, and_assoc]
      refine and_congr_right (fun _ => ?_)
      constructor
      · rintro ⟨hpre, hsewn⟩ y hy
        cases List.mem_append.mp hy with
        | inl hy => exact hpre y hy
        | inr hy => exact List.mem_singleton.mp hy ▸ hsewn
      · intro hall
        exact ⟨fun y hy => hall y (List.mem_append_left _ hy), hall x (by simp)⟩)
  unfold stitchAll Survives
  rw [hloop]
  exact ⟨fun he => ⟨hq, he⟩, fun he => he.2⟩

end Run

end Motion
