import Motion.Code.BlobDetect
import Motion.Proofs.Pass
import Motion.Spec.Objects

/-! The labelling loop of `blob_detect` as a pass over the interior. -/

namespace Motion
open Labelling

/-- Every label the labelling loop starts lies in the table and fits a pixel. -/
def LabelsFit (w width height : Nat) (output : Buf Nat) (input : Buf UInt8) : Prop :=
  ∀ l, 1 ≤ l → l < (labelLoop w width height output input).labelCounter →
    l < tableSize width height ∧ l < 65536

variable {w width height : Nat} {output : Buf Nat} {input : Buf UInt8}

theorem LabelsFit.counter_le (h : LabelsFit w width height output input) :
    (labelLoop w width height output input).labelCounter ≤ 65536 := by
  by_contra hn
  have := (h 65536 (by omega) (by omega)).2
  omega

theorem LabelsFit.of_counter
    (table : (labelLoop w width height output input).labelCounter ≤ tableSize width height)
    (short : (labelLoop w width height output input).labelCounter ≤ 65536) :
    LabelsFit w width height output input :=
  fun _ _ hl => ⟨Nat.lt_of_lt_of_le hl table, Nat.lt_of_lt_of_le hl short⟩

theorem write_write (b : Buf α) (i : Nat) (u v : α) : (b.write i u).write i v = b.write i v := by
  ext j
  by_cases h : j = i <;> simp [h]

/-- Clearing the pixel first changes nothing: no neighbour read is the pixel itself. -/
theorem detectPixel_eq {s : Scan w} {p : Pixel} (hp : Inside width height p) :
    detectPixel width input s p = scanPixel 255 width input s p := by
  simp only [Inside] at hp
  have hread : around width (s.output.write (idx width p) 0) p = around width s.output p := by
    simp only [around, idx]
    have h1 : p.1 * width = (p.1 - 1) * width + width := by
      obtain ⟨r, hr⟩ : ∃ r, p.1 = r + 1 := ⟨p.1 - 1, by omega⟩
      rw [hr, Nat.add_mul, Nat.one_mul, Nat.add_sub_cancel]
    rw [Buf.write_other _ _ (by omega), Buf.write_other _ _ (by omega),
      Buf.write_other _ _ (by omega), Buf.write_other _ _ (by omega)]
  simp only [detectPixel, scanPixel, hread, write_write]

theorem interior_within (width height : Nat) :
    ∀ p ∈ interior width height, 1 ≤ p.1 ∧ 1 ≤ p.2 ∧ p.2 + 1 < width := by
  intro p hp
  have := mem_interior.mp hp
  simp only [Inside] at this
  omega

theorem moving_iff_interior (input : Buf UInt8) (width height : Nat) (p : Pixel) :
    Moving input width height p ↔ p ∈ interior width height ∧ input (idx width p) > 0 := by
  rw [mem_interior, Moving]

/-- No pixel of the interior reads a label outside of it. -/
theorem BorderZero.quiet (border : BorderZero width height output) {x y : Pixel}
    (hx : x ∈ interior width height) (hb : Behind x y) (hy : y ∉ interior width height) :
    output (idx width y) = 0 := by
  have hin := mem_interior.mp hx
  have hr := hb.near_row
  have hc := hb.near_col
  simp only [Inside] at hin
  exact border y (by omega) (by omega) (fun h => hy (mem_interior.mpr h))

/-- The whole interior as a block to label. -/
def whole (border : BorderZero width height output) (input : Buf UInt8) :
    Pass width input output where
  pixels := interior width height
  on := Moving input width height
  sorted := interior_sorted width height
  within := interior_within width height
  on_iff := moving_iff_interior input width height
  quiet := fun _ hx _ _ hb hy => border.quiet hx hb hy

/-- Seeds and labels so far: one label for each seed up to label 255, after which
labels may also be started beside labels that reach the marker. -/
structure Counted (input : Buf UInt8) (width height : Nat) (pre : List Pixel) (counter : Nat) :
    Prop where
  below : counter ≤ 256 → {q | q ∈ pre ∧ Seed input width height q}.ncard + 1 = counter
  above : 256 ≤ counter → 255 ≤ {q | q ∈ pre ∧ Seed input width height q}.ncard

theorem seeds_finite (pre : List Pixel) :
    {q | q ∈ pre ∧ Seed input width height q}.Finite :=
  Set.Finite.subset pre.toFinset.finite_toSet (fun q hq => by simpa using hq.1)

theorem seeds_insert {pre : List Pixel} {x : Pixel} (h : Seed input width height x) :
    {q | q ∈ pre ++ [x] ∧ Seed input width height q} =
      insert x {q | q ∈ pre ∧ Seed input width height q} := by
  ext q
  simp only [List.mem_append, List.mem_singleton, Set.mem_ofPred_eq, Set.mem_insert_iff]
  constructor
  · rintro ⟨hq | rfl, hs⟩
    · exact Or.inr ⟨hq, hs⟩
    · exact Or.inl rfl
  · rintro (rfl | ⟨hq, hs⟩)
    · exact ⟨Or.inr rfl, h⟩
    · exact ⟨Or.inl hq, hs⟩

theorem seeds_same {pre : List Pixel} {x : Pixel} (h : ¬Seed input width height x) :
    {q | q ∈ pre ++ [x] ∧ Seed input width height q} =
      {q | q ∈ pre ∧ Seed input width height q} := by
  ext q
  simp only [List.mem_append, List.mem_singleton, Set.mem_ofPred_eq]
  constructor
  · rintro ⟨hq | rfl, hs⟩
    · exact ⟨hq, hs⟩
    · exact absurd hs h
  · rintro ⟨hq, hs⟩
    exact ⟨Or.inl hq, hs⟩

namespace Progress

variable {border : BorderZero width height output} {pre post : List Pixel} {s : Scan w} {x : Pixel}

/-- While no label reaches the marker, a label is started at seeds only. -/
theorem seed_of_start (h : Progress (whole border input) 1 pre s)
    (hl : interior width height = pre ++ x :: post) (hx : Moving input width height x)
    (none : ∀ y, (scene w input width height).back x y → 255 ≤ s.output (idx width y))
    (hle : s.labelCounter ≤ 255) : Seed input width height x := by
  refine ⟨hx, fun y hb hy => ?_⟩
  have hypre : y ∈ pre := (mem_prefix_iff (interior_sorted width height) hl
    (mem_interior.mpr hy.1)).mpr hb.before
  have := h.below y hypre
  have := none y ⟨hx, hy, hb, trivial⟩
  omega

/-- A label is started below the marker exactly at the first 254 seeds. -/
theorem start_iff (h : Progress (whole border input) 1 pre s)
    (hc : Counted input width height pre s.labelCounter)
    (hl : interior width height = pre ++ x :: post) (hx : Moving input width height x)
    (none : ∀ y, (scene w input width height).back x y → 255 ≤ s.output (idx width y)) :
    s.labelCounter < 255 ↔ x ∈ firstSeeds input width height := by
  have hbefore : {q | Seed input width height q ∧ Before q x} =
      {q | q ∈ pre ∧ Seed input width height q} := by
    ext q
    have hiff : Seed input width height q → (q ∈ pre ↔ Before q x) := fun hq =>
      mem_prefix_iff (interior_sorted width height) hl (mem_interior.mpr hq.1.1)
    exact ⟨fun hq => ⟨(hiff hq.1).mpr hq.2, hq.1⟩, fun hq => ⟨hq.2, (hiff hq.2).mp hq.1⟩⟩
  constructor
  · intro hlt
    refine ⟨h.seed_of_start hl hx none (by omega), ?_⟩
    rw [hbefore]
    have := hc.below (by omega)
    omega
  · rintro ⟨_, hlt⟩
    rw [hbefore] at hlt
    by_contra hge
    by_cases hle : s.labelCounter ≤ 256
    · have := hc.below hle
      omega
    · have := hc.above (by omega)
      omega

theorem counted_step (h : Progress (whole border input) 1 pre s)
    (hc : Counted input width height pre s.labelCounter)
    (hl : interior width height = pre ++ x :: post)
    (fit : (scanPixel 255 width input s x).labelCounter ≤ 65536) :
    Counted input width height (pre ++ [x]) (scanPixel 255 width input s x).labelCounter := by
  have r := h.ready (P := whole border input) hl fit
  have hnew : x ∉ {q | q ∈ pre ∧ Seed input width height q} :=
    fun hm => not_mem_prefix (interior_sorted width height) hl hm.1
  have same : ¬Seed input width height x →
      (scanPixel 255 width input s x).labelCounter = s.labelCounter →
      Counted input width height (pre ++ [x]) (scanPixel 255 width input s x).labelCounter := by
    intro hns he
    rw [he]
    constructor <;> rw [seeds_same hns]
    · exact hc.below
    · exact hc.above
  rcases r.turn h.scanned.toMarked with ⟨hoff, he, _⟩ | ⟨hon, hnone, he, _⟩ | ⟨y, hy, _, he, _⟩
  · exact same (fun hs => hoff hs.1) he
  · -- a label is started: up to label 255 this is a seed
    rw [he]
    by_cases hle : s.labelCounter ≤ 255
    · have hcard := Set.ncard_insert_of_notMem hnew (seeds_finite pre)
      rw [← seeds_insert (h.seed_of_start hl hon hnone hle)] at hcard
      have := hc.below (by omega)
      constructor <;> omega
    · have hmono : {q | q ∈ pre ∧ Seed input width height q}.ncard ≤
          {q | q ∈ pre ++ [x] ∧ Seed input width height q}.ncard :=
        Set.ncard_le_ncard (fun q hq => ⟨List.mem_append_left _ hq.1, hq.2⟩) (seeds_finite _)
      have := hc.above (by omega)
      constructor <;> omega
  · exact same (fun hs => hs.2 y hy.2.2.1 hy.2.1) he

end Progress

/-- What the labelling loop has established when it ends. -/
structure Labelled (border : BorderZero width height output) (input : Buf UInt8) (s : Scan w) :
    Prop where
  progress : Progress (whole border input) 1 (interior width height) s
  ordered : Ordered (scene w input width height) 255 (firstSeeds input width height) (idx width)
    (interior width height).toFinset (marks width s.output s.blobs)
  trails : Trails (scene w input width height) (startOf input width height)
    (interior width height).toFinset (marks width s.output s.blobs) (seqLink input width height)

theorem labelLoop_labelled (border : BorderZero width height output)
    (fit : (labelLoop w width height output input).labelCounter ≤ 65536) :
    Labelled border input (labelLoop w width height output input) := by
  -- a prefix of the loop has not taken more labels than the whole of it
  have hrun := Fold.prefix_induction
    (P := fun pre (s : Scan w) => s.labelCounter ≤ 65536 →
      Progress (whole border input) 1 pre s ∧
      Ordered (scene w input width height) 255 (firstSeeds input width height) (idx width)
        pre.toFinset (marks width s.output s.blobs) ∧
      Trails (scene w input width height) (startOf input width height) pre.toFinset
        (marks width s.output s.blobs)
        (metLink (scene 0 input width height) (startOf input width height) pre id) ∧
      Counted input width height pre s.labelCounter)
    (f := detectPixel width input) (interior width height) ⟨output, Buf.all Blob.zero, 1⟩
    (fun _ => ⟨Progress.start _ (Nat.le_refl 1) _, Ordered.empty, Trails.empty,
      by constructor <;> simp⟩)
    (by
      intro pre x post s hl ih fit
      have hin : Inside width height x := mem_interior.mp (by simp [hl])
      rw [detectPixel_eq hin] at fit ⊢
      have hle := (scanPixel_step 255 width input s x).counter_le
      obtain ⟨hp, ho, ht, hc⟩ := ih (by omega)
      have ho' := hp.ordered_step ho hl fit (hp.start_iff hc hl)
      exact ⟨hp.step hl fit, ho', hp.trails_step ho ht hl fit ho', hp.counted_step hc hl fit⟩)
  obtain ⟨hp, ho, ht, _⟩ := hrun fit
  exact ⟨hp, ho, ht⟩

end Motion
