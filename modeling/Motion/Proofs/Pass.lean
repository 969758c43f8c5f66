import Motion.Lib.Trails
import Motion.Proofs.ScanPixel

/-! A labelling pass over a block of the frame: what `blob_detect` does to the
whole interior and `label` to its band. -/

namespace Motion
open Labelling

/-- A block of pixels to label, started from a given image. No active pixel of
the block reads a label that was there before. -/
structure Pass (width : Nat) (input : Buf UInt8) (output : Buf Nat) where
  pixels : List Pixel
  on : Pixel → Prop
  sorted : pixels.Pairwise Before
  within : ∀ p ∈ pixels, 1 ≤ p.1 ∧ 1 ≤ p.2 ∧ p.2 + 1 < width
  on_iff : ∀ p, on p ↔ p ∈ pixels ∧ input (idx width p) > 0
  quiet : ∀ x ∈ pixels, on x → ∀ y, Behind x y → y ∉ pixels → output (idx width y) = 0

namespace Pass

variable {width : Nat} {input : Buf UInt8} {output : Buf Nat}

/-- The block as the labelling library sees it. -/
abbrev scene (P : Pass width input output) (w : Nat) : Ground Pixel (Blob w) :=
  image w P.on (fun _ _ => True)

theorem on_mem (P : Pass width input output) {p : Pixel} (h : P.on p) : p ∈ P.pixels :=
  ((P.on_iff p).mp h).1

theorem back_idx (P : Pass width input output) {w : Nat} {p q : Pixel}
    (h : (P.scene w).back p q) : idx width q < idx width p := by
  have hp := P.within p (P.on_mem h.1)
  have hq := P.within q (P.on_mem h.2.1)
  exact (before_iff_idx (by omega) (by omega)).mp h.2.2.1.before

end Pass

variable {w width u L : Nat} {input : Buf UInt8} {output : Buf Nat} {P : Pass width input output}

theorem Behind.near_row {p q : Pixel} (h : Behind p q) : q.1 ≤ p.1 ∧ p.1 ≤ q.1 + 1 := by
  simp only [Behind] at h
  omega

theorem Behind.near_col {p q : Pixel} (h : Behind p q) : q.2 ≤ p.2 + 1 ∧ p.2 ≤ q.2 + 1 := by
  simp only [Behind] at h
  omega

/-- The state of a pass after the pixels in `pre`, its labels counted from `L`. -/
structure Progress (P : Pass width input output) (L : Nat) (pre : List Pixel) (s : Scan w) :
    Prop where
  /-- Pixels not visited yet are untouched. -/
  frame : ∀ i, (∀ p ∈ pre, i ≠ idx width p) → s.output i = output i
  scanned : Scanned (P.scene w) pre.toFinset (marks width s.output s.blobs)
  gathered : Gathered (P.scene w) pre.toFinset (marks width s.output s.blobs)
  positive : 1 ≤ L ∧ L ≤ s.labelCounter
  below : ∀ q ∈ pre, s.output (idx width q) < s.labelCounter
  floor : ∀ q ∈ live (P.scene w) pre.toFinset, L ≤ s.output (idx width q)
  started : ∀ l, L ≤ l → l < s.labelCounter →
    ∃ q ∈ live (P.scene w) pre.toFinset, s.output (idx width q) = l

theorem Progress.start (P : Pass width input output) (hL : 1 ≤ L) (blobs : Table w) :
    Progress P L [] ⟨output, blobs, L⟩ where
  frame := fun _ _ => rfl
  scanned := Scanned.empty
  gathered := by simp [Gathered]
  positive := ⟨hL, Nat.le_refl _⟩
  below := by simp
  floor := by simp [live]
  started := fun l h1 h2 => absurd h2 (by simpa using h1)

theorem toFinset_concat (pre : List Pixel) (x : Pixel) :
    (pre ++ [x]).toFinset = insert x pre.toFinset := by
  ext q
  simp

namespace Progress

variable {pre post : List Pixel} {s : Scan w} {x : Pixel}

/-- At every turn the pixels read are quiet ones outside the block or visited ones. -/
theorem ready (h : Progress P L pre s) (hl : P.pixels = pre ++ x :: post)
    (fit : (scanPixel u width input s x).labelCounter ≤ 65536) :
    Ready P.on (fun _ _ => True) u width input pre.toFinset s x := by
  have hmem : x ∈ P.pixels := by simp [hl]
  have hx := P.within x hmem
  have hpre : ∀ q ∈ pre, q ∈ P.pixels := fun q hq => by simp [hl, hq]
  have visited : ∀ y, Behind x y → y ∈ P.pixels → y ∈ pre :=
    fun y hb hy => (mem_prefix_iff P.sorted hl hy).mpr hb.before
  have hcount := (scanPixel_step u width input s x).counter_le
  constructor
  · exact hx.1
  · omega
  · intro q hq
    have := P.within q (hpre q (by simpa using hq))
    omega
  · simpa using not_mem_prefix P.sorted hl
  · rw [P.on_iff]
    simp [hmem]
  · intro hon y hb hne
    by_cases hy : y ∈ P.pixels
    · have hv := visited y hb hy
      have hyon : P.on y := by
        by_contra hn
        exact hne ((h.scanned.zero y (by simpa using hv)).mpr hn)
      exact ⟨hon, hyon, hb, trivial⟩
    · -- outside the block nothing has been written, and what was there is quiet
      refine absurd ?_ hne
      rw [h.frame]
      · exact P.quiet x hmem hon y hb hy
      · intro p hp he
        have := P.within p (hpre p hp)
        have := hb.near_col
        by_cases hyw : y.2 < width
        · exact hy (idx_inj hyw (by omega) he ▸ hpre p hp)
        · omega
  · intro y hy
    simpa using visited y hy.2.2.1 (P.on_mem hy.2.1)
  · have := h.positive
    omega
  · intro hon hnone
    rcases scanPixel_on (u := u) (s := s) ((P.on_iff x).mp hon).2 with
      ⟨_, he⟩ | ⟨m, hm, h0, hlt, _⟩
    · rw [he] at fit
      exact fit
    · have := hnone m hm h0
      omega
  · intro q hq _
    have := h.below q (by simpa using hq)
    omega
  · intro q hq
    have := h.below q (by simpa using hq)
    omega
  · intro y hy
    exact h.below y (visited y hy.2.2.1 (P.on_mem hy.2.1))

theorem live_concat {q : Pixel} (hq : q ∈ live (P.scene w) (pre ++ [x]).toFinset) :
    q = x ∧ P.on x ∨ q ∈ live (P.scene w) pre.toFinset := by
  obtain ⟨hm, hon⟩ := hq
  rw [toFinset_concat] at hm
  rcases Finset.mem_insert.mp hm with rfl | hm
  · exact Or.inl ⟨rfl, hon⟩
  · exact Or.inr ⟨hm, hon⟩

theorem live_mono {q : Pixel} (hq : q ∈ live (P.scene w) pre.toFinset) :
    q ∈ live (P.scene w) (pre ++ [x]).toFinset := by
  refine ⟨?_, hq.2⟩
  rw [toFinset_concat]
  exact Finset.mem_insert_of_mem hq.1

theorem step (h : Progress P L pre s) (hl : P.pixels = pre ++ x :: post)
    (fit : (scanPixel u width input s x).labelCounter ≤ 65536) :
    Progress P L (pre ++ [x]) (scanPixel u width input s x) := by
  have r := h.ready hl fit
  have v := r.visit h.scanned.toMarked
  have ht := r.turn h.scanned.toMarked
  have hst := scanPixel_step u width input s x
  have hcount := hst.counter_le
  have hkeep : ∀ q ∈ pre, (scanPixel u width input s x).output (idx width q) =
      s.output (idx width q) := fun q hq => v.keep q (by simpa using hq)
  have hpos := h.positive
  constructor
  · intro i hi
    rw [hst.output_other (hi x (by simp)), h.frame i (fun p hp => hi p (by simp [hp]))]
  · rw [toFinset_concat]
    exact v.scanned h.scanned r.new r.seen
  · rw [toFinset_concat]
    exact v.gathered h.scanned.toMarked h.gathered r.new r.seen
  · omega
  · intro q hq
    rcases List.mem_append.mp hq with hq | hq
    · rw [hkeep q hq]
      exact Nat.lt_of_lt_of_le (h.below q hq) hcount
    · obtain rfl := List.mem_singleton.mp hq
      rcases ht with ⟨_, _, hl⟩ | ⟨_, _, _, hl⟩ | ⟨y, hy, _, _, hl⟩
      · omega
      · omega
      · have := h.below y (by simpa using r.seen y hy)
        omega
  · intro q hq
    rcases live_concat hq with ⟨rfl, hon⟩ | hq
    · rcases ht with ⟨hoff, _⟩ | ⟨_, _, _, hl⟩ | ⟨y, hy, _, _, hl⟩
      · exact absurd hon hoff
      · omega
      · have := h.floor y ⟨r.seen y hy, hy.2.1⟩
        omega
    · rw [hkeep q (by simpa using hq.1)]
      exact h.floor q hq
  · intro l h1 h2
    by_cases hlt : l < s.labelCounter
    · obtain ⟨q, hq, he⟩ := h.started l h1 hlt
      exact ⟨q, live_mono hq, by rw [hkeep q (by simpa using hq.1), he]⟩
    · rcases ht with ⟨_, hc, _⟩ | ⟨hon, _, hc, hl⟩ | ⟨y, hy, _, hc, _⟩
      · omega
      · exact ⟨x, ⟨by simp, hon⟩, by omega⟩
      · omega

/-- The origins of the pixels visited lie before the pixel. -/
theorem origin_before (hl : P.pixels = pre ++ x :: post) (F : Set Pixel) (hq : q ∈ pre) :
    origin (P.scene w) F (idx width) q < idx width x := by
  have hle : origin (P.scene w) F (idx width) q ≤ idx width q :=
    origin_le (fun p q hb => P.back_idx hb) q
  have hbefore := (mem_prefix_iff P.sorted hl (by simp [hl, hq])).mp hq
  have hx := P.within x (by simp [hl])
  have hq' := P.within q (by simp [hl, hq])
  have hidx : idx width q < idx width x := (before_iff_idx (by omega) (by omega)).mp hbefore
  omega

/-- The order of the labels is kept as long as a label is started below the
marker exactly at the absorbing starts. -/
theorem ordered_step {F : Set Pixel} (h : Progress P L pre s)
    (ho : Ordered (P.scene w) u F (idx width) pre.toFinset (marks width s.output s.blobs))
    (hl : P.pixels = pre ++ x :: post)
    (fit : (scanPixel u width input s x).labelCounter ≤ 65536)
    (start : P.on x → (∀ y, (P.scene w).back x y → u ≤ s.output (idx width y)) →
      (s.labelCounter < u ↔ x ∈ F)) :
    Ordered (P.scene w) u F (idx width) (pre ++ [x]).toFinset
      (marks width (scanPixel u width input s x).output (scanPixel u width input s x).blobs) := by
  have r := h.ready hl fit
  have v := r.visit h.scanned.toMarked
  rw [toFinset_concat]
  refine v.ordered ho r.seen (fun p q hb => P.back_idx hb) ?_
  intro hon hnone
  have hlab : (scanPixel u width input s x).output (idx width x) = s.labelCounter := by
    rcases r.turn h.scanned.toMarked with ⟨hoff, _⟩ | ⟨_, _, _, hl⟩ | ⟨y, hy, hlt, _⟩
    · exact absurd hon hoff
    · exact hl
    · have := hnone y hy
      simp only [marks] at this
      omega
  have hlab' : (marks width (scanPixel u width input s x).output
      (scanPixel u width input s x).blobs).lab x = s.labelCounter := hlab
  rw [hlab']
  refine ⟨start hon hnone, ?_⟩
  intro q hq
  have hqpre : q ∈ pre := by simpa using hq.1
  have hlt : (marks width s.output s.blobs).lab q < s.labelCounter := h.below q hqpre
  have hbefore := origin_before (w := w) hl F hqpre
  exact ⟨iff_of_true hlt (by omega), iff_of_false (by omega) (by omega)⟩

/-- And the links of the labels lead as the origins say. -/
theorem trails_step {F : Set Pixel} {lead : Nat → Nat} (h : Progress P L pre s)
    (ho : Ordered (P.scene w) u F (idx width) pre.toFinset (marks width s.output s.blobs))
    (ht : Trails (P.scene w) (origin (P.scene w) F (idx width)) pre.toFinset
      (marks width s.output s.blobs)
      (metLink (P.scene w) (origin (P.scene w) F (idx width)) pre lead))
    (hl : P.pixels = pre ++ x :: post)
    (fit : (scanPixel u width input s x).labelCounter ≤ 65536)
    (ho' : Ordered (P.scene w) u F (idx width) (pre ++ [x]).toFinset
      (marks width (scanPixel u width input s x).output (scanPixel u width input s x).blobs)) :
    Trails (P.scene w) (origin (P.scene w) F (idx width)) (pre ++ [x]).toFinset
      (marks width (scanPixel u width input s x).output (scanPixel u width input s x).blobs)
      (metLink (P.scene w) (origin (P.scene w) F (idx width)) (pre ++ [x]) lead) := by
  have r := h.ready hl fit
  rw [toFinset_concat] at ho' ⊢
  refine (r.visit h.scanned.toMarked).trails r.seen ho'.order h.scanned.toMarked ht ?_
  intro _ hnone q hq he
  -- a label started here has its origin here, past those visited
  have hfresh : origin (P.scene w) F (idx width) x = idx width x := by
    refine origin_of_fresh (fun y hy ha => ?_)
    have := (ho.low y ⟨r.seen y hy, hy.2.1⟩).mpr ha
    have := hnone y hy
    omega
  have hbefore := origin_before (w := w) hl F (by simpa using hq.1 : q ∈ pre)
  omega

end Progress

end Motion
