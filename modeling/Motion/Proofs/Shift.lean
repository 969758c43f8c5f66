import Motion.Proofs.Sequential

/-! Two labelling scans of one picture, the second one's pixels and labels moved: with
what is new in the same place, every entry and every label moves along. -/

namespace Motion

theorem Blob.grow_eq (b : Blob w) (p : Pixel) : b.grow p =
    { b with
      xMin := min p.2 b.xMin, xMax := max p.2 b.xMax, yMin := min p.1 b.yMin
      yMax := max p.1 b.yMax, mass := b.mass + 1, sumX := b.sumX + BitVec.ofNat w p.2
      sumY := b.sumY + BitVec.ofNat w p.1 } := by
  simp only [Blob.grow, pick_min, pick_max]

theorem Blob.absorb_eq (b c : Blob w) : b.absorb c =
    { b with
      xMin := min c.xMin b.xMin, xMax := max c.xMax b.xMax, yMin := min c.yMin b.yMin
      yMax := max c.yMax b.yMax, mass := b.mass + c.mass, sumX := b.sumX + c.sumX
      sumY := b.sumY + c.sumY } := by
  simp only [Blob.absorb, pick_min, pick_max]

/-- How far rows, columns and labels are moved. -/
structure Offset where
  row : Nat
  col : Nat
  label : Nat

namespace Offset

variable (d : Offset)

def pixel (p : Pixel) : Pixel := (p.1 + d.row, p.2 + d.col)

/-- A label moved; 0 stays no label. -/
def lbl (l : Nat) : Nat := if l = 0 then 0 else l + d.label

/-- An entry moved: its sums grow by so much for each pixel. -/
def blob (b : Blob w) : Blob w :=
  { b with
    label := b.label + d.label
    xMin := b.xMin + d.col
    xMax := b.xMax + d.col
    yMin := b.yMin + d.row
    yMax := b.yMax + d.row
    sumX := b.sumX + BitVec.ofNat w (d.col * b.mass)
    sumY := b.sumY + BitVec.ofNat w (d.row * b.mass) }

@[simp] theorem lbl_zero : d.lbl 0 = 0 := rfl

theorem lbl_pos {l : Nat} (h : l ≠ 0) : d.lbl l = l + d.label := if_neg h

theorem lbl_eq_zero {l : Nat} : d.lbl l = 0 ↔ l = 0 := by
  unfold lbl
  split <;> omega

theorem lbl_inj {l k : Nat} (h : d.lbl l = d.lbl k) : l = k := by
  unfold lbl at h
  split at h <;> split at h <;> omega

theorem pixel_inj {p q : Pixel} (h : d.pixel p = d.pixel q) : p = q := by
  obtain ⟨hr, hc⟩ := Prod.mk.inj h
  exact Prod.ext (by omega) (by omega)

theorem blob_start {b c : Blob w} (hx : c.centroidX = b.centroidX)
    (hy : c.centroidY = b.centroidY) (l : Nat) (p : Pixel) :
    d.blob (b.start l p) = c.start (l + d.label) (d.pixel p) := by
  simp [blob, Blob.start, pixel, hx, hy, BitVec.ofNat_add]

theorem blob_grow (b : Blob w) (p : Pixel) : d.blob (b.grow p) = (d.blob b).grow (d.pixel p) := by
  rw [Blob.grow_eq, Blob.grow_eq]
  simp only [blob, pixel, ← Nat.add_min_add_right, ← Nat.add_max_add_right, Nat.mul_add,
    Nat.mul_one, BitVec.ofNat_add, Blob.mk.injEq, true_and, and_true]
  exact ⟨by ac_rfl, by ac_rfl⟩

theorem blob_absorb (b c : Blob w) : d.blob (b.absorb c) = (d.blob b).absorb (d.blob c) := by
  rw [Blob.absorb_eq, Blob.absorb_eq]
  simp only [blob, ← Nat.add_min_add_right, ← Nat.add_max_add_right, Nat.mul_add,
    BitVec.ofNat_add, Blob.mk.injEq, true_and, and_true]
  exact ⟨by ac_rfl, by ac_rfl⟩

/-- Where the sum of the rows moved still fits, the entry's sum is that much larger. -/
theorem blob_sumY {b : Blob w} {T : Finset Pixel} (h : Sums b T)
    (fits : ∑ p ∈ T, (d.pixel p).1 < 2 ^ w) :
    (d.blob b).sumY.toNat = b.sumY.toNat + d.row * b.mass := by
  have hsum : ∑ p ∈ T, (d.pixel p).1 = ∑ p ∈ T, p.1 + d.row * b.mass := by
    simp [pixel, Finset.sum_add_distrib, h.mass, Nat.mul_comm]
  rw [hsum] at fits
  rw [blob, h.sumY, ← BitVec.ofNat_add, BitVec.toNat_ofNat, BitVec.toNat_ofNat,
    Nat.mod_eq_of_lt fits, Nat.mod_eq_of_lt (by omega)]

end Offset

/-- The minimum moves along where each label is on the same side of either marker. -/
theorem minLabel_moved (d : Offset) {u u' : Nat} {ls : List Nat}
    (marker : ∀ l ∈ ls, l ≠ 0 → (l < u ↔ l + d.label < u')) :
    minLabel u' (ls.map d.lbl) =
      if minLabel u ls = u then u' else minLabel u ls + d.label := by
  split
  · rename_i hnone
    rw [minLabel_eq_iff] at hnone ⊢
    intro l' hl' h0
    obtain ⟨l, hl, rfl⟩ := List.mem_map.mp hl'
    have hne : l ≠ 0 := fun h => h0 (d.lbl_eq_zero.mpr h)
    have hle := hnone l hl hne
    have hiff := marker l hl hne
    rw [d.lbl_pos hne]
    omega
  · rename_i hsome
    obtain ⟨hmem, hne, hlt⟩ := minLabel_mem hsome
    have hmem' : minLabel u ls + d.label ∈ ls.map d.lbl :=
      List.mem_map.mpr ⟨_, hmem, d.lbl_pos hne⟩
    have hlt' := (marker _ hmem hne).mp hlt
    have hle := minLabel_least (u := u') hmem' (by omega)
    obtain ⟨hin, h0, _⟩ := minLabel_mem (show minLabel u' (ls.map d.lbl) ≠ u' by omega)
    obtain ⟨l, hl, he⟩ := List.mem_map.mp hin
    have hl0 : l ≠ 0 := fun h => h0 (by rw [← he, d.lbl_eq_zero.mpr h])
    have hleast := minLabel_least (u := u) hl hl0
    rw [d.lbl_pos hl0] at he
    omega

/-- The entries of the first `k` labels, moved along, with links among these labels. -/
structure Carried (d : Offset) (k : Nat) (s t : Table w) : Prop where
  entry : ∀ l, 1 ≤ l → l < k → t (l + d.label) = d.blob (s l)
  link : ∀ l, 1 ≤ l → l < k → 1 ≤ (s l).label ∧ (s l).label < k

namespace Carried

variable {d : Offset} {k : Nat} {s t : Table w} (h : Carried d k s t)

include h

/-- One entry written in both. -/
theorem write {i : Nat} {b : Blob w} (hb : 1 ≤ b.label ∧ b.label < k) :
    Carried d k (s.write i b) (t.write (i + d.label) (d.blob b)) := by
  constructor
  · intro l hl hk
    rw [Buf.write_apply, Buf.write_apply]
    by_cases he : l = i
    · rw [if_pos (by omega), if_pos he]
    · rw [if_neg (by omega), if_neg he, h.entry l hl hk]
  · intro l hl hk
    rw [Buf.write_apply]
    split
    · exact hb
    · exact h.link l hl hk

theorem linkAll {m : Nat} {ls : List Nat} (hm : 1 ≤ m ∧ m < k) :
    Carried d k (linkAll s m ls) (linkAll t (m + d.label) (ls.map d.lbl)) := by
  constructor
  · intro l hl hk
    have hmem : l + d.label ∈ ls.map d.lbl ↔ l ∈ ls := by
      rw [List.mem_map]
      constructor
      · rintro ⟨j, hj, he⟩
        rw [← d.lbl_pos (show l ≠ 0 by omega)] at he
        exact d.lbl_inj he ▸ hj
      · intro hj
        exact ⟨l, hj, d.lbl_pos (by omega)⟩
    rw [linkAll_apply, linkAll_apply, h.entry l hl hk]
    by_cases hc : l ∈ ls ∧ l ≠ m
    · rw [if_pos hc, if_pos ⟨hmem.mpr hc.1, by omega⟩]
      rfl
    · rw [if_neg hc, if_neg (fun hc' => hc ⟨hmem.mp hc'.1, by omega⟩)]
  · intro l hl hk
    rw [linkAll_apply]
    split
    · exact hm
    · exact h.link l hl hk

/-- The redirect of one entry. -/
theorem redirect {i : Nat} (hi : 1 ≤ i ∧ i < k) :
    Carried d k (redirectEntry s i) (redirectEntry t (i + d.label)) := by
  have hlink := h.link i hi.1 hi.2
  have hentry := h.entry i hi.1 hi.2
  have hlabel : (t (i + d.label)).label = (s i).label + d.label := by rw [hentry, Offset.blob]
  have hnext : (t ((s i).label + d.label)).label = (s (s i).label).label + d.label := by
    rw [h.entry _ hlink.1 hlink.2, Offset.blob]
  unfold redirectEntry
  rw [hlabel, hnext, hentry]
  by_cases he : (s i).label = i
  · rw [if_neg (not_not.mpr he), if_neg (by omega)]
    exact h
  · rw [if_pos he, if_pos (by omega)]
    exact h.write (b := { s i with label := (s (s i).label).label }) (h.link _ hlink.1 hlink.2)

/-- One more label, its entry new in both. -/
theorem extend {b : Blob w} (hb : b.label = k) :
    Carried d (k + 1) (s.write k b) (t.write (k + d.label) (d.blob b)) := by
  constructor
  · intro l hl hlt
    rw [Buf.write_apply, Buf.write_apply]
    by_cases he : l = k
    · rw [if_pos (by omega), if_pos he]
    · rw [if_neg (by omega), if_neg he, h.entry l hl (by omega)]
  · intro l hl hlt
    rw [Buf.write_apply]
    split
    · omega
    · have := h.link l hl (by omega)
      omega

end Carried

/-- Two labelling scans after the pixels in `pre` of the first: `n` bounds the labels
whose entries both tables still hold zeroed. -/
structure Lockstep (d : Offset) (n width height width' : Nat) (pre : List Pixel)
    (s t : Scan w) : Prop where
  positive : 1 ≤ s.labelCounter
  counter : t.labelCounter = s.labelCounter + d.label
  carried : Carried d s.labelCounter s.blobs t.blobs
  unused : ∀ l, s.labelCounter ≤ l → l < n →
    s.blobs l = Blob.zero ∧ t.blobs (l + d.label) = Blob.zero
  below : ∀ q ∈ pre, s.output (idx width q) < s.labelCounter
  border : ∀ q : Pixel, q.1 + 1 < height → q.2 < width → ¬Inside width height q →
    s.output (idx width q) = 0
  output : ∀ q : Pixel, q.1 + 1 < height → q.2 < width → q ∈ pre ∨ ¬Inside width height q →
    t.output (idx width' (d.pixel q)) = d.lbl (s.output (idx width q))

namespace Lockstep

variable {d : Offset} {n width height width' u u' : Nat} {input input' : Buf UInt8}
  {pre post : List Pixel} {s t : Scan w} {x : Pixel}

/-- Before the first turn both images are 0 where the first one has its border. -/
theorem start {cleared output : Buf Nat} {blobs : Table w} {k : Nat} (hk : k = 1 + d.label)
    (unused : ∀ l, 1 ≤ l → l < n → blobs (l + d.label) = Blob.zero)
    (border : BorderZero width height cleared)
    (zero : ∀ q : Pixel, q.1 + 1 < height → q.2 < width → ¬Inside width height q →
      output (idx width' (d.pixel q)) = 0) :
    Lockstep d n width height width' [] ⟨cleared, Buf.all Blob.zero, 1⟩ ⟨output, blobs, k⟩ := by
  refine ⟨Nat.le_refl 1, hk, ⟨?_, ?_⟩, fun l hl hn => ⟨rfl, unused l hl hn⟩, ?_, ?_, ?_⟩
  · intro l hl hlt
    exact absurd hlt (Nat.not_lt.mpr hl)
  · intro l hl hlt
    exact absurd hlt (Nat.not_lt.mpr hl)
  · intro q hq
    cases hq
  · intro q hr hc hin
    exact border q (by omega) hc hin
  · rintro q hr hc (hq | hin)
    · cases hq
    · dsimp only
      rw [border q (by omega) hc hin, d.lbl_zero, zero q hr hc hin]

/-- A pixel read is one visited or one on the border. -/
theorem read (hl : interior width height = pre ++ x :: post) {q : Pixel} (hq : Behind x q) :
    (q.1 + 1 < height ∧ q.2 < width) ∧ (q ∈ pre ∨ ¬Inside width height q) := by
  have hx : Inside width height x := mem_interior.mp (by simp [hl])
  have hr := hq.near_row
  have hc := hq.near_col
  unfold Inside at hx
  refine ⟨by omega, ?_⟩
  by_cases hin : Inside width height q
  · exact Or.inl ((mem_prefix_iff (interior_sorted width height) hl
      (mem_interior.mpr hin)).mpr hq.before)
  · exact Or.inr hin

variable (h : Lockstep d n width height width' pre s t)

include h

/-- So the labels read are those the first scan reads, moved. -/
theorem around_eq (hl : interior width height = pre ++ x :: post) :
    around width' t.output (d.pixel x) = (around width s.output x).map d.lbl := by
  have hx : Inside width height x := mem_interior.mp (by simp [hl])
  have hread : ∀ q, Behind x q →
      t.output (idx width' (d.pixel q)) = d.lbl (s.output (idx width q)) := by
    intro q hq
    obtain ⟨⟨hr, hc⟩, hor⟩ := read hl hq
    exact h.output q hr hc hor
  unfold Inside at hx
  have hA : ((d.pixel x).1 - 1, (d.pixel x).2 - 1) = d.pixel (x.1 - 1, x.2 - 1) := by
    unfold Offset.pixel
    exact Prod.ext (by dsimp only; omega) (by dsimp only; omega)
  have hB : ((d.pixel x).1 - 1, (d.pixel x).2) = d.pixel (x.1 - 1, x.2) := by
    unfold Offset.pixel
    exact Prod.ext (by dsimp only; omega) rfl
  have hC : ((d.pixel x).1 - 1, (d.pixel x).2 + 1) = d.pixel (x.1 - 1, x.2 + 1) := by
    unfold Offset.pixel
    exact Prod.ext (by dsimp only; omega) (by dsimp only; omega)
  have hD : ((d.pixel x).1, (d.pixel x).2 - 1) = d.pixel (x.1, x.2 - 1) := by
    unfold Offset.pixel
    exact Prod.ext rfl (by dsimp only; omega)
  unfold around
  rw [hA, hB, hC, hD, hread (x.1 - 1, x.2 - 1) (by unfold Behind; omega),
    hread (x.1 - 1, x.2) (by unfold Behind; omega),
    hread (x.1 - 1, x.2 + 1) (by unfold Behind; omega),
    hread (x.1, x.2 - 1) (by unfold Behind; omega)]
  rfl

/-- They are labels taken so far. -/
theorem around_lt (hl : interior width height = pre ++ x :: post) {l : Nat}
    (hmem : l ∈ around width s.output x) : l < s.labelCounter := by
  have hx : Inside width height x := mem_interior.mp (by simp [hl])
  unfold Inside at hx
  obtain ⟨q, hq, rfl⟩ := (mem_around (by omega) (by omega)).mp hmem
  obtain ⟨⟨hr, hc⟩, hor⟩ := read hl hq
  cases hor with
  | inl hp => exact h.below q hp
  | inr hin =>
    have := h.positive
    rw [h.border q hr hc hin]
    omega

/-- A label written at the pixel, and moved at the pixel moved. -/
theorem write (hl : interior width height = pre ++ x :: post) (wide : d.col + width ≤ width')
    {v k : Nat} (hk : s.labelCounter ≤ k) (hv : v < k) :
    (∀ q ∈ pre ++ [x], s.output.write (idx width x) v (idx width q) < k) ∧
    (∀ q : Pixel, q.1 + 1 < height → q.2 < width → ¬Inside width height q →
      s.output.write (idx width x) v (idx width q) = 0) ∧
    ∀ q : Pixel, q.1 + 1 < height → q.2 < width → q ∈ pre ++ [x] ∨ ¬Inside width height q →
      t.output.write (idx width' (d.pixel x)) (d.lbl v) (idx width' (d.pixel q)) =
        d.lbl (s.output.write (idx width x) v (idx width q)) := by
  have hx : Inside width height x := mem_interior.mp (by simp [hl])
  have hxc : x.2 < width := by
    unfold Inside at hx
    omega
  refine ⟨?_, ?_, ?_⟩
  · intro q hq
    rw [Buf.write_apply]
    split
    · exact hv
    · rename_i hne
      cases List.mem_append.mp hq with
      | inl hq => exact Nat.lt_of_lt_of_le (h.below q hq) hk
      | inr hq => exact absurd (congrArg (idx width) (List.mem_singleton.mp hq)) hne
  · intro q hr hc hin
    rw [Buf.write_other]
    · exact h.border q hr hc hin
    · intro he
      exact hin (idx_inj hc hxc he ▸ hx)
  · intro q hr hc hor
    by_cases he : q = x
    · rw [he, Buf.write_same, Buf.write_same]
    · have hne : idx width q ≠ idx width x := fun hi => he (idx_inj hc hxc hi)
      have hne' : idx width' (d.pixel q) ≠ idx width' (d.pixel x) := fun hi =>
        he (d.pixel_inj (idx_inj (by unfold Offset.pixel; dsimp only; omega)
          (by unfold Offset.pixel; dsimp only; omega) hi))
      rw [Buf.write_other _ _ hne, Buf.write_other _ _ hne']
      refine h.output q hr hc (hor.imp (fun hm => ?_) id)
      cases List.mem_append.mp hm with
      | inl hm => exact hm
      | inr hm => exact absurd (List.mem_singleton.mp hm) he

omit h in
/-- After the whole scan every label of the picture is moved. -/
theorem output_moved (h : Lockstep d n width height width' (interior width height) s t)
    {q : Pixel} (hr : q.1 + 1 < height) (hc : q.2 < width) :
    t.output (idx width' (d.pixel q)) = d.lbl (s.output (idx width q)) :=
  h.output q hr hc (by rw [mem_interior]; exact em _)

/-- The minimum read is the first scan's, moved, or there is none in either. -/
theorem min_moved (hl : interior width height = pre ++ x :: post)
    (marker : ∀ l, 1 ≤ l → l < s.labelCounter → (l < u ↔ l + d.label < u')) :
    minLabel u' (around width' t.output (d.pixel x)) =
      if minLabel u (around width s.output x) = u then u'
      else minLabel u (around width s.output x) + d.label := by
  rw [h.around_eq hl]
  exact minLabel_moved d (fun l hm h0 => marker l (by omega) (h.around_lt hl hm))

/-- A label started in both. -/
theorem fresh (hl : interior width height = pre ++ x :: post) (wide : d.col + width ≤ width')
    (on : input (idx width x) > 0) (on' : input' (idx width' (d.pixel x)) > 0)
    (none : minLabel u (around width s.output x) = u)
    (none' : minLabel u' (around width' t.output (d.pixel x)) = u')
    (fits : t.labelCounter < 65536) (room : s.labelCounter < n) :
    Lockstep d n width height width' (pre ++ [x]) (scanPixel u width input s x)
      (scanPixel u' width' input' t (d.pixel x)) := by
  have hpos := h.positive
  have hcounter := h.counter
  rw [scanPixel_fresh on none, scanPixel_fresh on' none']
  have hzero := h.unused s.labelCounter (Nat.le_refl _) room
  have hnew : (t.blobs t.labelCounter).start t.labelCounter (d.pixel x) =
      d.blob ((s.blobs s.labelCounter).start s.labelCounter x) := by
    rw [hcounter, hzero.1, hzero.2, d.blob_start (c := Blob.zero) rfl rfl]
  have hlabel : ushort t.labelCounter = d.lbl (ushort s.labelCounter) := by
    unfold ushort
    rw [Nat.mod_eq_of_lt (by omega), Nat.mod_eq_of_lt (by omega), d.lbl_pos (by omega)]
    exact hcounter
  obtain ⟨hbelow, hborder, houtput⟩ := h.write hl wide (k := s.labelCounter + 1)
    (v := ushort s.labelCounter) (by omega) (Nat.lt_succ_of_le (Nat.mod_le _ _))
  rw [hnew, hlabel, hcounter]
  refine ⟨Nat.le_succ_of_le hpos, Nat.add_right_comm _ _ _, h.carried.extend rfl, ?_, hbelow,
    hborder, houtput⟩
  intro l hk hn
  dsimp only at hk ⊢
  rw [Buf.write_other _ _ (by omega), Buf.write_other _ _ (by omega)]
  exact h.unused l (by omega) hn

/-- The least label read taken over in both. -/
theorem join (hl : interior width height = pre ++ x :: post) (wide : d.col + width ≤ width')
    (on : input (idx width x) > 0) (on' : input' (idx width' (d.pixel x)) > 0) {m : Nat}
    (least : minLabel u (around width s.output x) = m) (some : m ≠ u)
    (least' : minLabel u' (around width' t.output (d.pixel x)) = m + d.label)
    (some' : m + d.label ≠ u') (fits : t.labelCounter ≤ 65536) :
    Lockstep d n width height width' (pre ++ [x]) (scanPixel u width input s x)
      (scanPixel u' width' input' t (d.pixel x)) := by
  have hpos := h.positive
  have hcounter := h.counter
  obtain ⟨hmem, h0, _⟩ := minLabel_mem (least ▸ some)
  rw [least] at hmem h0
  have hm := h.around_lt hl hmem
  rw [scanPixel_join on least some, scanPixel_join on' least' some', h.around_eq hl]
  have hlabel : ushort (m + d.label) = d.lbl (ushort m) := by
    unfold ushort
    rw [Nat.mod_eq_of_lt (by omega), Nat.mod_eq_of_lt (by omega), d.lbl_pos h0]
  have hlink := h.carried.link m (by omega) hm
  obtain ⟨hbelow, hborder, houtput⟩ := h.write hl wide (k := s.labelCounter)
    (v := ushort m) (Nat.le_refl _) (Nat.lt_of_le_of_lt (Nat.mod_le _ _) hm)
  rw [hlabel, h.carried.entry m (by omega) hm, ← d.blob_grow]
  refine ⟨hpos, hcounter, ?_, ?_, hbelow, hborder, houtput⟩
  · exact (h.carried.write (b := (s.blobs m).grow x) hlink).linkAll ⟨by omega, hm⟩
  · intro l hk hn
    dsimp only at hk ⊢
    have hnot : l ∉ around width s.output x := fun hin => by
      have := h.around_lt hl hin
      omega
    have hnot' : l + d.label ∉ (around width s.output x).map d.lbl := by
      rw [← d.lbl_pos (show l ≠ 0 by omega), List.mem_map]
      rintro ⟨j, hj, he⟩
      exact hnot (d.lbl_inj he ▸ hj)
    rw [linkAll_other (Or.inr hnot), linkAll_other (Or.inr hnot'),
      Buf.write_other _ _ (by omega), Buf.write_other _ _ (by omega)]
    exact h.unused l hk hn

/-- The turn of a pixel in one scan, and of the pixel moved in the other. -/
theorem step (hl : interior width height = pre ++ x :: post) (wide : d.col + width ≤ width')
    (same : input (idx width x) > 0 ↔ input' (idx width' (d.pixel x)) > 0)
    (marker : ∀ l, 1 ≤ l → l < s.labelCounter → (l < u ↔ l + d.label < u'))
    (fits : (scanPixel u' width' input' t (d.pixel x)).labelCounter ≤ 65536)
    (room : (scanPixel u width input s x).labelCounter ≤ n) :
    Lockstep d n width height width' (pre ++ [x]) (scanPixel u width input s x)
      (scanPixel u' width' input' t (d.pixel x)) := by
  have hpos := h.positive
  have hmin := h.min_moved hl marker
  by_cases hon : input (idx width x) > 0
  · have hon' := same.mp hon
    by_cases hnone : minLabel u (around width s.output x) = u
    · rw [if_pos hnone] at hmin
      rw [scanPixel_fresh hon hnone] at room
      rw [scanPixel_fresh hon' hmin] at fits
      exact h.fresh hl wide hon hon' hnone hmin fits room
    · rw [if_neg hnone] at hmin
      obtain ⟨hmem, h0, hlt⟩ := minLabel_mem hnone
      have hlt' := (marker _ (by omega) (h.around_lt hl hmem)).mp hlt
      rw [scanPixel_join hon' hmin (by omega)] at fits
      exact h.join hl wide hon hon' rfl hnone hmin (by omega) fits
  · rw [scanPixel_off hon, scanPixel_off (fun hon' => hon (same.mpr hon'))]
    obtain ⟨hbelow, hborder, houtput⟩ := h.write hl wide (k := s.labelCounter) (v := 0)
      (Nat.le_refl _) (by omega)
    exact ⟨hpos, h.counter, h.carried, h.unused, hbelow, hborder, houtput⟩

/-- A turn of the second scan at a pixel that is none of the first one's and not active. -/
theorem idle {q : Pixel} (hout : ∀ p, Inside width height p → d.pixel p ≠ q)
    (hc : q.2 < width') (wide : d.col + width ≤ width') (quiet : ¬input' (idx width' q) > 0) :
    Lockstep d n width height width' pre s (scanPixel u' width' input' t q) := by
  rw [scanPixel_off quiet]
  refine ⟨h.positive, h.counter, h.carried, h.unused, h.below, h.border, ?_⟩
  intro p hr hpc hor
  dsimp only
  rw [Buf.write_apply]
  split
  · rename_i he
    -- a pixel of the border, at most
    have hpq : d.pixel p = q :=
      idx_inj (by unfold Offset.pixel; dsimp only; omega) hc he
    rw [h.border p hr hpc (fun hin => hout p hin hpq), d.lbl_zero]
  · exact h.output p hr hpc hor

end Lockstep

end Motion
