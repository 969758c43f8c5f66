import Motion.Spec.Image

namespace Motion
open Labelling

theorem minLabel_le (u : Nat) (ls : List Nat) : minLabel u ls ≤ u := by
  induction ls generalizing u with
  | nil => exact Nat.le_refl _
  | cons l ls ih =>
    simp only [minLabel, List.foldl_cons] at ih ⊢
    split
    · rename_i h
      exact Nat.le_trans (ih l) (Nat.le_of_lt h.2)
    · exact ih u

/-- No nonzero label is below the one found. -/
theorem minLabel_least {u l : Nat} {ls : List Nat} (hl : l ∈ ls) (h0 : l ≠ 0) :
    minLabel u ls ≤ l := by
  induction ls generalizing u with
  | nil => simp at hl
  | cons k ls ih =>
    simp only [minLabel, List.foldl_cons] at ih ⊢
    rcases List.mem_cons.mp hl with rfl | hl
    · split
      · exact minLabel_le _ _
      · rename_i h
        have := minLabel_le u ls
        simp only [minLabel] at this
        omega
    · exact ih hl

/-- What is found is a nonzero label from the list, below the marker. -/
theorem minLabel_mem {u : Nat} {ls : List Nat} (h : minLabel u ls ≠ u) :
    minLabel u ls ∈ ls ∧ minLabel u ls ≠ 0 ∧ minLabel u ls < u := by
  induction ls generalizing u with
  | nil => exact absurd rfl h
  | cons k ls ih =>
    simp only [minLabel, List.foldl_cons] at ih h ⊢
    by_cases hk : k ≠ 0 ∧ k < u
    · rw [if_pos hk] at h ⊢
      by_cases hi : List.foldl (fun m l => if l ≠ 0 ∧ l < m then l else m) k ls = k
      · rw [hi]
        exact ⟨by simp, hk.1, hk.2⟩
      · obtain ⟨hm, h0, hlt⟩ := ih hi
        exact ⟨List.mem_cons_of_mem _ hm, h0, Nat.lt_trans hlt hk.2⟩
    · rw [if_neg hk] at h ⊢
      obtain ⟨hm, h0, hlt⟩ := ih h
      exact ⟨List.mem_cons_of_mem _ hm, h0, hlt⟩

theorem minLabel_eq_iff {u : Nat} {ls : List Nat} :
    minLabel u ls = u ↔ ∀ l ∈ ls, l ≠ 0 → u ≤ l := by
  constructor
  · intro h l hl h0
    rw [← h]
    exact minLabel_least hl h0
  · intro h
    by_contra hne
    obtain ⟨hm, h0, hlt⟩ := minLabel_mem hne
    have := h _ hm h0
    omega

/-- Every label listed, but the one taken, is pointed at the one taken. -/
theorem linkAll_apply (t : Table w) (m : Nat) (ls : List Nat) (k : Nat) :
    linkAll t m ls k = if k ∈ ls ∧ k ≠ m then { t k with label := m } else t k := by
  induction ls generalizing t with
  | nil => simp [linkAll]
  | cons l ls ih =>
    simp only [linkAll, List.foldl_cons] at ih ⊢
    rw [ih]
    by_cases hk : k = l
    · subst hk
      by_cases hm : k = m <;> by_cases hin : k ∈ ls <;> simp [hm, hin]
    · have hw : (if l ≠ m then t.write l { t l with label := m } else t) k = t k := by
        split <;> simp [hk]
      rw [hw]
      simp [hk]

theorem linkAll_label {t : Table w} {m : Nat} {ls : List Nat} {k : Nat} (hk : k ∈ ls)
    (hm : k ≠ m) : (linkAll t m ls k).label = m := by
  simp [linkAll_apply, hk, hm]

theorem linkAll_other {t : Table w} {m : Nat} {ls : List Nat} {k : Nat}
    (h : k = m ∨ k ∉ ls) : linkAll t m ls k = t k := by
  rw [linkAll_apply, if_neg]
  rintro ⟨hk, hm⟩
  rcases h with h | h <;> contradiction

theorem linkAll_describes {t : Table w} {T : Finset Pixel} {k : Nat} (m : Nat) (ls : List Nat)
    (h : Describes (t k) T) : Describes (linkAll t m ls k) T := by
  rw [linkAll_apply]
  split
  · exact h.relabel m
  · exact h

/-- The labels read are those of the pixels A, B, C, D. -/
theorem mem_around {width l : Nat} {out : Buf Nat} {p : Pixel} (hr : 1 ≤ p.1) (hc : 1 ≤ p.2) :
    l ∈ around width out p ↔ ∃ q, Behind p q ∧ out (idx width q) = l := by
  obtain ⟨r, c⟩ := p
  simp only at hr hc
  simp only [around, List.mem_cons, List.not_mem_nil, or_false, Behind]
  constructor
  · rintro (h | h | h | h)
    · exact ⟨(r - 1, c - 1), by omega, h.symm⟩
    · exact ⟨(r - 1, c), by omega, h.symm⟩
    · exact ⟨(r - 1, c + 1), by omega, h.symm⟩
    · exact ⟨(r, c - 1), by omega, h.symm⟩
  · rintro ⟨⟨r', c'⟩, hb, rfl⟩
    simp only at hb
    rcases hb with ⟨hr', h | h | h⟩ | ⟨hr', h⟩
    · obtain ⟨rfl, rfl⟩ : r' = r - 1 ∧ c' = c - 1 := by omega
      exact Or.inl rfl
    · obtain ⟨rfl, rfl⟩ : r' = r - 1 ∧ c' = c := by omega
      exact Or.inr (Or.inl rfl)
    · obtain ⟨rfl, rfl⟩ : r' = r - 1 ∧ c' = c + 1 := by omega
      exact Or.inr (Or.inr (Or.inl rfl))
    · obtain ⟨rfl, rfl⟩ : r' = r ∧ c' = c - 1 := by omega
      exact Or.inr (Or.inr (Or.inr rfl))

/-- All that one pixel's turn can do to the image, the table and the counter. -/
inductive PixelStep (u width : Nat) (s s' : Scan w) (p : Pixel) : Prop
  | idle (h : s' = { s with output := s.output.write (idx width p) 0 })
  | fresh (none : ∀ l ∈ around width s.output p, l ≠ 0 → u ≤ l)
      (h : s' = { output := s.output.write (idx width p) (ushort s.labelCounter)
                  blobs := s.blobs.write s.labelCounter
                    ((s.blobs s.labelCounter).start s.labelCounter p)
                  labelCounter := s.labelCounter + 1 })
  | join (m : Nat) (mem : m ∈ around width s.output p) (nonzero : m ≠ 0) (below : m < u)
      (least : ∀ l ∈ around width s.output p, l ≠ 0 → m ≤ l)
      (h : s' = { s with
        output := s.output.write (idx width p) (ushort m)
        blobs := linkAll (s.blobs.write m ((s.blobs m).grow p)) m (around width s.output p) })

theorem scanPixel_off {u width : Nat} {input : Buf UInt8} {s : Scan w} {p : Pixel}
    (h : ¬input (idx width p) > 0) :
    scanPixel u width input s p = { s with output := s.output.write (idx width p) 0 } := by
  simp only [scanPixel, if_neg h]

/-- An active pixel with no label around it starts one. -/
theorem scanPixel_fresh {u width : Nat} {input : Buf UInt8} {s : Scan w} {p : Pixel}
    (h : input (idx width p) > 0) (hm : minLabel u (around width s.output p) = u) :
    scanPixel u width input s p =
      { output := s.output.write (idx width p) (ushort s.labelCounter)
        blobs := s.blobs.write s.labelCounter ((s.blobs s.labelCounter).start s.labelCounter p)
        labelCounter := s.labelCounter + 1 } := by
  simp only [scanPixel, if_pos h, if_pos hm]

/-- Otherwise it takes the least over. -/
theorem scanPixel_join {u width m : Nat} {input : Buf UInt8} {s : Scan w} {p : Pixel}
    (h : input (idx width p) > 0) (hm : minLabel u (around width s.output p) = m) (hne : m ≠ u) :
    scanPixel u width input s p = { s with
      output := s.output.write (idx width p) (ushort m)
      blobs := linkAll (s.blobs.write m ((s.blobs m).grow p)) m (around width s.output p) } := by
  simp only [scanPixel, if_pos h, hm, if_neg hne]

theorem scanPixel_on {u width : Nat} {input : Buf UInt8} {s : Scan w} {p : Pixel}
    (h : input (idx width p) > 0) :
    (∀ l ∈ around width s.output p, l ≠ 0 → u ≤ l) ∧
      scanPixel u width input s p =
        { output := s.output.write (idx width p) (ushort s.labelCounter)
          blobs := s.blobs.write s.labelCounter
            ((s.blobs s.labelCounter).start s.labelCounter p)
          labelCounter := s.labelCounter + 1 } ∨
    ∃ m ∈ around width s.output p, m ≠ 0 ∧ m < u ∧
      (∀ l ∈ around width s.output p, l ≠ 0 → m ≤ l) ∧
      scanPixel u width input s p = { s with
        output := s.output.write (idx width p) (ushort m)
        blobs := linkAll (s.blobs.write m ((s.blobs m).grow p)) m (around width s.output p) } := by
  by_cases hm : minLabel u (around width s.output p) = u
  · exact Or.inl ⟨minLabel_eq_iff.mp hm, scanPixel_fresh h hm⟩
  · obtain ⟨hmem, h0, hlt⟩ := minLabel_mem hm
    exact Or.inr ⟨_, hmem, h0, hlt, fun l hl h0 => minLabel_least hl h0,
      scanPixel_join h rfl hm⟩

theorem scanPixel_step (u width : Nat) (input : Buf UInt8) (s : Scan w) (p : Pixel) :
    PixelStep u width s (scanPixel u width input s p) p := by
  by_cases h : input (idx width p) > 0
  · rcases scanPixel_on (u := u) (s := s) h with ⟨hn, he⟩ | ⟨m, hm, h0, hlt, hleast, he⟩
    · exact .fresh hn he
    · exact .join m hm h0 hlt hleast he
  · exact .idle (scanPixel_off h)

namespace PixelStep

variable {u width : Nat} {s s' : Scan w} {p : Pixel} (h : PixelStep u width s s' p)

include h

/-- Only the pixel itself is written. -/
theorem output_other {i : Nat} (hi : i ≠ idx width p) : s'.output i = s.output i := by
  cases h <;> subst_vars <;> simp [hi]

theorem counter_le : s.labelCounter ≤ s'.labelCounter := by
  cases h <;> subst_vars <;> simp

theorem counter_le_succ : s'.labelCounter ≤ s.labelCounter + 1 := by
  cases h <;> subst_vars <;> simp

end PixelStep

/-- Everything the turn of a pixel has to be able to rely on. -/
structure Ready (on : Pixel → Prop) (sees : Pixel → Pixel → Prop) (u width : Nat)
    (input : Buf UInt8) (S : Finset Pixel) (s : Scan w) (x : Pixel) : Prop where
  row : 1 ≤ x.1
  col : 1 ≤ x.2 ∧ x.2 < width
  cols : ∀ q ∈ S, q.2 < width
  new : x ∉ S
  active : on x ↔ input (idx width x) > 0
  /-- A label read is one of a neighbour that counts, and visited. -/
  reads : on x → ∀ y, Behind x y → s.output (idx width y) ≠ 0 → (image w on sees).back x y
  seen : ∀ y, (image w on sees).back x y → y ∈ S
  positive : s.labelCounter ≠ 0
  /-- A label about to be started fits its pixel. -/
  fits : on x → (∀ l ∈ around width s.output x, l ≠ 0 → u ≤ l) → s.labelCounter < 65536
  small : ∀ q ∈ S, on q → s.output (idx width q) < 65536
  unused : ∀ q ∈ S, s.output (idx width q) ≠ s.labelCounter
  above : ∀ y, (image w on sees).back x y → s.output (idx width y) < s.labelCounter

/-- The turn of a pixel is a visit, as the labelling library understands it. -/
theorem Ready.visit {on : Pixel → Prop} {sees : Pixel → Pixel → Prop} {u width : Nat}
    {input : Buf UInt8} {S : Finset Pixel} {s : Scan w} {x : Pixel}
    (r : Ready on sees u width input S s x)
    (hs : Marked (image w on sees) S (marks width s.output s.blobs)) :
    Visit (image w on sees) u S x (marks width s.output s.blobs)
      (marks width (scanPixel u width input s x).output (scanPixel u width input s x).blobs) := by
  have hother : ∀ q ∈ S, idx width q ≠ idx width x := by
    intro q hq he
    exact r.new (idx_inj (r.cols q hq) r.col.2 he ▸ hq)
  have hkeep : ∀ q ∈ S, (scanPixel u width input s x).output (idx width q) =
      s.output (idx width q) :=
    fun q hq => (scanPixel_step u width input s x).output_other (hother q hq)
  have hback : ∀ y, (image w on sees).back x y → s.output (idx width y) ≠ 0 :=
    fun y hy => hs.nonzero (r.seen y hy) ((image w on sees).back_on _ _ hy)
  by_cases hon : on x
  · rcases scanPixel_on (u := u) (s := s) (r.active.mp hon) with
      ⟨hnone, he⟩ | ⟨m, hm, h0, hlt, hleast, he⟩
    · refine .fresh s.labelCounter hon hkeep ?_ r.positive r.unused r.above ?_ ?_ ?_ ?_ ?_
      · intro y hy
        exact hnone _ ((mem_around r.row r.col.1).mpr ⟨y, hy.2.2.1, rfl⟩) (hback y hy)
      · simp [he, marks, ushort, Nat.mod_eq_of_lt (r.fits hon hnone)]
      · simp [he, marks, Blob.start]
      · intro k _ hk
        simp [he, marks, hk]
      · intro k _ hk T hT
        simpa [he, marks, hk] using hT
      · simp only [he, marks, Buf.write_same]
        exact Describes.start _ _ x
    · obtain ⟨y, hy, rfl⟩ := (mem_around r.row r.col.1).mp hm
      have hby := r.reads hon y hy h0
      have hmem : ∀ z, (image w on sees).back x z →
          s.output (idx width z) ∈ around width s.output x :=
        fun z hz => (mem_around r.row r.col.1).mpr ⟨z, hz.2.2.1, rfl⟩
      refine .join y hon hkeep hby hlt ?_ ?_ ?_ ?_ ?_ ?_
      · intro z hz
        exact hleast _ (hmem z hz) (hback z hz)
      · have := r.small y (r.seen y hby) hby.2.1
        simp [he, marks, ushort, Nat.mod_eq_of_lt this]
      · intro z hz hne
        simp only [he, marks] at hne ⊢
        exact linkAll_label (hmem z hz) hne
      · intro k hk hor
        simp only [he, marks] at hor ⊢
        rw [linkAll_other]
        · rw [Buf.write_apply]
          split
          · rename_i hky
            rw [hky]
            rfl
          · rfl
        · rcases hor with hky | hnone
          · exact Or.inl hky
          · refine Or.inr (fun hmem => ?_)
            obtain ⟨z, hz, hzk⟩ := (mem_around r.row r.col.1).mp hmem
            exact hnone z (r.reads hon z hz (by rw [hzk]; exact hk)) hzk
      · intro k _ hk T hT
        simp only [he, marks] at hk hT ⊢
        apply linkAll_describes
        rw [Buf.write_other _ _ hk]
        exact hT
      · intro T hxT hT
        simp only [he, marks] at hT ⊢
        apply linkAll_describes
        rw [Buf.write_same]
        exact hT.grow hxT
  · have he := scanPixel_off (u := u) (s := s) (fun h => hon (r.active.mpr h))
    refine .idle hon hkeep ?_ ?_ ?_
    · simp [he, marks]
    · intro k _
      simp [he, marks]
    · intro k _ T hT
      rw [he]
      exact hT

/-- What a turn does to the pixel's label and the counter. -/
theorem Ready.turn {on : Pixel → Prop} {sees : Pixel → Pixel → Prop} {u width : Nat}
    {input : Buf UInt8} {S : Finset Pixel} {s : Scan w} {x : Pixel}
    (r : Ready on sees u width input S s x)
    (hs : Marked (image w on sees) S (marks width s.output s.blobs)) :
    (¬on x ∧ (scanPixel u width input s x).labelCounter = s.labelCounter ∧
      (scanPixel u width input s x).output (idx width x) = 0) ∨
    (on x ∧ (∀ y, (image w on sees).back x y → u ≤ s.output (idx width y)) ∧
      (scanPixel u width input s x).labelCounter = s.labelCounter + 1 ∧
      (scanPixel u width input s x).output (idx width x) = s.labelCounter) ∨
    (∃ y, (image w on sees).back x y ∧ s.output (idx width y) < u ∧
      (scanPixel u width input s x).labelCounter = s.labelCounter ∧
      (scanPixel u width input s x).output (idx width x) = s.output (idx width y)) := by
  by_cases hon : on x
  · rcases scanPixel_on (u := u) (s := s) (r.active.mp hon) with
      ⟨hnone, he⟩ | ⟨m, hm, h0, hlt, hleast, he⟩
    · refine Or.inr (Or.inl ⟨hon, ?_, by rw [he], ?_⟩)
      · intro y hy
        exact hnone _ ((mem_around r.row r.col.1).mpr ⟨y, hy.2.2.1, rfl⟩)
          (hs.nonzero (r.seen y hy) hy.2.1)
      · simp [he, ushort, Nat.mod_eq_of_lt (r.fits hon hnone)]
    · obtain ⟨y, hy, rfl⟩ := (mem_around r.row r.col.1).mp hm
      have hby := r.reads hon y hy h0
      have := r.small y (r.seen y hby) hby.2.1
      exact Or.inr (Or.inr ⟨y, hby, hlt, by rw [he], by
        simp [he, ushort, Nat.mod_eq_of_lt this]⟩)
  · have he := scanPixel_off (u := u) (s := s) (fun h => hon (r.active.mpr h))
    exact Or.inl ⟨hon, by rw [he], by simp [he]⟩

end Motion
