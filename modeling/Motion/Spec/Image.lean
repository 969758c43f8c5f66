import Motion.Lib.Origins
import Motion.Spec.Raster

/-! The image as the labelling library sees it: pixels that touch on a side or
a corner, the four neighbours a pixel looks back at, and what a table entry
says of a set of pixels. -/

namespace Motion
open Labelling

/-- Touching on a side or a corner. -/
def Adj8 (p q : Pixel) : Prop :=
  p ≠ q ∧ p.1 ≤ q.1 + 1 ∧ q.1 ≤ p.1 + 1 ∧ p.2 ≤ q.2 + 1 ∧ q.2 ≤ p.2 + 1

/-- `q` is one of the pixels A, B, C, D of `p`. -/
def Behind (p q : Pixel) : Prop :=
  q.1 + 1 = p.1 ∧ (q.2 + 1 = p.2 ∨ q.2 = p.2 ∨ q.2 = p.2 + 1) ∨ q.1 = p.1 ∧ q.2 + 1 = p.2

theorem Adj8.symm {p q : Pixel} (h : Adj8 p q) : Adj8 q p :=
  ⟨h.1.symm, h.2.2.1, h.2.1, h.2.2.2.2, h.2.2.2.1⟩

theorem Behind.adj {p q : Pixel} (h : Behind p q) : Adj8 p q := by
  refine ⟨?_, ?_⟩
  · rintro rfl
    simp only [Behind] at h
    omega
  · simp only [Behind] at h
    omega

theorem Behind.before {p q : Pixel} (h : Behind p q) : Before q p := by
  simp only [Behind, Before] at h ⊢
  omega

/-- Of two touching pixels one looks back at the other. -/
theorem Adj8.behind {p q : Pixel} (h : Adj8 p q) : Behind p q ∨ Behind q p := by
  obtain ⟨hne, h⟩ := h
  have : ¬(p.1 = q.1 ∧ p.2 = q.2) := fun hh => hne (Prod.ext hh.1 hh.2)
  simp only [Behind]
  omega

/-- Of pixels no two of which touch, each two by two cell of a block holds one at most. -/
theorem apart_card_le {T : Finset Pixel} (row col rows cols : Nat)
    (block : ∀ q ∈ T, (row ≤ q.1 ∧ q.1 < row + rows) ∧ col ≤ q.2 ∧ q.2 < col + cols)
    (apart : ∀ p ∈ T, ∀ q ∈ T, p ≠ q → ¬Adj8 p q) :
    T.card ≤ (rows + 1) / 2 * ((cols + 1) / 2) := by
  have hle := Finset.card_le_card_of_injOn (s := T)
    (t := Finset.range ((rows + 1) / 2) ×ˢ Finset.range ((cols + 1) / 2))
    (fun q => ((q.1 - row) / 2, (q.2 - col) / 2)) ?_ ?_
  · rwa [Finset.card_product, Finset.card_range, Finset.card_range] at hle
  · intro q hq
    have hin := block q hq
    simp only [Finset.coe_product, Finset.coe_range, Set.mem_prod, Set.mem_Iio]
    omega
  · intro p hp q hq he
    have hpb := block p hp
    have hqb := block q hq
    simp only [Prod.mk.injEq] at he
    by_contra hne
    exact apart p hp q hq hne ⟨hne, by omega⟩

/-- A table entry's mass and sums are those of a set of pixels. -/
structure Sums (b : Blob w) (T : Finset Pixel) : Prop where
  mass : b.mass = T.card
  sumX : b.sumX = BitVec.ofNat w (∑ p ∈ T, p.2)
  sumY : b.sumY = BitVec.ofNat w (∑ p ∈ T, p.1)

/-- Its box is theirs as well. -/
structure Describes (b : Blob w) (T : Finset Pixel) : Prop extends Sums b T where
  xMin : IsLeast (Prod.snd '' (T : Set Pixel)) b.xMin
  xMax : IsGreatest (Prod.snd '' (T : Set Pixel)) b.xMax
  yMin : IsLeast (Prod.fst '' (T : Set Pixel)) b.yMin
  yMax : IsGreatest (Prod.fst '' (T : Set Pixel)) b.yMax

theorem pick_min (a b : Nat) : (if a > b then b else a) = min b a := by
  rw [Nat.min_def]
  split <;> split <;> omega

theorem pick_max (a b : Nat) : (if a < b then b else a) = max b a := by
  rw [Nat.max_def]
  split <;> split <;> omega

theorem Describes.start (b : Blob w) (l : Nat) (p : Pixel) : Describes (b.start l p) {p} where
  xMin := by simp [Blob.start]
  xMax := by simp [Blob.start]
  yMin := by simp [Blob.start]
  yMax := by simp [Blob.start]
  mass := by simp [Blob.start]
  sumX := by simp [Blob.start]
  sumY := by simp [Blob.start]

theorem Describes.grow {b : Blob w} {T : Finset Pixel} (h : Describes b T) {p : Pixel}
    (hp : p ∉ T) : Describes (b.grow p) (insert p T) where
  xMin := by
    rw [Finset.coe_insert, Set.image_insert_eq]
    simpa only [Blob.grow, pick_min] using h.xMin.insert p.2
  xMax := by
    rw [Finset.coe_insert, Set.image_insert_eq]
    simpa only [Blob.grow, pick_max] using h.xMax.insert p.2
  yMin := by
    rw [Finset.coe_insert, Set.image_insert_eq]
    simpa only [Blob.grow, pick_min] using h.yMin.insert p.1
  yMax := by
    rw [Finset.coe_insert, Set.image_insert_eq]
    simpa only [Blob.grow, pick_max] using h.yMax.insert p.1
  mass := by simp [Blob.grow, hp, h.mass]
  sumX := by
    simp only [Blob.grow, h.sumX, Finset.sum_insert hp]
    rw [← BitVec.ofNat_add, Nat.add_comm]
  sumY := by
    simp only [Blob.grow, h.sumY, Finset.sum_insert hp]
    rw [← BitVec.ofNat_add, Nat.add_comm]

theorem Sums.absorb {d b : Blob w} {T U : Finset Pixel} (hd : Sums d T) (hb : Sums b U)
    (disj : Disjoint T U) : Sums (d.absorb b) (T ∪ U) where
  mass := by simp [Blob.absorb, hd.mass, hb.mass, Finset.card_union_of_disjoint disj]
  sumX := by
    simp only [Blob.absorb, hd.sumX, hb.sumX, Finset.sum_union disj]
    rw [BitVec.ofNat_add]
  sumY := by
    simp only [Blob.absorb, hd.sumY, hb.sumY, Finset.sum_union disj]
    rw [BitVec.ofNat_add]

theorem Describes.absorb {d b : Blob w} {T U : Finset Pixel} (hd : Describes d T)
    (hb : Describes b U) (disj : Disjoint T U) : Describes (d.absorb b) (T ∪ U) where
  toSums := hd.toSums.absorb hb.toSums disj
  xMin := by
    rw [Finset.coe_union, Set.image_union, Set.union_comm]
    simpa only [Blob.absorb, pick_min] using hb.xMin.union hd.xMin
  xMax := by
    rw [Finset.coe_union, Set.image_union, Set.union_comm]
    simpa only [Blob.absorb, pick_max] using hb.xMax.union hd.xMax
  yMin := by
    rw [Finset.coe_union, Set.image_union, Set.union_comm]
    simpa only [Blob.absorb, pick_min] using hb.yMin.union hd.yMin
  yMax := by
    rw [Finset.coe_union, Set.image_union, Set.union_comm]
    simpa only [Blob.absorb, pick_max] using hb.yMax.union hd.yMax

theorem Sums.relabel {b : Blob w} {T : Finset Pixel} (h : Sums b T) (l : Nat) :
    Sums { b with label := l } T :=
  ⟨h.mass, h.sumX, h.sumY⟩

/-- The label field is no part of what an entry says of its pixels. -/
theorem Describes.relabel {b : Blob w} {T : Finset Pixel} (h : Describes b T) (l : Nat) :
    Describes { b with label := l } T :=
  ⟨h.toSums.relabel l, h.xMin, h.xMax, h.yMin, h.yMax⟩

theorem Sums.zero : Sums (Blob.zero : Blob w) ∅ := by
  constructor <;> simp [Blob.zero]

/-- A record says exactly what its pixels are: their number, box, sums and the
floors of their means. -/
structure Exact (b : Blob w) (T : Finset Pixel) : Prop where
  mass : b.mass = T.card
  xMin : IsLeast (Prod.snd '' (T : Set Pixel)) b.xMin
  xMax : IsGreatest (Prod.snd '' (T : Set Pixel)) b.xMax
  yMin : IsLeast (Prod.fst '' (T : Set Pixel)) b.yMin
  yMax : IsGreatest (Prod.fst '' (T : Set Pixel)) b.yMax
  sumX : b.sumX.toNat = ∑ p ∈ T, p.2
  sumY : b.sumY.toNat = ∑ p ∈ T, p.1
  centroidX : b.centroidX = (∑ p ∈ T, p.2) / T.card
  centroidY : b.centroidY = (∑ p ∈ T, p.1) / T.card

theorem card_le_sum {T : Finset Pixel} {f : Pixel → Nat} (h : ∀ p ∈ T, 1 ≤ f p) :
    T.card ≤ ∑ p ∈ T, f p := by
  have := Finset.card_nsmul_le_sum T f 1 h
  simpa using this

/-- As long as the sums fit, a described set of pixels off the first row and
column is recorded exactly: its mass is no more than its sums. -/
theorem Describes.exact {b : Blob w} {T : Finset Pixel} (h : Describes b T)
    (off : ∀ p ∈ T, 1 ≤ p.1 ∧ 1 ≤ p.2) (hx : ∑ p ∈ T, p.2 < 2 ^ w) (hy : ∑ p ∈ T, p.1 < 2 ^ w)
    (k : Nat) : Exact (b.consolidate k) T := by
  have hm := card_le_sum (f := Prod.snd) (fun p hp => (off p hp).2)
  have hmass : T.card % 2 ^ w = T.card := Nat.mod_eq_of_lt (by omega)
  constructor
  · exact h.mass
  · exact h.xMin
  · exact h.xMax
  · exact h.yMin
  · exact h.yMax
  · simp [Blob.consolidate, h.sumX, Nat.mod_eq_of_lt hx]
  · simp [Blob.consolidate, h.sumY, Nat.mod_eq_of_lt hy]
  · simp [Blob.consolidate, h.sumX, h.mass, Nat.mod_eq_of_lt hx, hmass]
  · simp [Blob.consolidate, h.sumY, h.mass, Nat.mod_eq_of_lt hy, hmass]

/-- Two records with the same box, centroid and mass. -/
structure Agrees (b c : Blob w) : Prop where
  xMin : b.xMin = c.xMin
  xMax : b.xMax = c.xMax
  yMin : b.yMin = c.yMin
  yMax : b.yMax = c.yMax
  centroidX : b.centroidX = c.centroidX
  centroidY : b.centroidY = c.centroidY
  mass : b.mass = c.mass

/-- What is copied into the caller's record agrees with where it comes from. -/
theorem Agrees.fill (b c : Blob w) : Agrees (b.fill c) c := by
  constructor <;> rfl

/-- The image: which pixels count, and which of the pixels A, B, C, D a pixel
counts among its neighbours. -/
def image (w : Nat) (on : Pixel → Prop) (sees : Pixel → Pixel → Prop) : Ground Pixel (Blob w) where
  on := on
  near := Adj8
  back := fun p q => on p ∧ on q ∧ Behind p q ∧ sees p q
  describes := Describes
  near_symm := fun _ _ h => h.symm
  back_near := fun _ _ h => h.2.2.1.adj
  back_from := fun _ _ h => h.1
  back_on := fun _ _ h => h.2.1

/-- The labels, links and entries of a scan. -/
def marks (width : Nat) (output : Buf Nat) (blobs : Table w) : Marks Pixel (Blob w) where
  lab := fun p => output (idx width p)
  link := fun l => (blobs l).label
  cell := fun l => blobs l

end Motion
