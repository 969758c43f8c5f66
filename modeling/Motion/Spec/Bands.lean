import Motion.Code.BlobDetectPar
import Motion.Spec.Objects

/-! The bands the threads label, and what a pixel sees of the band above it: its
labels, if that band has been labelled before. -/

namespace Motion
open Labelling

/-- The rows of a band. -/
def InRows (b : Band) (p : Pixel) : Prop := b.startRow ≤ p.1 ∧ p.1 ≤ b.endRow

instance : DecidablePred (InRows b) := fun _ => inferInstanceAs (Decidable (_ ∧ _))

/-- The indices of a band's rows. -/
def IdxIn (width : Nat) (b : Band) (n : Nat) : Prop :=
  b.startRow * width ≤ n ∧ n < (b.endRow + 1) * width

instance (width : Nat) (b : Band) : DecidablePred (IdxIn width b) :=
  fun _ => inferInstanceAs (Decidable (_ ∧ _))

/-- The height up to which the threads label: row 239 belongs to the last band. -/
def labelledHeight : Nat := 241

/-- The turn at which a pixel's band is labelled. -/
def rank (order : List Band) (p : Pixel) : Nat := order.findIdx (fun b => InRows b p)

/-- Whether a pixel's band has been labelled by the time another's is. -/
def sees (order : List Band) (p q : Pixel) : Prop := rank order q ≤ rank order p

/-- The image the four calls of `label` work on, under an order of the calls. -/
abbrev parScene (w : Nat) (input : Buf UInt8) (width : Nat) (order : List Band) :
    Ground Pixel (Blob w) :=
  image w (Moving input width labelledHeight) (sees order)

/-- The earliest pixel a pixel reaches by looking back at what its band sees. -/
noncomputable def parStart (input : Buf UInt8) (width : Nat) (order : List Band) (p : Pixel) : Nat :=
  origin (parScene 0 input width order) Set.univ (idx width) p

/-- Where a label taken over is also written to slot 0: some pixel looked back at has
a label, and some has none. -/
def Spills (input : Buf UInt8) (width : Nat) (order : List Band) (p : Pixel) : Prop :=
  (∃ q, (parScene 0 input width order).back p q) ∧
    ∃ q, Behind p q ∧ ¬(parScene 0 input width order).back p q

/-- A pixel that takes a new label: it looks back at nothing its band sees. -/
def TakesLabel (input : Buf UInt8) (width : Nat) (order : List Band) (p : Pixel) : Prop :=
  Moving input width labelledHeight p ∧ ∀ q, ¬(parScene 0 input width order).back p q

open Classical in
/-- How many labels a band takes. -/
noncomputable def labelsTaken (input : Buf UInt8) (width : Nat) (order : List Band)
    (b : Band) : Nat :=
  ((b.pixels width).filter (TakesLabel input width order)).length

open Classical in
/-- No band takes as many labels as a thread has. -/
def Roomy (input : Buf UInt8) (width : Nat) (order : List Band) : Prop :=
  ∀ b ∈ bands, ((b.pixels width).filter (TakesLabel input width order)).length < maxBlobsPerThread

/-- `q` is one of the pixels A, B, C of `p`. -/
def Above (p q : Pixel) : Prop :=
  q.1 + 1 = p.1 ∧ (q.2 + 1 = p.2 ∨ q.2 = p.2 ∨ q.2 = p.2 + 1)

/-- No motion reaches across a seam. -/
def SeamsQuiet (input : Buf UInt8) (width : Nat) : Prop :=
  ∀ p q, p.1 ∈ seams → Above p q → Moving input width labelledHeight p →
    ¬Moving input width labelledHeight q

open Classical in
/-- The last of the visited pixels where that happens. -/
noncomputable def lastSpill (input : Buf UInt8) (width : Nat) (order : List Band)
    (visited : List Pixel) : Option Pixel :=
  (visited.filter (Spills input width order)).getLast?

variable {w width : Nat} {input : Buf UInt8} {order done rest : List Band} {b b' : Band}
  {p q : Pixel}

theorem getLast?_filter_concat {α : Type} (P : α → Bool) (l : List α) (x : α) :
    ((l ++ [x]).filter P).getLast? = if P x then some x else (l.filter P).getLast? := by
  rw [List.filter_append]
  cases hx : P x <;> simp [hx]

theorem lastSpill_concat_of (h : Spills input width order p) (l : List Pixel) :
    lastSpill input width order (l ++ [p]) = some p := by
  classical
  unfold lastSpill
  rw [getLast?_filter_concat, if_pos (decide_eq_true h)]

theorem lastSpill_concat_of_not (h : ¬Spills input width order p) (l : List Pixel) :
    lastSpill input width order (l ++ [p]) = lastSpill input width order l := by
  classical
  unfold lastSpill
  rw [getLast?_filter_concat, if_neg (by simpa using h)]

/-- Where some visited pixel spills there is a last one that does. -/
theorem lastSpill_of_spills {l : List Pixel} (hp : p ∈ l) (h : Spills input width order p) :
    ∃ z ∈ l, Spills input width order z ∧ lastSpill input width order l = some z := by
  classical
  cases hz : lastSpill input width order l with
  | none =>
    unfold lastSpill at hz
    rw [List.getLast?_eq_none_iff, List.filter_eq_nil_iff] at hz
    exact absurd (decide_eq_true h) (hz p hp)
  | some z =>
    unfold lastSpill at hz
    obtain ⟨hz, hs⟩ := List.mem_filter.mp (List.mem_of_getLast? hz)
    exact ⟨z, hz, of_decide_eq_true hs, rfl⟩

theorem mem_pixels : p ∈ b.pixels width ↔ InRows b p ∧ 1 ≤ p.2 ∧ p.2 + 1 < width := by
  unfold Band.pixels InRows
  rw [mem_raster, mem_upto, mem_upto]
  omega

theorem pixels_sorted (width : Nat) (b : Band) : (b.pixels width).Pairwise Before :=
  raster_sorted (upto_sorted _ _) (upto_sorted _ _)

/-- Two bands lie apart, in their rows and in their labels. -/
theorem bands_apart (hb : b ∈ bands) (hb' : b' ∈ bands) : b = b' ∨
    (b.endRow < b'.startRow ∧ b.startLabel + maxBlobsPerThread ≤ b'.startLabel) ∨
    (b'.endRow < b.startRow ∧ b'.startLabel + maxBlobsPerThread ≤ b.startLabel) := by
  have hall : ∀ b ∈ bands, ∀ b' ∈ bands, b = b' ∨
      (b.endRow < b'.startRow ∧ b.startLabel + maxBlobsPerThread ≤ b'.startLabel) ∨
      (b'.endRow < b.startRow ∧ b'.startLabel + maxBlobsPerThread ≤ b.startLabel) := by decide
  exact hall b hb b' hb'

theorem bands_range (hb : b ∈ bands) : 1 ≤ b.startRow ∧ b.startRow ≤ b.endRow ∧
    b.endRow + 1 < labelledHeight ∧ 1 ≤ b.startLabel ∧
    b.startLabel + maxBlobsPerThread ≤ maxBlobsPerThread * 4 + 1 := by
  have hall : ∀ b ∈ bands, 1 ≤ b.startRow ∧ b.startRow ≤ b.endRow ∧
      b.endRow + 1 < labelledHeight ∧ 1 ≤ b.startLabel ∧
      b.startLabel + maxBlobsPerThread ≤ maxBlobsPerThread * 4 + 1 := by decide
  exact hall b hb

theorem bands_disjoint (hb : b ∈ bands) (hb' : b' ∈ bands) (h : InRows b p)
    (h' : InRows b' p) : b = b' := by
  unfold InRows at h h'
  rcases bands_apart hb hb' with he | he | he
  · exact he
  · omega
  · omega

/-- Together the bands are the rows up to 239. -/
theorem bands_cover (hp : Inside width labelledHeight p) : ∃ b ∈ bands, InRows b p := by
  unfold Inside labelledHeight at hp
  obtain h | h | h | h : p.1 ≤ 59 ∨ (60 ≤ p.1 ∧ p.1 ≤ 119) ∨ (120 ≤ p.1 ∧ p.1 ≤ 179) ∨
      (180 ≤ p.1 ∧ p.1 ≤ 239) := by omega
  · exact ⟨⟨1, 59, 1⟩, by decide, hp.1, h⟩
  · exact ⟨⟨60, 119, maxBlobsPerThread * 1 + 1⟩, by decide, h⟩
  · exact ⟨⟨120, 179, maxBlobsPerThread * 2 + 1⟩, by decide, h⟩
  · exact ⟨⟨180, 239, maxBlobsPerThread * 3 + 1⟩, by decide, h⟩

theorem inside_of_mem (hb : b ∈ bands) (hp : p ∈ b.pixels width) :
    Inside width labelledHeight p := by
  have h := mem_pixels.mp hp
  have hr := bands_range hb
  unfold InRows at h
  unfold Inside
  omega

theorem mem_of_inRows (hp : Inside width labelledHeight p) (h : InRows b p) :
    p ∈ b.pixels width := by
  unfold Inside at hp
  exact mem_pixels.mpr ⟨h, by omega⟩

/-- A pixel is ranked among the bands done exactly when it lies in one of them. -/
theorem rank_lt_iff : rank (done ++ rest) p < done.length ↔ ∃ b ∈ done, InRows b p := by
  unfold rank
  rw [List.findIdx_append]
  split
  · rename_i h
    refine iff_of_true h ?_
    simpa using List.findIdx_lt_length.mp h
  · rename_i h
    refine iff_of_false (by omega) ?_
    rintro ⟨b, hb, hp⟩
    exact h (List.findIdx_lt_length.mpr ⟨b, hb, by simpa using hp⟩)

theorem rank_self (hin : ∀ b' ∈ done, ¬InRows b' p) (h : InRows b p) :
    rank (done ++ b :: rest) p = done.length := by
  have hge : ¬rank (done ++ b :: rest) p < done.length := by
    rw [rank_lt_iff]
    rintro ⟨b', hb', hp⟩
    exact hin b' hb' hp
  have hle : rank (done ++ b :: rest) p < (done ++ [b]).length := by
    have hlt : rank ((done ++ [b]) ++ rest) p < (done ++ [b]).length :=
      rank_lt_iff.mpr ⟨b, by simp, h⟩
    simpa using hlt
  rw [List.length_append, List.length_singleton] at hle
  omega

/-- A pixel of the band being labelled sees this band and those done before. -/
theorem sees_iff (fair : (done ++ b :: rest).Perm bands) (hp : InRows b p) :
    sees (done ++ b :: rest) p q ↔ ∃ b' ∈ done ++ [b], InRows b' q := by
  have hmem : ∀ c ∈ done ++ b :: rest, c ∈ bands := fun c hc => fair.mem_iff.mp hc
  have hnodup : (done ++ b :: rest).Nodup := fair.nodup_iff.mpr (by decide)
  have hrank : rank (done ++ b :: rest) p = done.length := by
    refine rank_self ?_ hp
    intro b' hb' hp'
    have he := bands_disjoint (hmem b (by simp)) (hmem b' (by simp [hb'])) hp hp'
    rw [List.nodup_append] at hnodup
    exact hnodup.2.2 b' hb' b (by simp) he.symm
  unfold sees
  rw [hrank, Nat.le_iff_lt_add_one]
  have hiff : rank ((done ++ [b]) ++ rest) q < (done ++ [b]).length ↔
      ∃ b' ∈ done ++ [b], InRows b' q := rank_lt_iff
  rwa [List.append_assoc, List.singleton_append, List.length_append, List.length_singleton] at hiff

/-- Together the calls visit every moving pixel. -/
theorem live_par (w : Nat) (input : Buf UInt8) (width : Nat) (fair : order.Perm bands) :
    live (parScene w input width order) (order.flatMap (Band.pixels width)).toFinset =
      {p | Moving input width labelledHeight p} := by
  ext p
  simp only [live, Set.mem_ofPred_eq, List.mem_toFinset, List.mem_flatMap]
  constructor
  · exact fun h => h.2
  · intro h
    obtain ⟨b, hb, hrows⟩ := bands_cover h.1
    exact ⟨⟨b, fair.mem_iff.mpr hb, mem_of_inRows h.1 hrows⟩, h⟩

theorem joined_par (w : Nat) (input : Buf UInt8) (width : Nat) (fair : order.Perm bands) :
    Labelling.Joined (parScene w input width order)
        (order.flatMap (Band.pixels width)).toFinset =
      Connected input width labelledHeight := by
  unfold Labelling.Joined
  rw [live_par w input width fair]
  rfl

end Motion
