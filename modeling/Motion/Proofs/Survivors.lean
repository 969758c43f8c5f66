import Motion.Proofs.Columns
import Motion.Proofs.Rerun
import Motion.Proofs.Sparse
import Motion.Proofs.StartLinks

/-! Which starts are recorded as blobs, and how many: whether there is one to select,
and whether they fit their array. -/

namespace Motion
open Labelling

/-- Two numberings that tell the same members apart take as many values. -/
theorem card_image_eq {α : Type} {S : Finset α} {f g : α → Nat}
    (h : ∀ a ∈ S, ∀ b ∈ S, f a = f b ↔ g a = g b) : (S.image f).card = (S.image g).card := by
  have hpair : ∀ (f g : α → Nat), (∀ a ∈ S, ∀ b ∈ S, f a = f b → g a = g b) →
      (S.image (fun a => (f a, g a))).card = (S.image f).card := by
    intro f g hfg
    have himage : S.image f = (S.image (fun a => (f a, g a))).image Prod.fst := by
      rw [Finset.image_image]
      rfl
    rw [himage]
    refine (Finset.card_image_of_injOn ?_).symm
    intro x hx y hy he
    obtain ⟨a, ha, rfl⟩ := Finset.mem_image.mp (Finset.mem_coe.mp hx)
    obtain ⟨b, hb, rfl⟩ := Finset.mem_image.mp (Finset.mem_coe.mp hy)
    exact Prod.ext he (hfg a ha b hb he)
  have hswap : (S.image (fun a => (f a, g a))).card = (S.image (fun a => (g a, f a))).card := by
    rw [← Finset.card_image_of_injective (S.image (fun a => (f a, g a))) Prod.swap_injective,
      Finset.image_image]
    rfl
  rw [← hpair f g (fun a ha b hb => (h a ha b hb).mp), hswap,
    hpair g f (fun a ha b hb => (h a ha b hb).mpr)]

variable {w width : Nat} {input : Buf UInt8} {order : List Band} {stitches : List Nat}
  {top : Band → Nat} {out : Buf Nat} {blobs t : Table w} {q : Pixel}

namespace Run

variable (h : Bands w input width order top out blobs) (fair : order.Perm bands)

include h fair

/-- A blob is recorded for each start that comes back to itself. -/
theorem numBlobs_eq (ht : Tied input width out blobs t)
    (hs : Sewn input width order stitches out t) (stack : Buf (Blob w)) :
    (mergeAll (maxBlobsPerThread * 4) (redirectAll (maxBlobsPerThread * 4) t) stack).numBlobs =
      (returningStarts input width order stitches).card := by
  classical
  have hmatch := h.redirected fair hs rfl
  have hself : ∀ q, Moving input width labelledHeight q →
      (links (redirectAll (maxBlobsPerThread * 4) t) (out (idx width q)) = out (idx width q) ↔
        endLink input width order stitches (parStart input width order q) =
          parStart input width order q) :=
    fun q hq => hmatch.eq_iff (hmatch.link _ _ ⟨q, hq, rfl, rfl⟩) ⟨q, hq, rfl, rfl⟩
  let S := (moving input width labelledHeight).filter (fun q =>
    endLink input width order stitches (parStart input width order q) =
      parStart input width order q)
  have hstarts : returningStarts input width order stitches =
      S.image (parStart input width order) := by
    unfold returningStarts
    rw [Finset.filter_image]
  have hlabels : ((upto 1 (maxBlobsPerThread * 4)).filter (fun i =>
      links (redirectAll (maxBlobsPerThread * 4) t) i = i)).toFinset =
        S.image (fun q => out (idx width q)) := by
    ext i
    rw [List.mem_toFinset, List.mem_filter, mem_upto, decide_eq_true_eq, Finset.mem_image]
    constructor
    · rintro ⟨hi, he⟩
      obtain ⟨q, hq, rfl⟩ := used_of_self ht hi.1 hi.2 he
      exact ⟨q, Finset.mem_filter.mpr ⟨mem_moving.mpr hq, (hself q hq).mp he⟩, rfl⟩
    · rintro ⟨q, hq, rfl⟩
      obtain ⟨hq, he⟩ := Finset.mem_filter.mp hq
      exact ⟨h.label_range fair (mem_moving.mp hq), (hself q (mem_moving.mp hq)).mpr he⟩
  rw [mergeAll_numBlobs, ← List.toFinset_card_of_nodup
    ((List.Pairwise.imp (fun h => Nat.ne_of_lt h) (upto_sorted _ _)).filter _), hlabels, hstarts]
  refine card_image_eq (fun p hp q hq => h.label_eq fair ?_ ?_)
  · exact mem_moving.mp (Finset.mem_filter.mp hp).1
  · exact mem_moving.mp (Finset.mem_filter.mp hq).1

variable (hl : ∀ p ∈ seamPixels width stitches, Inside width labelledHeight p)
  (level : ∀ p ∈ seamPixels width stitches, ¬Rises input width order p)

include hl level

/-- Where no stitch links upwards, links fall along the labels in use. -/
theorem stitched_falls : Links.Falls
    (fun i => ∃ q, Moving input width labelledHeight q ∧ out (idx width q) = i)
    (links (stitchAll width out (seamPixels width stitches) blobs)) := by
  rintro i ⟨q, hq, rfl⟩
  exact ⟨(h.stitchAll_tied fair hl).carried q hq, h.stitchAll_falls fair hl level hq⟩

/-- There a label returns exactly if its start survives. -/
theorem returns_iff (hq : Moving input width labelledHeight q) :
    Returns (stitchAll width out (seamPixels width stitches) blobs) (out (idx width q)) ↔
      Survives input width order stitches q := by
  rw [← h.stitchAll_self_iff fair hl hq]
  have hfixed := Links.root_fixed (h.stitched_falls fair hl level) ⟨q, hq, rfl⟩
  unfold Returns
  constructor
  · intro hret
    rw [hfixed, hfixed] at hret
    rwa [hret] at hfixed
  · intro hself
    rw [Links.root_self hself, hself, hself]

/-- And the starts that come back are those that survive. -/
theorem returningStarts_eq
    (hs : Sewn input width order stitches out
      (stitchAll width out (seamPixels width stitches) blobs)) :
    returningStarts input width order stitches = survivors input width order stitches := by
  classical
  have hmatch := h.linked fair hs
  have hreturn : ∀ q, Moving input width labelledHeight q →
      (endLink input width order stitches (parStart input width order q) =
        parStart input width order q ↔ Survives input width order stitches q) := by
    intro q hq
    rw [← h.returns_iff fair hl level hq]
    exact (hmatch.eq_iff (hmatch.settled ⟨q, hq, rfl, rfl⟩) ⟨q, hq, rfl, rfl⟩).symm
  ext n
  simp only [returningStarts, survivors, Finset.mem_filter, Finset.mem_image, mem_moving]
  constructor
  · rintro ⟨⟨q, hq, rfl⟩, he⟩
    exact ⟨q, ⟨hq, (hreturn q hq).mp he⟩, rfl⟩
  · rintro ⟨q, ⟨hq, hs⟩, rfl⟩
    exact ⟨⟨q, hq, rfl⟩, (hreturn q hq).mpr hs⟩

/-- There a label's path ends at the label of a start that survives. -/
theorem root_survives (hq : Moving input width labelledHeight q) :
    ∃ r, Survives input width order stitches r ∧ out (idx width r) =
      Links.root (links (stitchAll width out (seamPixels width stitches) blobs))
        (out (idx width q)) := by
  have hfalls := h.stitched_falls fair hl level
  obtain ⟨r, hr, he⟩ := Links.root_used hfalls ⟨q, hq, rfl⟩
  have hfixed := Links.root_fixed hfalls ⟨q, hq, rfl⟩
  rw [← he] at hfixed
  exact ⟨r, (h.stitchAll_self_iff fair hl hr).mp hfixed, he⟩

/-- There something survives as soon as something moves. -/
theorem survivors_nonempty_iff :
    (survivors input width order stitches).Nonempty ↔
      ∃ q, Moving input width labelledHeight q := by
  simp only [Finset.Nonempty, survivors, Finset.mem_image, Finset.mem_filter, mem_moving]
  constructor
  · rintro ⟨_, q, ⟨hq, _⟩, _⟩
    exact ⟨q, hq⟩
  · rintro ⟨q, hq⟩
    obtain ⟨r, hr, _⟩ := h.root_survives fair hl level hq
    exact ⟨_, r, ⟨hr.1, hr⟩, rfl⟩

end Run

/-- How many blobs a run records: one for each start that comes back to itself, which are those
that survive where no stitch links upwards. -/
theorem blobDetectPar_numBlobs {stack : Buf (Blob w)} {biggest : Blob w} {d : Detection w}
    (fair : order.Perm bands) (fair' : stitches.Perm seams)
    (run : blobDetectPar order stitches stack biggest (Buf.all 0) input width 240 = some d) :
    d.numBlobs = (returningStarts input width order stitches).card ∧
    ((∀ p ∈ seamPixels width stitches, ¬Rises input width order p) →
      returningStarts input width order stitches = survivors input width order stitches ∧
      ((survivors input width order stitches).Nonempty ↔
        ∃ q, Moving input width labelledHeight q)) := by
  obtain ⟨sh, hsh, rfl⟩ := blobDetectPar_some run
  obtain ⟨top, h⟩ := runLabels_run fair hsh
  have hl : ∀ p ∈ seamPixels width stitches, Inside width labelledHeight p :=
    fun p hp => seam_inside fair' hp
  have hs := runLabels_sewn fair fair' hsh
  refine ⟨?_, fun level => ⟨h.returningStarts_eq fair hl level hs,
    h.survivors_nonempty_iff fair hl level⟩⟩
  rw [collectUpTo_numBlobs]
  exact h.numBlobs_eq fair (h.stitchAll_tied fair hl) hs stack

/-- When the final blobs fit `consolidated_blobs`: when no more starts come back to themselves
than one thread may take; where no stitch links upwards, when no more survive. -/
theorem blobDetectPar_fits_iff {stack : Buf (Blob w)} {biggest : Blob w} {d : Detection w}
    (fair : order.Perm bands) (fair' : stitches.Perm seams)
    (run : blobDetectPar order stitches stack biggest (Buf.all 0) input width 240 = some d) :
    (d.numBlobs ≤ maxBlobsPerThread ↔
      (returningStarts input width order stitches).card ≤ maxBlobsPerThread) ∧
    ((∀ p ∈ seamPixels width stitches, ¬Rises input width order p) →
      (d.numBlobs ≤ maxBlobsPerThread ↔
        (survivors input width order stitches).card ≤ maxBlobsPerThread)) := by
  obtain ⟨hcount, hlevel⟩ := blobDetectPar_numBlobs fair fair' run
  refine ⟨by rw [hcount], fun level => ?_⟩
  rw [hcount, (hlevel level).1]

/-- Of two poles there are two blobs. -/
theorem blobDetectPar_fits_twoPoles : ∃ d : Detection 32,
    blobDetectPar bands seams (Buf.all Blob.zero) Blob.zero (Buf.all 0) twoPoles 3 240 = some d ∧
    d.numBlobs ≤ maxBlobsPerThread := by
  obtain ⟨d, hd⟩ := blobDetectPar_narrow (List.Perm.refl bands) (by decide : 3 ≤ 5) seams
    (Buf.all (Blob.zero (w := 32))) Blob.zero twoPoles 240
  refine ⟨d, hd, (blobDetectPar_fits_iff (List.Perm.refl _) (List.Perm.refl _) hd).1.mpr ?_⟩
  have hsub : returningStarts twoPoles 3 bands seams ⊆ {idx 3 (1, 1), idx 3 (59, 1)} := by
    intro n hn
    rw [Finset.mem_insert, Finset.mem_singleton]
    exact mem_returning_poles.mp hn
  exact (Finset.card_le_card hsub).trans (by decide)

section gravel

/-- Dots in two columns of every other row, none of them at the foot of a band. -/
def gravel : Buf UInt8 := painted 5 fun p => p.1 % 2 = 0 ∧ p.2 % 2 = 1

theorem moving_gravel {p : Pixel} : Moving gravel 5 labelledHeight p ↔
    Inside 5 labelledHeight p ∧ p.1 % 2 = 0 ∧ p.2 % 2 = 1 := by
  unfold gravel
  rw [moving_painted, decide_eq_true_eq]

/-- Every dot starts a label of its own. -/
theorem gravel_takes {p : Pixel} (hp : Moving gravel 5 labelledHeight p) :
    TakesLabel gravel 5 bands p := by
  refine ⟨hp, fun q hq => ?_⟩
  have h1 := moving_gravel.mp hp
  have h2 := moving_gravel.mp hq.2.1
  have hb : Behind p q := hq.2.2.1
  unfold Behind at hb
  omega

theorem gravel_quiet {p : Pixel} (hp : p ∈ seamPixels 5 seams) (q : Pixel) :
    ¬OverSeam gravel 5 p q := by
  rintro ⟨ha, hm⟩
  have hrow := (mem_seamPixels.mp hp).1
  have hall : ∀ r ∈ seams, r % 2 = 0 := by decide
  have heven := hall _ hrow
  have hq := (moving_gravel.mp hm).2.1
  unfold Above at ha
  omega

theorem gravel_survives {p : Pixel} (hp : Moving gravel 5 labelledHeight p) :
    Survives gravel 5 bands seams p := by
  refine ⟨hp, ?_, ?_⟩
  · rintro ⟨x, y, hb, _⟩
    exact (gravel_takes hb.1).2 y hb
  · rintro x hx ⟨a, ha, _⟩
    exact gravel_quiet hx a ha

/-- So more survive than one thread may take. -/
theorem gravel_survivors : maxBlobsPerThread < (survivors gravel 5 bands seams).card := by
  classical
  let dot : Nat → Pixel := fun k => (2 * (k / 2) + 2, 2 * (k % 2) + 1)
  have hdot : ∀ k < 238, Moving gravel 5 labelledHeight (dot k) := by
    intro k hk
    rw [moving_gravel]
    unfold Inside labelledHeight
    dsimp only [dot]
    omega
  have hsub : (Finset.range 238).image (fun k => idx 5 (dot k)) ⊆
      survivors gravel 5 bands seams := by
    intro i hi
    obtain ⟨k, hk, rfl⟩ := Finset.mem_image.mp hi
    have hm := hdot k (Finset.mem_range.mp hk)
    refine Finset.mem_image.mpr ⟨dot k,
      Finset.mem_filter.mpr ⟨mem_moving.mpr hm, gravel_survives hm⟩, ?_⟩
    exact (gravel_takes hm).start
  have hcard := Finset.card_le_card hsub
  rw [Finset.card_image_of_injOn, Finset.card_range] at hcard
  · exact Nat.lt_of_lt_of_le (by decide) hcard
  · intro k _ l _ he
    simp only [idx, dot] at he
    omega

/-- No thread runs out of labels, and the final blobs run over the end of their array. -/
theorem gravel_overruns :
    ¬∀ (w width : Nat) (input : Buf UInt8) (order : List Band) (stitches : List Nat)
      (stack : Buf (Blob w)) (biggest : Blob w) (d : Detection w), 3 ≤ width →
      order.Perm bands → stitches.Perm seams →
      blobDetectPar order stitches stack biggest (Buf.all 0) input width 240 = some d →
      d.numBlobs ≤ 200 := by
  intro hall
  obtain ⟨d, hd⟩ := blobDetectPar_narrow (List.Perm.refl bands) (by decide : 5 ≤ 5) seams
    (Buf.all (Blob.zero (w := 32))) Blob.zero gravel 240
  have hfits := hall 32 5 gravel bands seams _ _ d (by decide) (List.Perm.refl _)
    (List.Perm.refl _) hd
  have hlevel : ∀ p ∈ seamPixels 5 seams, ¬Rises gravel 5 bands p := by
    rintro p hp ⟨_, ⟨q, hq⟩, _⟩
    exact gravel_quiet hp q hq
  obtain ⟨hcount, hreturn⟩ := blobDetectPar_numBlobs (List.Perm.refl _) (List.Perm.refl _) hd
  rw [hcount, (hreturn hlevel).1] at hfits
  exact absurd gravel_survivors (Nat.not_lt_of_le hfits)

end gravel

end Motion
