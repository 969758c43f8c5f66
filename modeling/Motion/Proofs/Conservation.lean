import Motion.Proofs.Collect
import Motion.Proofs.Columns
import Motion.Proofs.Sparse

/-! What the merge loop loses: an entry merged into a higher one comes too late. -/

namespace Motion
open Labelling

/-- The mass recorded so far. -/
def recorded (s : Merge w) : Nat := ∑ k ∈ Finset.range s.numBlobs, (s.consolidatedBlobs k).mass

/-- The mass of the entries below `n`, still to be merged. -/
def pending (n : Nat) (t : Table w) : Nat := ∑ i ∈ Finset.Ico 1 n, (t i).mass

/-- An entry that has mass leads somewhere, and a link leads to an entry that has mass. -/
structure Filled (n : Nat) (t : Table w) : Prop where
  linked : ∀ i, 1 ≤ i → i < n → (t i).mass ≠ 0 → links t i ≠ 0
  carried : ∀ i, 1 ≤ i → i < n → links t i ≠ 0 → links t i < n ∧ (t (links t i)).mass ≠ 0

/-- What the merge loop keeps of the table: links, and which entries have mass. -/
structure Weighed (t : Table w) (s : Merge w) : Prop where
  label : ∀ i, links s.blobs i = links t i
  empty : ∀ i ≠ 0, (t i).mass = 0 → (s.blobs i).mass = 0
  weighs : ∀ i, (t i).mass ≤ (s.blobs i).mass

variable {w n k : Nat} {t : Table w} {s : Merge w}

theorem Weighed.start (t : Table w) (stack : Buf (Blob w)) : Weighed t ⟨t, stack, 0⟩ where
  label := fun _ => rfl
  empty := fun _ _ hz => hz
  weighs := fun _ => Nat.le_refl _

theorem recorded_start (t : Table w) (stack : Buf (Blob w)) : recorded ⟨t, stack, 0⟩ = 0 := by
  simp [recorded]

theorem Weighed.step (f : Filled n t) (h : Weighed t s) (hk : 1 ≤ k) (hn : k < n) :
    Weighed t (mergeUsed s k) := by
  by_cases h0 : (s.blobs k).label = 0
  · rwa [mergeUsed_skip h0]
  rw [mergeUsed_eq h0]
  by_cases hself : (s.blobs k).label = k
  · rw [mergeEntry_record hself]
    exact ⟨h.label, h.empty, h.weighs⟩
  · have hlink : (s.blobs k).label = links t k := h.label k
    have hmass := (f.carried k hk hn (hlink ▸ h0)).2
    constructor
    · intro i
      exact (mergeEntry_label s k i).trans (h.label i)
    · intro i hi hz
      rw [mergeEntry_merge hself, hlink]
      have hne : i ≠ links t k := by
        rintro rfl
        exact hmass hz
      simp only [Buf.write_other _ _ hne]
      exact h.empty i hi hz
    · intro i
      rw [mergeEntry_merge hself, hlink]
      have hw := h.weighs i
      by_cases he : i = links t k
      · subst he
        simp only [Buf.write_same, Blob.absorb]
        omega
      · simpa only [Buf.write_other _ _ he] using hw

theorem pending_succ (hk : 1 ≤ k) (t : Table w) : pending (k + 1) t = pending k t + (t k).mass :=
  Finset.sum_Ico_succ_top hk _

theorem pending_absorb (n d : Nat) (t : Table w) (b : Blob w) :
    pending n (t.write d ((t d).absorb b)) =
      pending n t + if d ∈ Finset.Ico 1 n then b.mass else 0 := by
  have hterm : ∀ i, (t.write d ((t d).absorb b) i).mass =
      (t i).mass + if i = d then b.mass else 0 := by
    intro i
    by_cases he : i = d
    · subst he
      simp [Blob.absorb]
    · simp [he]
  unfold pending
  rw [Finset.sum_congr rfl (fun i _ => hterm i), Finset.sum_add_distrib, Finset.sum_ite_eq']

/-- One turn: what is no longer pending is recorded, or merged into an entry above and lost. -/
theorem Weighed.turn (f : Filled n t) (h : Weighed t s) (hk : 1 ≤ k) (hn : k < n) :
    recorded (mergeUsed s k) + pending k (mergeUsed s k).blobs +
      (if k < links t k then (s.blobs k).mass else 0) =
    recorded s + pending (k + 1) s.blobs := by
  have hlink : (s.blobs k).label = links t k := h.label k
  rw [pending_succ hk]
  by_cases h0 : (s.blobs k).label = 0
  · have hempty : (s.blobs k).mass = 0 := by
      refine h.empty k (by omega) ?_
      by_contra hmass
      exact f.linked k hk hn hmass (hlink ▸ h0)
    rw [mergeUsed_skip h0, if_neg (by omega), hempty, Nat.add_zero, Nat.add_zero]
  rw [mergeUsed_eq h0]
  by_cases hself : (s.blobs k).label = k
  · have hrec : recorded (mergeEntry s k) = recorded s + (s.blobs k).mass := by
      rw [mergeEntry_record hself]
      unfold recorded
      rw [Finset.sum_range_succ, Buf.write_same]
      congr 1
      refine Finset.sum_congr rfl (fun i hi => ?_)
      rw [Buf.write_other _ _ (Nat.ne_of_lt (Finset.mem_range.mp hi))]
    rw [hrec, mergeEntry_record hself, if_neg (by omega)]
    simp only
    omega
  · have hrec : recorded (mergeEntry s k) = recorded s := by
      rw [mergeEntry_merge hself]
      rfl
    rw [hrec, mergeEntry_merge hself]
    simp only [pending_absorb, Finset.mem_Ico]
    split <;> split <;> omega

/-- The merge loop records all the mass of the table exactly when no entry that has
mass is linked upwards. -/
theorem merge_total (f : Filled n t) (hk : 1 ≤ k) (hn : k ≤ n) :
    ∀ s : Merge w, Weighed t s →
      recorded ((upto 1 k).reverse.foldl mergeUsed s) ≤ recorded s + pending k s.blobs ∧
      (recorded ((upto 1 k).reverse.foldl mergeUsed s) = recorded s + pending k s.blobs ↔
        ∀ i, 1 ≤ i → i < k → (t i).mass ≠ 0 → links t i ≤ i) := by
  induction k, hk using Nat.le_induction with
  | base =>
    intro s _
    refine ⟨?_, iff_of_true ?_ ?_⟩
    · simp [upto, pending]
    · simp [upto, pending]
    · intro i h1 h2
      omega
  | succ k hk ih =>
    intro s h
    rw [upto_split hk (Nat.lt_succ_self k), upto_self, List.reverse_append, List.reverse_singleton,
      List.singleton_append, List.foldl_cons]
    have hturn := h.turn f hk hn
    obtain ⟨hle, hiff⟩ := ih (by omega) (mergeUsed s k) (h.step f hk hn)
    refine ⟨by omega, ?_⟩
    constructor
    · intro he i h1 h2 hmass
      by_cases hik : i = k
      · subst hik
        by_contra hgt
        have := h.weighs i
        rw [if_pos (by omega)] at hturn
        omega
      · exact hiff.mp (by omega) i h1 (by omega) hmass
    · intro hall
      have hrest := hiff.mpr (fun i h1 h2 hmass => hall i h1 (by omega) hmass)
      by_cases hmass : (t k).mass = 0
      · have := h.empty k (by omega) hmass
        rw [this, ite_self] at hturn
        omega
      · rw [if_neg (by have := hall k hk (by omega) hmass; omega)] at hturn
        omega

/-- Each blob has a pixel at least. -/
theorem mergeAll_numBlobs_le (f : Filled n t) (stack : Buf (Blob w)) :
    (mergeAll n t stack).numBlobs ≤ pending n t := by
  rw [mergeAll_numBlobs, ← List.toFinset_card_of_nodup
    ((List.Pairwise.imp (fun h => Nat.ne_of_lt h) (upto_sorted _ _)).filter _),
    Finset.card_eq_sum_ones]
  have hself : ∀ i ∈ ((upto 1 n).filter (fun i => links t i = i)).toFinset,
      (1 ≤ i ∧ i < n) ∧ 1 ≤ (t i).mass := by
    intro i hi
    rw [List.mem_toFinset, List.mem_filter, mem_upto, decide_eq_true_eq] at hi
    have hmass := (f.carried i hi.1.1 hi.1.2 (by omega)).2
    rw [hi.2] at hmass
    exact ⟨hi.1, Nat.one_le_iff_ne_zero.mpr hmass⟩
  refine (Finset.sum_le_sum (fun i hi => (hself i hi).2)).trans ?_
  exact Finset.sum_le_sum_of_subset (fun i hi => Finset.mem_Ico.mpr (hself i hi).1)

theorem recorded_total_iff (f : Filled n t) (hn : 1 ≤ n) (stack : Buf (Blob w)) :
    recorded (mergeAll n t stack) = pending n t ↔
      ∀ i, 1 ≤ i → i < n → (t i).mass ≠ 0 → links t i ≤ i := by
  have htotal := (merge_total f hn (Nat.le_refl n) _ (Weighed.start t stack)).2
  rwa [recorded_start, Nat.zero_add] at htotal

namespace Run

variable {width : Nat} {input : Buf UInt8} {order : List Band} {top : Band → Nat}
  {out : Buf Nat} {blobs : Table w}
  (h : Bands w input width order top out blobs) (fair : order.Perm bands)
  (ht : Tied input width out blobs t)

include h fair ht

/-- An entry has the mass of the pixels that carry its label. -/
theorem redirect_mass {i : Nat} (h1 : 1 ≤ i) : (redirectAll (maxBlobsPerThread * 4) t i).mass =
    ((moving input width labelledHeight).filter (fun p => out (idx width p) = i)).card := by
  have hsame := redirectAll_same (maxBlobsPerThread * 4) t i
  by_cases hi : ∃ q, Moving input width labelledHeight q ∧ out (idx width q) = i
  · obtain ⟨q, hq, rfl⟩ := hi
    exact (hsame.sums ((ht.same _).sums (h.describes fair hq).toSums)).mass
  · obtain ⟨l, hl⟩ := hsame
    rw [hl, ht.unused i (by omega) (fun q hq he => hi ⟨q, hq, he⟩), eq_comm]
    refine Finset.card_eq_zero.mpr (Finset.filter_eq_empty_iff.mpr (fun q hq he => ?_))
    exact hi ⟨q, mem_moving.mp hq, he⟩

theorem mass_ne_zero_iff {i : Nat} (h1 : 1 ≤ i) :
    (redirectAll (maxBlobsPerThread * 4) t i).mass ≠ 0 ↔
    ∃ q, Moving input width labelledHeight q ∧ out (idx width q) = i := by
  rw [h.redirect_mass fair ht h1, Finset.card_ne_zero]
  constructor
  · rintro ⟨q, hq⟩
    obtain ⟨hm, he⟩ := Finset.mem_filter.mp hq
    exact ⟨q, mem_moving.mp hm, he⟩
  · rintro ⟨q, hq, he⟩
    exact ⟨q, Finset.mem_filter.mpr ⟨mem_moving.mpr hq, he⟩⟩

theorem filled : Filled (maxBlobsPerThread * 4) (redirectAll (maxBlobsPerThread * 4) t) := by
  have hmass := fun i h1 => h.mass_ne_zero_iff fair ht (i := i) h1
  have huse : ∀ i, (∃ q, Moving input width labelledHeight q ∧ out (idx width q) = i) →
      1 ≤ i ∧ i < maxBlobsPerThread * 4 := by
    rintro i ⟨q, hq, rfl⟩
    exact h.label_range fair hq
  constructor
  · intro i h1 _ hm
    have := huse _ (h.redirect_carried fair ht ((hmass i h1).mp hm))
    omega
  · intro i h1 hn hl
    have hused : ∃ q, Moving input width labelledHeight q ∧
        out (idx width q) = links (redirectAll (maxBlobsPerThread * 4) t) i := by
      by_cases hi : ∃ q, Moving input width labelledHeight q ∧ out (idx width q) = i
      · exact h.redirect_carried fair ht hi
      · have he := redirect_unused ht h1 hn (fun q hq he => hi ⟨q, hq, he⟩)
        rw [he] at hl ⊢
        exact ht.slot.resolve_left hl
    have hr := huse _ hused
    exact ⟨hr.2, (hmass _ hr.1).mpr hused⟩

/-- The table holds the mass of all that moves. -/
theorem pending_eq : pending (maxBlobsPerThread * 4) (redirectAll (maxBlobsPerThread * 4) t) =
    (moving input width labelledHeight).card := by
  rw [Finset.card_eq_sum_card_fiberwise (f := fun p => out (idx width p))
    (t := Finset.Ico 1 (maxBlobsPerThread * 4))]
  · exact Finset.sum_congr rfl (fun i hi => h.redirect_mass fair ht (Finset.mem_Ico.mp hi).1)
  · intro p hp
    simpa using h.label_range fair (mem_moving.mp hp)

/-- The recorded masses add up exactly when no label in use climbs. -/
theorem recorded_iff (stack : Buf (Blob w)) :
    recorded (mergeAll (maxBlobsPerThread * 4) (redirectAll (maxBlobsPerThread * 4) t) stack) =
        (moving input width labelledHeight).card ↔
      ∀ q, Moving input width labelledHeight q → ¬Climbs t (out (idx width q)) := by
  rw [← h.pending_eq fair ht, recorded_total_iff (h.filled fair ht) (by decide)]
  have hfalls := redirectAll_falls_iff
    (fun i => ∃ q, Moving input width labelledHeight q ∧ out (idx width q) = i) t
    (by
      rintro i ⟨q, hq, rfl⟩
      exact h.label_range fair hq)
    (by
      rintro i ⟨q, hq, rfl⟩
      exact ht.carried q hq)
  constructor
  · intro hall q hq
    refine hfalls.mp ?_ _ ⟨q, hq, rfl⟩
    rintro i ⟨r, hr, rfl⟩
    have hrange := h.label_range fair hr
    exact hall _ hrange.1 hrange.2 ((h.mass_ne_zero_iff fair ht hrange.1).mpr ⟨r, hr, rfl⟩)
  · intro hall i h1 hn hmass
    refine hfalls.mpr ?_ i ((h.mass_ne_zero_iff fair ht h1).mp hmass)
    rintro j ⟨q, hq, rfl⟩
    exact hall q hq

end Run

theorem collectUpTo_recorded (n : Nat) (stack : Buf (Blob w)) (biggest : Blob w)
    (width height : Nat) (sh : Shared w) :
    ∑ k ∈ Finset.range (collectUpTo n stack biggest width height sh).numBlobs,
        ((collectUpTo n stack biggest width height sh).consolidatedBlobs k).mass =
      recorded (mergeAll n (redirectAll n sh.blobs) stack) := rfl

/-- When `blob_detect_par` loses no motion. The masses add up exactly when no label in
use climbs in the table the stitches leave; where no stitch writes a link upwards they
always do. -/
theorem blobDetectPar_masses {width : Nat} {input : Buf UInt8} {order : List Band}
    {stitches : List Nat} {stack : Buf (Blob w)} {biggest : Blob w} {d : Detection w}
    (fair : order.Perm bands) (fair' : stitches.Perm seams)
    (run : blobDetectPar order stitches stack biggest (Buf.all 0) input width 240 = some d) :
    (∃ sh : Shared w, runLabels input width order (Shared.fresh (Buf.all 0)) = some sh ∧
      (∑ k ∈ Finset.range d.numBlobs, (d.consolidatedBlobs k).mass =
          (moving input width labelledHeight).card ↔
        ∀ q, Moving input width labelledHeight q →
          ¬Climbs (stitches.foldl (stitch width) sh).blobs (sh.output (idx width q)))) ∧
    ((∀ p ∈ seamPixels width stitches, ¬Rises input width order p) →
      ∑ k ∈ Finset.range d.numBlobs, (d.consolidatedBlobs k).mass =
        (moving input width labelledHeight).card) := by
  obtain ⟨sh, hsh, rfl⟩ := blobDetectPar_some run
  obtain ⟨top, h⟩ := runLabels_run fair hsh
  have hin : ∀ p ∈ seamPixels width stitches, Inside width labelledHeight p :=
    fun p hp => seam_inside fair' hp
  have hiff := h.recorded_iff fair (h.stitchAll_tied fair hin) stack
  rw [collectUpTo_recorded]
  refine ⟨⟨sh, hsh, ?_⟩, fun level => hiff.mpr ?_⟩
  · rw [stitch_foldl]
    exact hiff
  · rintro q hq ⟨hup, _⟩
    have := h.stitchAll_falls fair hin level hq
    omega

/-- Nothing is lost of two poles, the lower of which crosses a seam. -/
theorem blobDetectPar_masses_twoPoles : ∃ d : Detection 32,
    blobDetectPar bands seams (Buf.all Blob.zero) Blob.zero (Buf.all 0) twoPoles 3 240 = some d ∧
    ∑ k ∈ Finset.range d.numBlobs, (d.consolidatedBlobs k).mass =
      (moving twoPoles 3 labelledHeight).card := by
  have whole := twoPoles_labelled.whole (twoPoles_column (by decide)) seams
  obtain ⟨d, hd⟩ := blobDetectPar_narrow (List.Perm.refl bands) (by decide : 3 ≤ 5) seams
    (Buf.all (Blob.zero (w := 32))) Blob.zero twoPoles 240
  exact ⟨d, hd, (blobDetectPar_masses (List.Perm.refl _) (List.Perm.refl _) hd).2 whole.level⟩

/-- Motion on both sides of a seam, where the label of the left object is linked up to
one that is linked on to the right. -/
def stairs : Buf UInt8 := drawing 9
  [(57, 1), (58, 1), (58, 7), (59, 1), (59, 4), (59, 5), (59, 7), (60, 2), (60, 3), (60, 6)]

/-- The left object's mass comes too late. -/
theorem stairs_lose :
    ¬∀ (w width : Nat) (input : Buf UInt8) (order : List Band) (stitches : List Nat)
      (stack : Buf (Blob w)) (biggest : Blob w) (d : Detection w), 3 ≤ width →
      order.Perm bands → stitches.Perm seams →
      blobDetectPar order stitches stack biggest (Buf.all 0) input width 240 = some d →
      d.numBlobs ≤ 200 →
      ∑ k ∈ Finset.range d.numBlobs, (d.consolidatedBlobs k).mass =
        (moving input width labelledHeight).card := by
  intro hall
  obtain ⟨sh, hsh, hclimb⟩ := runLabels_any (w := 32) (P := fun sh =>
      Climbs (seams.foldl (stitch 9) sh).blobs (sh.output (idx 9 (57, 1))))
    (by decide +kernel : (runActive stairs 9 bands (Shared.fresh (Buf.all 0))).any _ = true)
  obtain ⟨top, h⟩ := runLabels_run (List.Perm.refl bands) hsh
  have htied := h.stitchAll_tied (List.Perm.refl bands)
    (fun p hp => seam_inside (List.Perm.refl seams) hp)
  have hd : blobDetectPar bands seams (Buf.all Blob.zero) Blob.zero (Buf.all 0) stairs 9 240 =
      some (collectUpTo (maxBlobsPerThread * 4) (Buf.all Blob.zero) Blob.zero 9 240
        { sh with blobs := stitchAll 9 sh.output (seamPixels 9 seams) sh.blobs }) := by
    unfold blobDetectPar
    rw [hsh, Option.map_some, stitch_foldl, collect_eq]
  have hmass := hall 32 9 stairs bands seams _ _ _ (by decide) (List.Perm.refl _)
    (List.Perm.refl _) hd
  rw [stitch_foldl] at hclimb
  rw [collectUpTo_recorded, h.recorded_iff (List.Perm.refl _) htied] at hmass
  refine hmass ?_ (57, 1) (by decide) hclimb
  have hcard : (moving stairs 9 labelledHeight).card ≤ 10 :=
    Finset.card_le_card (moving_drawing (by decide))
  have hfew := Run.numBlobs_le htied (Buf.all Blob.zero)
  rw [collectUpTo_numBlobs]
  dsimp only
  omega

end Motion
