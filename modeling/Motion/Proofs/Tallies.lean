import Motion.Proofs.Conservation
import Motion.Proofs.Weave

/-! What the threads of `blob_detect_par` put into the table: at every turn of every order of
turns each pixel's part is in it once. -/

namespace Motion

/-- A quantity of an entry that the pixels it is written for add up to. -/
structure Tally (w : Nat) (M : Type) [AddCommMonoid M] where
  entry : Blob w → M
  pixel : Pixel → M
  zero : entry Blob.zero = 0
  start : ∀ (b : Blob w) l p, entry (b.start l p) = pixel p
  grow : ∀ (b : Blob w) p, entry (b.grow p) = entry b + pixel p
  label : ∀ (b : Blob w) l, entry { b with label := l } = entry b

namespace Tally

def mass (w : Nat) : Tally w Nat where
  entry := Blob.mass
  pixel := fun _ => 1
  zero := rfl
  start := fun _ _ _ => rfl
  grow := fun _ _ => rfl
  label := fun _ _ => rfl

def sumX (w : Nat) : Tally w (BitVec w) where
  entry := Blob.sumX
  pixel := fun p => BitVec.ofNat w p.2
  zero := rfl
  start := fun _ _ _ => rfl
  grow := fun _ _ => rfl
  label := fun _ _ => rfl

def sumY (w : Nat) : Tally w (BitVec w) where
  entry := Blob.sumY
  pixel := fun p => BitVec.ofNat w p.1
  zero := rfl
  start := fun _ _ _ => rfl
  grow := fun _ _ => rfl
  label := fun _ _ => rfl

variable {w : Nat} {M : Type} [AddCommMonoid M] (T : Tally w M) {t t' : Table w} {i : Nat}

/-- The quantity over all labels of the threads. -/
def total (t : Table w) : M := ∑ i ∈ Finset.Ico 1 (maxBlobsPerThread * 4), T.entry (t i)

/-- The quantity over some pixels. -/
def sum (ps : List Pixel) : M := (ps.map T.pixel).sum

theorem total_same (h : ∀ i, T.entry (t' i) = T.entry (t i)) : T.total t' = T.total t :=
  Finset.sum_congr rfl (fun i _ => h i)

theorem total_write {v : Blob w} {x : M} (hi : 1 ≤ i ∧ i < maxBlobsPerThread * 4)
    (hv : T.entry v = T.entry (t i) + x) : T.total (t.write i v) = T.total t + x := by
  have hmem : i ∈ Finset.Ico 1 (maxBlobsPerThread * 4) := Finset.mem_Ico.mpr hi
  have hentry : ∀ k, T.entry (t.write i v k) =
      Function.update (fun k => T.entry (t k)) i (T.entry v) k := by
    intro k
    rw [Buf.write_apply, Function.update_apply]
    split <;> rfl
  unfold total
  rw [Finset.sum_congr rfl (fun k _ => hentry k), Finset.sum_update_of_mem hmem, hv,
    Finset.sum_eq_add_sum_sdiff_singleton_of_mem hmem]
  exact add_right_comm _ _ _

end Tally

/-- The active pixels some turns label. -/
def activeIn (input : Buf UInt8) (width : Nat) (turns : List Act) : List Pixel :=
  (visitsOf turns).filter fun p => input (idx width p) > 0

/-- What the turns up to the merge loop keep: the table's quantity is that of some pixels, and
nothing is written for a label that is not taken. -/
structure Tallied {M : Type} [AddCommMonoid M] (T : Tally w M) (counter : Band → Nat)
    (blobs : Table w) (ps : List Pixel) : Prop where
  total : T.total blobs = T.sum ps
  empty : ∀ l, ¬Allocated counter l → T.entry (blobs l) = 0

variable {w width height : Nat} {M : Type} [AddCommMonoid M] {T : Tally w M}
  {input : Buf UInt8} {labels stitches turns : List Act} {s s' : Machine w} {a : Act}
  {order : List Band} {stack : Buf (Blob w)} {counter : Band → Nat} {blobs blobs' : Table w}
  {ps : List Pixel}

theorem Tallied.start : Tallied T Band.startLabel (Buf.all Blob.zero) [] where
  total := by simp [Tally.total, Tally.sum, T.zero]
  empty := fun _ _ => T.zero

/-- Links are no part of a tally. -/
theorem Tallied.relink (h : Tallied T counter blobs ps)
    (same : ∀ i, T.entry (blobs' i) = T.entry (blobs i)) : Tallied T counter blobs' ps where
  total := (T.total_same same).trans h.total
  empty := fun l hl => (same l).trans (h.empty l hl)

theorem Tally.linkAll (T : Tally w M) (t : Table w) (m : Nat) (lbls : List Nat) (i : Nat) :
    T.entry (linkAll t m lbls i) = T.entry (t i) := by
  rw [linkAll_apply]
  split
  · exact T.label _ _
  · rfl

theorem Tally.sameBut (T : Tally w M) {b c : Blob w} (h : SameBut b c) :
    T.entry c = T.entry b := by
  obtain ⟨l, rfl⟩ := h
  exact T.label _ _

/-- The turn of a label thread puts an active pixel's part in. -/
theorem Tallied.label {b : Band} {p : Pixel} (hc : Closed s.labelCounter s.output s.blobs)
    (hb : b ∈ bands) (h : Tallied T s.labelCounter s.blobs ps)
    (hs : step input width s (.label b p) = some s') :
    Tallied T s'.labelCounter s'.blobs
      (ps ++ [p].filter fun p => input (idx width p) > 0) := by
  obtain ⟨rfl, hfits⟩ := Machine.label_turn hs
  by_cases hon : input (idx width p) > 0
  · have hsum : T.sum (ps ++ [p]) = T.sum ps + T.pixel p := by simp [Tally.sum]
    rw [List.filter_cons_of_pos (by simpa using hon), List.filter_nil]
    rcases scanPixel_on (u := 9999) (s := ⟨s.output, s.blobs, s.labelCounter b⟩) hon with
      ⟨_, he⟩ | ⟨m, hm, h0, _, _, he⟩
    · rw [he] at hfits ⊢
      have hfit := hfits (Nat.lt_succ_self _)
      have hrange := bands_range hb
      have hlow := (hc.counters b hb).1
      constructor
      · have hempty := h.empty _ (hc.untaken hb)
        dsimp only at hfit ⊢
        rw [T.total_write ⟨by omega, by omega⟩ (x := T.pixel p), h.total, hsum]
        rw [T.start, hempty, zero_add]
      · intro l hl
        dsimp only at hl ⊢
        rw [hc.allocated_update hb, not_or] at hl
        rw [Buf.write_other _ _ hl.2]
        exact h.empty l hl.1
    · rw [he]
      have hm' : Allocated s.labelCounter m :=
        (Machine.around_closed hc p m hm).resolve_left h0
      have hrange := hc.label_range hm'
      dsimp only
      rw [Function.update_eq_self]
      have hgrown : Tallied T s.labelCounter (s.blobs.write m ((s.blobs m).grow p))
          (ps ++ [p]) := by
        constructor
        · rw [T.total_write hrange (T.grow _ p), h.total, hsum]
        · intro l hl
          have hne : l ≠ m := fun he => hl (he ▸ hm')
          rw [Buf.write_other _ _ hne]
          exact h.empty l hl
      exact hgrown.relink (fun i => T.linkAll _ m _ i)
  · rw [List.filter_cons_of_neg (by simpa using hon), List.filter_nil, List.append_nil,
      scanPixel_off hon]
    dsimp only
    rw [Function.update_eq_self]
    exact h

/-- One turn before the joins. -/
theorem Tallied.step (hc : Closed s.labelCounter s.output s.blobs) (ha : a.Declared)
    (hnot : ∀ i, a ≠ .merge i) (h : Tallied T s.labelCounter s.blobs (activeIn input width turns))
    (hs : Motion.step input width s a = some s') :
    Tallied T s'.labelCounter s'.blobs (activeIn input width (turns ++ [a])) := by
  have hplain : a.pixel = none → activeIn input width (turns ++ [a]) =
      activeIn input width turns := by
    intro hnone
    simp [activeIn, visitsOf, hnone]
  cases a with
  | label b p =>
    have hnext := h.label hc ha hs
    simpa [activeIn, visitsOf, Act.pixel] using hnext
  | redirectUsed i =>
    obtain rfl := Option.some.inj hs
    rw [hplain rfl]
    exact h.relink (fun k => T.sameBut (redirectUsed_same s.blobs [i] k))
  | stitch p =>
    obtain rfl := Option.some.inj hs
    rw [hplain rfl]
    refine h.relink (fun k => ?_)
    unfold stitchPixel
    dsimp only
    split
    · exact T.linkAll _ _ _ k
    · rfl
  | redirect i =>
    obtain rfl := Option.some.inj hs
    rw [hplain rfl]
    exact h.relink (fun k => T.sameBut (redirectEntry_same s.blobs i k))
  | merge i => exact absurd rfl (hnot i)
  | relabel p =>
    obtain rfl := Option.some.inj hs
    rw [hplain rfl]
    exact h

/-- Any turns that are declared, up to the merge loop. -/
theorem tallied_of_turns (T : Tally w M) (hd : ∀ a ∈ turns, a.Declared)
    (hnot : ∀ a ∈ turns, ∀ i, a ≠ .merge i)
    (run : turns.foldlM (Motion.step input width) (Machine.start stack (Buf.all 0)) = some s) :
    Tallied T s.labelCounter s.blobs (activeIn input width turns) := by
  have hloop := Fold.prefix_induction_option
    (P := fun pre (s : Machine w) => Closed s.labelCounter s.output s.blobs ∧
      Tallied T s.labelCounter s.blobs (activeIn input width pre)) turns _ s
    ⟨Closed.start, Tallied.start⟩
    (by
      rintro pre a post t t' hl ⟨hc, ht⟩ hs
      have ha : a ∈ turns := by simp [hl]
      exact ⟨Machine.step_closed hc (hd a ha) hs, ht.step hc (hd a ha) (hnot a ha) hs⟩) run
  exact hloop.2

theorem sum_ofNat (ps : List Pixel) (f : Pixel → Nat) :
    (ps.map fun p => BitVec.ofNat w (f p)).sum = BitVec.ofNat w (ps.map f).sum := by
  induction ps with
  | nil => rfl
  | cons p ps ih =>
    rw [List.map_cons, List.sum_cons, ih, List.map_cons, List.sum_cons, BitVec.ofNat_add]

theorem sum_mass (ps : List Pixel) : (Tally.mass w).sum ps = ps.length := by
  simp [Tally.sum, Tally.mass]

/-- The turns before the joins are no merges. -/
theorem not_merge (hl : Interleave.Run (labelThreads width) labels)
    (hs : Interleave.Run (stitchThreads width) stitches) (ha : a ∈ labels ++ stitches) (i : Nat) :
    a ≠ .merge i := by
  rintro rfl
  cases List.mem_append.mp ha with
  | inl hlab =>
    have h := (labels_perm hl).mem_iff.mp hlab
    simp [labelActs] at h
  | inr hst =>
    have h := (stitches_perm hs).mem_iff.mp hst
    simp [stitchActs] at h

/-- Up to any turn of the threads. -/
theorem tallied (T : Tally w M) {pre rest : List Act}
    (hl : Interleave.Run (labelThreads width) labels)
    (hs : Interleave.Run (stitchThreads width) stitches) (split : labels ++ stitches = pre ++ rest)
    (run : pre.foldlM (step input width) (Machine.start stack (Buf.all 0)) = some s) :
    Tallied T s.labelCounter s.blobs (activeIn input width pre) := by
  have hin : ∀ a ∈ pre, a ∈ labels ++ stitches := fun a ha => by simp [split, ha]
  exact tallied_of_turns T (fun a ha => threads_declared hl hs (hin a ha))
    (fun a ha => not_merge hl hs (hin a ha)) run

/-- Turns of `stitch` change links only. -/
theorem sewing_same (hall : ∀ a ∈ turns, ∃ p, a = .stitch p)
    (run : turns.foldlM (step input width) s = some s') :
    s'.output = s.output ∧ s'.labelCounter = s.labelCounter ∧
      s'.consolidatedBlobs = s.consolidatedBlobs ∧ s'.numBlobs = s.numBlobs ∧
      ∀ i, SameBut (s.blobs i) (s'.blobs i) := by
  refine Fold.prefix_induction_option
    (P := fun _ (t : Machine w) => t.output = s.output ∧ t.labelCounter = s.labelCounter ∧
      t.consolidatedBlobs = s.consolidatedBlobs ∧ t.numBlobs = s.numBlobs ∧
      ∀ i, SameBut (s.blobs i) (t.blobs i)) turns s s'
    ⟨rfl, rfl, rfl, rfl, fun _ => SameBut.refl _⟩ ?_ run
  rintro pre a post t t' hsplit ⟨ho, hc, hb, hn, hsame⟩ hstep
  obtain ⟨p, rfl⟩ := hall a (by simp [hsplit])
  obtain rfl := Option.some.inj hstep
  refine ⟨ho, hc, hb, hn, fun i => ?_⟩
  unfold stitchPixel
  dsimp only
  split
  · rw [linkAll_apply]
    split
    · exact (hsame i).relabel _
    · exact hsame i
  · exact hsame i

/-- So do those of the stitch threads. -/
theorem stitches_same (hs : Interleave.Run (stitchThreads width) stitches)
    (run : stitches.foldlM (step input width) s = some s') :
    s'.output = s.output ∧ s'.labelCounter = s.labelCounter ∧
      s'.consolidatedBlobs = s.consolidatedBlobs ∧ s'.numBlobs = s.numBlobs ∧
      ∀ i, SameBut (s.blobs i) (s'.blobs i) := by
  refine sewing_same ?_ run
  intro a ha
  have hmem := (stitches_perm hs).mem_iff.mp ha
  simp only [List.mem_flatMap, stitchActs, List.mem_map] at hmem
  obtain ⟨row, _, col, _, rfl⟩ := hmem
  exact ⟨_, rfl⟩

/-- The active pixels the threads label are those of the bands. -/
theorem activeIn_length (hl : Interleave.Run (labelThreads width) labels)
    (hs : Interleave.Run (stitchThreads width) stitches) :
    (activeIn input width (labels ++ stitches)).length =
      (moving input width labelledHeight).card := by
  have hnone : visitsOf stitches = [] := by
    unfold visitsOf
    rw [List.filterMap_eq_nil_iff]
    intro a ha
    have hmem := (stitches_perm hs).mem_iff.mp ha
    simp only [List.mem_flatMap, stitchActs, List.mem_map] at hmem
    obtain ⟨row, _, col, _, rfl⟩ := hmem
    rfl
  have hvisits : visitsOf (labels ++ stitches) = visitsOf labels := by
    unfold visitsOf at hnone ⊢
    rw [List.filterMap_append, hnone, List.append_nil]
  have hnodup := visits_nodup hl
  unfold activeIn
  rw [hvisits, ← List.toFinset_card_of_nodup (hnodup.filter _)]
  congr 1
  ext p
  rw [List.mem_toFinset, List.mem_filter, (visits_perm hl).mem_iff, mem_moving, mem_interior]
  simp [Moving]

/-- After the stitches an entry has mass exactly if its label is taken. -/
theorem mass_iff (hl : Interleave.Run (labelThreads width) labels)
    (hs : Interleave.Run (stitchThreads width) stitches)
    (run : (labels ++ stitches).foldlM (step input width) (Machine.start stack (Buf.all 0)) =
      some s) (l : Nat) : (s.blobs l).mass ≠ 0 ↔ Allocated s.labelCounter l := by
  constructor
  · intro hmass
    by_contra hn
    exact hmass ((tallied (Tally.mass w) hl hs (List.append_nil _).symm run).empty l hn)
  · intro ha
    rw [List.foldlM_append] at run
    obtain ⟨t, ht, hst⟩ := Option.bind_eq_some_iff.mp run
    obtain ⟨_, hcount, _, _, hsame⟩ := stitches_same hs hst
    have hw := woven hl (List.append_nil labels).symm ht
    rw [hcount] at ha
    obtain ⟨q, hq, rfl⟩ := hw.taken l ha
    have hdes : Describes (t.blobs (t.output (idx width q))) _ := hw.gathered q hq.1 hq.2
    rw [((hsame _).sums hdes.toSums).mass]
    refine Finset.card_ne_zero.mpr ⟨q, ?_⟩
    exact Finset.mem_filter.mpr ⟨hq.1, rfl⟩

theorem redirectAll_mass (n : Nat) (t : Table w) (i : Nat) :
    (redirectAll n t i).mass = (t i).mass := by
  obtain ⟨l, hl⟩ := redirectAll_same n t i
  rw [hl]

theorem pending_redirect (n m : Nat) (t : Table w) : pending n (redirectAll m t) = pending n t :=
  Finset.sum_congr rfl (fun i _ => redirectAll_mass m t i)

/-- Redirected, labels taken still lead to labels taken. -/
theorem Closed.redirect {output : Buf Nat} (h : Closed counter output blobs) (n : Nat) :
    Closed counter output (redirectAll n blobs) := by
  unfold redirectAll
  refine Fold.invariant (P := fun t : Table w => Closed counter output t) _ blobs h ?_
  intro i _ t ht
  refine ht.relink (fun k => ?_)
  by_cases hk : k = i
  · rw [hk]
    exact Or.inr (redirectEntry_self t i)
  · unfold links
    rw [redirectEntry_other t hk]
    exact Or.inl rfl

theorem recorded_total {n : Nat} (f : Filled n blobs) (hn : 1 ≤ n) (stack : Buf (Blob w)) :
    recorded (mergeAll n blobs stack) ≤ pending n blobs ∧
    (recorded (mergeAll n blobs stack) = pending n blobs ↔
      ∀ i, 1 ≤ i → i < n → (blobs i).mass ≠ 0 → links blobs i ≤ i) := by
  have htotal := merge_total f hn (Nat.le_refl n) _ (Weighed.start blobs stack)
  rwa [recorded_start, Nat.zero_add] at htotal

/-- What a run of `blob_detect_par` returns, in terms of its passes. -/
theorem blobDetectThreads_some {biggest : Blob w} {output : Buf Nat} {d : Detection w}
    (run : blobDetectThreads labels stitches stack biggest output input width height = some d) :
    ∃ s : Machine w,
      (labels ++ stitches).foldlM (step input width) (Machine.start stack output) = some s ∧
      d = collectUpTo (maxBlobsPerThread * 4) stack biggest width height ⟨s.output, s.blobs⟩ := by
  obtain ⟨s, hs, rfl⟩ := Option.map_eq_some_iff.mp run
  exact ⟨s, hs, collect_eq _ _ _ _ _⟩

/-- After the redirect pass the entries hold the moving pixels, and those of labels taken alone
hold any. -/
theorem redirected_holds (hl : Interleave.Run (labelThreads width) labels)
    (hs : Interleave.Run (stitchThreads width) stitches)
    (hrun : (labels ++ stitches).foldlM (step input width) (Machine.start stack (Buf.all 0)) =
      some s) :
    Filled (maxBlobsPerThread * 4) (redirectAll (maxBlobsPerThread * 4) s.blobs) ∧
    pending (maxBlobsPerThread * 4) (redirectAll (maxBlobsPerThread * 4) s.blobs) =
      (moving input width labelledHeight).card := by
  have hmass := mass_iff hl hs hrun
  have hclosed : Closed s.labelCounter s.output s.blobs :=
    closed_of_turns (fun a ha => threads_declared hl hs ha) hrun
  have hsame : ∀ i, (redirectAll (maxBlobsPerThread * 4) s.blobs i).mass = (s.blobs i).mass :=
    fun i => redirectAll_mass _ s.blobs i
  have hredirected := hclosed.redirect (maxBlobsPerThread * 4)
  constructor
  · constructor
    · intro i _ _ hm
      rw [hsame] at hm
      exact hredirected.kept i ((hmass i).mp hm)
    · intro i _ _ hne
      have ha := (hredirected.linked i).resolve_left hne
      rw [hsame]
      exact ⟨(hredirected.label_range ha).2, (hmass _).mpr ha⟩
  · have hslots : maxBlobsPerThread * 4 = 800 := by decide
    have htally := tallied (Tally.mass w) hl hs (List.append_nil _).symm hrun
    rw [pending_redirect, ← activeIn_length hl hs, ← sum_mass (w := w), ← htally.total, hslots]
    rfl

/-- What the passes after the stitches record of the moving pixels. -/
theorem recorded_masses {biggest : Blob w} {d : Detection w}
    (hl : Interleave.Run (labelThreads width) labels)
    (hs : Interleave.Run (stitchThreads width) stitches)
    (hrun : (labels ++ stitches).foldlM (step input width) (Machine.start stack (Buf.all 0)) =
      some s)
    (hd : collectUpTo (maxBlobsPerThread * 4) stack biggest width height ⟨s.output, s.blobs⟩ =
      d) :
    ∑ k ∈ Finset.range d.numBlobs, (d.consolidatedBlobs k).mass ≤
      (moving input width labelledHeight).card ∧
    (∑ k ∈ Finset.range d.numBlobs, (d.consolidatedBlobs k).mass =
        (moving input width labelledHeight).card ↔
      ∀ l, Allocated s.labelCounter l → ¬Climbs s.blobs l) := by
  subst hd
  have hmass := mass_iff hl hs hrun
  have hclosed : Closed s.labelCounter s.output s.blobs :=
    closed_of_turns (fun a ha => threads_declared hl hs ha) hrun
  obtain ⟨hfilled, htotal⟩ := redirected_holds hl hs hrun
  have hmerge := recorded_total hfilled (by decide) stack
  rw [htotal] at hmerge
  rw [collectUpTo_recorded]
  refine ⟨hmerge.1, hmerge.2.trans ?_⟩
  rw [← redirectAll_falls_iff (Allocated s.labelCounter) s.blobs
    (fun i hi => hclosed.label_range hi) (fun i hi => hclosed.follow hi)]
  constructor
  · intro hall i hi
    have hrange := hclosed.label_range hi
    exact hall i hrange.1 hrange.2 (by rw [redirectAll_mass]; exact (hmass i).mpr hi)
  · intro hall i _ _ hm
    rw [redirectAll_mass] at hm
    exact hall i ((hmass i).mp hm)

/-- There are no more blobs than moving pixels. -/
theorem recorded_few {biggest : Blob w} {d : Detection w}
    (hl : Interleave.Run (labelThreads width) labels)
    (hs : Interleave.Run (stitchThreads width) stitches)
    (run : blobDetectThreads labels stitches stack biggest (Buf.all 0) input width height =
      some d) : d.numBlobs ≤ (moving input width labelledHeight).card := by
  obtain ⟨s, hrun, rfl⟩ := blobDetectThreads_some run
  obtain ⟨hfilled, htotal⟩ := redirected_holds hl hs hrun
  rw [collectUpTo_numBlobs, ← htotal]
  exact mergeAll_numBlobs_le hfilled stack

/-- Whole calls of `label` and stitches in any order of turns record no more than the moving
pixels, and all of them exactly when no label taken climbs in the table the stitches leave, if
the blobs fit their array. -/
theorem threads_masses {biggest : Blob w} {d : Detection w} (fair : order.Perm bands)
    (hs : Interleave.Run (stitchThreads width) stitches)
    (run : blobDetectThreads (order.flatMap (labelActs width)) stitches stack biggest (Buf.all 0)
      input width height = some d) :
    ∃ s : Machine w,
      (order.flatMap (labelActs width) ++ stitches).foldlM (step input width)
        (Machine.start stack (Buf.all 0)) = some s ∧
      (d.numBlobs ≤ maxBlobsPerThread →
        ∑ k ∈ Finset.range d.numBlobs, (d.consolidatedBlobs k).mass ≤
          (moving input width labelledHeight).card ∧
        (∑ k ∈ Finset.range d.numBlobs, (d.consolidatedBlobs k).mass =
            (moving input width labelledHeight).card ↔
          ∀ l, Allocated s.labelCounter l → ¬Climbs s.blobs l)) := by
  obtain ⟨s, hrun, hd⟩ := blobDetectThreads_some run
  exact ⟨s, hrun, fun _ => recorded_masses (calls_run fair) hs hrun hd.symm⟩

/-- A pixel on either side of a seam, the calls from bottom to top. -/
theorem threads_masses_bridge : ∃ (d : Detection 32) (s : Machine 32),
    blobDetectThreads (bands.reverse.flatMap (labelActs 3)) (stitchThreads 3).flatten
      (Buf.all Blob.zero) Blob.zero (Buf.all 0) (drawing 3 [(59, 1), (60, 1)]) 3 240 = some d ∧
    (bands.reverse.flatMap (labelActs 3) ++ (stitchThreads 3).flatten).foldlM
      (step (drawing 3 [(59, 1), (60, 1)]) 3)
      (Machine.start (Buf.all Blob.zero) (Buf.all 0)) = some s ∧
    ∑ k ∈ Finset.range d.numBlobs, (d.consolidatedBlobs k).mass ≤
      (moving (drawing 3 [(59, 1), (60, 1)]) 3 labelledHeight).card ∧
    (∑ k ∈ Finset.range d.numBlobs, (d.consolidatedBlobs k).mass =
        (moving (drawing 3 [(59, 1), (60, 1)]) 3 labelledHeight).card ↔
      ∀ l, Allocated s.labelCounter l → ¬Climbs s.blobs l) := by
  have fair : bands.reverse.Perm bands := List.reverse_perm bands
  have hs := Interleave.Run.one_by_one (stitchThreads 3)
  obtain ⟨s, hlabels⟩ := calls_narrow fair 32 (drawing 3 [(59, 1), (60, 1)])
    (by decide : 3 ≤ 5) (Buf.all Blob.zero)
  have hall : ∃ s', (bands.reverse.flatMap (labelActs 3) ++ (stitchThreads 3).flatten).foldlM
      (step (drawing 3 [(59, 1), (60, 1)]) 3)
      (Machine.start (Buf.all (Blob.zero (w := 32))) (Buf.all 0)) = some s' := by
    rw [List.foldlM_append, hlabels]
    exact ⟨_, stitches_run seams s⟩
  obtain ⟨s', hs'⟩ := hall
  have hd : blobDetectThreads (bands.reverse.flatMap (labelActs 3)) (stitchThreads 3).flatten
      (Buf.all Blob.zero) (Blob.zero (w := 32)) (Buf.all 0) (drawing 3 [(59, 1), (60, 1)]) 3 240 =
        some _ := congrArg (Option.map _) hs'
  have hfew := (recorded_few (calls_run fair) hs hd).trans
    ((drawing_few _).trans (by decide : 2 ≤ maxBlobsPerThread))
  obtain ⟨s'', hs'', hmasses⟩ := threads_masses fair hs hd
  exact ⟨_, s'', hd, hs'', hmasses hfew⟩

end Motion
