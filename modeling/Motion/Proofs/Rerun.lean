import Motion.Proofs.Sequential

/-! `blob_detect` run again on the buffer it has written: two runs on images that are
active at the same pixels of the interior, side by side. -/

namespace Motion

/-- What a caller is told of a blob: all but its sums. -/
structure Blob.SameRecord (b c : Blob w) : Prop where
  label : b.label = c.label
  xMin : b.xMin = c.xMin
  xMax : b.xMax = c.xMax
  yMin : b.yMin = c.yMin
  yMax : b.yMax = c.yMax
  mass : b.mass = c.mass
  centroidX : b.centroidX = c.centroidX
  centroidY : b.centroidY = c.centroidY

/-- Active at the same pixels of the interior. -/
def SameInterior (width height : Nat) (input input' : Buf UInt8) : Prop :=
  ∀ p, Inside width height p → (input (idx width p) > 0 ↔ input' (idx width p) > 0)

/-- Two labelling loops in step: they agree but for pixels not visited yet. -/
structure InStep (width height : Nat) (pre : List Pixel) (s t : Scan w) : Prop where
  blobs : s.blobs = t.blobs
  labelCounter : s.labelCounter = t.labelCounter
  output : ∀ q, InFrame width height q → q ∈ pre ∨ ¬Inside width height q →
    s.output (idx width q) = t.output (idx width q)

variable {w width height : Nat} {input input' : Buf UInt8} {output output' : Buf Nat}
  {pre post : List Pixel} {s t : Scan w} {x p : Pixel}

theorem Blob.fill_same (b c d : Blob w) : (b.fill d).SameRecord (c.fill d) :=
  ⟨rfl, rfl, rfl, rfl, rfl, rfl, rfl, rfl⟩

theorem drawn_same {b c : Blob w} (h : b.SameRecord c) : drawn b = drawn c := by
  unfold drawn
  rw [h.xMin, h.xMax, h.yMin, h.yMax, h.centroidX, h.centroidY]

theorem drawnShort_same {b c : Blob w} (h : b.SameRecord c) : drawnShort b = drawnShort c := by
  unfold drawnShort
  rw [h.xMin, h.xMax, h.yMin, h.yMax, h.centroidX, h.centroidY]

/-- The last pass shows the same for the same box and image. -/
theorem draw_congr {drawn drawn' : Pixel → Bool} {out out' : Buf Nat} (magnify : Nat → Nat)
    (h : drawn = drawn') (hp : Inside width height p)
    (ho : out (idx width p) = out' (idx width p)) :
    draw magnify drawn width height out (idx width p) =
      draw magnify drawn' width height out' (idx width p) := by
  rw [draw_apply _ _ _ hp, draw_apply _ _ _ hp, h, ho]

theorem behind_inFrame (hx : Inside width height x) {q : Pixel} (hb : Behind x q) :
    InFrame width height q := by
  have hr := hb.near_row
  have hc := hb.near_col
  unfold Inside at hx
  exact ⟨by omega, by omega⟩

/-- The labels read are those of the border and of pixels visited. -/
theorem InStep.around_eq (h : InStep width height pre s t)
    (hl : interior width height = pre ++ x :: post) :
    around width s.output x = around width t.output x := by
  have hx : Inside width height x := mem_interior.mp (by simp [hl])
  have hread : ∀ q, Behind x q → s.output (idx width q) = t.output (idx width q) := by
    intro q hb
    refine h.output q (behind_inFrame hx hb) ?_
    by_cases hq : Inside width height q
    · exact Or.inl ((mem_prefix_iff (interior_sorted width height) hl
        (mem_interior.mpr hq)).mpr hb.before)
    · exact Or.inr hq
  have hx' := hx
  unfold Inside at hx'
  unfold around
  rw [hread (x.1 - 1, x.2 - 1) (by unfold Behind; omega),
    hread (x.1 - 1, x.2) (by unfold Behind; omega),
    hread (x.1 - 1, x.2 + 1) (by unfold Behind; omega),
    hread (x.1, x.2 - 1) (by unfold Behind; omega)]

/-- One turn in both. -/
theorem InStep.step (h : InStep width height pre s t) (same : SameInterior width height input input')
    (hl : interior width height = pre ++ x :: post) :
    InStep width height (pre ++ [x]) (detectPixel width input s x)
      (detectPixel width input' t x) := by
  have hx : Inside width height x := mem_interior.mp (by simp [hl])
  have hxc : x.2 < width := by
    unfold Inside at hx
    omega
  rw [detectPixel_eq hx, detectPixel_eq hx]
  -- both write the same label, and nothing else in the image
  have hwrite : ∀ (a b : Buf Nat) (v : Nat), (∀ q, InFrame width height q →
      q ∈ pre ∨ ¬Inside width height q → a (idx width q) = b (idx width q)) →
      ∀ q, InFrame width height q → q ∈ pre ++ [x] ∨ ¬Inside width height q →
        a.write (idx width x) v (idx width q) = b.write (idx width x) v (idx width q) := by
    intro a b v hab q hq hor
    rw [Buf.write_apply, Buf.write_apply]
    split
    · rfl
    · rename_i hne
      refine hab q hq (hor.imp (fun hm => ?_) id)
      cases List.mem_append.mp hm with
      | inl hm => exact hm
      | inr hm => exact absurd (congrArg (idx width) (List.mem_singleton.mp hm)) hne
  unfold scanPixel
  rw [h.around_eq hl, h.blobs, h.labelCounter]
  dsimp only
  by_cases hon : input (idx width x) > 0
  · rw [if_pos hon, if_pos ((same x hx).mp hon)]
    split
    · exact ⟨rfl, rfl, hwrite _ _ _ h.output⟩
    · exact ⟨rfl, rfl, hwrite _ _ _ h.output⟩
  · rw [if_neg hon, if_neg (fun hon' => hon ((same x hx).mpr hon'))]
    exact ⟨rfl, rfl, hwrite _ _ _ h.output⟩

/-- Started from whatever interior, the labelling loops end in the same labels. -/
theorem labelLoop_inStep (w : Nat) (same : SameInterior width height input input')
    (border : BorderZero width height output) (border' : BorderZero width height output') :
    InStep width height (interior width height) (labelLoop w width height output input)
      (labelLoop w width height output' input') := by
  refine Fold.prefix_related (R := InStep width height) _ _ _ ⟨rfl, rfl, ?_⟩
    (fun pre x post s t hl h => h.step same hl)
  rintro q ⟨hr, hc⟩ (hm | hq)
  · exact absurd hm List.not_mem_nil
  · exact (border q hr hc hq).trans (border' q hr hc hq).symm

/-- Two merge loops that differ in what their stacks held before. -/
structure SameMerge (a b : Merge w) : Prop where
  blobs : a.blobs = b.blobs
  numBlobs : a.numBlobs = b.numBlobs
  recorded : ∀ k < a.numBlobs, a.consolidatedBlobs k = b.consolidatedBlobs k

theorem SameMerge.step {a b : Merge w} (h : SameMerge a b) (i : Nat) :
    SameMerge (mergeEntry a i) (mergeEntry b i) := by
  unfold mergeEntry
  rw [h.blobs, h.numBlobs]
  dsimp only
  split
  · exact ⟨rfl, rfl, fun k hk => h.recorded k (h.numBlobs ▸ hk)⟩
  · refine ⟨rfl, rfl, fun k hk => ?_⟩
    dsimp only at hk ⊢
    rw [Buf.write_apply, Buf.write_apply]
    split
    · rfl
    · refine h.recorded k ?_
      rw [h.numBlobs]
      omega

/-- The biggest of what is recorded is the same record in both. -/
theorem SameMerge.biggest {a b : Merge w} (h : SameMerge a b) (pos : 0 < a.numBlobs) :
    a.consolidatedBlobs (biggestIndex a.consolidatedBlobs a.numBlobs) =
      b.consolidatedBlobs (biggestIndex b.consolidatedBlobs b.numBlobs) := by
  have hindex : biggestIndex a.consolidatedBlobs a.numBlobs =
      biggestIndex b.consolidatedBlobs a.numBlobs :=
    biggestIndex_congr (fun k hk => congrArg Blob.mass (h.recorded k hk))
  rw [h.recorded _ (biggestIndex_spec a.consolidatedBlobs a.numBlobs pos).1, hindex, h.numBlobs]

theorem merged_same (stack stack' : Buf (Blob w)) {s t : Scan w} (hb : s.blobs = t.blobs)
    (hc : s.labelCounter = t.labelCounter) : SameMerge (merged stack s) (merged stack' t) := by
  unfold merged redirected
  rw [hb, hc]
  exact Fold.related _ _ _ ⟨rfl, rfl, fun k hk => absurd hk (Nat.not_lt_zero k)⟩
    (fun i _ a b h => h.step i)

/-- Label 1 is taken at the first pixel that moves and never leads elsewhere. -/
structure FirstLabel (input : Buf UInt8) (width height : Nat) (pre : List Pixel) (s : Scan w) :
    Prop where
  positive : 1 ≤ s.labelCounter
  taken : 1 < s.labelCounter ↔ ∃ p ∈ pre, Moving input width height p
  quiet : s.labelCounter = 1 → ∀ q, InFrame width height q →
    q ∈ pre ∨ ¬Inside width height q → s.output (idx width q) = 0
  kept : 1 < s.labelCounter → links s.blobs 1 = 1

/-- A label read is one taken before. -/
theorem FirstLabel.read (h : FirstLabel input width height pre s)
    (hl : interior width height = pre ++ x :: post) {m : Nat} (hm : m ∈ around width s.output x)
    (h0 : m ≠ 0) : 1 < s.labelCounter := by
  have hx : Inside width height x := mem_interior.mp (by simp [hl])
  have hx' := hx
  unfold Inside at hx'
  have hpos := h.positive
  by_contra hn
  obtain ⟨y, hb, rfl⟩ := (mem_around hx'.1 hx'.2.2.1).mp hm
  refine h0 (h.quiet (by omega) y (behind_inFrame hx hb) ?_)
  by_cases hy : Inside width height y
  · exact Or.inl ((mem_prefix_iff (interior_sorted width height) hl
      (mem_interior.mpr hy)).mpr hb.before)
  · exact Or.inr hy

/-- The turn of a pixel that does not move. -/
theorem FirstLabel.off (h : FirstLabel input width height pre s)
    (hoff : ¬input (idx width x) > 0) :
    FirstLabel input width height (pre ++ [x])
      { s with output := s.output.write (idx width x) 0 } := by
  refine ⟨h.positive, ?_, fun h1 q hq hor => ?_, h.kept⟩
  · dsimp only
    rw [h.taken]
    constructor
    · rintro ⟨p, hp, hm⟩
      exact ⟨p, List.mem_append_left _ hp, hm⟩
    · rintro ⟨p, hp, hm⟩
      cases List.mem_append.mp hp with
      | inl hp => exact ⟨p, hp, hm⟩
      | inr hp => exact absurd (List.mem_singleton.mp hp ▸ hm).2 hoff
  · dsimp only
    rw [Buf.write_apply]
    split
    · rfl
    · rename_i hne
      refine h.quiet h1 q hq (hor.imp (fun hm => ?_) id)
      cases List.mem_append.mp hm with
      | inl hm => exact hm
      | inr hm => exact absurd (congrArg (idx width) (List.mem_singleton.mp hm)) hne

theorem FirstLabel.step (h : FirstLabel input width height pre s)
    (hl : interior width height = pre ++ x :: post) :
    FirstLabel input width height (pre ++ [x]) (detectPixel width input s x) := by
  have hx : Inside width height x := mem_interior.mp (by simp [hl])
  have hpos := h.positive
  rw [detectPixel_eq hx]
  by_cases hon : input (idx width x) > 0
  · have hmoves : ∃ p ∈ pre ++ [x], Moving input width height p := ⟨x, by simp, hx, hon⟩
    rcases scanPixel_on (u := 255) (s := s) hon with ⟨_, he⟩ | ⟨m, hm, h0, _, hleast, he⟩
    · -- a label is taken: label 1 itself, or one above it
      rw [he]
      refine ⟨by dsimp only; omega, iff_of_true (by dsimp only; omega) hmoves,
        fun h1 => absurd h1 (by dsimp only; omega), fun _ => ?_⟩
      unfold links
      dsimp only
      rw [Buf.write_apply]
      split
      · rename_i h1
        exact h1.symm
      · exact h.kept (by omega)
    · have hlt := h.read hl hm h0
      rw [he]
      refine ⟨hpos, iff_of_true hlt hmoves, fun h1 => absurd h1 (by dsimp only; omega),
        fun _ => ?_⟩
      have hkept := h.kept hlt
      unfold links at hkept ⊢
      dsimp only
      rw [linkAll_apply]
      split
      · rename_i hk
        have := hleast 1 hk.1 (by decide)
        dsimp only
        omega
      · rw [Buf.write_apply]
        split
        · rename_i h1
          rw [← h1]
          exact hkept
        · exact hkept
  · rw [scanPixel_off hon]
    exact h.off hon

theorem labelLoop_first (w : Nat) (border : BorderZero width height output) (input : Buf UInt8) :
    FirstLabel input width height (interior width height)
      (labelLoop w width height output input) := by
  refine Fold.prefix_induction (P := FirstLabel input width height) _ _ ?_
    (fun pre x post s hl h => h.step hl)
  refine ⟨Nat.le_refl 1, iff_of_false (Nat.lt_irrefl 1) (by simp), ?_,
    fun h1 => absurd h1 (Nat.lt_irrefl 1)⟩
  rintro - q ⟨hr, hc⟩ (hm | hq)
  · exact absurd hm List.not_mem_nil
  · exact border q hr hc hq

theorem merged_numBlobs (stack : Buf (Blob w)) (s : Scan w) : (merged stack s).numBlobs =
    ((upto 1 s.labelCounter).filter (fun i => links (redirected s) i = i)).length := by
  unfold merged
  rw [merge_numBlobs mergeEntry_label (fun s x _ => mergeEntry_count s x), List.filter_reverse,
    List.length_reverse]

/-- A blob is recorded as soon as something moves. -/
theorem numBlobs_pos_iff (border : BorderZero width height output) (input : Buf UInt8)
    (stack : Buf (Blob w)) :
    0 < (merged stack (labelLoop w width height output input)).numBlobs ↔
      ∃ p, Moving input width height p := by
  have h := labelLoop_first w border input
  have hmoves : (∃ p, Moving input width height p) ↔
      1 < (labelLoop w width height output input).labelCounter := by
    rw [h.taken]
    exact exists_congr (fun p => ⟨fun hm => ⟨mem_interior.mpr hm.1, hm⟩, fun hm => hm.2⟩)
  rw [hmoves, merged_numBlobs, List.length_pos_iff_exists_mem]
  generalize labelLoop w width height output input = s at h
  constructor
  · rintro ⟨i, hi⟩
    have := mem_upto.mp (List.mem_of_mem_filter hi)
    omega
  · intro hlt
    refine ⟨1, List.mem_filter.mpr ⟨mem_upto.mpr ⟨Nat.le_refl 1, hlt⟩, ?_⟩⟩
    have hone : links (redirected s) 1 = 1 := by
      refine Fold.invariant (P := fun t : Table w => links t 1 = 1) _ s.blobs (h.kept hlt) ?_
      intro i _ t ht
      unfold links at ht ⊢
      by_cases hi : i = 1
      · rw [hi, redirectEntry_self, ht, ht]
      · rwa [redirectEntry_other t (Ne.symm hi)]
    exact decide_eq_true hone

theorem labelLoop_border (w : Nat) (output : Buf Nat) (input : Buf UInt8) (hc : p.2 < width)
    (hp : ¬Inside width height p) :
    (labelLoop w width height output input).output (idx width p) = output (idx width p) := by
  refine Fold.keeps (g := fun s : Scan w => s.output (idx width p)) _ _ ?_
  intro q hq s
  have hin : Inside width height q := mem_interior.mp hq
  have hin' := hin
  unfold Inside at hin'
  rw [detectPixel_eq hin]
  exact (scanPixel_step 255 width input s q).output_other
    (fun he => hp (idx_inj hc (by omega) he ▸ hin))

/-- The border of the image is left as it was. -/
theorem blobDetect_border (stack : Buf (Blob w)) (biggest : Blob w) (output : Buf Nat)
    (input : Buf UInt8) (hc : p.2 < width) (hp : ¬Inside width height p) :
    (blobDetect stack biggest output input width height).output (idx width p) =
      output (idx width p) :=
  ((draw_border _ _ _ hc hp).trans (relabel_border _ _ hc hp)).trans
    (labelLoop_border w output input hc hp)

/-- `blob_detect` may be run again on its own buffer: what it returns, and what it leaves
off the border, does not depend on what the buffer, the stack or the record held. -/
theorem blobDetect_rerun (same : SameInterior width height input input')
    (moves : ∃ p, Moving input width height p) (border : BorderZero width height output)
    (border' : BorderZero width height output') (stack stack' : Buf (Blob w))
    (biggest biggest' : Blob w) :
    (blobDetect stack biggest output input width height).numBlobs =
      (blobDetect stack' biggest' output' input' width height).numBlobs ∧
    (blobDetect stack biggest output input width height).biggestBlob.SameRecord
      (blobDetect stack' biggest' output' input' width height).biggestBlob ∧
    (∀ p, Inside width height p →
      (blobDetect stack biggest output input width height).output (idx width p) =
        (blobDetect stack' biggest' output' input' width height).output (idx width p)) ∧
    ∀ p, InFrame width height p → ¬Inside width height p →
      (blobDetect stack biggest output input width height).output (idx width p) =
        output (idx width p) ∧
      (blobDetect stack' biggest' output' input' width height).output (idx width p) =
        output' (idx width p) := by
  have hstep := labelLoop_inStep w same border border'
  have hmerge := merged_same stack stack' hstep.blobs hstep.labelCounter
  have hpos := (numBlobs_pos_iff border input stack).mpr moves
  have hfound := hmerge.biggest ((numBlobs_pos_iff border input stack).mpr moves)
  have hrecord : (blobDetect stack biggest output input width height).biggestBlob.SameRecord
      (blobDetect stack' biggest' output' input' width height).biggestBlob := by
    refine Eq.subst (motive := fun b => (blobDetect stack biggest output input width
      height).biggestBlob.SameRecord (biggest'.fill b)) hfound ?_
    exact Blob.fill_same _ _ _
  refine ⟨hmerge.numBlobs, hrecord, ?_, ?_⟩
  · intro p hp
    have hrelabel : relabel width height (merged stack (labelLoop w width height output input)).blobs
          (labelLoop w width height output input).output (idx width p) =
        relabel width height (merged stack' (labelLoop w width height output' input')).blobs
          (labelLoop w width height output' input').output (idx width p) := by
      have hin := hp
      unfold Inside at hin
      rw [relabel_apply _ _ hp, relabel_apply _ _ hp, hmerge.blobs,
        hstep.output p ⟨by omega, by omega⟩ (Or.inl (mem_interior.mpr hp))]
    exact draw_congr _ (drawn_same hrecord) hp hrelabel
  · intro p hp hborder
    exact ⟨blobDetect_border _ _ _ _ hp.2 hborder, blobDetect_border _ _ _ _ hp.2 hborder⟩

/-- A frame with one pixel off the border, drawn once on a dark border into a clean buffer
and once on a bright one over a stale label. -/
theorem blobDetect_rerun_dot :
    (blobDetect (Buf.all Blob.zero) (Blob.zero (w := 32)) (Buf.all 0) (drawing 3 [(1, 1)])
        3 3).numBlobs =
      (blobDetect (Buf.all Blob.zero) (Blob.zero (w := 32)) ((Buf.all 0).write 4 77) (Buf.all 255)
        3 3).numBlobs ∧
    (blobDetect (Buf.all Blob.zero) (Blob.zero (w := 32)) (Buf.all 0) (drawing 3 [(1, 1)])
        3 3).biggestBlob.SameRecord
      (blobDetect (Buf.all Blob.zero) Blob.zero ((Buf.all 0).write 4 77) (Buf.all 255)
        3 3).biggestBlob ∧
    (∀ p, Inside 3 3 p →
      (blobDetect (Buf.all Blob.zero) (Blob.zero (w := 32)) (Buf.all 0) (drawing 3 [(1, 1)])
          3 3).output (idx 3 p) =
        (blobDetect (Buf.all Blob.zero) (Blob.zero (w := 32)) ((Buf.all 0).write 4 77) (Buf.all 255)
          3 3).output (idx 3 p)) ∧
    ∀ p, InFrame 3 3 p → ¬Inside 3 3 p →
      (blobDetect (Buf.all Blob.zero) (Blob.zero (w := 32)) (Buf.all 0) (drawing 3 [(1, 1)])
          3 3).output (idx 3 p) = Buf.all 0 (idx 3 p) ∧
      (blobDetect (Buf.all Blob.zero) (Blob.zero (w := 32)) ((Buf.all 0).write 4 77) (Buf.all 255)
          3 3).output (idx 3 p) = (Buf.all 0).write 4 77 (idx 3 p) := by
  have hmid : ∀ p : Pixel, Inside 3 3 p → p = (1, 1) := by
    intro p hp
    unfold Inside at hp
    exact Prod.ext (by omega) (by omega)
  refine blobDetect_rerun ?_ ⟨(1, 1), by decide⟩ (BorderZero.all 3 3) ?_ _ _ _ _
  · intro p hp
    rw [hmid p hp]
    decide
  · intro p hr hc hp
    refine (Buf.write_other _ _ (fun he => hp ?_))
    have h4 : idx 3 p = idx 3 (1, 1) := he
    rw [idx_inj hc (by decide) h4]
    decide

end Motion
