import Motion.Proofs.BandScan

/-! How many labels one call of `label` takes. A pixel that touches one already
labelled takes that label over, so the pixels that start one lie apart. -/

namespace Motion

/-- The pixels at which a run of `label`'s loop starts a new label. -/
def labelStarts (width : Nat) (input : Buf UInt8) (startLabel : Nat) :
    List Pixel → Scan w → List Pixel
  | [], _ => []
  | p :: ps, s =>
    match labelPixel width input startLabel s p with
    | none => []
    | some s' =>
      if s.labelCounter < s'.labelCounter then p :: labelStarts width input startLabel ps s'
      else labelStarts width input startLabel ps s'

/-- One more turn at the end of a run. -/
theorem labelStarts_concat {width startLabel : Nat} {input : Buf UInt8} {x : Pixel}
    {t t' : Scan w} (pre : List Pixel) (s : Scan w)
    (run : pre.foldlM (labelPixel width input startLabel) s = some t)
    (turn : labelPixel width input startLabel t x = some t') :
    labelStarts width input startLabel (pre ++ [x]) s =
      labelStarts width input startLabel pre s ++
        if t.labelCounter < t'.labelCounter then [x] else [] := by
  induction pre generalizing s with
  | nil =>
    simp only [List.foldlM_nil, Option.pure_def, Option.some.injEq] at run
    subst run
    simp [labelStarts, turn]
  | cons p pre ih =>
    rw [List.foldlM_cons] at run
    cases hp : labelPixel width input startLabel s p with
    | none => simp [hp] at run
    | some s' =>
      rw [hp] at run
      have htail := ih s' run
      simp only [List.cons_append, labelStarts, hp]
      rw [htail]
      split
      · rfl
      · rfl

section packing

variable {w width height startRow endRow startLabel : Nat} {input : Buf UInt8} {output : Buf Nat}
  {pre post starts : List Pixel} {x : Pixel} {s s' : Scan w}

/-- The state after the pixels in `pre`, at those of which in `starts` a label was started. -/
structure Packed (width : Nat) (input : Buf UInt8) (output : Buf Nat) (startLabel : Nat)
    (pre starts : List Pixel) (s : Scan w) : Prop where
  frame : ∀ i, (∀ p ∈ pre, i ≠ idx width p) → s.output i = output i
  small : ∀ q ∈ pre, s.output (idx width q) < 804
  labelled : ∀ q ∈ pre, input (idx width q) > 0 → s.output (idx width q) ≠ 0
  active : ∀ q ∈ starts, q ∈ pre ∧ input (idx width q) > 0
  apart : starts.Pairwise fun p q => p ≠ q ∧ ¬Adj8 p q
  counter : s.labelCounter = startLabel + starts.length

theorem Packed.start (width : Nat) (input : Buf UInt8) (output : Buf Nat) (blobs : Table w)
    (startLabel : Nat) :
    Packed width input output startLabel [] [] ⟨output, blobs, startLabel⟩ where
  frame := fun _ _ => rfl
  small := by simp
  labelled := by simp
  active := by simp
  apart := List.Pairwise.nil
  counter := rfl

theorem mem_band_pixels {p : Pixel} :
    p ∈ Band.pixels width ⟨startRow, endRow, startLabel⟩ ↔
      (startRow ≤ p.1 ∧ p.1 ≤ endRow) ∧ 1 ≤ p.2 ∧ p.2 + 1 < width :=
  mem_pixels

variable (rows : 1 ≤ startRow ∧ startRow ≤ endRow ∧ endRow < height)
  (labels : 1 ≤ startLabel ∧ startLabel + maxBlobsPerThread ≤ 804)
  (border : ∀ q : Pixel, q.1 < height → q.2 < width →
    q.1 + 1 = startRow ∨ q.2 = 0 ∨ q.2 + 1 = width → output (idx width q) < 804)

include rows border in
/-- Whatever a pixel reads is a label of the table. -/
theorem Packed.read_lt (h : Packed width input output startLabel pre starts s)
    (hl : Band.pixels width ⟨startRow, endRow, startLabel⟩ = pre ++ x :: post) {l : Nat}
    (hmem : l ∈ around width s.output x) : l < 804 := by
  have hx := mem_band_pixels.mp (hl ▸ List.mem_append_right _ List.mem_cons_self)
  obtain ⟨q, hq, rfl⟩ := (mem_around (by omega) (by omega)).mp hmem
  have hrow := hq.near_row
  have hcol := hq.near_col
  by_cases hpre : q ∈ pre
  · exact h.small q hpre
  · -- not yet visited: off the band
    have hsorted := pixels_sorted width ⟨startRow, endRow, startLabel⟩
    have hoff : q ∉ Band.pixels width ⟨startRow, endRow, startLabel⟩ := fun hin =>
      hpre ((mem_prefix_iff hsorted hl hin).mpr hq.before)
    rw [mem_band_pixels] at hoff
    rw [h.frame]
    · exact border q (by omega) (by omega) (by omega)
    · intro p hp he
      have hp' := mem_band_pixels.mp (hl ▸ List.mem_append_left _ hp)
      exact hpre (idx_inj (by omega) (by omega) he ▸ hp)

/-- The pixels visited are others than the one that has its turn. -/
theorem idx_visited (hl : Band.pixels width ⟨startRow, endRow, startLabel⟩ = pre ++ x :: post)
    {q : Pixel} (hq : q ∈ pre) : idx width q ≠ idx width x := by
  intro he
  have hx := mem_band_pixels.mp (hl ▸ List.mem_append_right _ List.mem_cons_self)
  have hq' := mem_band_pixels.mp (hl ▸ List.mem_append_left _ hq)
  exact not_mem_prefix (pixels_sorted width ⟨startRow, endRow, startLabel⟩) hl
    (idx_inj (by omega) (by omega) he ▸ hq)

include rows in
/-- A pixel that reads no label touches none of the pixels that have started one. -/
theorem Packed.fresh_apart (h : Packed width input output startLabel pre starts s)
    (hl : Band.pixels width ⟨startRow, endRow, startLabel⟩ = pre ++ x :: post)
    (none : ∀ l ∈ around width s.output x, l ≠ 0 → 9999 ≤ l) {q : Pixel} (hq : q ∈ starts) :
    q ≠ x ∧ ¬Adj8 q x := by
  obtain ⟨hqp, hqa⟩ := h.active q hq
  refine ⟨fun he => idx_visited hl hqp (congrArg _ he), fun hadj => ?_⟩
  have hx := mem_band_pixels.mp (hl ▸ List.mem_append_right _ List.mem_cons_self)
  cases hadj.symm.behind with
  | inl hb =>
    -- a neighbour's label would have been taken over
    have hbig := none _ ((mem_around (by omega) (by omega)).mpr ⟨q, hb, rfl⟩)
      (h.labelled q hqp hqa)
    have := h.small q hqp
    omega
  | inr hb =>
    have hsorted := pixels_sorted width ⟨startRow, endRow, startLabel⟩
    have hq' : q ∈ Band.pixels width ⟨startRow, endRow, startLabel⟩ :=
      hl ▸ List.mem_append_left _ hqp
    exact hb.before.asymm ((mem_prefix_iff hsorted hl hq').mp hqp)

include rows labels border in
/-- What a turn leaves at its pixel: a label of the table where the pixel is active, and
where that is a new one, no pixel that has started one touches it. -/
theorem Packed.turn (h : Packed width input output startLabel pre starts s)
    (hl : Band.pixels width ⟨startRow, endRow, startLabel⟩ = pre ++ x :: post)
    (turn : labelPixel width input startLabel s x = some s') :
    s'.output (idx width x) < 804 ∧
      (input (idx width x) > 0 → s'.output (idx width x) ≠ 0) ∧
      (s'.labelCounter = s.labelCounter ∨ s'.labelCounter = s.labelCounter + 1 ∧
        input (idx width x) > 0 ∧ ∀ q ∈ starts, q ≠ x ∧ ¬Adj8 q x) := by
  obtain ⟨hs', hfits⟩ := labelPixel_some turn
  have hcounter := h.counter
  by_cases hon : input (idx width x) > 0
  · rcases scanPixel_on (u := 9999) (s := s) hon with ⟨hnone, he⟩ | ⟨m, hm, h0, _, _, he⟩
    · rw [← hs'] at he
      have hnext : s'.labelCounter = s.labelCounter + 1 := by rw [he]
      have hroom := hfits (by omega)
      have hout : s'.output (idx width x) = s.labelCounter := by
        rw [he]
        exact (Buf.write_same _ _ _).trans (Nat.mod_eq_of_lt (by omega))
      exact ⟨by omega, fun _ => by omega,
        Or.inr ⟨hnext, hon, fun q hq => h.fresh_apart rows hl hnone hq⟩⟩
    · rw [← hs'] at he
      have hlt := h.read_lt rows border hl hm
      have hout : s'.output (idx width x) = m := by
        rw [he]
        exact (Buf.write_same _ _ _).trans (Nat.mod_eq_of_lt (by omega))
      refine ⟨by omega, fun _ => by omega, Or.inl ?_⟩
      rw [he]
  · have he := scanPixel_off (u := 9999) (s := s) hon
    rw [← hs'] at he
    have hout : s'.output (idx width x) = 0 := by
      rw [he]
      exact Buf.write_same _ _ _
    refine ⟨by omega, fun ha => absurd ha hon, Or.inl ?_⟩
    rw [he]

include rows labels border in
/-- A turn keeps all of it, one more pixel among the starts where it starts a label. -/
theorem Packed.step (h : Packed width input output startLabel pre starts s)
    (hl : Band.pixels width ⟨startRow, endRow, startLabel⟩ = pre ++ x :: post)
    (turn : labelPixel width input startLabel s x = some s') :
    Packed width input output startLabel (pre ++ [x])
      (starts ++ if s.labelCounter < s'.labelCounter then [x] else []) s' := by
  obtain ⟨hsmall, hlabelled, hcase⟩ := h.turn rows labels border hl turn
  have hkeep : ∀ i, i ≠ idx width x → s'.output i = s.output i := by
    intro i hi
    rw [(labelPixel_some turn).1]
    exact (scanPixel_step 9999 width input s x).output_other hi
  have hnext : ∀ q ∈ (if s.labelCounter < s'.labelCounter then [x] else []), q = x ∧
      input (idx width x) > 0 ∧ ∀ p ∈ starts, p ≠ x ∧ ¬Adj8 p x := by
    intro q hq
    split at hq
    · rename_i hlt
      cases hcase with
      | inl hsame => omega
      | inr hnew => exact ⟨List.mem_singleton.mp hq, hnew.2⟩
    · cases hq
  refine ⟨?_, ?_, ?_, ?_, ?_, ?_⟩
  · intro i hi
    rw [hkeep i (hi x (by simp)), h.frame i (fun p hp => hi p (by simp [hp]))]
  · intro q hq
    cases List.mem_append.mp hq with
    | inl hq =>
      rw [hkeep _ (idx_visited hl hq)]
      exact h.small q hq
    | inr hq => rwa [List.mem_singleton.mp hq]
  · intro q hq hon
    cases List.mem_append.mp hq with
    | inl hq =>
      rw [hkeep _ (idx_visited hl hq)]
      exact h.labelled q hq hon
    | inr hq =>
      rw [List.mem_singleton.mp hq] at hon ⊢
      exact hlabelled hon
  · intro q hq
    cases List.mem_append.mp hq with
    | inl hq => exact ⟨List.mem_append_left _ (h.active q hq).1, (h.active q hq).2⟩
    | inr hq =>
      obtain ⟨rfl, hon, _⟩ := hnext q hq
      exact ⟨by simp, hon⟩
  · rw [List.pairwise_append]
    refine ⟨h.apart, ?_, ?_⟩
    · split
      · exact List.pairwise_singleton _ _
      · exact List.Pairwise.nil
    · intro p hp q hq
      obtain ⟨rfl, _, hapart⟩ := hnext q hq
      exact hapart p hp
  · rw [List.length_append, ← Nat.add_assoc, ← h.counter]
    cases hcase with
    | inl hsame => simp [hsame]
    | inr hnew => simp [hnew.1]

include rows labels border in
/-- The whole of a call's scan. -/
theorem packed_run (blobs : Table w)
    (run : (Band.pixels width ⟨startRow, endRow, startLabel⟩).foldlM
      (labelPixel width input startLabel) ⟨output, blobs, startLabel⟩ = some s) :
    Packed width input output startLabel (Band.pixels width ⟨startRow, endRow, startLabel⟩)
      (labelStarts width input startLabel (Band.pixels width ⟨startRow, endRow, startLabel⟩)
        ⟨output, blobs, startLabel⟩) s := by
  have hloop := Fold.prefix_induction_option
    (P := fun pre (s : Scan w) =>
      pre.foldlM (labelPixel width input startLabel) ⟨output, blobs, startLabel⟩ = some s ∧
      Packed width input output startLabel pre
        (labelStarts width input startLabel pre ⟨output, blobs, startLabel⟩) s)
    _ _ s ⟨rfl, Packed.start width input output blobs startLabel⟩ ?_ run
  · exact hloop.2
  · rintro pre x post t t' hl ⟨hrun, h⟩ turn
    refine ⟨?_, ?_⟩
    · simp [List.foldlM_append, hrun, turn]
    · rw [labelStarts_concat pre _ hrun turn]
      exact h.step rows labels border hl turn

end packing

/-- The labels one call of `label` needs: no two pixels that start one touch, and there
are no more of them than two by two cells in its rows. -/
theorem label_starts_apart {w width height startRow endRow startLabel : Nat} {input : Buf UInt8}
    {output : Buf Nat} {blobs : Table w} {sh : Shared w}
    (rows : 1 ≤ startRow ∧ startRow ≤ endRow ∧ endRow < height)
    (labels : 1 ≤ startLabel ∧ startLabel + maxBlobsPerThread ≤ 804)
    (border : ∀ q : Pixel, q.1 < height → q.2 < width →
      q.1 + 1 = startRow ∨ q.2 = 0 ∨ q.2 + 1 = width → output (idx width q) < 804)
    (run : label input width ⟨startRow, endRow, startLabel⟩ ⟨output, blobs⟩ = some sh) :
    let pixels := Band.pixels width ⟨startRow, endRow, startLabel⟩
    let starts := labelStarts width input startLabel pixels ⟨output, blobs, startLabel⟩
    (starts.Pairwise fun p q => p ≠ q ∧ ¬Adj8 p q) ∧
    ∃ s, pixels.foldlM (labelPixel width input startLabel) ⟨output, blobs, startLabel⟩ = some s ∧
      sh.output = s.output ∧ s.labelCounter = startLabel + starts.length ∧
      s.labelCounter - startLabel ≤
        ((endRow - startRow + 1) + 1) / 2 * (((width - 2) + 1) / 2) := by
  unfold label at run
  obtain ⟨s, hs, rfl⟩ := Option.map_eq_some_iff.mp run
  have h := packed_run rows labels border blobs hs
  have hset : ∀ p ∈ labelStarts width input startLabel
        (Band.pixels width ⟨startRow, endRow, startLabel⟩) ⟨output, blobs, startLabel⟩,
      ∀ q ∈ labelStarts width input startLabel
        (Band.pixels width ⟨startRow, endRow, startLabel⟩) ⟨output, blobs, startLabel⟩,
      p ≠ q → ¬Adj8 p q := by
    intro p hp q hq hne
    have hsymm : Std.Symm (fun p q : Pixel => p ≠ q ∧ ¬Adj8 p q) :=
      ⟨fun _ _ h => ⟨h.1.symm, fun ha => h.2 ha.symm⟩⟩
    exact (h.apart.forall hp hq hne).2
  have hnodup := h.apart.imp (fun hpq => hpq.1)
  have hle := apart_card_le (T := (labelStarts width input startLabel
    (Band.pixels width ⟨startRow, endRow, startLabel⟩) ⟨output, blobs, startLabel⟩).toFinset)
    startRow 1 (endRow - startRow + 1) (width - 2) ?_ ?_
  · rw [List.toFinset_card_of_nodup hnodup] at hle
    refine ⟨h.apart, s, hs, rfl, h.counter, ?_⟩
    rw [h.counter, Nat.add_sub_cancel_left]
    exact hle
  · intro q hq
    have := mem_band_pixels.mp (h.active q (List.mem_toFinset.mp hq)).1
    omega
  · intro p hp q hq
    exact hset p (List.mem_toFinset.mp hp) q (List.mem_toFinset.mp hq)

/-- Two arms that meet and a dot below them take three labels, where six cells have room. -/
theorem label_starts_apart_branch : ∃ sh,
    label (w := 32) branch 5 ⟨1, 4, 1⟩
      ⟨Buf.all 0, Buf.all Blob.zero⟩ = some sh ∧
    let pixels := Band.pixels 5 ⟨1, 4, 1⟩
    let starts := labelStarts (w := 32) 5 branch 1 pixels
      ⟨Buf.all 0, Buf.all Blob.zero, 1⟩
    starts = [(1, 1), (1, 3), (4, 1)] ∧
    (starts.Pairwise fun p q => p ≠ q ∧ ¬Adj8 p q) ∧
    ∃ s : Scan 32, pixels.foldlM (labelPixel 5 branch 1)
          ⟨Buf.all 0, Buf.all Blob.zero, 1⟩ =
        some s ∧
      sh.output = s.output ∧ s.labelCounter = 1 + starts.length ∧
      s.labelCounter - 1 ≤ ((4 - 1 + 1) + 1) / 2 * (((5 - 2) + 1) / 2) := by
  have hsome : (label (w := 32) branch 5 ⟨1, 4, 1⟩
      ⟨Buf.all 0, Buf.all Blob.zero⟩).isSome = true := by decide +kernel
  obtain ⟨sh, hsh⟩ := Option.isSome_iff_exists.mp hsome
  exact ⟨sh, hsh, by decide +kernel,
    label_starts_apart (by decide : 1 ≤ 1 ∧ 1 ≤ 4 ∧ 4 < 6) (by decide)
      (fun q _ _ _ => by rw [Buf.all_apply]; decide) hsh⟩

end Motion
