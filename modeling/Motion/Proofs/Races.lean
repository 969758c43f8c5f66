import Motion.Proofs.StitchThreads
import Motion.Proofs.Tallies
import Motion.Proofs.ThreadsApart

/-! What the threads of `blob_detect_par` touch in common: the image in the rows of the seams,
and where these are quiet nothing of the table but slot 0. -/

namespace Motion

variable {w width : Nat} {input : Buf UInt8} {turns : List Act} {a a' : Act} {b c : Band}
  {p q : Pixel} {s : Machine w} {stack : Buf (Blob w)} {k row : Nat}

/-- Two turns of which one writes what the other reads or writes. -/
def Collide (input : Buf UInt8) (width : Nat) (a a' : Act) : Prop :=
  ∃ k ∈ imageWrites width a, k ∈ imageReads input width a' ∨ k ∈ imageWrites width a'

theorem mem_imageReads (hr : 1 ≤ p.1) (hc : 1 ≤ p.2) :
    k ∈ imageReads input width (.label b p) ↔
      input (idx width p) > 0 ∧ ∃ q, Behind p q ∧ idx width q = k := by
  simp only [imageReads]
  split
  · rename_i hon
    have hread : k ∈ around width ⟨id⟩ p ↔ ∃ q, Behind p q ∧ idx width q = k := mem_around hr hc
    exact hread.trans (and_iff_right hon).symm
  · rename_i hoff
    exact iff_of_false (by simp) (fun h => hoff h.1)

/-- The pixel a turn reads of another band lies above the first row of its own. -/
theorem seam_of_collide (hb : b ∈ bands) (hc : c ∈ bands) (hne : b ≠ c) (hp : p ∈ b.pixels width)
    (hq : q ∈ c.pixels width) (h : Collide input width (.label b p) (.label c q)) :
    q.1 ∈ seams ∧ Moving input width labelledHeight q := by
  have hfirst : ∀ b ∈ bands, b.startRow = 1 ∨ b.startRow ∈ seams := by decide
  obtain ⟨k, hwrite, hother⟩ := h
  obtain rfl : k = idx width p := by simpa [imageWrites] using hwrite
  have hpp := mem_pixels.mp hp
  have hqq := mem_pixels.mp hq
  have hin := inside_of_mem hc hq
  unfold Inside at hin
  cases hother with
  | inr hwrites =>
    have he : idx width p = idx width q := by simpa [imageWrites] using hwrites
    exact absurd he (pixel_apart hc hb hne hpp.1 (by omega) q hq)
  | inl hreads =>
    obtain ⟨hon, r, hbe, he⟩ := (mem_imageReads hin.1 hin.2.2.1).mp hreads
    have hcol := hbe.near_col
    obtain rfl : r = p := idx_inj (by omega) (by omega) he
    have hnot : ¬InRows c r := fun hrows => hne (bands_disjoint hb hc hpp.1 hrows)
    have hqr := hqq.1
    have hrin := inside_of_mem hb hp
    have hrow : r.1 + 1 = q.1 ∧ q.1 = c.startRow := by
      unfold Behind at hbe
      unfold InRows at hnot hqr
      omega
    unfold Inside at hrin
    refine ⟨?_, inside_of_mem hc hq, hon⟩
    rw [hrow.2]
    exact (hfirst c hc).resolve_left (by omega)

/-- Turns of two label threads collide exactly if something moves in the first row of a band
below the first. -/
theorem label_collide_iff :
    (∃ b ∈ bands, ∃ c ∈ bands, b ≠ c ∧ ∃ a ∈ labelActs width b, ∃ a' ∈ labelActs width c,
      Collide input width a a') ↔
    ∃ p, p.1 ∈ seams ∧ Moving input width labelledHeight p := by
  have hseam : ∀ row ∈ seams, ∃ b ∈ bands, ∃ c ∈ bands, b ≠ c ∧ b.startRow ≤ b.endRow ∧
      b.endRow + 1 = row ∧ c.startRow = row ∧ c.startRow ≤ c.endRow := by decide
  constructor
  · rintro ⟨b, hb, c, hc, hne, a, ha, a', ha', k, hwrite, hother⟩
    -- only a turn at a pixel reads or writes one
    cases List.mem_append.mp ha with
    | inr hredirect =>
      obtain ⟨i, _, rfl⟩ := List.mem_map.mp hredirect
      simp [imageWrites] at hwrite
    | inl hlabel =>
      obtain ⟨p, hp, rfl⟩ := List.mem_map.mp hlabel
      cases List.mem_append.mp ha' with
      | inr hredirect =>
        obtain ⟨i, _, rfl⟩ := List.mem_map.mp hredirect
        simp [imageReads, imageWrites] at hother
      | inl hlabel =>
        obtain ⟨q, hq, rfl⟩ := List.mem_map.mp hlabel
        exact ⟨q, seam_of_collide hb hc hne hp hq ⟨k, hwrite, hother⟩⟩
  · rintro ⟨p, hp, hm⟩
    obtain ⟨b, hb, c, hc, hne, hbr, hend, hstart, hcr⟩ := hseam p.1 hp
    have hin := hm.1
    unfold Inside at hin
    have habove : InRows b (p.1 - 1, p.2) := by
      unfold InRows
      dsimp only
      omega
    have hbelow : InRows c p := by
      unfold InRows
      omega
    refine ⟨b, hb, c, hc, hne, .label b (p.1 - 1, p.2), ?_, .label c p, ?_,
      idx width (p.1 - 1, p.2), by simp [imageWrites], Or.inl ?_⟩
    · refine List.mem_append_left _ (List.mem_map_of_mem ?_)
      exact mem_pixels.mpr ⟨habove, by dsimp only; omega⟩
    · refine List.mem_append_left _ (List.mem_map_of_mem ?_)
      exact mem_pixels.mpr ⟨hbelow, by omega⟩
    · refine (mem_imageReads hin.1 hin.2.2.1).mpr ⟨hm.2, (p.1 - 1, p.2), ?_, rfl⟩
      unfold Behind
      dsimp only
      omega

theorem mem_imageReads_near (hr : 1 ≤ p.1) (hc : 1 ≤ p.2)
    (ha : (∃ b, a = .label b p) ∨ a = .stitch p) (hk : k ∈ imageReads input width a) :
    ∃ q : Pixel, q.1 ≤ p.1 ∧ q.2 ≤ p.2 + 1 ∧ idx width q = k := by
  rcases ha with ⟨b, rfl⟩ | rfl
  · obtain ⟨_, q, hbe, rfl⟩ := (mem_imageReads hr hc).mp hk
    have hrow := hbe.near_row
    have hcol := hbe.near_col
    exact ⟨q, by omega, by omega, rfl⟩
  · simp only [imageReads, List.mem_cons, List.not_mem_nil, or_false] at hk
    rcases hk with rfl | rfl | rfl | rfl
    · exact ⟨p, by omega, by omega, rfl⟩
    · exact ⟨(p.1 - 1, p.2 - 1), by dsimp only; omega, by dsimp only; omega, rfl⟩
    · exact ⟨(p.1 - 1, p.2), by dsimp only; omega, by dsimp only; omega, rfl⟩
    · exact ⟨(p.1 - 1, p.2 + 1), by dsimp only; omega, by dsimp only; omega, rfl⟩

/-- A turn is at a pixel inside the frame, or redirects an entry. -/
theorem mem_turns (ha : a ∈ (labelThreads width).flatten ++ (stitchThreads width).flatten) :
    (∃ p, Inside width labelledHeight p ∧ ((∃ b, a = .label b p) ∨ a = .stitch p)) ∨
      ∃ i, a = .redirectUsed i := by
  cases List.mem_append.mp ha with
  | inl hlabels =>
    obtain ⟨steps, hsteps, hmem⟩ := List.mem_flatten.mp hlabels
    obtain ⟨b, hb, rfl⟩ := List.mem_map.mp hsteps
    cases List.mem_append.mp hmem with
    | inl hlabel =>
      obtain ⟨p, hp, rfl⟩ := List.mem_map.mp hlabel
      exact Or.inl ⟨p, inside_of_mem hb hp, Or.inl ⟨b, rfl⟩⟩
    | inr hredirect =>
      obtain ⟨i, _, rfl⟩ := List.mem_map.mp hredirect
      exact Or.inr ⟨i, rfl⟩
  | inr hstitches =>
    obtain ⟨row, hrow, col, h1, hcol, rfl⟩ :=
      mem_stitches (Interleave.Run.one_by_one (stitchThreads width)) hstitches
    have hseams : ∀ row ∈ seams, 1 ≤ row ∧ row + 1 < labelledHeight := by decide
    have hr := hseams row hrow
    refine Or.inl ⟨(row, col), ?_, Or.inr rfl⟩
    unfold Inside
    dsimp only
    omega

/-- The threads stay inside the image exactly if it has 240 rows, whatever they are told of
its height. -/
theorem threads_inside_iff (input : Buf UInt8) (hw : 3 ≤ width) (height : Nat) :
    (∀ a ∈ (labelThreads width).flatten ++ (stitchThreads width).flatten, ∀ k,
      k ∈ imageReads input width a ∨ k ∈ imageWrites width a → k < width * height) ↔
    240 ≤ height := by
  constructor
  · intro hall
    have hlast : Act.label ⟨180, 239, maxBlobsPerThread * 3 + 1⟩ (239, 1) ∈
        (labelThreads width).flatten ++ (stitchThreads width).flatten := by
      refine List.mem_append_left _ (List.mem_flatten.mpr
        ⟨labelActs width ⟨180, 239, maxBlobsPerThread * 3 + 1⟩,
          List.mem_map_of_mem (by decide), ?_⟩)
      refine List.mem_append_left _ (List.mem_map_of_mem (mem_pixels.mpr ⟨?_, ?_⟩))
      · exact ⟨by decide, by decide⟩
      · dsimp only
        omega
    have hlt := hall _ hlast (idx width (239, 1)) (Or.inr (by simp [imageWrites]))
    unfold idx at hlt
    dsimp only at hlt
    by_contra hlow
    have hle := Nat.mul_le_mul_left width (show height ≤ 239 by omega)
    rw [Nat.mul_comm width 239] at hle
    omega
  · intro hheight a ha k hk
    have hpixel : ∀ q : Pixel, q.1 ≤ 239 → q.2 < width → idx width q < width * height := by
      intro q hr hc
      have hrow := Nat.mul_le_mul_right width hr
      have hall := Nat.mul_le_mul_left width hheight
      rw [Nat.mul_comm width 240] at hall
      unfold idx
      omega
    rcases mem_turns ha with ⟨p, hin, hact⟩ | ⟨i, rfl⟩
    · have hp := hin
      unfold Inside labelledHeight at hp
      rcases hk with hread | hwrite
      · obtain ⟨q, hr, hc, rfl⟩ := mem_imageReads_near hp.1 hp.2.2.1 hact hread
        exact hpixel q (by omega) (by omega)
      · rcases hact with ⟨b, rfl⟩ | rfl
        · obtain rfl : k = idx width p := by simpa [imageWrites] using hwrite
          exact hpixel p (by omega) (by omega)
        · simp [imageWrites] at hwrite
    · simp [imageReads, imageWrites] at hk

/-- After any turns of the label threads. -/
theorem kept_of_turns (quiet : SeamsQuiet input width)
    (hall : ∀ a ∈ turns, ∃ b ∈ bands, a ∈ labelActs width b)
    (run : turns.foldlM (step input width) (Machine.start stack (Buf.all 0)) = some s) :
    Kept input width s := by
  refine Fold.prefix_induction_option (P := fun _ (s : Machine w) => Kept input width s) turns _ s
    (Kept.start input width stack) ?_ run
  intro pre a post t t' hsplit ht hstep
  obtain ⟨b, hb, ha⟩ := hall a (by simp [hsplit])
  exact (ht.turn quiet hb ha hstep).1

/-- Where the seams are quiet a turn of a label thread uses entries of its band, and slot 0. -/
theorem Kept.uses_own (h : Kept input width s) (quiet : SeamsQuiet input width) (hb : b ∈ bands)
    (ha : a ∈ labelActs width b) (hk : k ∈ uses input width s a) : k = 0 ∨ Own b k := by
  cases List.mem_append.mp ha with
  | inl hlabel =>
    obtain ⟨x, hx, rfl⟩ := List.mem_map.mp hlabel
    have hin := inside_of_mem hb hx
    simp only [uses] at hk
    split at hk
    · rename_i hon
      have hread : ∀ l ∈ around width s.output x, l = 0 ∨ Own b l :=
        fun l hl => h.read quiet hb hx ⟨hin, hon⟩ hl
      split at hk
      · obtain rfl := List.mem_singleton.mp hk
        exact Or.inr (h.closed.counters b hb)
      · rename_i hm
        cases List.mem_cons.mp hk with
        | inl he => exact he ▸ hread _ (minLabel_mem hm).1
        | inr hlink => exact hread k (List.mem_of_mem_filter hlink)
    · cases hk
  | inr hredirect =>
    obtain ⟨i, hi, rfl⟩ := List.mem_map.mp hredirect
    have hown : Own b i := mem_upto.mp hi
    simp only [uses] at hk
    split at hk
    · rename_i hcond
      have hlead := (h.leads b hb i hown).resolve_left hcond.2
      simp only [List.mem_cons, List.not_mem_nil, or_false] at hk
      cases hk with
      | inl he => exact Or.inr (he ▸ hown)
      | inr he => exact Or.inr (he ▸ hlead)
    · exact Or.inr (List.mem_singleton.mp hk ▸ hown)

/-- And a turn of a stitch thread entries of the band above its row, and slot 0. -/
theorem Kept.uses_seam (h : Kept input width s) (quiet : SeamsQuiet input width)
    (hrow : row ∈ seams) (ha : a ∈ stitchActs width row) (hk : k ∈ uses input width s a) :
    k = 0 ∨ ∃ b ∈ bands, b.endRow + 1 = row ∧ Own b k := by
  obtain ⟨col, hcol, rfl⟩ := List.mem_map.mp ha
  simp only [uses] at hk
  split at hk
  · rename_i hfound
    have hmem : k ∈ [s.output (idx width (row, col)), s.output (idx width (row - 1, col - 1)),
        s.output (idx width (row - 1, col)), s.output (idx width (row - 1, col + 1))] := by
      cases List.mem_cons.mp hk with
      | inl he => exact List.mem_cons_of_mem _ (he ▸ (minLabel_mem hfound).1)
      | inr hlink => exact List.mem_of_mem_filter hlink
    exact (h.seam_labels quiet hrow (mem_upto.mp hcol) hfound hmem).imp id (fun hown => hown.2)
  · cases hk

/-- What the threads race for. Turns of two label threads collide in the image exactly if
something moves in row 60, 120 or 180; where no motion reaches across a seam two label threads,
and two stitch threads, share no entry of the table but slot 0. -/
theorem threads_race (input : Buf UInt8) (width : Nat) :
    ((∃ b ∈ bands, ∃ c ∈ bands, b ≠ c ∧ ∃ a ∈ labelActs width b, ∃ a' ∈ labelActs width c,
        Collide input width a a') ↔
      ∃ p, p.1 ∈ seams ∧ Moving input width labelledHeight p) ∧
    (SeamsQuiet input width → ∀ (stack : Buf (Blob w)) (turns : List Act) (s : Machine w),
      (∀ a ∈ turns, ∃ b ∈ bands, a ∈ labelActs width b) →
      turns.foldlM (step input width) (Machine.start stack (Buf.all 0)) = some s →
      (∀ b ∈ bands, ∀ c ∈ bands, b ≠ c → ∀ a ∈ labelActs width b, ∀ a' ∈ labelActs width c,
        ∀ k ∈ uses input width s a, k ∈ uses input width s a' → k = 0) ∧
      ∀ (sewing : List Act) (t : Machine w),
        (∀ a ∈ sewing, ∃ row ∈ seams, a ∈ stitchActs width row) →
        sewing.foldlM (step input width) s = some t →
        ∀ row ∈ seams, ∀ row' ∈ seams, row ≠ row' → ∀ a ∈ stitchActs width row,
          ∀ a' ∈ stitchActs width row', ∀ k ∈ uses input width t a,
            k ∈ uses input width t a' → k = 0) := by
  refine ⟨label_collide_iff, fun quiet stack turns s hall run => ?_⟩
  have h := kept_of_turns quiet hall run
  constructor
  · intro b hb c hc hne a ha a' ha' k hk hk'
    by_contra h0
    have hown := (h.uses_own quiet hb ha hk).resolve_left h0
    have hown' := (h.uses_own quiet hc ha' hk').resolve_left h0
    exact own_apart hc hb hne hown hown'
  · intro sewing t hsewing hrun row hrow row' hrow' hne a ha a' ha' k hk hk'
    have hstitch : ∀ row, ∀ a ∈ stitchActs width row, ∃ p, a = .stitch p := by
      intro row a ha
      obtain ⟨col, _, rfl⟩ := List.mem_map.mp ha
      exact ⟨_, rfl⟩
    -- the image is as the label threads have left it
    have hout : t.output = s.output := by
      obtain ⟨u, hu, hsame, _⟩ := stitch_steps input (fun a ha => by
        obtain ⟨row, _, hmem⟩ := hsewing a ha
        exact hstitch row a hmem) s
      obtain rfl := Option.some.inj (hrun.symm.trans hu)
      exact hsame
    have huses : ∀ row, ∀ a ∈ stitchActs width row,
        uses input width t a = uses input width s a := by
      intro row a ha
      obtain ⟨p, rfl⟩ := hstitch row a ha
      simp only [uses, hout]
    rw [huses row a ha] at hk
    rw [huses row' a' ha'] at hk'
    by_contra h0
    obtain ⟨b, hb, hend, hown⟩ := (h.uses_seam quiet hrow ha hk).resolve_left h0
    obtain ⟨c, hc, hend', hown'⟩ := (h.uses_seam quiet hrow' ha' hk').resolve_left h0
    have hbc : b ≠ c := by
      rintro rfl
      exact hne (hend.symm.trans hend')
    exact own_apart hc hb hbc hown hown'

section apart

variable {labels stitches pre post rest : List Act} (quiet : SeamsQuiet input width)
  (hl : Interleave.Run (labelThreads width) labels)

include hl in
theorem mem_labelActs_of_run (ha : a ∈ labels) : ∃ b ∈ bands, a ∈ labelActs width b := by
  simpa using (labels_perm hl).mem_iff.mp ha

include quiet hl

/-- Where the seams are quiet, and no two threads use one entry but slot 0, the labels given so
far are right at every turn of every order of turns, and each is of its own thread. -/
theorem threads_label (split : labels = pre ++ post)
    (run : pre.foldlM (step input width) (Machine.start stack (Buf.all 0)) = some s) :
    LabelledSoFar input width (visitsOf pre) s.output s.blobs ∧
    ∀ b ∈ bands, ∀ p ∈ visitsOf pre, InRows b p →
      s.output (idx width p) = 0 ∨ Own b (s.output (idx width p)) := by
  have hweave := woven hl split run
  have hkept := kept_of_turns quiet
    (fun a ha => mem_labelActs_of_run hl (split ▸ List.mem_append_left post ha)) run
  refine ⟨hweave.labelledSoFar, ?_⟩
  intro b hb p hp hrows
  have hin := hweave.area p hp
  unfold Inside at hin
  exact hkept.own b hb p hrows (by omega)

omit quiet hl

theorem threads_label_apart : ∃ s : Machine 32,
    (labelThreads 3).flatten.foldlM (step apart 3) (Machine.start (Buf.all Blob.zero) (Buf.all 0)) =
      some s ∧
    LabelledSoFar apart 3 (visitsOf (labelThreads 3).flatten) s.output s.blobs ∧
    ∀ b ∈ bands, ∀ p ∈ visitsOf (labelThreads 3).flatten, InRows b p →
      s.output (idx 3 p) = 0 ∨ Own b (s.output (idx 3 p)) := by
  obtain ⟨s, hs⟩ := labels_narrow 32 apart (by decide : 3 ≤ 5) (Buf.all Blob.zero)
  exact ⟨s, hs, threads_label apart_quiet (Interleave.Run.one_by_one _) (List.append_nil _).symm hs⟩

include quiet hl

/-- There the entries of a thread's labels hold the active pixels of its band. -/
theorem band_mass (split : labels = pre ++ post)
    (run : pre.foldlM (step input width) (Machine.start stack (Buf.all 0)) = some s)
    (hb : b ∈ bands) :
    ∑ i ∈ Finset.Ico b.startLabel (b.startLabel + maxBlobsPerThread), (s.blobs i).mass =
      ((activeIn input width pre).filter (InRows b)).length := by
  obtain ⟨h, hown⟩ := threads_label quiet hl split run
  have hnodup : (visitsOf pre).Nodup := by
    have hall := visits_nodup hl
    rw [split, visitsOf_append] at hall
    exact (List.nodup_append.mp hall).1
  have hmass : ∀ i ∈ Finset.Ico b.startLabel (b.startLabel + maxBlobsPerThread),
      (s.blobs i).mass =
        ((visitsOf pre).toFinset.filter fun q => s.output (idx width q) = i).card := by
    intro i hi
    have h0 : i ≠ 0 := own_ne_zero hb (Finset.mem_Ico.mp hi)
    by_cases hcarried : ∃ p ∈ visitsOf pre, s.output (idx width p) = i
    · obtain ⟨p, hp, rfl⟩ := hcarried
      exact (h.entries p hp h0).mass
    · rw [h.unused i h0 (fun p hp he => hcarried ⟨p, hp, he⟩), Finset.filter_eq_empty_iff.mpr]
      · rfl
      · intro p hp he
        exact hcarried ⟨p, List.mem_toFinset.mp hp, he⟩
  have hset : (activeIn input width pre).filter (InRows b) = (visitsOf pre).filter fun q =>
      s.output (idx width q) ∈ Finset.Ico b.startLabel (b.startLabel + maxBlobsPerThread) := by
    unfold activeIn
    rw [List.filter_filter]
    refine List.filter_congr ?_
    intro q hq
    have hactive := h.active q hq
    rw [← Bool.decide_and, decide_eq_decide, Finset.mem_Ico]
    constructor
    · rintro ⟨hrows, hon⟩
      have hin := (woven hl split run).area q hq
      exact (hown b hb q hq hrows).resolve_left (hactive.mpr ⟨hin, hon⟩)
    · intro hmem
      have hm := hactive.mp (own_ne_zero hb hmem)
      obtain ⟨c, hc, hrows⟩ := bands_cover hm.1
      obtain rfl : c = b := by
        by_contra hne
        exact own_apart hb hc hne ((hown c hc q hq hrows).resolve_left (hactive.mpr hm)) hmem
      exact ⟨hrows, hm.2⟩
  rw [Finset.sum_congr rfl hmass, hset, ← List.toFinset_card_of_nodup (hnodup.filter _),
    List.toFinset_filter]
  simpa using Finset.sum_card_fiberwise_eq_card_filter (visitsOf pre).toFinset
    (Finset.Ico b.startLabel (b.startLabel + maxBlobsPerThread)) fun q => s.output (idx width q)

/-- Where the seams are quiet, and no two threads use one entry but slot 0, no update is lost
and none is made twice: at every turn of every order of turns the entries of the labels taken
add up to the active pixels labelled so far, in mass and in both sums, those of each thread to
the active pixels of its band, and the other entries are empty. -/
theorem threads_tally (hs : Interleave.Run (stitchThreads width) stitches)
    (split : labels ++ stitches = pre ++ rest)
    (run : pre.foldlM (step input width) (Machine.start stack (Buf.all 0)) = some s) :
    (∑ i ∈ Finset.Ico 1 800, (s.blobs i).mass = (activeIn input width pre).length ∧
      ∑ i ∈ Finset.Ico 1 800, (s.blobs i).sumX =
        BitVec.ofNat w ((activeIn input width pre).map Prod.snd).sum ∧
      ∑ i ∈ Finset.Ico 1 800, (s.blobs i).sumY =
        BitVec.ofNat w ((activeIn input width pre).map Prod.fst).sum) ∧
    (∀ b ∈ bands,
      ∑ i ∈ Finset.Ico b.startLabel (b.startLabel + maxBlobsPerThread), (s.blobs i).mass =
        ((activeIn input width pre).filter (InRows b)).length) ∧
    ∀ l, ¬Allocated s.labelCounter l →
      (s.blobs l).mass = 0 ∧ (s.blobs l).sumX = 0 ∧ (s.blobs l).sumY = 0 := by
  have hmass := tallied (Tally.mass w) hl hs split run
  have hx := tallied (Tally.sumX w) hl hs split run
  have hy := tallied (Tally.sumY w) hl hs split run
  refine ⟨⟨?_, ?_, ?_⟩, fun b hb => ?_, fun l hlab => ?_⟩
  · exact hmass.total.trans (sum_mass _)
  · exact hx.total.trans (sum_ofNat _ Prod.snd)
  · exact hy.total.trans (sum_ofNat _ Prod.fst)
  · rcases List.append_eq_append_iff.mp split with ⟨sewing, hpre, hsewing⟩ | ⟨post, hpost, _⟩
    · -- the stitches change links only
      have hall : ∀ a ∈ sewing, ∃ p, a = Act.stitch p := by
        intro a ha
        obtain ⟨row, _, col, _, _, he⟩ := mem_stitches hs (by simp [hsewing, ha] : a ∈ stitches)
        exact ⟨_, he⟩
      have hnone : visitsOf sewing = [] := by
        unfold visitsOf
        rw [List.filterMap_eq_nil_iff]
        intro a ha
        obtain ⟨p, rfl⟩ := hall a ha
        rfl
      rw [hpre, List.foldlM_append] at run
      obtain ⟨t, ht, hrun⟩ := Option.bind_eq_some_iff.mp run
      obtain ⟨_, _, _, _, hsame⟩ := sewing_same hall hrun
      have hactive : activeIn input width pre = activeIn input width labels := by
        unfold activeIn
        rw [hpre, visitsOf_append, hnone, List.append_nil]
      rw [hactive, ← band_mass quiet hl (List.append_nil labels).symm ht hb]
      refine Finset.sum_congr rfl (fun i _ => ?_)
      obtain ⟨l, hl⟩ := hsame i
      rw [hl]
    · exact band_mass quiet hl hpost run hb
  · exact ⟨hmass.empty l hlab, hx.empty l hlab, hy.empty l hlab⟩

omit quiet hl

theorem threads_tally_apart : ∃ s : Machine 32,
    (labelThreads 3).flatten.foldlM (step apart 3) (Machine.start (Buf.all Blob.zero) (Buf.all 0)) =
      some s ∧
    (∑ i ∈ Finset.Ico 1 800, (s.blobs i).mass =
        (activeIn apart 3 (labelThreads 3).flatten).length ∧
      ∑ i ∈ Finset.Ico 1 800, (s.blobs i).sumX =
        BitVec.ofNat 32 ((activeIn apart 3 (labelThreads 3).flatten).map Prod.snd).sum ∧
      ∑ i ∈ Finset.Ico 1 800, (s.blobs i).sumY =
        BitVec.ofNat 32 ((activeIn apart 3 (labelThreads 3).flatten).map Prod.fst).sum) ∧
    (∀ b ∈ bands,
      ∑ i ∈ Finset.Ico b.startLabel (b.startLabel + maxBlobsPerThread), (s.blobs i).mass =
        ((activeIn apart 3 (labelThreads 3).flatten).filter (InRows b)).length) ∧
    ∀ l, ¬Allocated s.labelCounter l →
      (s.blobs l).mass = 0 ∧ (s.blobs l).sumX = 0 ∧ (s.blobs l).sumY = 0 := by
  obtain ⟨s, hs⟩ := labels_narrow 32 apart (by decide : 3 ≤ 5) (Buf.all Blob.zero)
  exact ⟨s, hs, threads_tally apart_quiet (Interleave.Run.one_by_one _)
    (Interleave.Run.one_by_one _) rfl hs⟩

end apart

end Motion
