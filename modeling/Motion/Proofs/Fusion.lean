import Motion.Proofs.StitchLinks

/-! Whether the labels a call of `stitch` joins belong to one object: always where the pixel
below the seam is active, for it touches them all; below an inactive pixel only if the
pixels above it are connected in some other way. -/

namespace Motion
open Labelling

/-- An active pixel of the frame, which may lie on its border. -/
def Active (input : Buf UInt8) (width height : Nat) (p : Pixel) : Prop :=
  InFrame width height p ∧ input (idx width p) > 0

/-- Joined by a path of touching active pixels of the frame. -/
abbrev Touching (input : Buf UInt8) (width height : Nat) : Pixel → Pixel → Prop :=
  Linked Adj8 {p | Active input width height p}

/-- A call of `stitch` sets the link of `k` to `m` at some pixel of its row. -/
def Sews (width : Nat) (output : Buf Nat) (row k m : Nat) : Prop :=
  ∃ col ∈ upto 1 (width - 1), sewTo width output (row, col) k = some m

/-- The labels it joins are carried by connected pixels. -/
def SewsConnected (input : Buf UInt8) (width : Nat) (output : Buf Nat) (row : Nat) : Prop :=
  ∀ k m, k ≠ 0 → Sews width output row k m →
    ∃ y z, InFrame width 240 y ∧ InFrame width 240 z ∧ output (idx width y) = k ∧
      output (idx width z) = m ∧ Touching input width 240 y z

/-- The active pixels above an inactive pixel of the row are connected. -/
def GapsBridged (input : Buf UInt8) (width row : Nat) : Prop :=
  ∀ col, 1 ≤ col → col + 1 < width → ¬Moving input width labelledHeight (row, col) →
    ∀ q r, OverSeam input width (row, col) q → OverSeam input width (row, col) r →
      Touching input width 240 q r

variable {w width : Nat} {input : Buf UInt8} {order done rest : List Band} {top : Band → Nat}
  {out : Buf Nat} {blobs : Table w} {l : List Pixel} {p q r : Pixel} {row k m : Nat}

theorem Touching.symm (h : Touching input width 240 q r) : Touching input width 240 r q :=
  Linked.symm (fun _ _ h => h.symm) h

/-- The rows the threads label are rows of the frame. -/
theorem Moving.active (h : Moving input width labelledHeight p) : Active input width 240 p := by
  have := h.1
  unfold Inside labelledHeight at this
  exact ⟨⟨by omega, by omega⟩, h.2⟩

theorem sewTo_iff (hr : 1 ≤ p.1) (hc : 1 ≤ p.2) : sewTo width out p k = some m ↔
    minLabel 9999 [out (idx width (p.1 - 1, p.2 - 1)), out (idx width (p.1 - 1, p.2)),
      out (idx width (p.1 - 1, p.2 + 1))] = m ∧ m ≠ 9999 ∧ Touched width out p k ∧ k ≠ m := by
  unfold sewTo Touched
  dsimp only
  split
  · rename_i h
    rw [List.mem_cons, mem_above hr hc] at h
    rw [Option.some.injEq]
    constructor
    · rintro rfl
      exact ⟨rfl, h⟩
    · exact fun he => he.1
  · rename_i h
    rw [List.mem_cons, mem_above hr hc] at h
    refine iff_of_false (by simp) ?_
    rintro ⟨rfl, he⟩
    exact h he

namespace Run

variable (h : Run input width order top l out blobs)

include h

/-- A pixel that carries a label is moving and has been visited. -/
theorem live_of_label (hq : q.2 < width) (h0 : out (idx width q) ≠ 0) :
    q ∈ live (parScene w input width order) l.toFinset := by
  by_cases hm : q ∈ l
  · have hf : q ∈ l.toFinset := List.mem_toFinset.mpr hm
    exact ⟨hf, not_not.mp (fun hn => h0 ((h.marked.zero q hf).mpr hn))⟩
  · refine absurd (h.frame _ (fun z hz he => hm ?_)) h0
    rwa [idx_inj hq (h.col_lt (s := ⟨out, blobs, 0⟩) hz) he]

theorem label_small (hq : q ∈ live (parScene w input width order) l.toFinset) :
    out (idx width q) ≠ 0 ∧ out (idx width q) < 9999 := by
  obtain ⟨b, hb, hlo, hhi, _⟩ := h.home q hq
  have htop := h.tops b hb
  have hrange := bands_range hb
  unfold maxBlobsPerThread at htop hrange
  omega

/-- One label, one object. -/
theorem touching_of_label (hq : q ∈ live (parScene w input width order) l.toFinset)
    (hr : r ∈ live (parScene w input width order) l.toFinset)
    (he : out (idx width q) = out (idx width r)) : Touching input width 240 q r :=
  (h.sound.joined q hq r hr he).mono (fun _ hz => Moving.active hz.2)

/-- Where it joins labels, `stitch` finds pixels that carry them. -/
theorem sewn_pixels (hp : Inside width labelledHeight p) (h0 : k ≠ 0)
    (hs : sewTo width out p k = some m) :
    ∃ y a, (y = p ∨ Above p y) ∧ y ∈ live (parScene w input width order) l.toFinset ∧
      out (idx width y) = k ∧ OverSeam input width p a ∧
      a ∈ live (parScene w input width order) l.toFinset ∧ out (idx width a) = m := by
  unfold Inside at hp
  obtain ⟨hmin, hm, hk, _⟩ := (sewTo_iff hp.1 hp.2.2.1).mp hs
  obtain ⟨hin, hm0, _⟩ := minLabel_mem (by rwa [hmin])
  rw [hmin] at hin hm0
  obtain ⟨a, ha, rfl⟩ := (mem_above hp.1 hp.2.2.1).mp hin
  have hcol := ha.near
  have hlive := h.live_of_label (by omega) hm0
  cases hk with
  | inl hk =>
    exact ⟨p, a, Or.inl rfl, h.live_of_label (by omega) (hk ▸ h0), hk.symm, ⟨ha, hlive.2⟩, hlive,
      rfl⟩
  | inr hk =>
    obtain ⟨y, hy, rfl⟩ := hk
    have hcol' := hy.near
    exact ⟨y, a, Or.inr hy, h.live_of_label (by omega) h0, rfl, ⟨ha, hlive.2⟩, hlive, rfl⟩

/-- The labels of the pixels above a pixel of the seam are all joined to the least of them. -/
theorem over_sewn (hp : Inside width labelledHeight p)
    (seen : ∀ z, OverSeam input width p z → z ∈ l) (hq : OverSeam input width p q) :
    ∃ a, OverSeam input width p a ∧ ∀ r, OverSeam input width p r →
      out (idx width r) ≠ out (idx width a) →
        sewTo width out p (out (idx width r)) = some (out (idx width a)) := by
  unfold Inside at hp
  have hmem : ∀ z, OverSeam input width p z → out (idx width z) ∈
      [out (idx width (p.1 - 1, p.2 - 1)), out (idx width (p.1 - 1, p.2)),
        out (idx width (p.1 - 1, p.2 + 1))] :=
    fun z hz => (mem_above hp.1 hp.2.2.1).mpr ⟨z, hz.1, rfl⟩
  have hl := h.label_small ⟨List.mem_toFinset.mpr (seen q hq), hq.2⟩
  have hle := minLabel_least (hmem q hq) hl.1 (u := 9999)
  obtain ⟨hin, hm0, _⟩ := minLabel_mem (u := 9999) (by omega : minLabel 9999
    [out (idx width (p.1 - 1, p.2 - 1)), out (idx width (p.1 - 1, p.2)),
      out (idx width (p.1 - 1, p.2 + 1))] ≠ 9999)
  obtain ⟨a, ha, he⟩ := (mem_above hp.1 hp.2.2.1).mp hin
  have hcol := ha.near
  have hlive := h.live_of_label (by omega : a.2 < width) (by rwa [he])
  refine ⟨a, ⟨ha, hlive.2⟩, fun r hr hne => (sewTo_iff hp.1 hp.2.2.1).mpr
    ⟨he.symm, ?_, Or.inr ⟨r, hr.1, rfl⟩, hne⟩⟩
  omega

/-- The labels joined at one pixel. -/
theorem sews_connected_iff {row : Nat} (hrow : 1 ≤ row ∧ row + 1 < labelledHeight)
    (seen : ∀ z, Moving input width labelledHeight z → z.1 + 1 = row → z ∈ l) :
    SewsConnected input width out row ↔ GapsBridged input width row := by
  have hin : ∀ col, 1 ≤ col → col + 1 < width → Inside width labelledHeight (row, col) :=
    fun col h1 h2 => ⟨hrow.1, hrow.2, h1, h2⟩
  have hover : ∀ col z, OverSeam input width (row, col) z → z ∈ l :=
    fun col z hz => seen z hz.2 hz.1.1
  constructor
  · intro hall col h1 h2 _ q r hq hr
    obtain ⟨a, ha, hsew⟩ := h.over_sewn (hin col h1 h2) (hover col) hq
    have halive : a ∈ live (parScene w input width order) l.toFinset :=
      ⟨List.mem_toFinset.mpr (hover col a ha), ha.2⟩
    -- a pixel above is connected to the one whose label is the least
    have hone : ∀ z, OverSeam input width (row, col) z → Touching input width 240 z a := by
      intro z hz
      have hzlive : z ∈ live (parScene w input width order) l.toFinset :=
        ⟨List.mem_toFinset.mpr (hover col z hz), hz.2⟩
      by_cases he : out (idx width z) = out (idx width a)
      · exact h.touching_of_label hzlive halive he
      · have h0 := h.label_small hzlive
        have h0' := h.label_small halive
        obtain ⟨y, x, hy, hx, hey, hex, hj⟩ := hall _ _ h0.1
          ⟨col, mem_upto.mpr ⟨h1, by omega⟩, hsew z hz he⟩
        have hylive := h.live_of_label hy.2 (by rw [hey]; exact h0.1)
        have hxlive := h.live_of_label hx.2 (by rw [hex]; exact h0'.1)
        exact ((h.touching_of_label hzlive hylive hey.symm).trans hj).trans
          (h.touching_of_label hxlive halive hex)
    exact (hone q hq).trans (hone r hr).symm
  · rintro hgaps k m h0 ⟨col, hcol, hs⟩
    obtain ⟨h1, h2⟩ := mem_upto.mp hcol
    obtain ⟨y, a, hy, hyl, hyk, ha, hal, ham⟩ := h.sewn_pixels (hin col h1 (by omega)) h0 hs
    refine ⟨y, a, (Moving.active hyl.2).1, (Moving.active hal.2).1, hyk, ham, ?_⟩
    have touch : ∀ z, OverSeam input width (row, col) z →
        Moving input width labelledHeight (row, col) →
        Touching input width 240 (row, col) z := fun z hz hon =>
      Linked.single (Behind.adj (Or.inl hz.1)) (Moving.active hon) (Moving.active hz.2)
    by_cases hon : Moving input width labelledHeight (row, col)
    · cases hy with
      | inl hy => exact hy ▸ touch a ha hon
      | inr hy => exact (touch y ⟨hy, hyl.2⟩ hon).symm.trans (touch a ha hon)
    · cases hy with
      | inl hy => exact absurd (hy ▸ hyl.2) hon
      | inr hy => exact hgaps col h1 (by omega) hon y a ⟨hy, hyl.2⟩ ha

end Run

/-- The stitches leave the image as it is. -/
theorem stitches_output (width : Nat) (rows : List Nat) (sh : Shared w) :
    (rows.foldl (stitch width) sh).output = sh.output := by
  rw [stitch_foldl]

/-- Once the band above a seam has been labelled, its last row has been visited. -/
theorem seam_seen {b : Band} (hb : b ∈ done) (hseam : b.endRow + 1 = row)
    (fair : (done ++ rest).Perm bands) (hq : Moving input width labelledHeight q)
    (hrow : q.1 + 1 = row) : q ∈ done.flatMap (Band.pixels width) := by
  have hrange := bands_range (fair.mem_iff.mp (List.mem_append_left _ hb))
  refine List.mem_flatMap.mpr ⟨b, hb, mem_of_inRows hq.1 ?_⟩
  unfold InRows
  omega

/-- When `stitch` joins no separate objects: in every state reached once the bands on both
sides of the seam have been labelled, whatever stitches have run. -/
theorem stitch_joins_connected_iff {b b' : Band} {sh : Shared w} (fair : (done ++ rest).Perm bands)
    (run : runLabels input width done (Shared.fresh (Buf.all 0)) = some sh)
    (above : b ∈ done ∧ b.endRow + 1 = row) (below : b' ∈ done ∧ b'.startRow = row)
    (stitches : List Nat) :
    SewsConnected input width (stitches.foldl (stitch width) sh).output row ↔
      GapsBridged input width row := by
  obtain ⟨top, h, _⟩ := runLabels_prefix fair run
  have hrow := bands_range (fair.mem_iff.mp (List.mem_append_left _ below.1))
  rw [stitches_output]
  exact h.sews_connected_iff (by omega)
    (fun z hz he => seam_seen above.1 above.2 fair hz he)

/-- Two pixels above the first seam with one column between them, joined further up. -/
def brow : Buf UInt8 := painted 5 fun p => p = (58, 2) ∨ p = (59, 1) ∨ p = (59, 3)

theorem stitch_joins_connected_brow : ∃ sh : Shared 32,
    runLabels brow 5 bands (Shared.fresh (Buf.all 0)) = some sh ∧
    SewsConnected brow 5 sh.output 60 := by
  have fair : (bands ++ []).Perm bands := by rw [List.append_nil]
  obtain ⟨sh, hsh⟩ := Option.isSome_iff_exists.mp
    (runLabels_isSome 32 (List.Perm.refl bands)
      (roomy_of_narrow brow bands (by decide : 5 ≤ 5)))
  have above : (⟨1, 59, 1⟩ : Band) ∈ bands ∧ 59 + 1 = 60 := by decide
  have below : (⟨60, 119, 201⟩ : Band) ∈ bands ∧ 60 = 60 := by decide
  refine ⟨sh, hsh, (stitch_joins_connected_iff fair hsh above below []).mpr ?_⟩
  have hover : ∀ col z, OverSeam brow 5 (60, col) z → z = (59, 1) ∨ z = (59, 3) := by
    rintro col z ⟨⟨hrow, _⟩, hm⟩
    have hon := (moving_painted.mp hm).2
    simp only [decide_eq_true_eq] at hon
    rcases hon with rfl | hon
    · exact absurd hrow (by omega)
    · exact hon
  have hactive : ∀ z ∈ [((58, 2) : Pixel), (59, 1), (59, 3)], Active brow 5 240 z := by
    unfold Active InFrame
    decide
  have hpath : Touching brow 5 240 (59, 1) (59, 3) :=
    (Linked.single (b := (58, 2)) ⟨by decide, by decide⟩ (hactive _ (by decide))
      (hactive _ (by decide))).trans
      (Linked.single ⟨by decide, by decide⟩ (hactive _ (by decide)) (hactive _ (by decide)))
  intro col _ _ _ q r hq hr
  rcases hover col q hq with rfl | rfl <;> rcases hover col r hr with rfl | rfl
  · exact Linked.refl
  · exact hpath
  · exact hpath.symm
  · exact Linked.refl

/-- Two dots above the first seam, with one column between them. -/
def eyes : Buf UInt8 := painted 5 fun p => p.1 = 59 ∧ (p.2 = 1 ∨ p.2 = 3)

/-- At the inactive pixel below them both, `stitch` joins the one to the other. -/
theorem eyes_fused :
    ¬∀ (w width : Nat) (input : Buf UInt8) (done rest : List Band) (b b' : Band) (row : Nat)
      (sh : Shared w), 3 ≤ width → (done ++ rest).Perm bands →
      runLabels input width done (Shared.fresh (Buf.all 0)) = some sh → row ∈ seams →
      b ∈ done → b.endRow + 1 = row → b' ∈ done → b'.startRow = row →
      SewsConnected input width sh.output row := by
  intro hall
  have fair : (bands ++ []).Perm bands := by rw [List.append_nil]
  obtain ⟨sh, hsh⟩ := Option.isSome_iff_exists.mp
    (runLabels_isSome 32 (List.Perm.refl bands)
      (roomy_of_narrow eyes bands (by decide : 5 ≤ 5)))
  obtain ⟨top, h, _⟩ := runLabels_prefix fair hsh
  have hgaps := (h.sews_connected_iff (by decide : 1 ≤ 60 ∧ 60 + 1 < labelledHeight)
    (fun z hz he => seam_seen (b := ⟨1, 59, 1⟩) (by decide) rfl fair hz he)).mp
    (hall 32 5 eyes bands [] ⟨1, 59, 1⟩ ⟨60, 119, 201⟩ 60 sh (by decide) fair hsh (by decide)
      (by decide) rfl (by decide) rfl)
  have hover : ∀ c, c = 1 ∨ c = 3 → OverSeam eyes 5 (60, 2) (59, c) := by
    intro c hc
    refine ⟨?_, moving_painted.mpr ⟨?_, ?_⟩⟩
    · unfold Above
      omega
    · unfold Inside labelledHeight
      omega
    · simpa using hc
  have hoff : ¬Moving eyes 5 labelledHeight (60, 2) := fun hm => by
    simpa using (moving_painted.mp hm).2
  have hjoin := hgaps 2 (by decide) (by decide) hoff _ _ (hover 1 (Or.inl rfl))
    (hover 3 (Or.inr rfl))
  -- a path from the left dot stays on it
  have hstay : ((59, 3) : Pixel) = (59, 1) := by
    refine hjoin.keeps (P := fun p => p = (59, 1)) ?_ rfl
    rintro a z hn ha hz rfl
    have hon := (painted_on hz.1.2).mp hz.2
    simp only [decide_eq_true_eq] at hon
    obtain ⟨hne, hd⟩ := hn
    dsimp only at hd
    exact Prod.ext hon.1 (by dsimp only; omega)
  exact absurd hstay (by decide)

end Motion
