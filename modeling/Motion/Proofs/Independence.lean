import Motion.Proofs.BandScan

/-! When the calls of `label` leave each other alone: exactly when no motion
reaches across a seam. -/

namespace Motion
open Labelling

/-- The labels a call may take. -/
def Own (b : Band) (i : Nat) : Prop :=
  b.startLabel ≤ i ∧ i < b.startLabel + maxBlobsPerThread

/-- What the table says of a call's own labels is the same, and leads nowhere else. -/
structure Alike (b : Band) (s t : Table w) : Prop where
  same : ∀ i, Own b i → s i = t i
  closed : ∀ i, Own b i → (s i).label = 0 ∨ Own b (s i).label

/-- Two states in which a call finds and leaves the same. -/
structure Twin (width : Nat) (b : Band) (s t : Scan w) : Prop where
  counter : s.labelCounter = t.labelCounter
  output : ∀ p ∈ b.pixels width, s.output (idx width p) = t.output (idx width p)
  blobs : Alike b s.blobs t.blobs

/-- A call of `label` on an untouched image and table. -/
def alone (w width : Nat) (input : Buf UInt8) (b : Band) : Shared w :=
  let s := (b.pixels width).foldl (scanPixel 9999 width input)
    ⟨Buf.all 0, Buf.all Blob.zero, b.startLabel⟩
  ⟨s.output, (upto b.startLabel (b.startLabel + maxBlobsPerThread)).foldl redirectUsed s.blobs⟩

/-- Pixels that are not moving carry no label. -/
def Clear (input : Buf UInt8) (width : Nat) (output : Buf Nat) : Prop :=
  ∀ p : Pixel, p.2 < width → ¬Moving input width labelledHeight p → output (idx width p) = 0

variable {w width : Nat} {input : Buf UInt8} {b : Band}

namespace Alike

variable {s t : Table w} (h : Alike b s t)

include h

theorem write {i : Nat} {v v' : Blob w} (he : Own b i → v = v')
    (hl : v.label = 0 ∨ Own b v.label) : Alike b (s.write i v) (t.write i v') := by
  constructor
  · intro j hj
    by_cases hji : j = i
    · subst hji
      simp [he hj]
    · simp [hji, h.same j hj]
  · intro j hj
    by_cases hji : j = i
    · simpa [hji] using hl
    · simpa [hji] using h.closed j hj

theorem linkAll {m : Nat} (hm : Own b m) (ls : List Nat) :
    Alike b (linkAll s m ls) (linkAll t m ls) := by
  constructor
  · intro i hi
    rw [linkAll_apply, linkAll_apply, h.same i hi]
  · intro i hi
    rw [linkAll_apply]
    split
    · exact Or.inr hm
    · exact h.closed i hi

theorem redirect {i : Nat} (hi : Own b i) : Alike b (redirectUsed s i) (redirectUsed t i) := by
  have hsame := h.same i hi
  by_cases h0 : (s i).label = 0
  · rw [redirectUsed_unused h0, redirectUsed_unused (hsame ▸ h0)]
    exact h
  · have hown := (h.closed i hi).resolve_left h0
    have hlink : s (s i).label = t (t i).label := by rw [← hsame, h.same _ hown]
    rw [redirectUsed_eq h0, redirectUsed_eq (hsame ▸ h0)]
    simp only [redirectEntry]
    rw [← hlink, ← hsame]
    split
    · exact h.write (fun _ => rfl) (h.closed _ hown)
    · exact h

end Alike

theorem around_congr {out out' : Buf Nat} {x : Pixel} (hr : 1 ≤ x.1) (hc : 1 ≤ x.2)
    (h : ∀ y, Behind x y → out (idx width y) = out' (idx width y)) :
    around width out x = around width out' x := by
  have hA : Behind x (x.1 - 1, x.2 - 1) := Or.inl ⟨by simp only; omega, Or.inl (by simp only; omega)⟩
  have hB : Behind x (x.1 - 1, x.2) := Or.inl ⟨by simp only; omega, Or.inr (Or.inl rfl)⟩
  have hC : Behind x (x.1 - 1, x.2 + 1) := Or.inl ⟨by simp only; omega, Or.inr (Or.inr rfl)⟩
  have hD : Behind x (x.1, x.2 - 1) := Or.inr ⟨rfl, by simp only; omega⟩
  unfold around
  rw [h _ hA, h _ hB, h _ hC, h _ hD]

/-- Without the assertion a call is a plain scan and a redirect of its own labels. -/
theorem label_some {sh sh' : Shared w} (run : label input width b sh = some sh') :
    let s := (b.pixels width).foldl (scanPixel 9999 width input) ⟨sh.output, sh.blobs, b.startLabel⟩
    s.labelCounter < b.startLabel + maxBlobsPerThread ∧
      sh' = ⟨s.output,
        (upto b.startLabel (b.startLabel + maxBlobsPerThread)).foldl redirectUsed s.blobs⟩ := by
  unfold label at run
  obtain ⟨s, hs, rfl⟩ := Option.map_eq_some_iff.mp run
  have hloop := Fold.prefix_induction_option
    (P := fun pre (s : Scan w) => s = pre.foldl (scanPixel 9999 width input)
      ⟨sh.output, sh.blobs, b.startLabel⟩ ∧ s.labelCounter < b.startLabel + maxBlobsPerThread)
    _ _ s ⟨rfl, Nat.lt_add_of_pos_right (by decide)⟩
    (by
      rintro pre x post s s' - ⟨hs, hlt⟩ hx
      obtain ⟨rfl, hfits⟩ := labelPixel_some hx
      have hcount := (scanPixel_step 9999 width input s x).counter_le
      refine ⟨by rw [hs, List.foldl_append, List.foldl_cons, List.foldl_nil], ?_⟩
      by_cases hgrow : s.labelCounter < (scanPixel 9999 width input s x).labelCounter
      · exact hfits hgrow
      · omega) hs
  obtain ⟨rfl, hlt⟩ := hloop
  exact ⟨hlt, rfl⟩

/-- The block of a call, as long as no motion reaches into it from above. -/
def block (hb : b ∈ bands) (quiet : SeamsQuiet input width) {output : Buf Nat}
    (clear : Clear input width output) : Pass width input output where
  pixels := b.pixels width
  on := fun p => p ∈ b.pixels width ∧ input (idx width p) > 0
  sorted := pixels_sorted width b
  within := by
    intro p hp
    have := inside_of_mem hb hp
    unfold Inside at this
    omega
  on_iff := fun _ => Iff.rfl
  quiet := by
    intro x hx hon y hbe hy
    have hxi := inside_of_mem hb hx
    have hxm : Moving input width labelledHeight x := ⟨hxi, hon.2⟩
    have hcol := hbe.near_col
    unfold Inside at hxi
    refine clear y (by omega) (fun hym => ?_)
    -- a moving pixel outside the block lies in the row above it
    have hrows : ¬InRows b y := fun hr => hy (mem_of_inRows hym.1 hr)
    have hxr := (mem_pixels.mp hx).1
    have hyi := hym.1
    unfold Inside at hyi
    unfold InRows at hrows hxr
    have hrow := hbe.near_row
    have hseam : x.1 ∈ seams := by
      have hall : ∀ b ∈ bands, b.startRow = 1 ∨ b.startRow ∈ seams := by decide
      have hx1 : x.1 = b.startRow := by omega
      rw [hx1]
      exact (hall b hb).resolve_left (by omega)
    unfold Behind at hbe
    exact quiet x y hseam (hbe.resolve_right (by omega)) hxm hym

section turn

variable {out out' : Buf Nat} {P : Pass width input out} {Q : Pass width input out'}
  {pre post : List Pixel} {s t : Scan w} {x : Pixel}

/-- The same turn in two states a call cannot tell apart. -/
theorem Twin.step (hP : P.pixels = b.pixels width) (hQ : Q.pixels = b.pixels width)
    (hp : Progress P b.startLabel pre s) (hq : Progress Q b.startLabel pre t)
    (h : Twin width b s t) (hl : b.pixels width = pre ++ x :: post)
    (fit : (scanPixel 9999 width input s x).labelCounter ≤ 65536)
    (fit' : (scanPixel 9999 width input t x).labelCounter ≤ 65536)
    (own : s.labelCounter < b.startLabel + maxBlobsPerThread) :
    Twin width b (scanPixel 9999 width input s x) (scanPixel 9999 width input t x) ∧
      ∀ i ≠ 0, ¬Own b i → (scanPixel 9999 width input s x).blobs i = s.blobs i := by
  have r := hp.ready (hP.trans hl) fit
  have r' := hq.ready (hQ.trans hl) fit'
  have hc : Own b s.labelCounter := ⟨hp.positive.2, own⟩
  have houtput : ∀ v v' : Nat, v = v' → ∀ p ∈ b.pixels width,
      s.output.write (idx width x) v (idx width p) =
        t.output.write (idx width x) v' (idx width p) := by
    rintro v v' rfl p hp
    rw [Buf.write_apply, Buf.write_apply, h.output p hp]
  by_cases hon : P.on x
  · have hact := r.active.mp hon
    have hread : around width s.output x = around width t.output x := by
      refine around_congr r.row r.col.1 (fun y hy => ?_)
      by_cases hm : y ∈ b.pixels width
      · exact h.output y hm
      · have h1 : s.output (idx width y) = 0 := by
          by_contra hne
          exact hm (hP ▸ P.on_mem (r.reads hon y hy hne).2.1)
        have h2 : t.output (idx width y) = 0 := by
          by_contra hne
          exact hm (hQ ▸ Q.on_mem (r'.reads (r'.active.mpr hact) y hy hne).2.1)
        rw [h1, h2]
    have howns : ∀ l ∈ around width s.output x, l ≠ 0 → Own b l := by
      intro l hl h0
      obtain ⟨y, hy, rfl⟩ := (mem_around r.row r.col.1).mp hl
      have hby := r.reads hon y hy h0
      have h1 := hp.floor y ⟨r.seen y hby, hby.2.1⟩
      have h2 := r.above y hby
      exact ⟨h1, by omega⟩
    rcases scanPixel_on (u := 9999) (s := s) hact with ⟨hnone, he⟩ | ⟨m, hm, h0, hlt, hleast, he⟩
    · have he' := (scanPixel_on (u := 9999) (s := t) hact).resolve_right (by
        rintro ⟨m, hm, h0, hlt, _⟩
        have := hnone m (hread ▸ hm) h0
        omega)
      rw [he, he'.2]
      refine ⟨⟨by rw [h.counter], houtput _ _ (by rw [h.counter]), ?_⟩, ?_⟩
      · rw [← h.counter]
        refine h.blobs.write (fun hi => ?_) (Or.inr hc)
        rw [h.blobs.same _ hi]
      · intro i _ hi
        exact Buf.write_other _ _ (fun hic => hi (hic ▸ hc))
    · obtain ⟨m', hm', h0', hlt', hleast', he'⟩ :=
        (scanPixel_on (u := 9999) (s := t) hact).resolve_left (by
          rintro ⟨hnone, _⟩
          have := hnone m (hread ▸ hm) h0
          omega)
      obtain rfl : m = m' := by
        have h1 := hleast m' (hread ▸ hm') h0'
        have h2 := hleast' m (hread ▸ hm) h0
        omega
      have hown := howns m hm h0
      rw [he, he', ← hread]
      refine ⟨⟨h.counter, houtput _ _ rfl, ?_⟩, ?_⟩
      · refine (h.blobs.write (fun hi => ?_) ?_).linkAll hown _
        · rw [h.blobs.same _ hi]
        · exact h.blobs.closed m hown
      · intro i hi0 hi
        simp only
        have him : i ≠ m := by
          rintro rfl
          exact hi hown
        rw [linkAll_other (Or.inr (fun hmem => hi (howns i hmem hi0))), Buf.write_other _ _ him]
  · have hoff : ¬input (idx width x) > 0 := fun ha => hon (r.active.mpr ha)
    rw [scanPixel_off hoff, scanPixel_off hoff]
    exact ⟨⟨h.counter, houtput _ _ rfl, h.blobs⟩, fun _ _ _ => rfl⟩

end turn

/-- A call that finds its labels unused and nothing labelled but motion does what it
does alone, and leaves the rest as it is. -/
theorem label_alone (hb : b ∈ bands) (quiet : SeamsQuiet input width) {sh sh' : Shared w}
    (clear : Clear input width sh.output)
    (unlabelled : ∀ p ∈ b.pixels width, sh.output (idx width p) = 0)
    (unused : ∀ i, Own b i → sh.blobs i = Blob.zero)
    (run : label input width b sh = some sh') :
    (∀ p ∈ b.pixels width, sh'.output (idx width p) = (alone w width input b).output (idx width p)) ∧
    (∀ i, Own b i → sh'.blobs i = (alone w width input b).blobs i) ∧
    (∀ i, (∀ p ∈ b.pixels width, i ≠ idx width p) → sh'.output i = sh.output i) ∧
    (∀ i ≠ 0, ¬Own b i → sh'.blobs i = sh.blobs i) ∧
    Clear input width sh'.output := by
  obtain ⟨hlt, rfl⟩ := label_some run
  have hrange := bands_range hb
  let P : Pass width input sh.output := block hb quiet clear
  let Q : Pass width input (Buf.all 0) := block hb quiet (fun _ _ _ => rfl)
  have hloop := Fold.prefix_related
    (R := fun pre (s t : Scan w) => s.labelCounter < b.startLabel + maxBlobsPerThread →
      Progress P b.startLabel pre s ∧ Progress Q b.startLabel pre t ∧ Twin width b s t ∧
        ∀ i ≠ 0, ¬Own b i → s.blobs i = sh.blobs i)
    (f := scanPixel 9999 width input) (g := scanPixel 9999 width input) (b.pixels width)
    ⟨sh.output, sh.blobs, b.startLabel⟩ ⟨Buf.all 0, Buf.all Blob.zero, b.startLabel⟩
    (fun _ => ⟨Progress.start P hrange.2.2.2.1 _, Progress.start Q hrange.2.2.2.1 _,
      ⟨rfl, unlabelled, ⟨unused, fun i hi => Or.inl (by rw [unused i hi]; rfl)⟩⟩,
      fun _ _ _ => rfl⟩)
    (by
      intro pre x post s t hl ih hfit
      have hcount := (scanPixel_step 9999 width input s x).counter_le
      obtain ⟨hp, hq, ht, hkeep⟩ := ih (by omega)
      have hcount' := (scanPixel_step 9999 width input t x).counter_le_succ
      have h1 := ht.counter
      unfold maxBlobsPerThread at *
      obtain ⟨ht', hkeep'⟩ := ht.step rfl rfl hp hq hl (by omega) (by omega) (by
        unfold maxBlobsPerThread
        omega)
      exact ⟨hp.step hl (by omega), hq.step hl (by omega), ht',
        fun i h0 hi => (hkeep' i h0 hi).trans (hkeep i h0 hi)⟩)
  obtain ⟨hp, hq, ht, hkeep⟩ := hloop hlt
  have hother : ∀ i, ¬Own b i → ∀ t : Table w,
      (upto b.startLabel (b.startLabel + maxBlobsPerThread)).foldl redirectUsed t i = t i := by
    intro i hi t
    refine Fold.keeps (g := fun t : Table w => t i) _ t (fun j hj t => ?_)
    refine redirectUsed_keeps t (Or.inr ?_)
    rintro rfl
    exact hi (mem_upto.mp hj)
  have halike := Fold.related (R := Alike b) (f := redirectUsed) (g := redirectUsed)
    (upto b.startLabel (b.startLabel + maxBlobsPerThread)) _ _ ht.blobs
    (fun i hi s t hst => hst.redirect (mem_upto.mp hi))
  refine ⟨ht.output, halike.same, hp.frame, ?_, ?_⟩
  · intro i h0 hi
    exact (hother i hi _).trans (hkeep i h0 hi)
  · intro p hp' hnot
    by_cases hm : p ∈ b.pixels width
    · refine (hp.scanned.zero p (by simpa using hm)).mpr (fun hon => hnot ?_)
      exact ⟨inside_of_mem hb hm, hon.2⟩
    · refine (hp.frame _ (fun q hq he => ?_)).trans (clear p hp' hnot)
      have hqc := (mem_pixels.mp hq).2
      exact hm (idx_inj hp' (by omega) he ▸ hq)

/-- What is known of the state once the calls of some bands have run. -/
structure Apart (input : Buf UInt8) (width : Nat) (done : List Band) (sh : Shared w) : Prop where
  output : ∀ b ∈ done, ∀ p ∈ b.pixels width,
    sh.output (idx width p) = (alone w width input b).output (idx width p)
  blobs : ∀ b ∈ done, ∀ i, Own b i → sh.blobs i = (alone w width input b).blobs i
  unlabelled : ∀ i, (∀ b ∈ done, ∀ p ∈ b.pixels width, i ≠ idx width p) → sh.output i = 0
  unused : ∀ i ≠ 0, (∀ b ∈ done, ¬Own b i) → sh.blobs i = Blob.zero
  clear : Clear input width sh.output

/-- The calls one after another, each as if it were alone. -/
theorem runLabels_apart {order : List Band} (quiet : SeamsQuiet input width)
    (fair : order.Perm bands) {sh : Shared w}
    (run : runLabels input width order (Shared.fresh (Buf.all 0)) = some sh) :
    Apart input width order sh := by
  refine Fold.prefix_induction_option (P := Apart input width) order _ sh ?_ ?_ run
  · constructor <;> simp [Shared.fresh, Clear]
  · intro done b rest sh sh' hl h hcall
    subst hl
    have hmem : ∀ c ∈ done ++ b :: rest, c ∈ bands := fun c hc => fair.mem_iff.mp hc
    have hb : b ∈ bands := hmem b (by simp)
    have hnodup : (done ++ b :: rest).Nodup := fair.nodup_iff.mpr (by decide)
    rw [List.nodup_append] at hnodup
    have hne : ∀ c ∈ done, c ≠ b := fun c hc => hnodup.2.2 c hc b (by simp)
    -- two bands share neither a pixel nor a label
    have hpix : ∀ c ∈ done, ∀ p ∈ b.pixels width, ∀ q ∈ c.pixels width,
        idx width p ≠ idx width q := by
      intro c hc p hp q hq he
      have hpc := (mem_pixels.mp hp).2
      have hqc := (mem_pixels.mp hq).2
      obtain rfl : p = q := idx_inj (by omega) (by omega) he
      exact hne c hc (bands_disjoint (hmem c (by simp [hc])) hb (mem_pixels.mp hq).1
        (mem_pixels.mp hp).1)
    have hlab : ∀ c ∈ done, ∀ i, Own b i → ¬Own c i := by
      intro c hc i hi hi'
      unfold Own at hi hi'
      rcases bands_apart hb (hmem c (by simp [hc])) with he | he | he
      · exact hne c hc he.symm
      · omega
      · omega
    have hrange := bands_range hb
    obtain ⟨hout, hblobs, hframe, hkeep, hclear⟩ := label_alone hb quiet h.clear
      (fun p hp => h.unlabelled _ (fun c hc q hq => hpix c hc p hp q hq))
      (fun i hi => h.unused i (by unfold Own at hi; omega) (fun c hc => hlab c hc i hi)) hcall
    constructor
    · intro c hc p hp
      rcases List.mem_append.mp hc with hc | hc
      · rw [hframe _ (fun q hq he => hpix c hc q hq p hp he.symm)]
        exact h.output c hc p hp
      · rw [List.mem_singleton.mp hc] at hp ⊢
        exact hout p hp
    · intro c hc i hi
      rcases List.mem_append.mp hc with hc | hc
      · have hcr := bands_range (hmem c (by simp [hc]))
        rw [hkeep i (by unfold Own at hi; omega) (fun hi' => hlab c hc i hi' hi)]
        exact h.blobs c hc i hi
      · rw [List.mem_singleton.mp hc] at hi ⊢
        exact hblobs i hi
    · intro i hi
      rw [hframe i (fun p hp => hi b (by simp) p hp)]
      exact h.unlabelled i (fun c hc => hi c (by simp [hc]))
    · intro i h0 hi
      rw [hkeep i h0 (hi b (by simp))]
      exact h.unused i h0 (fun c hc => hi c (by simp [hc]))
    · exact hclear

/-- Looking back, a pixel gets no further up than its band is labelled before. -/
theorem parStart_ge {done rest : List Band} (fair : (done ++ b :: rest).Perm bands)
    (lowest : ∀ c ∈ done, b.startRow ≤ c.startRow) {p : Pixel} (hp : InRows b p) :
    b.startRow * width ≤ parStart input width (done ++ b :: rest) p := by
  obtain ⟨z, hd, he, -⟩ := origin_spec (parScene 0 input width (done ++ b :: rest)) Set.univ
    (idx width) p
  have hz : b.startRow ≤ z.1 := by
    clear he
    induction hd with
    | refl => exact hp.1
    | @tail y z _ hback ih =>
      have hrow := hback.2.2.1.near_row
      by_contra hlt
      have hend := (bands_range (fair.mem_iff.mp (by simp : b ∈ done ++ b :: rest))).2.1
      obtain ⟨c, hc, hin⟩ := (sees_iff fair (⟨ih, by omega⟩ : InRows b y)).mp hback.2.2.2
      unfold InRows at hin
      rcases List.mem_append.mp hc with hc | hc
      · have := lowest c hc
        omega
      · rw [List.mem_singleton.mp hc] at hin
        omega
  have hle : b.startRow * width ≤ z.1 * width := Nat.mul_le_mul_right _ hz
  have hstart : parStart input width (done ++ b :: rest) p = z.1 * width + z.2 := he.symm
  omega

theorem split_sorted {R : Band → Band → Prop} {order : List Band} (h : order.Pairwise R)
    (hb : b ∈ order) :
    ∃ done rest, order = done ++ b :: rest ∧ (∀ c ∈ done, R c b) ∧ ∀ c ∈ rest, R b c := by
  obtain ⟨done, rest, rfl⟩ := List.append_of_mem hb
  rw [List.pairwise_append, List.pairwise_cons] at h
  exact ⟨done, rest, rfl, fun c hc => h.2.2 c hc b (by simp), h.2.1.1⟩

/-- The calls' labels are those of the table. -/
theorem own_cover {i : Nat} (h1 : 1 ≤ i) (h2 : i ≤ 799) : ∃ b ∈ bands, Own b i := by
  obtain h | h | h | h : i < 201 ∨ (201 ≤ i ∧ i < 401) ∨ (401 ≤ i ∧ i < 601) ∨
      (601 ≤ i ∧ i < 801) := by omega
  · exact ⟨⟨1, 59, 1⟩, by decide, h1, h⟩
  · exact ⟨⟨60, 119, maxBlobsPerThread * 1 + 1⟩, by decide, h⟩
  · exact ⟨⟨120, 179, maxBlobsPerThread * 2 + 1⟩, by decide, h⟩
  · exact ⟨⟨180, 239, maxBlobsPerThread * 3 + 1⟩, by decide, h⟩

/-- In every order the calls leave the same image and the same entries. -/
def Independent (w : Nat) (input : Buf UInt8) (width : Nat) : Prop :=
  ∀ order order' : List Band, order.Perm bands → order'.Perm bands → ∀ sh sh' : Shared w,
    runLabels input width order (Shared.fresh (Buf.all 0)) = some sh →
    runLabels input width order' (Shared.fresh (Buf.all 0)) = some sh' →
    sh.output = sh'.output ∧ ∀ i, 1 ≤ i → i ≤ 799 → sh.blobs i = sh'.blobs i

/-- Motion across a seam shows in the labels: a pixel below takes over a label from
above, or starts one, as the calls come in one order or another. -/
theorem Independent.seamsQuiet
    (silent : ∀ order : List Band, order.Perm bands →
      (runLabels (w := w) input width order (Shared.fresh (Buf.all 0))).isSome)
    (hsame : Independent w input width) : SeamsQuiet input width := by
  intro x y hseam habove hx hy
  obtain ⟨b, hb, hrows⟩ := bands_cover hx.1
  obtain ⟨c, hc, hrows'⟩ := bands_cover hy.1
  have hfirst : x.1 = b.startRow := by
    have hall : ∀ b ∈ bands, ∀ r ∈ seams, b.startRow ≤ r → r ≤ b.endRow → r = b.startRow := by
      decide
    exact hall b hb x.1 hseam hrows.1 hrows.2
  have hup : y.1 < b.startRow := by
    unfold Above at habove
    omega
  -- from top to bottom the pixel takes over a label from above
  obtain ⟨sh, hsh⟩ := Option.isSome_iff_exists.mp (silent bands (List.Perm.refl _))
  obtain ⟨top, hrun⟩ := runLabels_run (List.Perm.refl _) hsh
  have hlt : sh.output (idx width x) < b.startLabel := by
    rw [hrun.label_lt_iff hb (by rw [live_par w input width (List.Perm.refl _)]; exact hx)]
    have hback : (parScene 0 input width bands).back x y := by
      obtain ⟨done, rest, he, _, hrest⟩ := split_sorted
        (by decide : bands.Pairwise (fun b c => b.startRow < c.startRow)) hb
      refine ⟨hx, hy, Or.inl habove, ?_⟩
      rw [he]
      refine (sees_iff (he ▸ List.Perm.refl _) hrows).mpr ⟨c, ?_, hrows'⟩
      rw [he] at hc
      rcases List.mem_append.mp hc with hc | hc
      · simp [hc]
      · rcases List.mem_cons.mp hc with rfl | hc
        · simp
        · have := hrest c hc
          unfold InRows at hrows'
          omega
    have hle : parStart input width bands x ≤ idx width y :=
      origin_le_of_descends (Set.mem_univ y) (Relation.ReflTransGen.single hback)
    have hcol := hy.1.2.2.2
    have hrow : (y.1 + 1) * width ≤ b.startRow * width := Nat.mul_le_mul_right _ hup
    rw [Nat.add_mul] at hrow
    unfold idx at hle
    omega
  -- from bottom to top it starts one
  obtain ⟨sh', hsh'⟩ := Option.isSome_iff_exists.mp (silent bands.reverse (List.reverse_perm _))
  obtain ⟨top', hrun'⟩ := runLabels_run (List.reverse_perm _) hsh'
  have hge : ¬sh'.output (idx width x) < b.startLabel := by
    rw [hrun'.label_lt_iff hb (by rw [live_par w input width (List.reverse_perm _)]; exact hx)]
    obtain ⟨done, rest, he, hdone, _⟩ := split_sorted
      (by decide : bands.reverse.Pairwise (fun b c => c.startRow < b.startRow))
      (List.mem_reverse.mpr hb)
    rw [he]
    have hle : b.startRow * width ≤ parStart input width (done ++ b :: rest) x :=
      parStart_ge (he ▸ List.reverse_perm _) (fun c hc => Nat.le_of_lt (hdone c hc)) hrows
    omega
  rw [(hsame _ _ (List.Perm.refl _) (List.reverse_perm _) sh sh' hsh hsh').1] at hlt
  exact hge hlt

/-- Where no motion reaches across a seam each call runs as if it were alone. -/
theorem SeamsQuiet.independent (quiet : SeamsQuiet input width) : Independent w input width := by
  intro order order' fair fair' sh sh' hsh hsh'
  have h := runLabels_apart quiet fair hsh
  have h' := runLabels_apart quiet fair' hsh'
  constructor
  · ext i
    by_cases hi : ∃ b ∈ bands, ∃ p ∈ b.pixels width, i = idx width p
    · obtain ⟨b, hb, p, hp, rfl⟩ := hi
      rw [h.output b (fair.mem_iff.mpr hb) p hp, h'.output b (fair'.mem_iff.mpr hb) p hp]
    · rw [h.unlabelled i (fun b hb p hp he => hi ⟨b, fair.mem_iff.mp hb, p, hp, he⟩),
        h'.unlabelled i (fun b hb p hp he => hi ⟨b, fair'.mem_iff.mp hb, p, hp, he⟩)]
  · intro i h1 h2
    obtain ⟨b, hb, hi⟩ := own_cover h1 h2
    rw [h.blobs b (fair.mem_iff.mpr hb) i hi, h'.blobs b (fair'.mem_iff.mpr hb) i hi]

/-- When the calls of `label` are independent: exactly when no motion reaches across
a seam. -/
theorem runLabels_independent_iff
    (silent : ∀ order : List Band, order.Perm bands →
      (runLabels (w := w) input width order (Shared.fresh (Buf.all 0))).isSome) :
    Independent w input width ↔ SeamsQuiet input width :=
  ⟨Independent.seamsQuiet silent, SeamsQuiet.independent⟩

/-- A pixel above the first seam and two below it, with dark rows between them. -/
def apart : Buf UInt8 := drawing 3 [(58, 1), (61, 1), (62, 1)]

/-- Nothing moves in the rows of the seams. -/
theorem apart_seams {p : Pixel} (hp : p.1 ∈ seams) : ¬Moving apart 3 labelledHeight p := by
  intro hm
  have hin := hm.1
  unfold Inside at hin
  have hall : ∀ row ∈ seams, ¬apart (idx 3 (row, 1)) > 0 := by decide
  have hcol : p = (p.1, 1) := Prod.ext rfl (by omega)
  exact hall p.1 hp (hcol ▸ hm.2)

theorem apart_few : (moving apart 3 labelledHeight).card ≤ maxBlobsPerThread :=
  (drawing_few _).trans (by decide)

theorem apart_quiet : SeamsQuiet apart 3 :=
  fun _ _ hp _ hm _ => apart_seams hp hm

theorem runLabels_independent_iff_apart : Independent 32 apart 3 :=
  (runLabels_independent_iff
    (fun order fair => runLabels_isSome 32 fair (roomy_of_narrow _ order (by decide)))).mpr
    apart_quiet

/-- Two pixels, one on each side of a seam. -/
def bridge : Buf UInt8 := drawing 3 [(59, 1), (60, 1)]

/-- Their labels depend on whose call comes first. -/
theorem bridge_depends :
    ¬∀ (w width : Nat) (input : Buf UInt8), 3 ≤ width →
      (∀ order : List Band, order.Perm bands →
        (runLabels (w := w) input width order (Shared.fresh (Buf.all 0))).isSome) →
      Independent w input width := by
  intro hall
  have hsilent : ∀ order : List Band, order.Perm bands →
      (runLabels (w := 32) bridge 3 order (Shared.fresh (Buf.all 0))).isSome :=
    fun order fair => runLabels_isSome 32 fair (roomy_of_narrow _ order (by decide))
  have hquiet := (hall 32 3 bridge (Nat.le_refl 3) hsilent).seamsQuiet hsilent
  exact hquiet (60, 1) (59, 1) (by decide) (by unfold Above; decide) (by decide) (by decide)

end Motion
