import Motion.Proofs.Pass
import Motion.Proofs.Tables
import Motion.Spec.Bands

/-! The calls of `label`, in any order. A band labelled after the one above it
takes over that band's labels; the invariant says what holds all the same. -/

namespace Motion
open Labelling

/-- The state of the threads' image and table once the pixels in `l` are visited;
`top` is what each band's counter has reached. -/
structure Run (input : Buf UInt8) (width : Nat) (order : List Band) (top : Band → Nat)
    (l : List Pixel) (output : Buf Nat) (blobs : Table w) : Prop where
  area : ∀ q ∈ l, Inside width labelledHeight q
  marked : Marked (parScene w input width order) l.toFinset (marks width output blobs)
  sound : Sound (parScene w input width order) l.toFinset (marks width output blobs)
  gathered : Gathered (parScene w input width order) l.toFinset (marks width output blobs)
  ordered : Ordered (parScene w input width order) 9999 Set.univ (idx width) l.toFinset
    (marks width output blobs)
  frame : ∀ i, (∀ p ∈ l, i ≠ idx width p) → output i = 0
  tops : ∀ b ∈ bands, b.startLabel ≤ top b ∧ top b < b.startLabel + maxBlobsPerThread
  /-- A label is taken in the band of the pixel it started at. -/
  home : ∀ q ∈ live (parScene w input width order) l.toFinset, ∃ b ∈ bands,
    b.startLabel ≤ output (idx width q) ∧ output (idx width q) < top b ∧
      IdxIn width b (parStart input width order q)
  unused : ∀ i ≠ 0, (∀ q ∈ live (parScene w input width order) l.toFinset,
    output (idx width q) ≠ i) → blobs i = Blob.zero
  /-- Slot 0 holds a label of the object it was last written for. -/
  spilled : (lastSpill input width order l = none → (blobs 0).label = 0) ∧
    ∀ z, lastSpill input width order l = some z →
      ∃ q ∈ live (parScene w input width order) l.toFinset,
        output (idx width q) = (blobs 0).label ∧
          Labelling.Joined (parScene w input width order) l.toFinset q z

variable {w width : Nat} {input : Buf UInt8} {order done rest : List Band} {b : Band}
  {top : Band → Nat} {l : List Pixel} {x q : Pixel} {s s' : Scan w}

theorem parStart_eq (w : Nat) (input : Buf UInt8) (width : Nat) (order : List Band) (p : Pixel) :
    origin (parScene w input width order) Set.univ (idx width) p =
      parStart input width order p := rfl

theorem par_back_idx (h : (parScene w input width order).back x q) :
    idx width q < idx width x := by
  have hx := h.1.1
  have hq := h.2.1.1
  unfold Inside at hx hq
  exact (before_iff_idx (by omega) (by omega)).mp h.2.2.1.before

/-- A pixel that takes a label is its own start. -/
theorem TakesLabel.start (h : TakesLabel input width order q) :
    parStart input width order q = idx width q :=
  origin_of_fresh (fun y hy => absurd hy (h.2 y))

/-- A pixel that looks back at one pixel only has its start. -/
theorem parStart_only {y : Pixel} (hy : (parScene 0 input width order).back q y)
    (only : ∀ z, (parScene 0 input width order).back q z → z = y) :
    parStart input width order q = parStart input width order y :=
  origin_of_join (fun _ _ hb => par_back_idx hb) hy ⟨y, Set.mem_univ y, Relation.ReflTransGen.refl⟩
    (fun z hz _ => Nat.le_of_eq (by rw [only z hz]))

theorem idxIn_of_inRows (hc : q.2 < width) (h : InRows b q) : IdxIn width b (idx width q) := by
  unfold InRows at h
  have h1 : b.startRow * width ≤ q.1 * width := Nat.mul_le_mul_right _ h.1
  have h2 : (q.1 + 1) * width ≤ (b.endRow + 1) * width := Nat.mul_le_mul_right _ (by omega)
  rw [Nat.add_mul] at h2
  unfold IdxIn idx
  omega

/-- A turn of `label`'s loop that does not run into the assertion. -/
theorem labelPixel_some {start : Nat} (h : labelPixel width input start s x = some s') :
    s' = scanPixel 9999 width input s x ∧
      (s.labelCounter < s'.labelCounter → s'.labelCounter < start + maxBlobsPerThread) := by
  simp only [labelPixel] at h
  split at h
  · cases h
  · rename_i hn
    cases h
    exact ⟨rfl, fun hlt => by omega⟩

namespace Run

/-- A pixel's start is a visited pixel. -/
theorem start_mem (h : Run input width order top l s.output s.blobs) {y : Pixel}
    (hy : y ∈ live (parScene w input width order) l.toFinset) :
    ∃ z ∈ l, idx width z = parStart input width order y := by
  obtain ⟨z, hd, he, _⟩ := origin_spec (parScene w input width order) Set.univ (idx width) y
  obtain ⟨hz, _⟩ := hd.joined h.marked.closed hy
  exact ⟨z, by simpa using hz.1, he⟩

theorem col_lt (h : Run input width order top l s.output s.blobs) {y : Pixel} (hy : y ∈ l) :
    y.2 < width := by
  have := h.area y hy
  unfold Inside at this
  omega

/-- What the turn of pixel `x` of band `b` finds. -/
structure Turn (h : Run input width order top l s.output s.blobs) (b : Band) (x : Pixel) :
    Prop where
  band : b ∈ bands
  mem : x ∈ b.pixels width
  new : x ∉ l
  counter : top b = s.labelCounter
  visited : ∀ y, Inside width labelledHeight y → Behind x y → (y ∈ l ↔ sees order x y)
  before : ∀ y ∈ l, InRows b y → Before y x

section turn

variable {h : Run input width order top l s.output s.blobs} (t : Turn h b x)

include t

/-- The labels of a band so far, and those of the bands above, lie below its
counter; those of the bands below lie above all it can take. -/
theorem Turn.place {y : Pixel}
    (hy : y ∈ live (parScene w input width order) l.toFinset) :
    (s.output (idx width y) < s.labelCounter ↔ parStart input width order y < idx width x) ∧
    (s.labelCounter < s.output (idx width y) ↔ idx width x < parStart input width order y) := by
  have hx := mem_pixels.mp t.mem
  have hxi : IdxIn width b (idx width x) := idxIn_of_inRows (by omega) hx.1
  have htop := h.tops b t.band
  rw [t.counter] at htop
  obtain ⟨b', hb', hlo, hhi, hin⟩ := h.home y hy
  have htop' := h.tops b' hb'
  unfold IdxIn at hin hxi
  rcases bands_apart t.band hb' with rfl | hap | hap
  · rw [t.counter] at hhi
    -- the label started at a pixel of this band, which came before
    obtain ⟨z, hzl, he⟩ := h.start_mem hy
    have hza := h.area z hzl
    unfold Inside at hza
    have hrows : InRows b z := by
      rw [← he] at hin
      unfold idx at hin
      constructor
      · by_contra hlt
        have : (z.1 + 1) * width ≤ b.startRow * width := Nat.mul_le_mul_right _ (by omega)
        rw [Nat.add_mul] at this
        omega
      · by_contra hlt
        have : (b.endRow + 1) * width ≤ z.1 * width := Nat.mul_le_mul_right _ (by omega)
        omega
    have hb : idx width z < idx width x :=
      (before_iff_idx (by omega) (by omega)).mp (t.before z hzl hrows)
    rw [he] at hb
    exact ⟨iff_of_true hhi hb, iff_of_false (by omega) (by omega)⟩
  · have : (b.endRow + 1) * width ≤ b'.startRow * width := Nat.mul_le_mul_right _ (by omega)
    exact ⟨iff_of_false (by omega) (by omega), iff_of_true (by omega) (by omega)⟩
  · have : (b'.endRow + 1) * width ≤ b.startRow * width := Nat.mul_le_mul_right _ (by omega)
    exact ⟨iff_of_true (by omega) (by omega), iff_of_false (by omega) (by omega)⟩

theorem Turn.ready : Ready (Moving input width labelledHeight) (sees order) 9999 width input
    l.toFinset s x := by
  have hx := mem_pixels.mp t.mem
  have hin := inside_of_mem t.band t.mem
  have hin' := hin
  unfold Inside at hin'
  have hrange := bands_range t.band
  have htop := h.tops b t.band
  rw [t.counter] at htop
  have hback : ∀ y, (parScene w input width order).back x y → y ∈ l := fun y hy =>
    (t.visited y hy.2.1.1 hy.2.2.1).mpr hy.2.2.2
  have hsmall : ∀ y ∈ live (parScene w input width order) l.toFinset,
      s.output (idx width y) < 65536 := by
    intro y hy
    obtain ⟨b', hb', _, hhi, _⟩ := h.home y hy
    have := h.tops b' hb'
    have := bands_range hb'
    unfold maxBlobsPerThread at *
    omega
  constructor
  · exact hin.1
  · omega
  · intro y hy
    exact h.col_lt (by simpa using hy)
  · simpa using t.new
  · exact ⟨fun hm => hm.2, fun ha => ⟨hin, ha⟩⟩
  · intro hon y hb hne
    have hnear := hb.near_col
    obtain ⟨p, hp, he⟩ : ∃ p ∈ l, idx width y = idx width p := by
      by_contra hnone
      exact hne (h.frame _ (fun p hp he => hnone ⟨p, hp, he⟩))
    obtain rfl : y = p := idx_inj (by omega) (h.col_lt hp) he
    have hy : Moving input width labelledHeight y := by
      by_contra hn
      exact hne ((h.marked.zero y (by simpa using hp)).mpr hn)
    exact ⟨hon, hy, hb, (t.visited y hy.1 hb).mp hp⟩
  · intro y hy
    simpa using hback y hy
  · omega
  · intro _ _
    unfold maxBlobsPerThread at *
    omega
  · intro y hy hon
    exact hsmall y ⟨hy, hon⟩
  · intro y hy he
    by_cases hon : Moving input width labelledHeight y
    · -- it would have started at the pixel itself, which is new
      have hplace := t.place ⟨hy, hon⟩
      obtain ⟨z, hz, hzs⟩ := h.start_mem ⟨hy, hon⟩
      have hzx : z = x := idx_inj (h.col_lt hz) (by omega) (by omega)
      exact t.new (hzx ▸ hz)
    · have := (h.marked.zero y hy).mpr hon
      have h0 : s.output (idx width y) = 0 := this
      omega
  · intro y hy
    have hyl : y ∈ live (parScene w input width order) l.toFinset :=
      ⟨by simpa using hback y hy, hy.2.1⟩
    rw [(t.place hyl).1]
    exact Nat.lt_of_le_of_lt (origin_le (fun p q hb => par_back_idx hb) y) (par_back_idx hy)

/-- All that the turn can be: nothing, a label taken because no label is seen, or
the least label seen taken over. -/
theorem Turn.cases :
    (¬Moving input width labelledHeight x ∧
      scanPixel 9999 width input s x = { s with output := s.output.write (idx width x) 0 }) ∨
    (Moving input width labelledHeight x ∧ (∀ y, ¬(parScene w input width order).back x y) ∧
      scanPixel 9999 width input s x =
        { output := s.output.write (idx width x) (ushort s.labelCounter)
          blobs := s.blobs.write s.labelCounter ((s.blobs s.labelCounter).start s.labelCounter x)
          labelCounter := s.labelCounter + 1 }) ∨
    ∃ y, (parScene w input width order).back x y ∧
      scanPixel 9999 width input s x = { s with
        output := s.output.write (idx width x) (ushort (s.output (idx width y)))
        blobs := linkAll (s.blobs.write (s.output (idx width y))
            ((s.blobs (s.output (idx width y))).grow x))
          (s.output (idx width y)) (around width s.output x) } := by
  have r := t.ready
  by_cases hon : Moving input width labelledHeight x
  · rcases scanPixel_on (u := 9999) (s := s) (r.active.mp hon) with
      ⟨hnone, he⟩ | ⟨m, hm, h0, _, _, he⟩
    · refine Or.inr (Or.inl ⟨hon, fun y hy => ?_, he⟩)
      have hyl : y ∈ live (parScene w input width order) l.toFinset := ⟨r.seen y hy, hy.2.1⟩
      obtain ⟨b', hb', hlo, hhi, _⟩ := h.home y hyl
      have htop := h.tops b' hb'
      have hrange := bands_range hb'
      have := hnone _ ((mem_around r.row r.col.1).mpr ⟨y, hy.2.2.1, rfl⟩) (by omega)
      unfold maxBlobsPerThread at *
      omega
    · obtain ⟨y, hb, rfl⟩ := (mem_around r.row r.col.1).mp hm
      exact Or.inr (Or.inr ⟨y, r.reads hon y hb h0, he⟩)
  · exact Or.inl ⟨hon, scanPixel_off (fun ha => hon (r.active.mpr ha))⟩

/-- A label read is one in use, or 0 from a pixel that is not seen. -/
theorem Turn.read_iff (hon : Moving input width labelledHeight x) {k : Nat} (h0 : k ≠ 0) :
    k ∈ around width s.output x ↔
      ∃ y, (parScene w input width order).back x y ∧ s.output (idx width y) = k := by
  have r := t.ready
  rw [mem_around r.row r.col.1]
  constructor
  · rintro ⟨y, hb, rfl⟩
    exact ⟨y, r.reads hon y hb h0, rfl⟩
  · rintro ⟨y, hy, he⟩
    exact ⟨y, hy.2.2.1, he⟩

theorem Turn.zero_read_iff (hon : Moving input width labelledHeight x) :
    0 ∈ around width s.output x ↔
      ∃ y, Behind x y ∧ ¬(parScene w input width order).back x y := by
  have r := t.ready
  rw [mem_around r.row r.col.1]
  constructor
  · rintro ⟨y, hb, he⟩
    exact ⟨y, hb, fun hy => h.marked.nonzero (r.seen y hy) hy.2.1 he⟩
  · rintro ⟨y, hb, hy⟩
    refine ⟨y, hb, ?_⟩
    by_contra hne
    exact hy (r.reads hon y hb hne)

/-- An unused entry stays as it is, unless its label is taken now. -/
theorem Turn.unused_kept {i : Nat} (h0 : i ≠ 0)
    (hi : ∀ y ∈ live (parScene w input width order) l.toFinset, s.output (idx width y) ≠ i)
    (hnew : (scanPixel 9999 width input s x).labelCounter = s.labelCounter ∨ i ≠ s.labelCounter) :
    (scanPixel 9999 width input s x).blobs i = s.blobs i := by
  have r := t.ready
  rcases t.cases with ⟨_, he⟩ | ⟨_, _, he⟩ | ⟨y, hy, he⟩
  · rw [he]
  · rw [he] at hnew ⊢
    exact Buf.write_other _ _ (hnew.resolve_left (by simp))
  · have hnot : i ∉ around width s.output x := by
      intro hk
      obtain ⟨z, hz, hzi⟩ := (t.read_iff hy.1 h0).mp hk
      exact hi z ⟨r.seen z hz, hz.2.1⟩ hzi
    rw [he]
    simp only
    rw [linkAll_other (Or.inr hnot), Buf.write_other]
    exact (hi y ⟨r.seen y hy, hy.2.1⟩).symm

/-- Slot 0 is written where the label taken over spills, and only there. -/
theorem Turn.slot_zero :
    (Spills input width order x → ((scanPixel 9999 width input s x).blobs 0).label =
      (scanPixel 9999 width input s x).output (idx width x)) ∧
    (¬Spills input width order x →
      ((scanPixel 9999 width input s x).blobs 0).label = (s.blobs 0).label) := by
  have r := t.ready
  rcases t.cases with ⟨hoff, he⟩ | ⟨_, hnone, he⟩ | ⟨y, hy, he⟩
  · refine ⟨?_, fun _ => by rw [he]⟩
    rintro ⟨⟨y, hy⟩, _⟩
    exact absurd hy.1 hoff
  · refine ⟨?_, fun _ => ?_⟩
    · rintro ⟨⟨y, hy⟩, _⟩
      exact absurd hy (hnone y)
    · rw [he]
      simp only
      rw [Buf.write_other _ _ (Ne.symm r.positive)]
  · have hyl := r.seen y hy
    have hm : s.output (idx width y) ≠ 0 := h.marked.nonzero hyl hy.2.1
    have hsmall := r.small y hyl hy.2.1
    have hlab : (scanPixel 9999 width input s x).output (idx width x) =
        s.output (idx width y) := by
      rw [he]
      exact (Buf.write_same _ _ _).trans (Nat.mod_eq_of_lt hsmall)
    rw [hlab, he]
    simp only
    constructor
    · rintro ⟨_, hz⟩
      exact linkAll_label ((t.zero_read_iff hy.1).mpr hz) hm.symm
    · intro hn
      rw [linkAll_other, Buf.write_other _ _ hm.symm]
      refine Or.inr (fun hz => hn ⟨⟨y, hy⟩, (t.zero_read_iff hy.1).mp hz⟩)

theorem Turn.ordered_after : Ordered (parScene w input width order) 9999 Set.univ (idx width)
    (l ++ [x]).toFinset (marks width (scanPixel 9999 width input s x).output
      (scanPixel 9999 width input s x).blobs) := by
  have r := t.ready
  have hcol := (mem_pixels.mp t.mem).2
  rw [toFinset_concat]
  refine (r.visit h.marked).ordered h.ordered r.seen (fun p q hb => par_back_idx hb) ?_
  intro hon hnone
  have hlab : (scanPixel 9999 width input s x).output (idx width x) = s.labelCounter := by
    rcases r.turn h.marked with ⟨hoff, _⟩ | ⟨_, _, _, hl⟩ | ⟨y, hy, hlt, _⟩
    · exact absurd hon hoff
    · exact hl
    · have hge : 9999 ≤ s.output (idx width y) := hnone y hy
      omega
  have hlab' : (marks width (scanPixel 9999 width input s x).output
      (scanPixel 9999 width input s x).blobs).lab x = s.labelCounter := hlab
  have hsmall := h.tops b t.band
  have hrange := bands_range t.band
  rw [t.counter] at hsmall
  rw [hlab']
  refine ⟨iff_of_true ?_ trivial, fun y hy => t.place hy⟩
  unfold maxBlobsPerThread at *
  omega

open Classical in
/-- The counter counts the labels taken. -/
theorem Turn.counter_after : (scanPixel 9999 width input s x).labelCounter =
    s.labelCounter + ([x].filter (TakesLabel input width order)).length := by
  rcases t.cases with ⟨hoff, he⟩ | ⟨hon, hnone, he⟩ | ⟨y, hy, he⟩
  · have hn : ¬TakesLabel input width order x := fun htake => hoff htake.1
    simp [he, hn]
  · have hp : TakesLabel input width order x := ⟨hon, hnone⟩
    simp [he, hp]
  · have hn : ¬TakesLabel input width order x := fun htake => htake.2 y hy
    simp [he, hn]

theorem Turn.home_after (fits : (scanPixel 9999 width input s x).labelCounter <
      b.startLabel + maxBlobsPerThread) :
    ∀ q ∈ live (parScene w input width order) (l ++ [x]).toFinset, ∃ b' ∈ bands,
      b'.startLabel ≤ (scanPixel 9999 width input s x).output (idx width q) ∧
      (scanPixel 9999 width input s x).output (idx width q) <
        Function.update top b (scanPixel 9999 width input s x).labelCounter b' ∧
      IdxIn width b' (parStart input width order q) := by
  have r := t.ready
  have v := r.visit h.marked
  have hcol := (mem_pixels.mp t.mem).2
  have hgrow : ∀ b', top b' ≤
      Function.update top b (scanPixel 9999 width input s x).labelCounter b' := by
    intro b'
    by_cases hb : b' = b
    · rw [hb, Function.update_self, t.counter]
      exact (scanPixel_step 9999 width input s x).counter_le
    · rw [Function.update_of_ne hb]
  have old : ∀ q ∈ live (parScene w input width order) l.toFinset, ∃ b' ∈ bands,
      b'.startLabel ≤ s.output (idx width q) ∧ s.output (idx width q) <
        Function.update top b (scanPixel 9999 width input s x).labelCounter b' ∧
      IdxIn width b' (parStart input width order q) := by
    intro q hq
    obtain ⟨b', hb', hlo, hhi, hin⟩ := h.home q hq
    exact ⟨b', hb', hlo, Nat.lt_of_lt_of_le hhi (hgrow b'), hin⟩
  have hxlive : Moving input width labelledHeight x →
      x ∈ live (parScene w input width order) (l ++ [x]).toFinset := fun hon => ⟨by simp, hon⟩
  have hqlive : ∀ q ∈ live (parScene w input width order) l.toFinset,
      q ∈ live (parScene w input width order) (l ++ [x]).toFinset :=
    fun q hq => ⟨by rw [toFinset_concat]; exact Finset.mem_insert_of_mem hq.1, hq.2⟩
  rintro q ⟨hq, hon⟩
  rw [toFinset_concat] at hq
  rcases Finset.mem_insert.mp hq with rfl | hq
  · rcases r.turn h.marked with ⟨hoff, _⟩ | ⟨_, hnone, hc, hl⟩ | ⟨y, hy, _, _, hl⟩
    · exact absurd hon hoff
    · -- a label of its own: the pixel is its start
      have hself : parStart input width order q = idx width q := by
        rw [← parStart_eq w]
        refine origin_of_fresh (fun y hy _ => ?_)
        have := hnone y hy
        have := r.small y (r.seen y hy) hy.2.1
        obtain ⟨b', hb', _, hhi, _⟩ := h.home y ⟨r.seen y hy, hy.2.1⟩
        have := h.tops b' hb'
        have := bands_range hb'
        unfold maxBlobsPerThread at *
        omega
      refine ⟨b, t.band, ?_, ?_, ?_⟩
      · have := h.tops b t.band
        rw [t.counter] at this
        omega
      · rw [Function.update_self]
        omega
      · rw [hself]
        exact idxIn_of_inRows (by omega) (mem_pixels.mp t.mem).1
    · -- a label taken over, and its start with it
      have hyl : y ∈ live (parScene w input width order) l.toFinset := ⟨r.seen y hy, hy.2.1⟩
      have hsame : parStart input width order q = parStart input width order y := by
        have heq := (t.ordered_after.lab_eq_iff (hxlive hon) (hqlive y hyl)).mp
          (hl.trans (v.keep y hyl.1).symm)
        exact heq
      rw [hl, hsame]
      exact old y hyl
  · have hkeep : (scanPixel 9999 width input s x).output (idx width q) =
        s.output (idx width q) := v.keep q hq
    rw [hkeep]
    exact old q ⟨hq, hon⟩

/-- One turn keeps all the invariant says. -/
theorem Turn.step (fits : (scanPixel 9999 width input s x).labelCounter <
      b.startLabel + maxBlobsPerThread) :
    Run input width order (Function.update top b (scanPixel 9999 width input s x).labelCounter)
      (l ++ [x]) (scanPixel 9999 width input s x).output
      (scanPixel 9999 width input s x).blobs := by
  have r := t.ready
  have v := r.visit h.marked
  have hlift : ∀ q ∈ live (parScene w input width order) l.toFinset,
      q ∈ live (parScene w input width order) (l ++ [x]).toFinset :=
    fun q hq => ⟨by rw [toFinset_concat]; exact Finset.mem_insert_of_mem hq.1, hq.2⟩
  have hcount := (scanPixel_step 9999 width input s x).counter_le
  constructor
  · intro q hq
    rcases List.mem_append.mp hq with hq | hq
    · exact h.area q hq
    · rw [List.mem_singleton.mp hq]
      exact inside_of_mem t.band t.mem
  · rw [toFinset_concat]
    exact v.marked h.marked r.new r.seen
  · rw [toFinset_concat]
    exact v.sound h.marked h.sound r.new r.seen
  · rw [toFinset_concat]
    exact v.gathered h.marked h.gathered r.new r.seen
  · exact t.ordered_after
  · intro i hi
    rw [(scanPixel_step 9999 width input s x).output_other (hi x (by simp))]
    exact h.frame i (fun p hp => hi p (List.mem_append_left _ hp))
  · intro b' hb'
    by_cases he : b' = b
    · rw [he, Function.update_self]
      have := h.tops b t.band
      rw [t.counter] at this
      omega
    · rw [Function.update_of_ne he]
      exact h.tops b' hb'
  · exact t.home_after fits
  · intro i h0 hi
    have hold : ∀ y ∈ live (parScene w input width order) l.toFinset,
        s.output (idx width y) ≠ i := by
      intro y hy
      have hkeep : (scanPixel 9999 width input s x).output (idx width y) =
          s.output (idx width y) := v.keep y hy.1
      rw [← hkeep]
      exact hi y (hlift y hy)
    rw [t.unused_kept h0 hold]
    · exact h.unused i h0 hold
    · rcases r.turn h.marked with ⟨_, hc, _⟩ | ⟨hon, _, _, hl⟩ | ⟨_, _, _, hc, _⟩
      · exact Or.inl hc
      · right
        rw [← hl]
        exact (hi x ⟨by simp, hon⟩).symm
      · exact Or.inl hc
  · have hslot := t.slot_zero
    have hjoin : ∀ {p q}, Labelling.Joined (parScene w input width order) l.toFinset p q →
        Labelling.Joined (parScene w input width order) (l ++ [x]).toFinset p q := by
      intro p q hj
      rw [toFinset_concat]
      exact hj.grow (Finset.subset_insert x _)
    by_cases hs : Spills input width order x
    · rw [lastSpill_concat_of hs]
      refine ⟨fun hnone => (Option.some_ne_none _ hnone).elim, ?_⟩
      intro z hz
      obtain rfl := Option.some.inj hz
      obtain ⟨⟨y, hy⟩, _⟩ := hs
      exact ⟨x, ⟨by simp, hy.1⟩, (hslot.1 ⟨⟨y, hy⟩, by assumption⟩).symm, Linked.refl⟩
    · rw [lastSpill_concat_of_not hs, hslot.2 hs]
      refine ⟨h.spilled.1, fun z hz => ?_⟩
      obtain ⟨q, hq, he, hj⟩ := h.spilled.2 z hz
      have hkeep : (scanPixel 9999 width input s x).output (idx width q) =
          s.output (idx width q) := v.keep q hq.1
      exact ⟨q, hlift q hq, by rw [hkeep, he], hjoin hj⟩

end turn

/-- A label lies below a band's where it started above the band. -/
theorem label_lt_iff {output : Buf Nat} {blobs : Table w}
    (h : Run input width order top l output blobs) (hb : b ∈ bands)
    (hq : q ∈ live (parScene w input width order) l.toFinset) :
    output (idx width q) < b.startLabel ↔
      parStart input width order q < b.startRow * width := by
  obtain ⟨b', hb', hlo, hhi, hin⟩ := h.home q hq
  have htop := h.tops b' hb'
  unfold IdxIn at hin
  rcases bands_apart hb hb' with rfl | hap | hap
  · exact iff_of_false (by omega) (by omega)
  · have : b.startRow * width ≤ b'.startRow * width :=
      Nat.mul_le_mul_right _ (by have := bands_range hb; omega)
    exact iff_of_false (by omega) (by omega)
  · have : (b'.endRow + 1) * width ≤ b.startRow * width := Nat.mul_le_mul_right _ (by omega)
    exact iff_of_true (by omega) (by omega)

/-- Nothing is labelled yet. -/
theorem start (input : Buf UInt8) (width : Nat) (order : List Band) :
    Run (w := w) input width order Band.startLabel [] (Buf.all 0) (Buf.all Blob.zero) where
  area := by simp
  marked := Marked.empty
  sound := by constructor <;> simp [live]
  gathered := by simp [Gathered]
  ordered := Ordered.empty
  frame := fun _ _ => rfl
  tops := fun b _ => ⟨Nat.le_refl _, Nat.lt_add_of_pos_right (by decide)⟩
  home := by simp [live]
  unused := fun _ _ _ => rfl
  spilled := by simp [lastSpill, Blob.zero]

/-- A redirect of a label's entry keeps all of it, too. -/
theorem redirect {output : Buf Nat} {blobs : Table w}
    (h : Run input width order top l output blobs) {i : Nat} (hi : i ≠ 0) :
    Run input width order top l output (redirectUsed blobs i) where
  area := h.area
  marked := h.marked.shorten h.sound (fun _ _ => rfl) (fun q _ => redirectUsed_label blobs i _)
  sound := h.sound.shorten (fun _ _ => rfl) (fun q _ => redirectUsed_label blobs i _)
  gathered := fun q hq hon =>
    (redirectUsed_same blobs [i] (output (idx width q))).describes (h.gathered q hq hon)
  ordered := ⟨h.ordered.low, h.ordered.order⟩
  frame := h.frame
  tops := h.tops
  home := h.home
  unused := by
    intro k h0 hk
    have hz := h.unused k h0 hk
    rw [redirectUsed_keeps blobs (Or.inl (by rw [hz]; rfl)), hz]
  spilled := by
    rw [redirectUsed_keeps blobs (Or.inr hi.symm)]
    exact h.spilled

/-- Every pixel of a band has its turn. -/
theorem turn {pre post : List Pixel} (fair : (done ++ b :: rest).Perm bands)
    (h : Run input width (done ++ b :: rest) top (done.flatMap (Band.pixels width) ++ pre)
      s.output s.blobs)
    (hcounter : top b = s.labelCounter) (hl : b.pixels width = pre ++ x :: post) :
    Turn h b x := by
  have hmem : ∀ c ∈ done ++ b :: rest, c ∈ bands := fun c hc => fair.mem_iff.mp hc
  have hb : b ∈ bands := hmem b (by simp)
  have hnodup : (done ++ b :: rest).Nodup := fair.nodup_iff.mpr (by decide)
  have hout : ∀ p, InRows b p → p ∉ done.flatMap (Band.pixels width) := by
    intro p hp hm
    obtain ⟨b', hb', hp'⟩ := List.mem_flatMap.mp hm
    have he := bands_disjoint hb (hmem b' (by simp [hb'])) hp (mem_pixels.mp hp').1
    rw [List.nodup_append] at hnodup
    exact hnodup.2.2 b' hb' b (by simp) he.symm
  have hxm : x ∈ b.pixels width := by simp [hl]
  have hsorted := pixels_sorted width b
  have hsub : ∀ p ∈ pre, p ∈ b.pixels width := fun p hp => by simp [hl, hp]
  constructor
  · exact hb
  · exact hxm
  · intro hm
    rcases List.mem_append.mp hm with hm | hm
    · exact hout x (mem_pixels.mp hxm).1 hm
    · exact not_mem_prefix hsorted hl hm
  · exact hcounter
  · intro y hy hbe
    rw [sees_iff fair (mem_pixels.mp hxm).1, List.mem_append, List.mem_flatMap]
    constructor
    · rintro (⟨b', hb', hyb⟩ | hyp)
      · exact ⟨b', by simp [hb'], (mem_pixels.mp hyb).1⟩
      · exact ⟨b, by simp, (mem_pixels.mp (hsub y hyp)).1⟩
    · rintro ⟨b', hb', hyr⟩
      rcases List.mem_append.mp hb' with hb' | hb'
      · exact Or.inl ⟨b', hb', mem_of_inRows hy hyr⟩
      · rw [List.mem_singleton.mp hb'] at hyr
        exact Or.inr ((mem_prefix_iff hsorted hl (mem_of_inRows hy hyr)).mpr hbe.before)
  · intro y hy hyr
    rcases List.mem_append.mp hy with hy | hy
    · exact absurd hy (hout y hyr)
    · exact (mem_prefix_iff hsorted hl (hsub y hy)).mp hy

open Classical in
/-- The scan of one call of `label` up to some pixel, after the bands in `done`. -/
theorem label_scan {sh : Shared w} {pre post : List Pixel}
    (fair : (done ++ b :: rest).Perm bands)
    (h : Run input width (done ++ b :: rest) top (done.flatMap (Band.pixels width))
      sh.output sh.blobs)
    (htop : top b = b.startLabel) (hpix : b.pixels width = pre ++ post)
    (run : pre.foldlM (labelPixel width input b.startLabel)
      ⟨sh.output, sh.blobs, b.startLabel⟩ = some s) :
    Run input width (done ++ b :: rest) (Function.update top b s.labelCounter)
        (done.flatMap (Band.pixels width) ++ pre) s.output s.blobs ∧
      s.labelCounter = b.startLabel +
        (pre.filter (TakesLabel input width (done ++ b :: rest))).length := by
  refine Fold.prefix_induction_option
    (P := fun pre (s : Scan w) => Run input width (done ++ b :: rest)
        (Function.update top b s.labelCounter) (done.flatMap (Band.pixels width) ++ pre)
        s.output s.blobs ∧
      s.labelCounter = b.startLabel +
        (pre.filter (TakesLabel input width (done ++ b :: rest))).length)
    pre ⟨sh.output, sh.blobs, b.startLabel⟩ s ?_ ?_ run
  · rw [← htop, Function.update_eq_self, List.append_nil]
    exact ⟨h, by simp⟩
  · rintro pre x mid s s' hpre ⟨ih, hcounter⟩ hx
    obtain ⟨rfl, hfits⟩ := labelPixel_some hx
    have hturn : Turn ih b x := ih.turn fair (Function.update_self _ _ _)
      (by simp [hpix, hpre] : b.pixels width = pre ++ x :: (mid ++ post))
    have htops := ih.tops b hturn.band
    rw [Function.update_self] at htops
    have hstep := hturn.step (by
      have := (scanPixel_step 9999 width input s x).counter_le
      by_cases hlt : s.labelCounter < (scanPixel 9999 width input s x).labelCounter
      · exact hfits hlt
      · omega)
    rw [Function.update_idem, List.append_assoc] at hstep
    refine ⟨hstep, ?_⟩
    rw [List.filter_append, List.length_append, ← Nat.add_assoc, ← hcounter]
    exact hturn.counter_after

/-- One call of `label`, after the bands in `done`. -/
theorem label_call {sh sh' : Shared w} (fair : (done ++ b :: rest).Perm bands)
    (h : Run input width (done ++ b :: rest) top (done.flatMap (Band.pixels width))
      sh.output sh.blobs)
    (htop : top b = b.startLabel) (run : label input width b sh = some sh') :
    Run input width (done ++ b :: rest)
      (Function.update top b (b.startLabel + labelsTaken input width (done ++ b :: rest) b))
      ((done ++ [b]).flatMap (Band.pixels width)) sh'.output sh'.blobs := by
  unfold label at run
  obtain ⟨s, hs, rfl⟩ := Option.map_eq_some_iff.mp run
  obtain ⟨hscan, hcounter⟩ := h.label_scan fair htop (List.append_nil _).symm hs
  have hcount : s.labelCounter = b.startLabel + labelsTaken input width (done ++ b :: rest) b :=
    hcounter
  rw [List.flatMap_append, List.flatMap_singleton, ← hcount]
  have hrange := bands_range (fair.mem_iff.mp (by simp : b ∈ done ++ b :: rest))
  exact Fold.invariant (P := fun t => Run input width (done ++ b :: rest)
    (Function.update top b s.labelCounter) _ s.output t) _ s.blobs hscan
    (fun i hi t ht => ht.redirect (by have := mem_upto.mp hi; omega))

end Run

/-- The state after the first calls of `label` in the order given. -/
theorem runLabels_prefix {sh : Shared w} (fair : (done ++ rest).Perm bands)
    (run : runLabels input width done (Shared.fresh (Buf.all 0)) = some sh) :
    ∃ top : Band → Nat, Run input width (done ++ rest) top (done.flatMap (Band.pixels width))
        sh.output sh.blobs ∧ (∀ b ∈ rest, top b = b.startLabel) ∧
      ∀ b ∈ done, top b = b.startLabel + labelsTaken input width (done ++ rest) b := by
  have hnodup : (done ++ rest).Nodup := fair.nodup_iff.mpr (by decide)
  have hloop := Fold.prefix_induction_option
    (P := fun pre (sh : Shared w) => ∃ top : Band → Nat,
      Run input width (done ++ rest) top (pre.flatMap (Band.pixels width)) sh.output sh.blobs ∧
      (∀ b ∈ done ++ rest, b ∉ pre → top b = b.startLabel) ∧
      ∀ b ∈ pre, top b = b.startLabel + labelsTaken input width (done ++ rest) b)
    done (Shared.fresh (Buf.all 0)) sh
    ⟨Band.startLabel, Run.start input width _, fun _ _ _ => rfl, fun _ hb => by simp at hb⟩
    (by
      rintro pre b post sh sh' hl ⟨top, h, htop, hcount⟩ hcall
      have hsplit : done ++ rest = pre ++ b :: (post ++ rest) := by simp [hl]
      have hnot : b ∉ pre := by
        rw [hsplit, List.nodup_append] at hnodup
        exact fun hm => hnodup.2.2 b hm b (by simp) rfl
      rw [hsplit] at h fair htop hcount ⊢
      refine ⟨_, h.label_call fair (htop b (by simp) hnot) hcall, fun b' hb' hn => ?_,
        fun b' hb' => ?_⟩
      · have hne : b' ≠ b := by
          rintro rfl
          exact hn (by simp)
        rw [Function.update_of_ne hne]
        exact htop b' hb' (fun hm => hn (by simp [hm]))
      · by_cases he : b' = b
        · rw [he, Function.update_self]
        · rw [Function.update_of_ne he]
          exact hcount b' ((List.mem_append.mp hb').resolve_right (by simpa using he))) run
  obtain ⟨top, h, htop, hcount⟩ := hloop
  refine ⟨top, h, fun b hb => htop b (by simp [hb]) (fun hm => ?_), hcount⟩
  rw [List.nodup_append] at hnodup
  exact hnodup.2.2 b hm b hb rfl

/-- The state after all of them, and what the counters have reached. -/
theorem runLabels_counts {sh : Shared w} (fair : order.Perm bands)
    (run : runLabels input width order (Shared.fresh (Buf.all 0)) = some sh) :
    ∃ top, Run input width order top (order.flatMap (Band.pixels width)) sh.output sh.blobs ∧
      ∀ b ∈ bands, top b = b.startLabel + labelsTaken input width order b := by
  have fair' := fair
  rw [← List.append_nil order] at fair'
  obtain ⟨top, h, _, hcount⟩ := runLabels_prefix fair' run
  rw [List.append_nil] at h hcount
  exact ⟨top, h, fun b hb => hcount b (fair.mem_iff.mpr hb)⟩

theorem runLabels_run {sh : Shared w} (fair : order.Perm bands)
    (run : runLabels input width order (Shared.fresh (Buf.all 0)) = some sh) :
    ∃ top, Run input width order top (order.flatMap (Band.pixels width)) sh.output sh.blobs := by
  obtain ⟨top, h, _⟩ := runLabels_counts fair run
  exact ⟨top, h⟩

/-- The assertion is silent when no band takes as many labels as it has. -/
theorem runLabels_isSome (w : Nat) (fair : order.Perm bands) (roomy : Roomy input width order) :
    (runLabels (w := w) input width order (Shared.fresh (Buf.all 0))).isSome := by
  classical
  refine Fold.option_isSome order _ ?_
  rintro done b rest sh rfl hdone
  obtain ⟨top, h, htop, _⟩ := runLabels_prefix fair hdone
  have hb : b ∈ bands := fair.mem_iff.mp (by simp)
  unfold label
  rw [Option.isSome_map]
  refine Fold.option_isSome _ _ ?_
  intro pre x post s hl hs
  obtain ⟨hrun, hcounter⟩ := h.label_scan fair (htop b (by simp)) hl hs
  have hafter := (hrun.turn fair (Function.update_self _ _ _) hl).counter_after
  -- the labels taken so far and here are among those the band takes
  have hroom := roomy b hb
  have hpix : b.pixels width = pre ++ ([x] ++ post) := hl
  rw [hpix, List.filter_append, List.filter_append, List.length_append, List.length_append] at hroom
  simp only [labelPixel]
  rw [if_neg (by omega)]
  rfl

/-- And only then. -/
theorem runLabels_isSome_iff (w : Nat) (fair : order.Perm bands) :
    (runLabels (w := w) input width order (Shared.fresh (Buf.all 0))).isSome ↔
      Roomy input width order := by
  refine ⟨fun hsome => ?_, runLabels_isSome w fair⟩
  obtain ⟨sh, hsh⟩ := Option.isSome_iff_exists.mp hsome
  obtain ⟨top, h, counts⟩ := runLabels_counts fair hsh
  intro b hb
  have htop := h.tops b hb
  have hcount := counts b hb
  unfold labelsTaken at hcount
  omega

theorem pixels_length (width : Nat) (b : Band) :
    (b.pixels width).length = (b.endRow + 1 - b.startRow) * (width - 1 - 1) := by
  simp [Band.pixels, raster, upto, List.length_flatMap]

/-- In a frame of few columns a band has fewer pixels than a thread has labels. -/
theorem roomy_of_narrow (input : Buf UInt8) (order : List Band) (narrow : width ≤ 5) :
    Roomy input width order := by
  classical
  intro b hb
  have hall : ∀ b ∈ bands, b.endRow + 1 - b.startRow ≤ 60 := by decide
  have hlen : (b.pixels width).length ≤ 60 * 3 := by
    rw [pixels_length]
    exact Nat.mul_le_mul (hall b hb) (by omega)
  have hle := List.length_filter_le (TakesLabel input width order) (b.pixels width)
  unfold maxBlobsPerThread
  omega

end Motion
