import Motion.Code.Threads
import Motion.Lib.Interleave
import Motion.Proofs.Closure

/-! The turns of the threads of `blob_detect_par`, in whatever order they come: what a turn
of a label thread does, and that the table stays closed. -/

namespace Motion

/-- The pixel a turn labels. -/
def Act.pixel : Act → Option Pixel
  | .label _ p => some p
  | _ => none

/-- The pixels some turns label, in their order. -/
def visitsOf (turns : List Act) : List Pixel := turns.filterMap Act.pixel

variable {w width height : Nat} {input : Buf UInt8} {labels stitches : List Act} {a : Act}
  {s s' : Machine w} {stack : Buf (Blob w)}

/-- The turns of the label threads, in any order, are those of the calls. -/
theorem labels_perm (hl : Interleave.Run (labelThreads width) labels) :
    labels.Perm (bands.flatMap (labelActs width)) :=
  hl.perm

theorem stitches_perm (hs : Interleave.Run (stitchThreads width) stitches) :
    stitches.Perm (seams.flatMap (stitchActs width)) :=
  hs.perm

theorem visitsOf_append (turns rest : List Act) :
    visitsOf (turns ++ rest) = visitsOf turns ++ visitsOf rest :=
  List.filterMap_append

theorem visitsOf_labelActs (width : Nat) (b : Band) :
    visitsOf (labelActs width b) = b.pixels width := by
  simp [visitsOf, labelActs, List.filterMap_map, Function.comp_def, Act.pixel]

theorem upto_append {a b c : Nat} (h : a ≤ b) (h' : b ≤ c) :
    upto a b ++ upto b c = upto a c := by
  unfold upto
  have hb : b = a + 1 * (b - a) := by omega
  have hc : c - a = (b - a) + (c - b) := by omega
  rw [hc, ← List.range'_append, ← hb]

theorem raster_append (rows rows' cols : List Nat) :
    raster (rows ++ rows') cols = raster rows cols ++ raster rows' cols :=
  List.flatMap_append

/-- Together the bands are the rows up to 239, from top to bottom. -/
theorem bands_pixels (width : Nat) :
    bands.flatMap (Band.pixels width) = interior width labelledHeight := by
  have h1 : upto 1 60 ++ upto 60 120 = upto 1 120 := upto_append (by decide) (by decide)
  have h2 : upto 1 120 ++ upto 120 180 = upto 1 180 := upto_append (by decide) (by decide)
  have h3 : upto 1 180 ++ upto 180 240 = upto 1 (labelledHeight - 1) :=
    upto_append (by decide) (by decide)
  unfold interior
  rw [← h3, ← h2, ← h1, raster_append, raster_append, raster_append]
  simp [bands, Band.pixels]

/-- Every pixel of the bands is labelled in one turn. -/
theorem visits_perm (hl : Interleave.Run (labelThreads width) labels) :
    (visitsOf labels).Perm (interior width labelledHeight) := by
  have hperm : (visitsOf labels).Perm (visitsOf (bands.flatMap (labelActs width))) :=
    (labels_perm hl).filterMap _
  have hcalls : visitsOf (bands.flatMap (labelActs width)) =
      bands.flatMap (Band.pixels width) := by
    unfold visitsOf
    rw [List.filterMap_flatMap]
    exact congrArg List.flatten (List.map_congr_left (fun b _ => visitsOf_labelActs width b))
  rwa [hcalls, bands_pixels] at hperm

theorem visits_nodup (hl : Interleave.Run (labelThreads width) labels) :
    (visitsOf labels).Nodup := by
  rw [(visits_perm hl).nodup_iff]
  refine (interior_sorted width labelledHeight).imp ?_
  rintro p _ hlt rfl
  exact Before.irrefl p hlt

theorem turns_declared (hl : Interleave.Run (labelThreads width) labels)
    (hs : Interleave.Run (stitchThreads width) stitches)
    (ha : a ∈ labels ++ stitches ++ collectActs width height) : a.Declared :=
  acts_declared (List.Perm.refl bands)
    ((((labels_perm hl).append (stitches_perm hs)).append_right _).mem_iff.mp ha)

/-- Those of the threads alone. -/
theorem threads_declared (hl : Interleave.Run (labelThreads width) labels)
    (hs : Interleave.Run (stitchThreads width) stitches) (ha : a ∈ labels ++ stitches) :
    a.Declared :=
  turns_declared hl hs (List.mem_append_left (collectActs width 0) ha)

/-- What the turn of a label thread at a pixel does. -/
theorem Machine.label_turn {b : Band} {p : Pixel}
    (hs : step input width s (.label b p) = some s') :
    s' = { s with
      output := (scanPixel 9999 width input ⟨s.output, s.blobs, s.labelCounter b⟩ p).output
      blobs := (scanPixel 9999 width input ⟨s.output, s.blobs, s.labelCounter b⟩ p).blobs
      labelCounter := Function.update s.labelCounter b
        (scanPixel 9999 width input ⟨s.output, s.blobs, s.labelCounter b⟩ p).labelCounter } ∧
    (s.labelCounter b <
        (scanPixel 9999 width input ⟨s.output, s.blobs, s.labelCounter b⟩ p).labelCounter →
      (scanPixel 9999 width input ⟨s.output, s.blobs, s.labelCounter b⟩ p).labelCounter <
        b.startLabel + maxBlobsPerThread) := by
  rw [step_label] at hs
  obtain ⟨t, ht, rfl⟩ := Option.map_eq_some_iff.mp hs
  obtain ⟨rfl, hfits⟩ := labelPixel_some ht
  exact ⟨rfl, hfits⟩

/-- A label about to be taken has not been. -/
theorem Closed.untaken {counter : Band → Nat} {output : Buf Nat} {blobs : Table w} {b : Band}
    (h : Closed counter output blobs) (hb : b ∈ bands) : ¬Allocated counter (counter b) := by
  rintro ⟨c, hc, hlo, hhi⟩
  have hcb := h.counters b hb
  have hcc := h.counters c hc
  rcases bands_apart hb hc with he | hap | hap
  · rw [he] at hhi
    omega
  · omega
  · omega

/-- Taking a label adds it to those taken. -/
theorem Closed.allocated_update {counter : Band → Nat} {output : Buf Nat} {blobs : Table w}
    {b : Band} {l : Nat} (h : Closed counter output blobs) (hb : b ∈ bands) :
    Allocated (Function.update counter b (counter b + 1)) l ↔
      Allocated counter l ∨ l = counter b := by
  unfold Allocated
  constructor
  · rintro ⟨c, hc, hlo, hhi⟩
    by_cases he : c = b
    · subst he
      rw [Function.update_self] at hhi
      by_cases hl : l = counter c
      · exact Or.inr hl
      · exact Or.inl ⟨c, hc, hlo, by omega⟩
    · rw [Function.update_of_ne he] at hhi
      exact Or.inl ⟨c, hc, hlo, hhi⟩
  · intro hor
    cases hor with
    | inl hold =>
      refine Allocated.mono (fun c _ => ?_) hold
      by_cases he : c = b
      · rw [he, Function.update_self]
        exact Nat.le_succ _
      · rw [Function.update_of_ne he]
    | inr hnew =>
      refine ⟨b, hb, hnew ▸ (h.counters b hb).1, ?_⟩
      rw [Function.update_self, hnew]
      exact Nat.lt_succ_self _

/-- The table is closed after any turns that are declared. -/
theorem closed_of_turns {turns : List Act} (hd : ∀ a ∈ turns, a.Declared)
    (run : turns.foldlM (step input width) (Machine.start stack (Buf.all 0)) = some s) :
    Closed s.labelCounter s.output s.blobs :=
  Fold.prefix_induction_option (P := fun _ (s : Machine w) =>
      Closed s.labelCounter s.output s.blobs) turns _ s Closed.start
    (fun pre a post t t' hl ht hs => Machine.step_closed ht (hd a (by simp [hl])) hs) run

/-- However the threads take their turns: of what a run has reached, every label in the image
is one a thread has taken, labels taken lead to labels taken, and the turn that follows uses
declared entries only. -/
theorem threads_closed {pre rest : List Act} (hl : Interleave.Run (labelThreads width) labels)
    (hs : Interleave.Run (stitchThreads width) stitches)
    (split : labels ++ stitches ++ collectActs width height = pre ++ rest)
    (run : pre.foldlM (step input width) (Machine.start stack (Buf.all 0)) = some s) :
    (∀ i, s.output i ≠ 0 → Allocated s.labelCounter (s.output i) ∧
      1 ≤ s.output i ∧ s.output i ≤ 799) ∧
    (∀ l, Allocated s.labelCounter l →
      Allocated s.labelCounter (links s.blobs l) ∧ links s.blobs l ≠ 0) ∧
    ∀ a s', rest.head? = some a → step input width s a = some s' →
      ∀ k ∈ uses input width s a, k < 804 := by
  have hdeclared : ∀ a ∈ pre ++ rest, a.Declared :=
    fun a ha => turns_declared hl hs (split ▸ ha)
  have hclosed := closed_of_turns (fun a ha => hdeclared a (List.mem_append_left _ ha)) run
  refine ⟨?_, ?_, ?_⟩
  · intro i h0
    have hlab := (hclosed.labels i).resolve_left h0
    have := hclosed.label_range hlab
    unfold maxBlobsPerThread at this
    exact ⟨hlab, by omega, by omega⟩
  · intro l hlab
    exact ⟨hclosed.follow hlab, hclosed.kept l hlab⟩
  · intro a s' hhead hstep
    apply Machine.uses_lt hclosed (hdeclared a _) hstep
    exact List.mem_append_right _ (List.mem_of_mem_head? hhead)

/-- The calls may be made one after another in any order. -/
theorem calls_run {order : List Band} (fair : order.Perm bands) :
    Interleave.Run (labelThreads width) (order.flatMap (labelActs width)) :=
  (Interleave.Run.one_by_one (order.map (labelActs width))).of_perm (fair.map _)

/-- In a frame of few columns they run through. -/
theorem calls_narrow {order : List Band} (fair : order.Perm bands) (w : Nat) (input : Buf UInt8)
    (narrow : width ≤ 5) (stack : Buf (Blob w)) :
    ∃ s, (order.flatMap (labelActs width)).foldlM (step input width)
      (Machine.start stack (Buf.all 0)) = some s := by
  obtain ⟨sh, hsh⟩ := Option.isSome_iff_exists.mp
    (runLabels_isSome w fair (roomy_of_narrow input order narrow))
  obtain ⟨c, hc⟩ := labels_run input width order (fair.nodup_iff.mpr (by decide))
    (Machine.start stack (Buf.all 0)) (fun _ _ => rfl)
  exact ⟨_, hc.trans (congrArg (Option.map _) hsh)⟩

theorem labels_narrow (w : Nat) (input : Buf UInt8) (narrow : width ≤ 5) (stack : Buf (Blob w)) :
    ∃ s, (labelThreads width).flatten.foldlM (step input width)
      (Machine.start stack (Buf.all 0)) = some s :=
  calls_narrow (List.Perm.refl bands) w input narrow stack

theorem threads_narrow (w : Nat) (input : Buf UInt8) (narrow : width ≤ 5)
    (stack : Buf (Blob w)) :
    ∃ s, ((labelThreads width).flatten ++ (stitchThreads width).flatten).foldlM
      (step input width) (Machine.start stack (Buf.all 0)) = some s := by
  obtain ⟨s, hs⟩ := labels_narrow w input narrow stack
  rw [List.foldlM_append, hs]
  exact ⟨_, stitches_run seams s⟩

theorem blobDetectThreads_narrow (narrow : width ≤ 5) (stack : Buf (Blob w)) (biggest : Blob w)
    (input : Buf UInt8) (height : Nat) :
    ∃ d, blobDetectThreads (labelThreads width).flatten (stitchThreads width).flatten stack
      biggest (Buf.all 0) input width height = some d := by
  obtain ⟨s, hs⟩ := threads_narrow w input narrow stack
  exact ⟨_, congrArg (Option.map _) hs⟩

/-- A frame all of which moves, once it is labelled and stitched. -/
theorem threads_closed_bright : ∃ s : Machine 32,
    ((labelThreads 3).flatten ++ (stitchThreads 3).flatten).foldlM (step (Buf.all 255) 3)
      (Machine.start (Buf.all Blob.zero) (Buf.all 0)) = some s ∧
    (∀ i, s.output i ≠ 0 → Allocated s.labelCounter (s.output i) ∧
      1 ≤ s.output i ∧ s.output i ≤ 799) ∧
    (∀ l, Allocated s.labelCounter l →
      Allocated s.labelCounter (links s.blobs l) ∧ links s.blobs l ≠ 0) ∧
    ∀ a s', (collectActs 3 240).head? = some a → step (Buf.all 255) 3 s a = some s' →
      ∀ k ∈ uses (Buf.all 255) 3 s a, k < 804 := by
  obtain ⟨s, hs⟩ := threads_narrow 32 (Buf.all 255) (by decide : 3 ≤ 5) (Buf.all Blob.zero)
  exact ⟨s, hs, threads_closed (Interleave.Run.one_by_one _) (Interleave.Run.one_by_one _) rfl hs⟩

end Motion
