import Motion.Code.Steps
import Motion.Proofs.Collect

/-! The turns of `blob_detect_par` together are `blob_detect_par`. -/

namespace Motion

variable {w width height : Nat} {input : Buf UInt8} {order : List Band} {stitches : List Nat}

theorem step_label (s : Machine w) (b : Band) (p : Pixel) :
    step input width s (.label b p) =
      (labelPixel width input b.startLabel ⟨s.output, s.blobs, s.labelCounter b⟩ p).map fun t =>
        { s with
          output := t.output
          blobs := t.blobs
          labelCounter := Function.update s.labelCounter b t.labelCounter } := rfl

theorem label_turns (input : Buf UInt8) (width : Nat) (b : Band) (ps : List Pixel)
    (s : Machine w) :
    (ps.map (Act.label b)).foldlM (step input width) s =
      (ps.foldlM (labelPixel width input b.startLabel)
        ⟨s.output, s.blobs, s.labelCounter b⟩).map fun t =>
          { s with
            output := t.output
            blobs := t.blobs
            labelCounter := Function.update s.labelCounter b t.labelCounter } := by
  induction ps generalizing s with
  | nil => simp
  | cons p ps ih =>
    rw [List.map_cons, List.foldlM_cons, List.foldlM_cons, step_label]
    cases labelPixel width input b.startLabel ⟨s.output, s.blobs, s.labelCounter b⟩ p with
    | none => rfl
    | some t =>
      refine (ih _).trans ?_
      simp

/-- Turns that cannot stop are a loop over what they change. -/
theorem plain_turns {α : Type} {act : α → Act} {f : Machine w → α → Machine w}
    (hact : ∀ s x, step input width s (act x) = some (f s x)) (l : List α) (s : Machine w) :
    (l.map act).foldlM (step input width) s = some (l.foldl f s) := by
  induction l generalizing s with
  | nil => rfl
  | cons x l ih =>
    rw [List.map_cons, List.foldlM_cons, hact]
    exact ih (f s x)

/-- The turns of a loop over the table are the loop. -/
theorem table_turns {α : Type} {act : α → Act} (f : Buf Nat → Table w → α → Table w)
    (hact : ∀ s x, step input width s (act x) = some { s with blobs := f s.output s.blobs x })
    (l : List α) (s : Machine w) :
    (l.map act).foldlM (step input width) s =
      some { s with blobs := l.foldl (f s.output) s.blobs } := by
  rw [plain_turns hact]
  refine congrArg some ?_
  induction l generalizing s with
  | nil => rfl
  | cons x l ih => exact ih _

theorem merge_turns (is : List Nat) (s : Machine w) :
    (is.map Act.merge).foldlM (step input width) s =
      some { s with
        blobs := (is.foldl mergeUsed ⟨s.blobs, s.consolidatedBlobs, s.numBlobs⟩).blobs
        consolidatedBlobs :=
          (is.foldl mergeUsed ⟨s.blobs, s.consolidatedBlobs, s.numBlobs⟩).consolidatedBlobs
        numBlobs := (is.foldl mergeUsed ⟨s.blobs, s.consolidatedBlobs, s.numBlobs⟩).numBlobs } := by
  rw [plain_turns (fun _ _ => rfl)]
  refine congrArg some ?_
  induction is generalizing s with
  | nil => rfl
  | cons i is ih => exact ih _

theorem relabel_turns (width height : Nat) (s : Machine w) :
    ((interior width height).map Act.relabel).foldlM (step input width) s =
      some { s with output := relabel width height s.blobs s.output } := by
  rw [plain_turns (fun _ _ => rfl)]
  refine congrArg some ?_
  unfold relabel
  induction interior width height generalizing s with
  | nil => rfl
  | cons p ps ih => exact ih _

/-- The turns of a call of `label` are the call. -/
theorem labelActs_run (input : Buf UInt8) (width : Nat) (b : Band) (s : Machine w)
    (hb : s.labelCounter b = b.startLabel) :
    ∃ c, (labelActs width b).foldlM (step input width) s =
      (label input width b ⟨s.output, s.blobs⟩).map fun sh =>
        { s with
          output := sh.output
          blobs := sh.blobs
          labelCounter := Function.update s.labelCounter b c } := by
  unfold labelActs label
  rw [List.foldlM_append, label_turns, hb]
  cases (b.pixels width).foldlM (labelPixel width input b.startLabel)
      ⟨s.output, s.blobs, b.startLabel⟩ with
  | none => exact ⟨0, rfl⟩
  | some t =>
    refine ⟨t.labelCounter, ?_⟩
    exact table_turns (fun _ => redirectUsed) (fun _ _ => rfl) _ _

theorem labels_run (input : Buf UInt8) (width : Nat) (order : List Band) (hnodup : order.Nodup)
    (s : Machine w)
    (hfresh : ∀ b ∈ order, s.labelCounter b = b.startLabel) :
    ∃ c, (order.flatMap (labelActs width)).foldlM (step input width) s =
      (runLabels input width order ⟨s.output, s.blobs⟩).map fun sh =>
        { s with output := sh.output, blobs := sh.blobs, labelCounter := c } := by
  induction order generalizing s with
  | nil => exact ⟨s.labelCounter, rfl⟩
  | cons b order ih =>
    rw [List.nodup_cons] at hnodup
    obtain ⟨c, hc⟩ := labelActs_run input width b s (hfresh b (by simp))
    rw [List.flatMap_cons, List.foldlM_append, hc]
    unfold runLabels
    rw [List.foldlM_cons]
    cases label input width b ⟨s.output, s.blobs⟩ with
    | none => exact ⟨c, rfl⟩
    | some sh =>
      refine ih hnodup.2 { s with
        output := sh.output, blobs := sh.blobs,
        labelCounter := Function.update s.labelCounter b c } ?_
      intro b' hb'
      have hne : b' ≠ b := fun he => hnodup.1 (he ▸ hb')
      dsimp only
      rw [Function.update_of_ne hne]
      exact hfresh b' (List.mem_cons_of_mem _ hb')

theorem stitchActs_run (row : Nat) (s : Machine w) :
    (stitchActs width row).foldlM (step input width) s =
      some { s with blobs := (stitch width ⟨s.output, s.blobs⟩ row).blobs } :=
  table_turns (fun output blobs col => stitchPixel width row output blobs col)
    (fun _ _ => rfl) _ _

theorem stitches_run (stitches : List Nat) (s : Machine w) :
    (stitches.flatMap (stitchActs width)).foldlM (step input width) s =
      some { s with blobs := (stitches.foldl (stitch width) ⟨s.output, s.blobs⟩).blobs } := by
  induction stitches generalizing s with
  | nil => rfl
  | cons row stitches ih =>
    rw [List.flatMap_cons, List.foldlM_append, stitchActs_run]
    exact ih _

/-- The turns of the loops that follow the joins, over any list of slots. -/
theorem collect_turns (is : List Nat) (biggest : Blob w) (s : Machine w) (h0 : s.numBlobs = 0) :
    ((is.map Act.redirect ++ is.reverse.map Act.merge ++
        (interior width height).map Act.relabel).foldlM (step input width) s).map
          (fun s => (s.numBlobs, s.consolidatedBlobs, s.output)) =
      some ((collectOver is s.consolidatedBlobs biggest width height ⟨s.output, s.blobs⟩).numBlobs,
        (collectOver is s.consolidatedBlobs biggest width height
          ⟨s.output, s.blobs⟩).consolidatedBlobs,
        (collectOver is s.consolidatedBlobs biggest width height
          ⟨s.output, s.blobs⟩).relabelled) := by
  rw [List.foldlM_append, List.foldlM_append, table_turns (fun _ => redirectEntry) (fun _ _ => rfl),
    Option.bind_eq_bind, Option.bind_some, merge_turns, Option.bind_some, relabel_turns,
    Option.map_some, h0]
  rfl

/-- Turn by turn the detector comes to what it comes to call by call. -/
theorem acts_run (fair : order.Perm bands) (stack : Buf (Blob w)) (biggest : Blob w)
    (output : Buf Nat) (input : Buf UInt8) (width height : Nat) :
    ((acts width height order stitches).foldlM (step input width)
        (Machine.start stack output)).map
          (fun s => (s.numBlobs, s.consolidatedBlobs, s.output)) =
      (blobDetectPar order stitches stack biggest output input width height).map
        fun d => (d.numBlobs, d.consolidatedBlobs, d.relabelled) := by
  obtain ⟨c, hc⟩ := labels_run input width order
    (fair.nodup_iff.mpr (by decide)) (Machine.start stack output) (fun _ _ => rfl)
  have hstart : (⟨(Machine.start stack output).output, (Machine.start stack output).blobs⟩ :
      Shared w) = Shared.fresh output := rfl
  rw [hstart] at hc
  unfold acts blobDetectPar
  rw [List.foldlM_append, List.foldlM_append, hc]
  cases runLabels input width order (Shared.fresh output) with
  | none => rfl
  | some sh =>
    rw [Option.map_some, Option.bind_eq_bind, Option.bind_some, stitches_run,
      Option.bind_some, collect_turns _ biggest _ rfl, Option.map_some,
      Option.map_some, stitch_foldl, collect_eq]
    rfl

end Motion
