import Motion.Proofs.BandScan

/-! The calls of `label` need not be followed where nothing is active: a pixel
that stays 0 changes nothing. -/

namespace Motion

/-- `label` on the pixels listed. -/
def labelOver (pixels : List Pixel) (input : Buf UInt8) (width : Nat) (b : Band)
    (sh : Shared w) : Option (Shared w) :=
  (pixels.foldlM (labelPixel width input b.startLabel) ⟨sh.output, sh.blobs, b.startLabel⟩).map
    fun s => ⟨s.output,
      (upto b.startLabel (b.startLabel + maxBlobsPerThread)).foldl redirectUsed s.blobs⟩

/-- The active pixels of a band. -/
def Band.active (b : Band) (width : Nat) (input : Buf UInt8) : List Pixel :=
  (b.pixels width).filter (fun p => input (idx width p) > 0)

/-- The calls of `label` on the active pixels alone. -/
def runActive (input : Buf UInt8) (width : Nat) (order : List Band) (sh : Shared w) :
    Option (Shared w) :=
  order.foldlM (fun sh b => labelOver (b.active width input) input width b sh) sh

/-- What is not active carries no label. -/
def Blank (input : Buf UInt8) (output : Buf Nat) : Prop := ∀ i, ¬input i > 0 → output i = 0

variable {w width start : Nat} {input : Buf UInt8} {s s' : Scan w} {x : Pixel}

theorem labelPixel_inactive (hb : Blank input s.output) (hx : ¬input (idx width x) > 0) :
    labelPixel width input start s x = some s := by
  have hsame : s.output.write (idx width x) 0 = s.output := by
    ext i
    by_cases hi : i = idx width x
    · rw [hi, Buf.write_same, hb _ hx]
    · rw [Buf.write_other _ _ hi]
  simp only [labelPixel, scanPixel_off hx, hsame]
  exact if_neg (by omega)

theorem labelPixel_blank (hb : Blank input s.output) (hx : input (idx width x) > 0)
    (h : labelPixel width input start s x = some s') : Blank input s'.output := by
  obtain ⟨rfl, _⟩ := labelPixel_some h
  intro i hi
  have hne : i ≠ idx width x := by
    rintro rfl
    exact hi hx
  rw [(scanPixel_step 9999 width input s x).output_other hne]
  exact hb i hi

/-- A scan may skip what is not active, and leaves it blank. -/
theorem scan_active (width start : Nat) (l : List Pixel) : ∀ s : Scan w, Blank input s.output →
    l.foldlM (labelPixel width input start) s =
        (l.filter (fun p => input (idx width p) > 0)).foldlM (labelPixel width input start) s ∧
      ∀ s', l.foldlM (labelPixel width input start) s = some s' → Blank input s'.output := by
  induction l with
  | nil =>
    intro s hb
    refine ⟨rfl, fun s' hs => ?_⟩
    cases hs
    exact hb
  | cons x l ih =>
    intro s hb
    by_cases hx : input (idx width x) > 0
    · rw [List.filter_cons_of_pos (by simpa using hx), List.foldlM_cons, List.foldlM_cons]
      cases hs : labelPixel width input start s x with
      | none => exact ⟨rfl, fun s' hs' => by cases hs'⟩
      | some t => exact ih t (labelPixel_blank hb hx hs)
    · rw [List.filter_cons_of_neg (by simpa using hx), List.foldlM_cons,
        labelPixel_inactive hb hx]
      exact ih s hb

/-- The calls of `label` on the active pixels alone leave what they leave. -/
theorem runLabels_active (order : List Band) : ∀ sh : Shared w, Blank input sh.output →
    runLabels input width order sh = runActive input width order sh := by
  induction order with
  | nil => exact fun _ _ => rfl
  | cons b order ih =>
    intro sh hb
    have hscan := scan_active width b.startLabel (b.pixels width)
      ⟨sh.output, sh.blobs, b.startLabel⟩ hb
    have hlabel : label input width b sh = labelOver (b.active width input) input width b sh := by
      unfold label labelOver Band.active
      rw [hscan.1]
    unfold runLabels runActive at ih ⊢
    rw [List.foldlM_cons, List.foldlM_cons, ← hlabel]
    cases hs : label input width b sh with
    | none => rfl
    | some sh' =>
      refine ih sh' ?_
      unfold label at hs
      obtain ⟨s, hrun, rfl⟩ := Option.map_eq_some_iff.mp hs
      exact hscan.2 s hrun

/-- The calls of `label` on a fresh image, from the active pixels alone. -/
theorem runLabels_fresh (w : Nat) (input : Buf UInt8) (width : Nat) (order : List Band) :
    runLabels (w := w) input width order (Shared.fresh (Buf.all 0)) =
      runActive input width order (Shared.fresh (Buf.all 0)) :=
  runLabels_active order _ (fun _ _ => rfl)

/-- What can be evaluated of a fresh run on few active pixels. -/
theorem runLabels_any {P : Shared w → Prop} [DecidablePred P]
    (h : (runActive input width order (Shared.fresh (Buf.all 0))).any (fun sh => P sh) = true) :
    ∃ sh : Shared w, runLabels input width order (Shared.fresh (Buf.all 0)) = some sh ∧ P sh := by
  rw [runLabels_fresh]
  cases he : runActive (w := w) input width order (Shared.fresh (Buf.all 0)) with
  | none =>
    rw [he] at h
    cases h
  | some sh =>
    rw [he] at h
    exact ⟨sh, rfl, of_decide_eq_true h⟩

/-- The redirects of entries with a link are all there are. -/
theorem redirect_linked (t : Table w) (l : List Nat) :
    l.foldl redirectUsed t = (l.filter (fun i => (t i).label ≠ 0)).foldl redirectUsed t := by
  refine Fold.skip (I := fun u : Table w => ∀ i, (t i).label = 0 → (u i).label = 0) _ l t
    (fun _ h => h) ?_ ?_
  · intro x _ u hu i hi
    rw [redirectUsed_keeps u (Or.inl (hu i hi))]
    exact hu i hi
  · intro x _ hx u hu
    exact redirectUsed_unused (hu x (not_not.mp hx))

/-- The calls of `label` on the active pixels alone, redirecting the linked entries alone. -/
def runLinked (input : Buf UInt8) (width : Nat) (order : List Band) (sh : Shared w) :
    Option (Shared w) :=
  order.foldlM (fun sh b =>
    ((b.active width input).foldlM (labelPixel width input b.startLabel)
        ⟨sh.output, sh.blobs, b.startLabel⟩).map fun s =>
      ⟨s.output, ((upto b.startLabel (b.startLabel + maxBlobsPerThread)).filter
        (fun i => (s.blobs i).label ≠ 0)).foldl redirectUsed s.blobs⟩) sh

theorem runActive_linked (order : List Band) (sh : Shared w) :
    runActive input width order sh = runLinked input width order sh := by
  unfold runActive runLinked
  refine Fold.option_congr order sh (fun b _ sh => ?_)
  unfold labelOver
  refine congrArg (fun f => Option.map f _) (funext (fun s => ?_))
  rw [redirect_linked s.blobs]

/-- What moves in a drawing is what was drawn. -/
theorem moving_drawing {on : List Pixel} {height : Nat} (cols : ∀ p ∈ on, p.2 < width) :
    moving (drawing width on) width height ⊆ on.toFinset := by
  intro p hp
  obtain ⟨hin, hon⟩ := mem_moving.mp hp
  unfold Inside at hin
  by_cases hm : idx width p ∈ on.map (idx width)
  · obtain ⟨q, hq, he⟩ := List.mem_map.mp hm
    rw [List.mem_toFinset, ← idx_inj (cols q hq) (by omega) he]
    exact hq
  · simp [drawing, hm] at hon

end Motion
