import Motion.Proofs.Stitches

/-! What the calls of `stitch` write, label by label: a call either overwrites a label's
link, with a value that depends on the image alone, or leaves it. -/

namespace Motion

/-- What the turn of `stitch` at a pixel writes to a label's link. -/
def sewTo (width : Nat) (output : Buf Nat) (p : Pixel) (l : Nat) : Option Nat :=
  let lblX := output (idx width p)
  let lblA := output (idx width (p.1 - 1, p.2 - 1))
  let lblB := output (idx width (p.1 - 1, p.2))
  let lblC := output (idx width (p.1 - 1, p.2 + 1))
  let m := minLabel 9999 [lblA, lblB, lblC]
  if m ≠ 9999 ∧ l ∈ [lblX, lblA, lblB, lblC] ∧ l ≠ m then some m else none

/-- What a call of `stitch` makes of a label's link: the last of what its turns write. -/
def sewnTo (width : Nat) (output : Buf Nat) (row l : Nat) : Option Nat :=
  (upto 1 (width - 1)).foldl (fun v col => (sewTo width output (row, col) l).or v) none

/-- A label some call of `label` has taken: its entry has been written. -/
def Taken (t : Table w) (l : Nat) : Prop := l ≠ 0 ∧ links t l ≠ 0

variable {w width : Nat} {input : Buf UInt8} {order : List Band} {top : Band → Nat}
  {out : Buf Nat} {blobs : Table w}

/-- The labels taken are those some pixel carries, whatever has been stitched. -/
theorem Run.tied_taken (h : Bands w input width order top out blobs) (fair : order.Perm bands)
    {t : Table w} (ht : Run.Tied input width out blobs t) (l : Nat) :
    Taken t l ↔ ∃ q, Moving input width labelledHeight q ∧ out (idx width q) = l := by
  constructor
  · rintro ⟨h0, hl⟩
    by_contra hn
    refine hl ?_
    unfold links
    rw [ht.unused l h0 (fun q hq he => hn ⟨q, hq, he⟩)]
    rfl
  · rintro ⟨q, hq, rfl⟩
    obtain ⟨r, hr, he⟩ := ht.carried q hq
    have h1 := (h.label_range fair hq).1
    have h2 := (h.label_range fair hr).1
    rw [he] at h2
    exact ⟨by omega, by omega⟩

theorem Run.taken_iff (h : Bands w input width order top out blobs) (fair : order.Perm bands)
    (l : Nat) :
    Taken blobs l ↔ ∃ q, Moving input width labelledHeight q ∧ out (idx width q) = l :=
  h.tied_taken fair (h.tied_start fair) l

theorem stitchPixel_links (width : Nat) (out : Buf Nat) (t : Table w) (row col l : Nat) :
    links (stitchPixel width row out t col) l =
      (sewTo width out (row, col) l).getD (links t l) := by
  unfold links stitchPixel sewTo
  dsimp only
  split
  · rename_i hm
    rw [linkAll_apply]
    split
    · rename_i hk
      rw [if_pos ⟨hm, hk⟩]
      rfl
    · rename_i hk
      rw [if_neg (fun hn => hk hn.2)]
      rfl
  · rename_i hm
    rw [if_neg (fun hn => hm hn.1)]
    rfl

theorem stitch_links (width : Nat) (sh : Shared w) (row l : Nat) :
    links (stitch width sh row).blobs l =
      (sewnTo width sh.output row l).getD (links sh.blobs l) := by
  unfold stitch sewnTo
  refine Fold.related (R := fun (t : Table w) (v : Option Nat) =>
    links t l = v.getD (links sh.blobs l)) _ _ _ rfl ?_
  intro col _ t v hv
  rw [stitchPixel_links, hv]
  cases sewTo width sh.output (row, col) l with
  | none => rfl
  | some m => rfl

/-- The stitches one after another. -/
theorem stitches_links (width : Nat) (rows : List Nat) (sh : Shared w) (l : Nat) :
    links (rows.foldl (stitch width) sh).blobs l =
      rows.foldl (fun v row => (sewnTo width sh.output row l).getD v) (links sh.blobs l) := by
  have hloop := Fold.related
    (R := fun (sh' : Shared w) v => sh'.output = sh.output ∧ links sh'.blobs l = v)
    (f := stitch width) (g := fun v row => (sewnTo width sh.output row l).getD v)
    rows sh (links sh.blobs l) ⟨rfl, rfl⟩ (by
      rintro row _ sh' v ⟨ho, hv⟩
      refine ⟨ho, ?_⟩
      rw [stitch_links, ho, hv])
  exact hloop.2

/-- Which call comes last decides, label by label. -/
theorem label_commute_iff (width : Nat) (sh : Shared w) (l : Nat) :
    (∀ s t : List Nat, s.Perm seams → t.Perm seams →
      links (s.foldl (stitch width) sh).blobs l = links (t.foldl (stitch width) sh).blobs l) ↔
    ∀ row ∈ seams, ∀ row' ∈ seams, ∀ m m', sewnTo width sh.output row l = some m →
      sewnTo width sh.output row' l = some m' → m = m' := by
  rw [← Fold.order_free_iff seams (fun row => sewnTo width sh.output row l) (links sh.blobs l)]
  simp only [stitches_links]

/-- When the order of the stitches does not matter, whatever image and table they find: when
no label taken is left with different links by two of them. -/
theorem stitches_commute_iff (width : Nat) (sh : Shared w) :
    (∀ s t : List Nat, s.Perm seams → t.Perm seams → ∀ l, Taken sh.blobs l →
      links (s.foldl (stitch width) sh).blobs l = links (t.foldl (stitch width) sh).blobs l) ↔
    ∀ row ∈ seams, ∀ row' ∈ seams, ∀ l, Taken sh.blobs l → ∀ m m',
      sewnTo width sh.output row l = some m → sewnTo width sh.output row' l = some m' →
        m = m' := by
  constructor
  · intro hall row hrow row' hrow' l hl
    exact (label_commute_iff width sh l).mp (fun s t hs ht => hall s t hs ht l hl)
      row hrow row' hrow'
  · intro hagree s t hs ht l hl
    exact (label_commute_iff width sh l).mpr
      (fun row hrow row' hrow' => hagree row hrow row' hrow' l hl) s t hs ht

section forks

/-- Two bars down the second band, one of them reaching up into the first. -/
def forks : Buf UInt8 := painted 5 fun p =>
  p.2 = 1 ∧ 60 ≤ p.1 ∧ p.1 < 120 ∨ p.2 = 3 ∧ 59 ≤ p.1 ∧ p.1 < 120

theorem moving_forks {p : Pixel} : Moving forks 5 labelledHeight p ↔
    p.2 = 1 ∧ 60 ≤ p.1 ∧ p.1 < 120 ∨ p.2 = 3 ∧ 59 ≤ p.1 ∧ p.1 < 120 := by
  unfold forks
  rw [moving_painted, decide_eq_true_eq]
  unfold Inside labelledHeight
  omega

/-- From bottom to top, the second band is labelled before the first. -/
theorem forks_sees {p q : Pixel} (hp : 60 ≤ p.1 ∧ p.1 < 120) (hq : 59 ≤ q.1 ∧ q.1 < 120) :
    sees bands.reverse p q ↔ 60 ≤ q.1 := by
  have hsplit : bands.reverse =
      [⟨180, 239, maxBlobsPerThread * 3 + 1⟩, ⟨120, 179, maxBlobsPerThread * 2 + 1⟩] ++
        (⟨60, 119, maxBlobsPerThread * 1 + 1⟩ : Band) :: [⟨1, 59, 1⟩] := rfl
  rw [hsplit, sees_iff (hsplit ▸ List.reverse_perm bands)
    (by unfold InRows; dsimp only; omega)]
  simp only [List.cons_append, List.nil_append, List.mem_cons, List.not_mem_nil, or_false,
    exists_eq_or_imp, exists_eq_left, InRows]
  omega

/-- Each bar is started at its top row in the second band. -/
theorem forks_start {r c : Nat} (hr : 60 ≤ r) (hr' : r < 120) (hc : c = 1 ∨ c = 3) :
    parStart forks 5 bands.reverse (r, c) = idx 5 (60, c) := by
  induction r, hr using Nat.le_induction with
  | base =>
    refine TakesLabel.start ⟨moving_forks.mpr (by dsimp only; omega), fun q hq => ?_⟩
    have hb : Behind (60, c) q := hq.2.2.1
    have hm := moving_forks.mp hq.2.1
    have hs := (forks_sees (p := (60, c)) (by dsimp only; omega) (by omega)).mp hq.2.2.2
    unfold Behind at hb
    dsimp only at hb
    omega
  | succ r hr ih =>
    rw [← ih (by omega)]
    have hm : Moving forks 5 labelledHeight (r, c) := moving_forks.mpr (by dsimp only; omega)
    have hm' : Moving forks 5 labelledHeight (r + 1, c) := moving_forks.mpr (by dsimp only; omega)
    refine parStart_only ⟨hm', hm, by unfold Behind; dsimp only; omega,
      (forks_sees (by dsimp only; omega) (by dsimp only; omega)).mpr hr⟩ (fun z hz => ?_)
    have hb : Behind (r + 1, c) z := hz.2.2.1
    have hz' := moving_forks.mp hz.2.1
    unfold Behind at hb
    dsimp only at hb
    exact Prod.ext (by dsimp only; omega) (by dsimp only; omega)

/-- What the calls of `stitch` at both ends of the second band do to the right bar's label. -/
theorem forks_sewn (h : Bands w forks 5 bands.reverse top out blobs) :
    sewnTo 5 out 60 (out (idx 5 (60, 3))) = some (out (idx 5 (59, 3))) ∧
    sewnTo 5 out 120 (out (idx 5 (60, 3))) = some (out (idx 5 (60, 1))) ∧
    out (idx 5 (59, 3)) ≠ out (idx 5 (60, 1)) := by
  have fair : bands.reverse.Perm bands := List.reverse_perm bands
  have hzero : ∀ p : Pixel, p.2 < 5 → ¬(p.2 = 1 ∧ 60 ≤ p.1 ∧ p.1 < 120 ∨
      p.2 = 3 ∧ 59 ≤ p.1 ∧ p.1 < 120) → out (idx 5 p) = 0 :=
    fun p hp hn => h.clear hp (fun hm => hn (moving_forks.mp hm))
  have htop : Moving forks 5 labelledHeight (59, 3) := moving_forks.mpr (by decide)
  have hright : Moving forks 5 labelledHeight (60, 3) := moving_forks.mpr (by decide)
  have hleft : Moving forks 5 labelledHeight (60, 1) := moving_forks.mpr (by decide)
  have hfoot : ∀ c, c = 1 ∨ c = 3 → out (idx 5 (119, c)) = out (idx 5 (60, c)) := by
    intro c hc
    refine (h.label_eq fair (moving_forks.mpr (by dsimp only; omega))
      (moving_forks.mpr (by dsimp only; omega))).mpr ?_
    rw [forks_start (by decide) (by decide) hc, forks_start (by decide) (by decide) hc]
  have hstart : parStart forks 5 bands.reverse (59, 3) = idx 5 (59, 3) := by
    refine TakesLabel.start ⟨htop, fun q hq => ?_⟩
    have hb : Behind (59, 3) q := hq.2.2.1
    have hm := moving_forks.mp hq.2.1
    unfold Behind at hb
    dsimp only at hb
    omega
  have hlt : out (idx 5 (60, 1)) < out (idx 5 (60, 3)) := by
    rw [h.label_lt fair hleft hright, forks_start (by decide) (by decide) (Or.inl rfl),
      forks_start (by decide) (by decide) (Or.inr rfl)]
    decide
  have hne : out (idx 5 (59, 3)) ≠ out (idx 5 (60, 1)) := by
    rw [Ne, h.label_eq fair htop hleft, hstart, forks_start (by decide) (by decide) (Or.inl rfl)]
    decide
  have hne' : out (idx 5 (60, 3)) ≠ out (idx 5 (59, 3)) := by
    rw [Ne, h.label_eq fair hright htop, hstart, forks_start (by decide) (by decide) (Or.inr rfl)]
    decide
  have r1 := h.label_range fair htop
  have r2 := h.label_range fair hleft
  have r3 := h.label_range fair hright
  unfold maxBlobsPerThread at r1 r2 r3
  have hcols : upto 1 (5 - 1) = [1, 2, 3] := rfl
  have hblank : ∀ p ∈ [(59, 0), (59, 1), (59, 2), (59, 4), (60, 2), (119, 0), (119, 2), (119, 4),
      (120, 1), (120, 2), (120, 3)], p.2 < 5 ∧ ¬(p.2 = 1 ∧ 60 ≤ p.1 ∧ p.1 < 120 ∨
        p.2 = 3 ∧ 59 ≤ p.1 ∧ p.1 < 120) := by decide
  have hz := fun p hp => hzero p (hblank p hp).1 (hblank p hp).2
  simp only [List.forall_mem_cons] at hz
  have s1 : out (idx 5 (59, 3)) ≠ 0 ∧ out (idx 5 (59, 3)) < 9999 := by omega
  have s2 : out (idx 5 (60, 1)) ≠ 0 ∧ out (idx 5 (60, 1)) < 9999 := by omega
  have s3 : out (idx 5 (60, 3)) ≠ 0 ∧ out (idx 5 (60, 3)) < 9999 := by omega
  refine ⟨?_, ?_, hne⟩
  · unfold sewnTo
    rw [hcols]
    simp [sewTo, minLabel, hz, s1, hne', s1.2.ne]
  · unfold sewnTo
    rw [hcols]
    simp [sewTo, minLabel, hz, hfoot, s2, s3, s2.2.ne, s3.2.ne, hlt.ne', hlt.not_gt]

/-- Labelled from bottom to top, the right bar is joined to the first band's label at one
end and to the left bar's at the other. -/
theorem forks_depend :
    ¬∀ (w width : Nat) (input : Buf UInt8) (order : List Band) (sh : Shared w), 3 ≤ width →
      order.Perm bands → runLabels input width order (Shared.fresh (Buf.all 0)) = some sh →
      ∀ s t : List Nat, s.Perm seams → t.Perm seams → ∀ l, Taken sh.blobs l →
        links (s.foldl (stitch width) sh).blobs l =
          links (t.foldl (stitch width) sh).blobs l := by
  intro hall
  have fair : bands.reverse.Perm bands := List.reverse_perm bands
  obtain ⟨sh, hsh⟩ := Option.isSome_iff_exists.mp
    (runLabels_isSome 32 fair (roomy_of_narrow forks bands.reverse (by decide : 5 ≤ 5)))
  obtain ⟨top, h⟩ := runLabels_run fair hsh
  obtain ⟨hup, hdown, hne⟩ := forks_sewn h
  have htaken : Taken sh.blobs (sh.output (idx 5 (60, 3))) :=
    (h.taken_iff fair _).mpr ⟨(60, 3), moving_forks.mpr (by decide), rfl⟩
  exact hne ((label_commute_iff 5 sh _).mp
    (fun s t hs ht => hall 32 5 forks bands.reverse sh (by decide) fair hsh s t hs ht _ htaken)
    60 (by decide) 120 (by decide) _ _ hup hdown)

end forks

end Motion
