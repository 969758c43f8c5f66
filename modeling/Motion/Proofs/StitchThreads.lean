import Motion.Proofs.StitchLinks
import Motion.Proofs.Threads

/-! The stitch threads one turn at a time. What they leave at a label is decided by the turn
that writes its link last. -/

namespace Motion

variable {w width : Nat} {input : Buf UInt8} {stitches : List Act} {s s' : Machine w}
  {l m row : Nat}

/-- What a turn of `stitch` writes to a label's link. -/
def sews (width : Nat) (output : Buf Nat) (l : Nat) : Act → Option Nat
  | .stitch p => sewTo width output p l
  | _ => none

/-- A call on its own writes last what its columns do. -/
theorem lastWrite_stitchActs (width : Nat) (output : Buf Nat) (row l : Nat) :
    Interleave.lastWrite (sews width output l) (stitchActs width row) =
      sewnTo width output row l := by
  unfold Interleave.lastWrite stitchActs sewnTo
  rw [List.foldl_map]
  rfl

theorem mem_stitches (hs : Interleave.Run (stitchThreads width) stitches) {a : Act}
    (ha : a ∈ stitches) :
    ∃ row ∈ seams, ∃ col, 1 ≤ col ∧ col < width - 1 ∧ a = .stitch (row, col) := by
  have hmem := (stitches_perm hs).mem_iff.mp ha
  simp only [List.mem_flatMap, stitchActs, List.mem_map] at hmem
  obtain ⟨row, hrow, col, hcol, rfl⟩ := hmem
  have := mem_upto.mp hcol
  exact ⟨row, hrow, col, this.1, this.2, rfl⟩

/-- Turns of `stitch` always run through; each label's link is what was last written to it. -/
theorem stitch_steps (input : Buf UInt8) {turns : List Act}
    (hall : ∀ a ∈ turns, ∃ p, a = .stitch p) (s : Machine w) :
    ∃ s', turns.foldlM (step input width) s = some s' ∧ s'.output = s.output ∧
      ∀ l, links s'.blobs l =
        (Interleave.lastWrite (sews width s.output l) turns).getD (links s.blobs l) := by
  induction turns using List.reverseRecOn with
  | nil => exact ⟨s, rfl, rfl, fun _ => rfl⟩
  | append_singleton turns a ih =>
    obtain ⟨t, ht, hout, hlinks⟩ := ih (fun b hb => hall b (List.mem_append_left _ hb))
    obtain ⟨p, rfl⟩ := hall a (by simp)
    refine ⟨{ t with blobs := stitchPixel width p.1 t.output t.blobs p.2 }, ?_, hout, ?_⟩
    · rw [List.foldlM_append, ht]
      rfl
    · intro l
      rw [Interleave.lastWrite_append]
      dsimp only
      rw [stitchPixel_links, hlinks l, hout]
      cases hlast : sewTo width s.output p l with
      | none => simp [Interleave.lastWrite, sews, hlast]
      | some m => simp [Interleave.lastWrite, sews, hlast]

/-- So do those of the stitch threads. -/
theorem stitch_turns (input : Buf UInt8) (hs : Interleave.Run (stitchThreads width) stitches)
    (s : Machine w) :
    ∃ s', stitches.foldlM (step input width) s = some s' ∧ s'.output = s.output ∧
      ∀ l, links s'.blobs l =
        (Interleave.lastWrite (sews width s.output l) stitches).getD (links s.blobs l) := by
  apply stitch_steps
  intro a ha
  obtain ⟨row, _, col, _, _, rfl⟩ := mem_stitches hs ha
  exact ⟨_, rfl⟩

/-- What a call would write to a label last, some order of the turns leaves it with. -/
theorem stitch_turns_leave (input : Buf UInt8) (s : Machine w) {row l m : Nat}
    (hrow : row ∈ seams) (hm : sewnTo width s.output row l = some m) :
    ∃ stitches s', Interleave.Run (stitchThreads width) stitches ∧
      stitches.foldlM (step input width) s = some s' ∧ links s'.blobs l = m := by
  rw [← lastWrite_stitchActs] at hm
  have hmem : stitchActs width row ∈ stitchThreads width := List.mem_map_of_mem hrow
  obtain ⟨stitches, hs, hlast⟩ := Interleave.Run.write_last hmem hm
  obtain ⟨t, ht, _, hlinks⟩ := stitch_turns input hs s
  refine ⟨stitches, t, hs, ht, ?_⟩
  rw [hlinks l, hlast]
  rfl

/-- And no order leaves it with anything else but its old link. -/
theorem stitch_turns_left (hs : Interleave.Run (stitchThreads width) stitches)
    (run : stitches.foldlM (step input width) s = some s') (l : Nat) :
    (∃ row ∈ seams, sewnTo width s.output row l = some (links s'.blobs l)) ∨
      (∀ row ∈ seams, sewnTo width s.output row l = none) ∧ links s.blobs l = links s'.blobs l := by
  obtain ⟨t, ht, _, hlinks⟩ := stitch_turns input hs s
  obtain rfl := Option.some.inj (run.symm.trans ht)
  rw [hlinks l]
  cases hlast : Interleave.lastWrite (sews width s.output l) stitches with
  | some m =>
    obtain ⟨steps, hmem, hm⟩ := hs.last_write hlast
    obtain ⟨row, hrow, rfl⟩ := List.mem_map.mp hmem
    exact Or.inl ⟨row, hrow, (lastWrite_stitchActs width s.output row l).symm.trans hm⟩
  | none =>
    refine Or.inr ⟨fun row hrow => ?_, rfl⟩
    rw [← lastWrite_stitchActs, Interleave.lastWrite_none_iff]
    rw [Interleave.lastWrite_none_iff] at hlast
    intro a ha
    exact hlast a (hs.mem_iff.mpr ⟨_, List.mem_map_of_mem hrow, ha⟩)

/-- The links a label can be left with. -/
theorem stitch_turns_reach (input : Buf UInt8) (s : Machine w) (l m : Nat) :
    (∃ stitches s', Interleave.Run (stitchThreads width) stitches ∧
        stitches.foldlM (step input width) s = some s' ∧ links s'.blobs l = m) ↔
      (∃ row ∈ seams, sewnTo width s.output row l = some m) ∨
        (∀ row ∈ seams, sewnTo width s.output row l = none) ∧ links s.blobs l = m := by
  constructor
  · rintro ⟨stitches, s', hs, run, rfl⟩
    exact stitch_turns_left hs run l
  · rintro (⟨row, hrow, hm⟩ | ⟨hnone, rfl⟩)
    · exact stitch_turns_leave input s hrow hm
    · have hs := Interleave.Run.one_by_one (stitchThreads width)
      obtain ⟨t, ht, _⟩ := stitch_turns input hs s
      refine ⟨_, t, hs, ht, ?_⟩
      cases stitch_turns_left hs ht l with
      | inl hsewn =>
        obtain ⟨row, hrow, hm⟩ := hsewn
        rw [hnone row hrow] at hm
        cases hm
      | inr hkept => exact hkept.2.symm

/-- The order of the stitch threads' turns matters to no label taken exactly when no two of
their calls leave one with different links. -/
theorem stitch_turns_commute_iff (s : Machine w) :
    (∀ turns turns' : List Act, Interleave.Run (stitchThreads width) turns →
      Interleave.Run (stitchThreads width) turns' → ∀ t t' : Machine w,
      turns.foldlM (step input width) s = some t → turns'.foldlM (step input width) s = some t' →
      ∀ l, Taken s.blobs l → links t.blobs l = links t'.blobs l) ↔
    ∀ row ∈ seams, ∀ row' ∈ seams, ∀ l, Taken s.blobs l → ∀ m m',
      sewnTo width s.output row l = some m → sewnTo width s.output row' l = some m' →
        m = m' := by
  constructor
  · intro hall row hrow row' hrow' l hl m m' hm hm'
    obtain ⟨turns, t, hs, ht, rfl⟩ := stitch_turns_leave input s hrow hm
    obtain ⟨turns', t', hs', ht', rfl⟩ := stitch_turns_leave input s hrow' hm'
    exact hall turns turns' hs hs' t t' ht ht' l hl
  · intro hagree turns turns' hs hs' t t' ht ht' l hl
    rcases stitch_turns_left hs ht l with ⟨row, hrow, hm⟩ | ⟨hnone, he⟩ <;>
      rcases stitch_turns_left hs' ht' l with ⟨row', hrow', hm'⟩ | ⟨hnone', he'⟩
    · exact hagree row hrow row' hrow' l hl _ _ hm hm'
    · rw [hnone' row hrow] at hm
      cases hm
    · rw [hnone row' hrow'] at hm'
      cases hm'
    · exact he.symm.trans he'

end Motion
