import Motion.Lib.Trails
import Motion.Spec.Image

/-! What is to be detected: the active pixels off the border and the objects
they form. -/

namespace Motion
open Labelling

/-- An active pixel off the border: what `blob_detect` labels. -/
def Moving (input : Buf UInt8) (width height : Nat) (p : Pixel) : Prop :=
  Inside width height p ∧ input (idx width p) > 0

instance : DecidablePred (Inside width height) :=
  fun _ => inferInstanceAs (Decidable (_ ∧ _ ∧ _ ∧ _))

instance : DecidablePred (Moving input width height) :=
  fun _ => inferInstanceAs (Decidable (_ ∧ _))

/-- All of them. -/
def moving (input : Buf UInt8) (width height : Nat) : Finset Pixel :=
  (interior width height).toFinset.filter (Moving input width height)

/-- A threshold image with the listed pixels active. -/
def drawing (width : Nat) (on : List Pixel) : Buf UInt8 :=
  ⟨fun i => if i ∈ on.map (idx width) then 255 else 0⟩

/-- Two arms that meet, and a dot below them. -/
def branch : Buf UInt8 := drawing 5 [(1, 1), (1, 3), (2, 2), (4, 1)]

/-- A threshold image active where a predicate holds. -/
def painted (width : Nat) (on : Pixel → Bool) : Buf UInt8 :=
  ⟨fun i => if on (i / width, i % width) then 255 else 0⟩

/-- A pixel of the frame, its border included. -/
def InFrame (width height : Nat) (p : Pixel) : Prop := p.1 < height ∧ p.2 < width

instance : DecidablePred (InFrame width height) :=
  fun _ => inferInstanceAs (Decidable (_ ∧ _))

/-- The pixels of the frame. -/
def frame (width height : Nat) : Finset Pixel :=
  (raster (upto 0 height) (upto 0 width)).toFinset

/-- The pixels of the frame that carry a label. -/
def labelledWith (width height : Nat) (out : Buf Nat) (l : Nat) : Finset Pixel :=
  (frame width height).filter (fun p => out (idx width p) = l)

/-- The distinct nonzero labels of an image. -/
def distinctLabels (width height : Nat) (out : Buf Nat) : Finset Nat :=
  ((frame width height).image (fun p => out (idx width p))).erase 0

/-- Joined by a path of touching active pixels. -/
abbrev Connected (input : Buf UInt8) (width height : Nat) : Pixel → Pixel → Prop :=
  Linked Adj8 {p | Moving input width height p}

/-- The object a pixel belongs to. -/
def object (input : Buf UInt8) (width height : Nat) (p : Pixel) : Set Pixel :=
  {q | Connected input width height p q}

/-- The 8-connected components of the active pixels. -/
def objects (input : Buf UInt8) (width height : Nat) : Set (Set Pixel) :=
  object input width height '' {p | Moving input width height p}

/-- The image `blob_detect` labels. -/
abbrev scene (w : Nat) (input : Buf UInt8) (width height : Nat) : Ground Pixel (Blob w) :=
  image w (Moving input width height) (fun _ _ => True)

/-- A pixel none of whose neighbours A, B, C, D is active: it has to start a label. -/
def Seed (input : Buf UInt8) (width height : Nat) (p : Pixel) : Prop :=
  Moving input width height p ∧ ∀ q, Behind p q → ¬Moving input width height q

/-- The seeds with fewer than 254 seeds before them. -/
def firstSeeds (input : Buf UInt8) (width height : Nat) : Set Pixel :=
  {p | Seed input width height p ∧ {q | Seed input width height q ∧ Before q p}.ncard < 254}

/-- Where a pixel's label comes from: the earliest of the first 254 seeds it is
reached from by looking back, or the pixel itself when there is none. -/
noncomputable def startOf (input : Buf UInt8) (width height : Nat) (p : Pixel) : Nat :=
  origin (scene 0 input width height) (firstSeeds input width height) (idx width) p

/-- Of a list of starts, those whose label a neighbour takes over: the first 254
of each 65536. -/
def absorbing (starts : List Pixel) : Set Pixel :=
  {p | ∃ n, starts[n]? = some p ∧ n % 65536 < 254}

/-- A pixel that looks back at no pixel descended from an absorbing start. -/
def StartsLabel (input : Buf UInt8) (width height : Nat) (starts : List Pixel) (p : Pixel) :
    Prop :=
  Moving input width height p ∧ ∀ q, (scene 0 input width height).back p q →
    ¬Absorbed (scene 0 input width height) (absorbing starts) q

open Classical in
/-- The pixels that start a label, told from the image alone. -/
noncomputable def starts (input : Buf UInt8) (width height : Nat) : List Pixel :=
  (interior width height).foldl
    (fun l p => if StartsLabel input width height l p then l ++ [p] else l) []

/-- Every pixel whose object reaches back before the pixel's start has that start
met: some pixel that started earlier looks back at one of the same start. -/
def StartsMet (input : Buf UInt8) (width height : Nat) : Prop :=
  ∀ q, Moving input width height q →
    (∃ r, Connected input width height q r ∧ idx width r < startOf input width height q) →
    ∃ x y, Moving input width height x ∧ Moving input width height y ∧ Behind x y ∧
      startOf input width height y = startOf input width height q ∧
      startOf input width height x < startOf input width height q

/-- Where `blob_detect`'s scan leaves a start linked: to the one taken over at the last pixel
at which it is met. -/
noncomputable def seqLink (input : Buf UInt8) (width height : Nat) : Nat → Nat :=
  metLink (scene 0 input width height) (startOf input width height) (interior width height) id

/-- The moving pixels whose starts come down to `n` along these links. -/
noncomputable def seqFallingTo (input : Buf UInt8) (width height n : Nat) : Finset Pixel :=
  (moving input width height).filter
    (fun p => Links.root (seqLink input width height) (startOf input width height p) = n)

/-- The starts they come down to. -/
noncomputable def seqEnds (input : Buf UInt8) (width height : Nat) : Finset Nat :=
  (moving input width height).image
    (fun p => Links.root (seqLink input width height) (startOf input width height p))

variable {input : Buf UInt8} {width height : Nat} {p q : Pixel}

@[simp] theorem mem_frame : p ∈ frame width height ↔ InFrame width height p := by
  simp [frame, mem_raster, mem_upto, InFrame]

theorem idx_lt (h : InFrame width height p) : idx width p < width * height := by
  obtain ⟨hr, hc⟩ := h
  have := Nat.mul_le_mul_left width hr
  rw [Nat.mul_succ, Nat.mul_comm] at this
  unfold idx
  omega

/-- Every index of the frame's buffer is that of a pixel. -/
theorem exists_inFrame {i : Nat} (hi : i < width * height) :
    ∃ p, InFrame width height p ∧ idx width p = i := by
  have hw : 0 < width := Nat.pos_of_mul_pos_right (Nat.zero_lt_of_lt hi)
  refine ⟨(i / width, i % width), ⟨?_, Nat.mod_lt _ hw⟩, Nat.div_add_mod' i width⟩
  exact Nat.div_lt_of_lt_mul hi

@[simp] theorem mem_moving : p ∈ moving input width height ↔ Moving input width height p := by
  simp only [moving, Finset.mem_filter, List.mem_toFinset, mem_interior]
  exact ⟨fun h => h.2, fun h => ⟨h.1, h⟩⟩

theorem Moving.inFrame (h : Moving input width height p) : InFrame width height p := by
  have := h.1
  simp only [Inside] at this
  exact ⟨by omega, by omega⟩

theorem painted_on {on : Pixel → Bool} (hc : p.2 < width) :
    painted width on (idx width p) > 0 ↔ on p = true := by
  unfold painted
  dsimp only
  rw [idx_div hc, idx_mod hc]
  split
  · rename_i hon
    exact iff_of_true (by decide) hon
  · rename_i hoff
    exact iff_of_false (by decide) hoff

theorem moving_painted {on : Pixel → Bool} :
    Moving (painted width on) width height p ↔ Inside width height p ∧ on p = true := by
  refine and_congr_right (fun hin => painted_on ?_)
  unfold Inside at hin
  omega

/-- No more pixels move than have been drawn. -/
theorem drawing_few (on : List Pixel) : (moving (drawing width on) width height).card ≤ on.length := by
  have hmap : ∀ p ∈ moving (drawing width on) width height,
      idx width p ∈ (on.map (idx width)).toFinset := by
    intro p hp
    have hon := (mem_moving.mp hp).2
    unfold drawing at hon
    dsimp only at hon
    split at hon
    · exact List.mem_toFinset.mpr ‹_›
    · exact absurd hon (by decide)
  have hcard := Finset.card_le_card_of_injOn (idx width) hmap (fun p hp q hq he => by
    have hp := (mem_moving.mp hp).inFrame
    have hq := (mem_moving.mp hq).inFrame
    exact idx_inj hp.2 hq.2 he)
  exact hcard.trans ((List.toFinset_card_le _).trans (List.length_map _).le)

/-- A pixel counts and is visited exactly when it is moving. -/
theorem live_scene (w : Nat) (input : Buf UInt8) (width height : Nat) :
    live (scene w input width height) (interior width height).toFinset =
      {p | Moving input width height p} := by
  ext p
  simp only [live, Set.mem_ofPred_eq, List.mem_toFinset, mem_interior]
  exact ⟨fun h => h.2, fun h => ⟨h.1, h⟩⟩

theorem joined_scene (w : Nat) (input : Buf UInt8) (width height : Nat) :
    Labelling.Joined (scene w input width height) (interior width height).toFinset =
      Connected input width height := by
  unfold Labelling.Joined
  rw [live_scene]
  rfl

theorem Connected.symm (h : Connected input width height p q) :
    Connected input width height q p :=
  Linked.symm (fun _ _ h => h.symm) h

theorem Connected.moving (h : Connected input width height p q)
    (hp : Moving input width height p) : Moving input width height q :=
  Linked.mem (T := {p | Moving input width height p}) h hp

/-- Connected pixels have the same object, and only they do. -/
theorem object_eq_iff :
    object input width height p = object input width height q ↔
      Connected input width height p q := by
  constructor
  · intro h
    have : q ∈ object input width height q := Linked.refl
    rwa [← h] at this
  · intro h
    ext r
    exact ⟨fun hr => h.symm.trans hr, fun hr => h.trans hr⟩

/-- Only finitely many pixels, so finitely many objects. -/
theorem objects_finite (input : Buf UInt8) (width height : Nat) :
    (objects input width height).Finite := by
  refine Set.Finite.image _ (Set.Finite.subset (moving input width height).finite_toSet ?_)
  intro p hp
  simpa using hp

/-- A number given to every moving pixel, the same for connected pixels only,
takes at least as many values as there are objects. -/
theorem objects_ncard_le {f : Pixel → Nat} {L : Finset Nat}
    (hf : ∀ p, Moving input width height p → f p ∈ L)
    (hc : ∀ p q, Moving input width height p → Moving input width height q → f p = f q →
      Connected input width height p q) :
    (objects input width height).ncard ≤ L.card := by
  have hsub : objects input width height ⊆
      (fun l => {q | ∃ p, Moving input width height p ∧ f p = l ∧
        Connected input width height p q}) '' (L : Set Nat) := by
    rintro _ ⟨p, hp, rfl⟩
    refine ⟨f p, by simpa using hf p hp, ?_⟩
    ext q
    constructor
    · rintro ⟨r, hr, he, hj⟩
      exact (hc p r hp hr he.symm).trans hj
    · intro hj
      exact ⟨p, hp, rfl, hj⟩
  calc (objects input width height).ncard
      ≤ _ := Set.ncard_le_ncard hsub (Set.Finite.image _ L.finite_toSet)
    _ ≤ (L : Set Nat).ncard := Set.ncard_image_le L.finite_toSet
    _ = L.card := Set.ncard_coe_finset L

/-- And at most as many when it is the same for all connected pixels. -/
theorem le_objects_ncard {f : Pixel → Nat} {L : Finset Nat}
    (hf : ∀ l ∈ L, ∃ p, Moving input width height p ∧ f p = l)
    (hc : ∀ p q, Moving input width height p → Moving input width height q →
      Connected input width height p q → f p = f q) :
    L.card ≤ (objects input width height).ncard := by
  classical
  choose! pix hpix using hf
  rw [← Set.ncard_coe_finset]
  refine Set.ncard_le_ncard_of_injOn (fun l => object input width height (pix l)) ?_ ?_
    (objects_finite input width height)
  · intro l hl
    exact ⟨pix l, (hpix l hl).1, rfl⟩
  · intro l hl k hk he
    have := hc _ _ (hpix l hl).1 (hpix k hk).1 (object_eq_iff.mp he)
    rwa [(hpix l hl).2, (hpix k hk).2] at this

end Motion
