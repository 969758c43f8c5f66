import Motion.Code.WritePpm
import Motion.Lib.Ppm
import Motion.Proofs.Blur
import Motion.Spec.Objects

/-! The files the writers of write_ppm.cpp leave are pictures of the images they are given. -/

namespace Motion

/-- The file is a picture of a frame in which each pixel has the colour given. -/
def Shows (file : List UInt8) (width height : Nat) (colour : Pixel → Ppm.Colour) : Prop :=
  ∃ picture, Ppm.read file = some picture ∧ picture.width = width ∧ picture.height = height ∧
    ∀ p, InFrame width height p → picture.at p.1 p.2 = some (colour p)

variable {width height : Nat} {colour colour' : Pixel → Ppm.Colour} {file : List UInt8} {p : Pixel}

theorem upto_succ (n : Nat) : upto 0 (n + 1) = upto 0 n ++ [n] := by
  rw [upto_split (Nat.zero_le n) (Nat.lt_succ_self n), upto_self]

theorem raster_succ (height : Nat) (cols : List Nat) :
    raster (upto 0 (height + 1)) cols =
      raster (upto 0 height) cols ++ cols.map fun col => (height, col) := by
  unfold raster
  rw [upto_succ, List.flatMap_append, List.flatMap_singleton]

theorem raster_length (width height : Nat) :
    (raster (upto 0 height) (upto 0 width)).length = width * height := by
  induction height with
  | zero => simp [raster]
  | succ height ih =>
    rw [raster_succ, List.length_append, ih, List.length_map, Nat.mul_succ]
    simp [upto]

/-- Row by row, a pixel of the frame stands at its index. -/
theorem raster_get (hp : InFrame width height p) :
    (raster (upto 0 height) (upto 0 width))[idx width p]? = some p := by
  obtain ⟨hr, hc⟩ := hp
  induction height with
  | zero => omega
  | succ height ih =>
    have hlen := raster_length width height
    rw [Nat.mul_comm] at hlen
    rw [raster_succ]
    unfold idx
    by_cases hlast : p.1 = height
    · rw [List.getElem?_append_right (by rw [hlen, hlast]; omega), hlen, hlast,
        Nat.add_sub_cancel_left]
      simp [upto, hc, ← hlast]
    · have hlt : p.1 * width + p.2 < height * width := by
        have := Nat.mul_le_mul_right width (show p.1 + 1 ≤ height by omega)
        rw [Nat.succ_mul] at this
        omega
      rw [List.getElem?_append_left (by omega)]
      exact ih (by omega)

theorem raster_idx (width height : Nat) :
    (raster (upto 0 height) (upto 0 width)).map (idx width) = upto 0 (height * width) := by
  induction height with
  | zero => simp [raster]
  | succ height ih =>
    rw [raster_succ, List.map_append, ih, List.map_map, Nat.succ_mul]
    unfold upto idx
    simp only [Nat.sub_zero, Function.comp_def]
    rw [List.map_add_range', Nat.add_zero, ← List.range'_append]
    simp

/-- The bytes of a file by threes. -/
theorem upto_triples (image : Nat → UInt8) (n : Nat) : (upto 0 (3 * n)).map image =
    (upto 0 n).flatMap fun k => [image (k * 3 + 0), image (k * 3 + 1), image (k * 3 + 2)] := by
  induction n with
  | zero => rfl
  | succ n ih =>
    rw [upto_succ n, List.flatMap_append, ← ih, show 3 * (n + 1) = 3 * n + 1 + 1 + 1 from rfl,
      upto_succ, upto_succ, upto_succ]
    simp [Nat.mul_comm n 3]

/-- A header and three bytes for each pixel of the frame. -/
theorem shows_colours (width height : Nat) (colour : Pixel → Ppm.Colour) :
    Shows (ppmHeader width height ++ (raster (upto 0 height) (upto 0 width)).flatMap fun p =>
      (colour p).bytes) width height colour := by
  have hsize : ((raster (upto 0 height) (upto 0 width)).map colour).length = width * height := by
    rw [List.length_map, raster_length]
  have hread := Ppm.read_picture ⟨width, height, _, hsize⟩ (a := 10) (b := 32) (c := 32) (d := 10)
    (by decide) (by decide) (by decide) (by decide)
  refine ⟨⟨width, height, _, hsize⟩, ?_, rfl, rfl, ?_⟩
  · rw [← hread]
    congr 1
    dsimp only
    rw [List.flatMap_map]
    unfold ppmHeader
    simp [ascii, Decimal.numeral, Decimal.digit]
  · intro p hp
    unfold Ppm.Picture.at
    dsimp only
    rw [List.getElem?_map]
    exact congrArg (Option.map colour) (raster_get hp)

/-- The three bytes `write_ppm` finds for a pixel. -/
def colourAt (image : Buf UInt8) (width : Nat) (p : Pixel) : Ppm.Colour :=
  ⟨image (byteAt width p 0), image (byteAt width p 1), image (byteAt width p 2)⟩

/-- A `short` taken modulo 256 and narrowed is the low byte. -/
theorem charByte_signedShort (n : Nat) : charByte ((signedShort n).tmod 256) = UInt8.ofNat n := by
  have hv := Int.mul_tdiv_add_tmod (signedShort n) 256
  have hs : (signedShort n) % 256 = (n : Int) % 256 := by
    unfold signedShort
    split <;> omega
  have hmod : ((signedShort n).tmod 256) % 256 = (n : Int) % 256 := by omega
  have hnat : ((n : Int) % 256).toNat = n % 256 := by omega
  unfold charByte
  rw [hmod, hnat]
  apply UInt8.toNat_inj.mp
  simp

theorem shows_shorts (shorts : Buf Nat) (width height : Nat) :
    Shows (writePpmGreyscaleShort shorts width height) width height
      (fun p => Ppm.Colour.grey (UInt8.ofNat (shorts (idx width p)))) := by
  have h := shows_colours width height
    (fun p => Ppm.Colour.grey (UInt8.ofNat (shorts (idx width p))))
  unfold writePpmGreyscaleShort
  simp only [charByte_signedShort]
  exact h

/-- What the three writers write are pictures of the frame: in colour, in grey, and in the low
bytes of its values. -/
theorem files_show (image : Buf UInt8) (shorts : Buf Nat) (width height : Nat) :
    Shows (writePpm image width height (3 * (height * width))) width height
      (colourAt image width) ∧
    Shows (writePpmGreyscale image width height) width height
      (fun p => Ppm.Colour.grey (image (idx width p))) ∧
    Shows (writePpmGreyscaleShort shorts width height) width height
      (fun p => Ppm.Colour.grey (UInt8.ofNat (shorts (idx width p)))) := by
  refine ⟨?_, shows_colours width height fun p => Ppm.Colour.grey (image (idx width p)),
    shows_shorts shorts width height⟩
  have hbytes : (upto 0 (3 * (height * width))).map image =
      (raster (upto 0 height) (upto 0 width)).flatMap fun p => (colourAt image width p).bytes := by
    rw [upto_triples, ← raster_idx, List.flatMap_map]
    rfl
  unfold writePpm
  rw [hbytes]
  exact shows_colours width height _

/-- A file shows one picture only. -/
theorem Shows.unique {width' height' : Nat} (h : Shows file width height colour)
    (h' : Shows file width' height' colour') :
    width = width' ∧ height = height' ∧
      ∀ p, InFrame width height p → colour p = colour' p := by
  obtain ⟨picture, hread, rfl, rfl, hat⟩ := h
  obtain ⟨picture', hread', rfl, rfl, hat'⟩ := h'
  rw [hread] at hread'
  obtain rfl := Option.some.inj hread'
  refine ⟨rfl, rfl, fun p hp => ?_⟩
  have hboth := (hat p hp).symm.trans (hat' p hp)
  exact Option.some.inj hboth

theorem grey_inj {u v : UInt8} : Ppm.Colour.grey u = Ppm.Colour.grey v ↔ u = v := by
  constructor
  · intro h
    exact congrArg Ppm.Colour.red h
  · rintro rfl
    rfl

theorem ofNat_byte_eq (m n : Nat) : UInt8.ofNat m = UInt8.ofNat n ↔ m % 256 = n % 256 := by
  rw [← UInt8.toNat_inj]
  simp

/-- Two images of labels leave the same file exactly when they are of one size and no pixel's
values differ modulo 256. -/
theorem shortFiles_eq_iff (a b : Buf Nat) (width height width' height' : Nat) :
    writePpmGreyscaleShort a width height = writePpmGreyscaleShort b width' height' ↔
      width = width' ∧ height = height' ∧
        ∀ p, InFrame width height p → a (idx width p) % 256 = b (idx width p) % 256 := by
  constructor
  · intro h
    have ha := shows_shorts a width height
    have hb := shows_shorts b width' height'
    rw [h] at ha
    obtain ⟨rfl, rfl, hsame⟩ := ha.unique hb
    refine ⟨rfl, rfl, fun p hp => ?_⟩
    exact (ofNat_byte_eq _ _).mp (grey_inj.mp (hsame p hp))
  · rintro ⟨rfl, rfl, hsame⟩
    unfold writePpmGreyscaleShort
    congr 1
    refine List.flatMap_congr (fun p hp => ?_)
    have hin := mem_raster.mp hp
    have hframe : InFrame width height p := ⟨(mem_upto.mp hin.1).2, (mem_upto.mp hin.2).2⟩
    have hbyte := (ofNat_byte_eq _ _).mpr (hsame p hframe)
    dsimp only
    rw [charByte_signedShort, charByte_signedShort]
    unfold idx at hbyte
    rw [hbyte]

/-- `compare` is equality on the frame. -/
theorem compare_iff (a b : Buf Nat) (width height : Nat) : compare a b width height = true ↔
    ∀ p, InFrame width height p → a (idx width p) = b (idx width p) := by
  unfold compare
  rw [List.all_eq_true, Nat.mul_comm, ← raster_idx]
  simp only [List.mem_map, decide_eq_true_eq, forall_exists_index, and_imp,
    forall_apply_eq_imp_iff₂]
  refine forall_congr' (fun p => ?_)
  rw [mem_raster, mem_upto, mem_upto]
  simp [InFrame]

end Motion
