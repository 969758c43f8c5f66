import Motion.Code.Blob
import Motion.Lib.Decimal

/-! The files write_ppm.cpp writes, as their bytes, and what compare.cpp compares. -/

namespace Motion

/-- The bytes of a text. -/
def ascii (text : List Char) : List UInt8 := text.map fun c => UInt8.ofNat c.toNat

/-- `outFile << "P6\n" << width << " " << height << " 255\n"`. -/
def ppmHeader (width height : Nat) : List UInt8 :=
  ascii ['P', '6', '\n'] ++ Decimal.numeral width ++ ascii [' '] ++ Decimal.numeral height ++
    ascii [' ', '2', '5', '5', '\n']

/-- `write_ppm`. -/
def writePpm (image : Buf UInt8) (width height size : Nat) : List UInt8 :=
  ppmHeader width height ++ (upto 0 size).map image

/-- `write_ppm_greyscale`. Its `size` is not used. -/
def writePpmGreyscale (image : Buf UInt8) (width height : Nat) : List UInt8 :=
  ppmHeader width height ++ (raster (upto 0 height) (upto 0 width)).flatMap fun p =>
    let val := image (p.1 * width + p.2)
    [val, val, val]

/-- What a `char` holds of an `int`, as the byte written. -/
def charByte (v : Int) : UInt8 := UInt8.ofNat (v % 256).toNat

/-- `write_ppm_greyscale_short`. Its `size` is not used; `%` has the sign of `v`. -/
def writePpmGreyscaleShort (image : Buf Nat) (width height : Nat) : List UInt8 :=
  ppmHeader width height ++ (raster (upto 0 height) (upto 0 width)).flatMap fun p =>
    let v := signedShort (image (p.1 * width + p.2))
    let val := charByte (v.tmod 256)
    [val, val, val]

/-- `compare`. -/
def compare (image1 image2 : Buf Nat) (width height : Nat) : Bool :=
  (upto 0 (width * height)).all fun i => image1 i = image2 i

end Motion
