import Mathlib.Algebra.Group.Nat.Defs
import Mathlib.Data.List.Basic
import Mathlib.Logic.Function.Iterate

/-!
# Screenshots of a window

`screenshot.rs` on Windows: the frame of Windows.Graphics.Capture as it is mapped, converted and
cropped; the copy that GDI makes where that one fails or is blank; and the PNG that is written.  The
system's captures and the compression are parameters.
-/

namespace Victauri.Plugin.Screenshot

inductive Failure where
  | panicked (message : String)
  | failed (message : String)
  deriving DecidableEq

/-- Straight RGBA, four bytes a pixel, with its width and height. -/
structure Frame where
  rgba : List UInt8
  width : UInt32
  height : UInt32
  deriving DecidableEq

/-! ## PNG -/

def pngSignature : List UInt8 := [137, 80, 78, 71, 13, 10, 26, 10]

def pngBitDepth : UInt8 := 8

def pngColorTypeRgba : UInt8 := 6

def crc32Init : UInt32 := 0xFFFFFFFF

def crc32Polynomial : UInt32 := 0xEDB88320

/-- The body of the inner loop of `png_crc32`. -/
def crcStep (crc : UInt32) : UInt32 :=
  if crc &&& 1 ≠ 0 then (crc >>> 1) ^^^ crc32Polynomial else crc >>> 1

def pngCrc32 (data : List UInt8) : UInt32 :=
  data.foldl (fun crc byte => Nat.iterate crcStep 8 (crc ^^^ byte.toUInt32)) crc32Init ^^^ crc32Init

/-- `u32::to_be_bytes`. -/
def toBeBytes (n : UInt32) : List UInt8 :=
  [(n >>> 24).toUInt8, (n >>> 16).toUInt8, (n >>> 8).toUInt8, n.toUInt8]

def writePngChunk (out chunkType data : List UInt8) : Except Failure (List UInt8) :=
  if data.length < 2 ^ 32 then
    .ok (out ++ toBeBytes (UInt32.ofNat data.length) ++ chunkType ++ data ++
      toBeBytes (pngCrc32 (chunkType ++ data)))
  else .error (.failed s!"PNG chunk too large: {data.length} bytes")

def chunks (size : Nat) : Nat → List UInt8 → List (List UInt8)
  | 0, _ => []
  | count + 1, bytes => bytes.take size :: chunks size count (bytes.drop size)

/-- `chunks_exact`: what is left over at the end is dropped. -/
def chunksExact (size : Nat) (bytes : List UInt8) : List (List UInt8) :=
  chunks size (bytes.length / size) bytes

def encodePng (deflateCompress : List UInt8 → Except Failure (List UInt8)) (width height : UInt32)
    (rgba : List UInt8) : Except Failure (List UInt8) := do
  let ihdr := toBeBytes width ++ toBeBytes height ++ [pngBitDepth, pngColorTypeRgba, 0, 0, 0]
  let out ← writePngChunk pngSignature [73, 72, 68, 82] ihdr
  let rowLen := width.toNat * 4
  if rowLen = 0 then throw (.panicked "chunk size must be non-zero")
  let raw := (chunksExact rowLen rgba).flatMap fun row => 0 :: row
  let compressed ← deflateCompress raw
  let out ← writePngChunk out [73, 68, 65, 84] compressed
  writePngChunk out [73, 69, 78, 68] []

/-! ## The frame of the compositor -/

structure Crop where
  x : UInt32
  y : UInt32
  w : UInt32
  h : UInt32
  deriving DecidableEq

/-- One channel without its alpha, to the nearest. -/
def unpremultiply (channel alpha : UInt8) : UInt8 :=
  UInt8.ofNat (min ((channel.toNat * 255 + alpha.toNat / 2) / alpha.toNat) 255)

def convertPixel (b g r a : UInt8) : List UInt8 :=
  if a > 0 ∧ a < 255 then [unpremultiply r a, unpremultiply g a, unpremultiply b a, a]
  else [r, g, b, a]

def convertRow : List UInt8 → List UInt8
  | b :: g :: r :: a :: rest => convertPixel b g r a ++ convertRow rest
  | _ => []

/-- An operation on `usize` that is checked. -/
def checked (n : Nat) : Option Nat := if n < 2 ^ 64 then some n else none

/-- The bytes of one row inside the crop. -/
def rowBytes (data : List UInt8) (rowPitch x w row : Nat) : Except Failure (List UInt8) :=
  match (checked (row * rowPitch)).bind fun offset => checked (offset + x * 4) with
  | none => .error (.failed s!"screenshot buffer overflow: row {row}")
  | some start =>
      -- this sum is not checked and wraps
      let stop := (start + w * 4) % 2 ^ 64
      if start ≤ stop ∧ stop ≤ data.length then .ok ((data.drop start).take (stop - start))
      else .error (.failed "mapped frame smaller than RowPitch implies")

def convertRows (data : List UInt8) (rowPitch x w : Nat) : Nat → Nat → Except Failure (List UInt8)
  | 0, _ => .ok []
  | count + 1, row => do
      let src ← rowBytes data rowPitch x w row
      let out ← convertRows data rowPitch x w count (row + 1)
      return convertRow src ++ out

def convertBgraFrame (data : List UInt8) (rowPitch : Nat) (frameW frameH : UInt32) (crop : Crop) :
    Except Failure Frame :=
  if crop.w = 0 ∨ crop.h = 0 then
    .error (.failed s!"crop region has zero area ({crop.w}x{crop.h})")
  else if crop.x ≥ frameW ∨ crop.y ≥ frameH then
    .error (.failed
      s!"crop origin ({crop.x},{crop.y}) lies outside the {frameW}x{frameH} frame")
  else
    let w := min crop.w.toNat (frameW.toNat - crop.x.toNat)
    let h := min crop.h.toNat (frameH.toNat - crop.y.toNat)
    match (checked (w * 4)).bind fun row => checked (row * h) with
    | none => .error (.failed s!"screenshot buffer overflow: {w}x{h}")
    | some _ => do
        let out ← convertRows data rowPitch crop.x.toNat w h crop.y.toNat
        return ⟨out, UInt32.ofNat w, UInt32.ofNat h⟩

/-! ## Capturing -/

/-- `as_chunks::<4>` without the remainder. -/
def pixelsOf (bytes : List UInt8) : List (List UInt8) := chunksExact 4 bytes

def blankFrameReason (pixels : List UInt8) : Option String :=
  match pixelsOf pixels with
  | [] => none
  | first :: rest =>
      if (first :: rest).any fun p => p.take 3 ≠ first.take 3 then none
      else
        match first with
        | 0xFF :: 0xFF :: 0xFF :: _ => some "blank white"
        | 0x00 :: 0x00 :: 0x00 :: _ => some "blank (empty)"
        | _ => none

/-- A mapped texture: its rows follow each other `RowPitch` bytes apart. -/
structure Mapped where
  data : List UInt8
  rowPitch : Nat
  width : UInt32
  height : UInt32
  size : data.length = rowPitch * height.toNat
  fits : rowPitch * height.toNat < 2 ^ 64

/-- The pixels that GDI copied, in BGRA. -/
structure Copied where
  pixels : List UInt8
  width : UInt32
  height : UInt32
  size : pixels.length = 4 * (width.toNat * height.toNat)
  area : 0 < width.toNat ∧ 0 < height.toNat

def swapChannels : List UInt8 → List UInt8
  | b :: g :: r :: a :: rest => r :: g :: b :: a :: swapChannels rest
  | rest => rest

/-- The end of `capture_window_gdi_raw`, from the copy on; `hint` tells what kind of window it
is. -/
def captureWindowGdiRaw (hint : String) (copy : Except Failure Copied) : Except Failure Frame := do
  let copied ← copy
  let pixels := swapChannels copied.pixels
  match blankFrameReason pixels with
  | some reason =>
      throw (.failed (s!"window capture returned a {reason} {copied.width}x{copied.height} " ++
        s!"frame; {hint}. GDI capture (PrintWindow/BitBlt) cannot see transparent/composited " ++
        "windows and the Windows.Graphics.Capture path did not produce content either — the " ++
        "window may be genuinely blank, minimized, or this Windows build may lack capture " ++
        "support."))
  | none => return ⟨pixels, copied.width, copied.height⟩

def Failure.text : Failure → String
  | .panicked message => message
  | .failed message => message

/-- The compositor's frame inside the client area, and where there is none or it is blank the copy
of GDI. -/
def captureWindowRaw (mapped : Except Failure (Mapped × Crop)) (hint : String)
    (copy : Except Failure Copied) : Except Failure Frame :=
  let fallback (wgcFailure : String) :=
    match captureWindowGdiRaw hint copy with
    | .ok frame => .ok frame
    | .error e => .error (.failed
        s!"{e.text} (Windows.Graphics.Capture was tried first: {wgcFailure})")
  match mapped.bind fun (m, crop) => convertBgraFrame m.data m.rowPitch m.width m.height crop with
  | .ok frame =>
      if (blankFrameReason frame.rgba).isNone then .ok frame
      else fallback "WGC returned a uniform blank frame"
  | .error e => fallback e.text

/-- `capture_window`. -/
def captureWindow (deflateCompress : List UInt8 → Except Failure (List UInt8))
    (mapped : Except Failure (Mapped × Crop)) (hint : String) (copy : Except Failure Copied) :
    Except Failure (List UInt8) := do
  let frame ← captureWindowRaw mapped hint copy
  encodePng deflateCompress frame.width frame.height frame.rgba

end Victauri.Plugin.Screenshot
