import Victauri.Core.Usize
import Victauri.Library.BufferWrites

/-!
# Filmstrips

`filmstrip.rs`: captured frames composed into one sheet, a grid of cells as large as the largest
frame.  A side is a `u32`, kept as a number below `2 ^ 32`.
-/

namespace Victauri.Plugin.Filmstrip

open Victauri.Core Victauri.Library

/-- A frame whose buffer matches its sides. -/
structure Frame where
  rgba : List UInt8
  w : Nat
  h : Nat
  length_rgba : rgba.length = w * h * 4
  w_pos : 0 < w
  h_pos : 0 < h
  w_lt : w < 2 ^ 32
  h_lt : h < 2 ^ 32

def expectedBytes (w h : Nat) : Option Nat := do
  let pixels ← checkedMul w h
  checkedMul pixels 4

theorem expectedBytes_eq_some {w h n : Nat} (heq : expectedBytes w h = some n) :
    n = w * h * 4 := by
  obtain ⟨pixels, hpixels, hbytes⟩ := Option.bind_eq_some_iff.mp heq
  obtain ⟨-, rfl⟩ := checkedMul_eq_some.mp hpixels
  exact (checkedMul_eq_some.mp hbytes).2

/-- `Frame::new`. -/
def Frame.new (rgba : List UInt8) (w h : Fin (2 ^ 32)) : Option Frame :=
  match hexpected : expectedBytes w h with
  | none => none
  | some expected =>
      if hvalid : rgba.length = expected ∧ 0 < w.val ∧ 0 < h.val then
        some {
          rgba := rgba
          w := w
          h := h
          length_rgba := hvalid.1.trans (expectedBytes_eq_some hexpected)
          w_pos := hvalid.2.1
          h_pos := hvalid.2.2
          w_lt := w.isLt
          h_lt := h.isLt }
      else none

def maxSheetBytes : Nat := 512 * 1024 * 1024

/-- `usize::div_ceil`. -/
def divCeil (n d : Nat) : Nat := if 0 < n % d then n / d + 1 else n / d

/-- `cols.max(1).min(n)`. -/
def clampCols (cols n : Nat) : Nat := min (max cols 1) n

/-- `u32::try_from`. -/
def tryU32 (n : Nat) : Option Nat := if n < 2 ^ 32 then some n else none

/-- A side of the sheet: `count` cells, with a gap around each. -/
def sheetSide (count cell gap : Nat) : Option Nat := do
  let cells ← checkedMul count cell
  let gaps ← checkedMul (← checkedAdd count 1) gap
  checkedAdd cells gaps

def sheetSize (cellW cellH n cols gap : Nat) : Option (Nat × Nat × Nat) :=
  if n = 0 then none
  else do
    let cols := clampCols cols n
    let rows := divCeil n cols
    let outW ← sheetSide cols cellW gap
    let outH ← sheetSide rows cellH gap
    let total ← checkedMul (← checkedMul outW outH) 4
    return (← tryU32 outW, ← tryU32 outH, total)

def checkSheet (cellW cellH n cols gap : Nat) : Except String (Nat × Nat × Nat) :=
  match sheetSize cellW cellH n cols gap with
  | some (w, h, total) =>
      if total ≤ maxSheetBytes then .ok (w, h, total)
      else .error (s!"a filmstrip of {n} frames of {cellW}x{cellH} would be a {w}x{h} sheet " ++
        s!"             ({total / (1024 * 1024)} MiB), over the " ++
        s!"{maxSheetBytes / (1024 * 1024)} MiB limit")
  | none => .error s!"a filmstrip of {n} frames of {cellW}x{cellH} is too large to build"

/-! ## The copy -/

/-- Every chunk of four bytes becomes the background. -/
def fillChunks (bg : Vector UInt8 4) : List UInt8 → List UInt8
  | _ :: _ :: _ :: _ :: out => bg.toList ++ fillChunks bg out
  | out => out

/-- The grid of a sheet `outW` pixels wide. -/
structure Grid where
  cols : Nat
  cellW : Nat
  cellH : Nat
  gap : Nat
  outW : Nat

namespace Grid

/-- The left side of the cell of frame `i`. -/
def x0 (g : Grid) (i : Nat) : Nat := g.gap + i % g.cols * (g.cellW + g.gap)

/-- The upper side of the cell of frame `i`. -/
def y0 (g : Grid) (i : Nat) : Nat := g.gap + i / g.cols * (g.cellH + g.gap)

-- for a row of a frame, every sum up to this one is at most the size of the sheet, a `usize`
def dstStart (g : Grid) (i y : Nat) : Nat := (g.y0 i + y) * (g.outW * 4) + g.x0 i * 4

/-- The guard on the copy of row `y`. -/
def rowFits (g : Grid) (outLen : Nat) (frame : Frame) (i y : Nat) : Bool :=
  g.dstStart i y + frame.w * 4 ≤ outLen ∧ y * (frame.w * 4) + frame.w * 4 ≤ frame.rgba.length

/-- Row `y` and where it goes. -/
def rowWrite (g : Grid) (frame : Frame) (i y : Nat) : BufferWrites.Write UInt8 :=
  { start := g.dstStart i y
    data := (frame.rgba.drop (y * (frame.w * 4))).take (frame.w * 4) }

def copyRow (g : Grid) (frame : Frame) (i : Nat) (out : List UInt8) (y : Nat) : List UInt8 :=
  if g.rowFits out.length frame i y then (g.rowWrite frame i y).apply out else out

def copyFrame (g : Grid) (out : List UInt8) (numbered : Frame × Nat) : List UInt8 :=
  (List.range numbered.1.h).foldl (g.copyRow numbered.1 numbered.2) out

end Grid

def compose (frames : List Frame) (cols gap : Nat) (bg : Vector UInt8 4) :
    Except String (List UInt8 × Nat × Nat) := do
  let n := frames.length
  let cellW ← (frames.map Frame.w).max?.elim (throw "no frames to compose") pure
  let cellH ← (frames.map Frame.h).max?.elim (throw "no frames to compose") pure
  let (sheetW, sheetH, total) ← checkSheet cellW cellH n cols gap
  let grid : Grid :=
    { cols := clampCols cols n, cellW := cellW, cellH := cellH, gap := gap, outW := sheetW }
  let out := fillChunks bg (List.replicate total 0)
  return (frames.zipIdx.foldl grid.copyFrame out, sheetW, sheetH)

end Victauri.Plugin.Filmstrip
