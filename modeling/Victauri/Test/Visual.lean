import Mathlib.Algebra.Order.Group.Nat
import Mathlib.Data.List.Basic

/-!
# Comparing a screenshot with its baseline

`compare_in` and `compute_diff` of `visual.rs`.  A product of two `u32` panics where the build checks
for overflow and wraps where it does not; a panic is `none`.
-/

namespace Victauri.Test

inductive TestError where
  | visualRegression (message : String)
  | other (message : String)
  deriving DecidableEq

/-- `u32::saturating_add`. -/
def saturatingAdd32 (a b : UInt32) : UInt32 :=
  if a.toNat + b.toNat < 2 ^ 32 then a + b else UInt32.ofNat (2 ^ 32 - 1)

/-- `a * b` in `u32`. -/
def mul32 (overflowChecks : Bool) (a b : UInt32) : Option UInt32 :=
  if overflowChecks && decide (2 ^ 32 ≤ a.toNat * b.toNat) then none else some (a * b)

/-- `u8::abs_diff`. -/
def absDiff (a b : UInt8) : UInt8 := if a < b then b - a else a - b

structure MaskRegion where
  x : UInt32
  y : UInt32
  width : UInt32
  height : UInt32
  deriving DecidableEq

def MaskRegion.contains (m : MaskRegion) (px py : UInt32) : Bool :=
  decide (m.x ≤ px) && decide (px < saturatingAdd32 m.x m.width) &&
    decide (m.y ≤ py) && decide (py < saturatingAdd32 m.y m.height)

/-- An image of a decoder: four bytes for each pixel. -/
structure DecodedImage where
  width : UInt32
  height : UInt32
  rgba : Array UInt8
  size_eq : rgba.size = 4 * (width.toNat * height.toNat)

structure VisualDiff where
  matchPercentage : Float
  diffPixelCount : Nat
  totalPixels : Nat
  maskedPixels : Nat
  diffImagePath : Option String
  baselineCreated : Bool

structure VisualOptions where
  snapshotDir : String
  channelTolerance : UInt8
  thresholdPercent : Float
  generateDiffImage : Bool
  updateBaselines : Bool
  maskRegions : List MaskRegion
  platformBaselines : Bool

def VisualOptions.default : VisualOptions :=
  { snapshotDir := "tests/snapshots"
    channelTolerance := 2
    thresholdPercent := 0.1
    generateDiffImage := true
    updateBaselines := false
    maskRegions := []
    platformBaselines := true }

/-- What the comparison asks of its libraries and of the disk. -/
structure Platform where
  os : String
  join : String → String → String
  debug : String → String
  fixed2 : Float → String
  decodeBase64 : String → Except String ByteArray
  decodePng : ByteArray → Except TestError DecodedImage
  createDirAll : String → Except String Unit
  pathExists : String → Bool
  read : String → Except String ByteArray
  write : String → ByteArray → Except String Unit
  writePng : String → UInt32 → UInt32 → Array UInt8 → Except TestError Unit

def VisualOptions.effectiveSnapshotDir (p : Platform) (options : VisualOptions) : String :=
  if options.platformBaselines then p.join options.snapshotDir p.os else options.snapshotDir

/-! ## The pixels -/

/-- The body of the loop of `compute_diff` for a pixel outside every mask. -/
def channelsDiffer (current baseline : Array UInt8) (tolerance : UInt8) (offset : Nat)
    (hc : offset + 3 < current.size) (hb : offset + 3 < baseline.size) : Bool :=
  let dr := absDiff current[offset] baseline[offset]
  let dg := absDiff current[offset + 1] baseline[offset + 1]
  let db := absDiff current[offset + 2] baseline[offset + 2]
  let da := absDiff current[offset + 3] baseline[offset + 3]
  decide (tolerance < dr) || decide (tolerance < dg) || decide (tolerance < db) ||
    decide (tolerance < da)

/-- The test of the masks; the index of a pixel is cut to 32 bits. -/
def isMasked (masks : List MaskRegion) (width : UInt32) (i : Nat) : Bool :=
  !masks.isEmpty &&
    masks.any fun m => m.contains (UInt32.ofNat i % width) (UInt32.ofNat i / width)

/-- `for i in i..i + left`. -/
def computeDiffLoop (current baseline : DecodedImage) (tolerance : UInt8)
    (masks : List MaskRegion) : (left i : Nat) → (diffPositions : List Nat) →
    (maskedCount : Nat) → List Nat × Nat
  | 0, _, diffPositions, maskedCount => (diffPositions, maskedCount)
  | left + 1, i, diffPositions, maskedCount =>
      let offset := i * 4
      if h : offset + 3 < current.rgba.size ∧ offset + 3 < baseline.rgba.size then
        if isMasked masks current.width i then
          computeDiffLoop current baseline tolerance masks left (i + 1) diffPositions
            (maskedCount + 1)
        else if channelsDiffer current.rgba baseline.rgba tolerance offset h.1 h.2 then
          computeDiffLoop current baseline tolerance masks left (i + 1) (diffPositions ++ [i])
            maskedCount
        else
          computeDiffLoop current baseline tolerance masks left (i + 1) diffPositions maskedCount
      else (diffPositions, maskedCount)

def computeDiff (overflowChecks : Bool) (current baseline : DecodedImage) (tolerance : UInt8)
    (masks : List MaskRegion) : Option (List Nat × Nat) :=
  (mul32 overflowChecks current.width current.height).map fun pixelCount =>
    computeDiffLoop current baseline tolerance masks pixelCount.toNat 0 [] 0

/-- `diff_rgba` of `write_diff_image`: the pixels that differ in red. -/
def diffRgba (source : DecodedImage) (diffPositions : List Nat) : Array UInt8 :=
  diffPositions.foldl
    (fun rgba pos =>
      let offset := pos * 4
      if offset + 3 < rgba.size then
        (((rgba.setIfInBounds offset 255).setIfInBounds (offset + 1) 0).setIfInBounds
          (offset + 2) 0).setIfInBounds (offset + 3) 255
      else rgba)
    source.rgba

def writeDiffImage (p : Platform) (path : String) (source : DecodedImage)
    (diffPositions : List Nat) : Except TestError Unit :=
  p.writePng path source.width source.height (diffRgba source diffPositions)

/-! ## The comparison -/

def checkBaselineName (p : Platform) (name : String) : Except TestError Unit :=
  let plain := !name.isEmpty && name != ".." &&
    !name.toList.any (fun c => c = '/' || c = '\\' || c = ':') && name.toList.head? != some '/'
  if plain then .ok ()
  else
    .error (.other (s!"invalid baseline name {p.debug name}: " ++
      "it must be a plain file name, not a path"))

/-- `usize as f64`. -/
def toFloat (n : Nat) : Float := n.toUInt64.toFloat

def matchPercentage (differing totalPixels : Nat) : Float :=
  if totalPixels = 0 then 100 else (1 - toFloat differing / toFloat totalPixels) * 100

def VisualDiff.isMatch (d : VisualDiff) (thresholdPercent : Float) : Bool :=
  decide (100 - thresholdPercent ≤ d.matchPercentage)

/-- The numbers of a comparison. -/
structure Counts where
  diff : List Nat
  masked : Nat
  totalPixels : Nat

def count (overflowChecks : Bool) (current baseline : DecodedImage) (options : VisualOptions) :
    Option Counts := do
  let (diff, masked) ←
    computeDiff overflowChecks current baseline options.channelTolerance options.maskRegions
  let pixelCount ← mul32 overflowChecks current.width current.height
  return { diff, masked, totalPixels := pixelCount.toNat - masked }

/-- The path of the difference image, where one is written. -/
def saveDiffImage (p : Platform) (name : String) (options : VisualOptions)
    (current : DecodedImage) (diff : List Nat) : Except TestError (Option String) := do
  if !diff.isEmpty && options.generateDiffImage then
    let diffPath := p.join (options.effectiveSnapshotDir p) s!"{name}.diff.png"
    writeDiffImage p diffPath current diff
    return some diffPath
  else return none

/-- What `compare_in` returns once it has counted. -/
def decideMatch (p : Platform) (name : String) (options : VisualOptions) (current : DecodedImage)
    (c : Counts) : Except TestError VisualDiff := do
  let matchPercentage := matchPercentage c.diff.length c.totalPixels
  let diffImagePath ← saveDiffImage p name options current c.diff
  let result : VisualDiff :=
    { matchPercentage
      diffPixelCount := c.diff.length
      totalPixels := c.totalPixels
      maskedPixels := c.masked
      diffImagePath
      baselineCreated := false }
  if !result.isMatch options.thresholdPercent then
    .error (.visualRegression (s!"visual regression: {p.fixed2 (100 - matchPercentage)}% " ++
      s!"pixels differ (threshold: {p.fixed2 options.thresholdPercent}%)"))
  else .ok result

/-- The branch of `compare_in` that writes a baseline. -/
def createBaseline (p : Platform) (name : String) (options : VisualOptions) (ci : Bool)
    (baselinePath : String) (screenshot : ByteArray) : Except TestError VisualDiff := do
  let decoded ← p.decodePng screenshot
  match p.write baselinePath screenshot with
  | .error e => .error (.other s!"failed to write baseline: {e}")
  | .ok () =>
      if ci && !options.updateBaselines then
        .error (.other (s!"no baseline for '{name}' at {baselinePath}: wrote this run's " ++
          "screenshot there, but nothing was compared. Commit a baseline for this OS, or set " ++
          "update_baselines."))
      else
        .ok
          { matchPercentage := 100
            diffPixelCount := 0
            totalPixels := decoded.width.toNat * decoded.height.toNat
            maskedPixels := 0
            diffImagePath := none
            baselineCreated := true }

/-- The screenshot and the baseline, decoded. -/
def loadImages (p : Platform) (baselinePath : String) (screenshot : ByteArray) :
    Except TestError (DecodedImage × DecodedImage) := do
  match p.read baselinePath with
  | .error e => .error (.other s!"failed to read baseline: {e}")
  | .ok baselineBytes =>
      let current ← p.decodePng screenshot
      let baseline ← p.decodePng baselineBytes
      if current.width ≠ baseline.width ∨ current.height ≠ baseline.height then
        .error (.other (s!"screenshot size {current.width}x{current.height} doesn't match " ++
          s!"baseline {baseline.width}x{baseline.height}"))
      else .ok (current, baseline)

/-- `compare_in` up to the comparison: the result, or the two images to compare. -/
def prepare (p : Platform) (name screenshotBase64 : String) (options : VisualOptions) (ci : Bool) :
    Except TestError (VisualDiff ⊕ DecodedImage × DecodedImage) := do
  checkBaselineName p name
  match p.decodeBase64 screenshotBase64 with
  | .error e => .error (.other s!"failed to decode base64 screenshot: {e}")
  | .ok screenshot =>
      let snapDir := options.effectiveSnapshotDir p
      match p.createDirAll snapDir with
      | .error e => .error (.other s!"failed to create snapshot dir: {e}")
      | .ok () =>
          let baselinePath := p.join snapDir s!"{name}.png"
          if options.updateBaselines || !p.pathExists baselinePath then
            return .inl (← createBaseline p name options ci baselinePath screenshot)
          else return .inr (← loadImages p baselinePath screenshot)

def compareIn (overflowChecks : Bool) (p : Platform) (name screenshotBase64 : String)
    (options : VisualOptions) (ci : Bool) : Option (Except TestError VisualDiff) :=
  match prepare p name screenshotBase64 options ci with
  | .error e => some (.error e)
  | .ok (.inl created) => some (.ok created)
  | .ok (.inr (current, baseline)) =>
      (count overflowChecks current baseline options).map
        (decideMatch p name options current)

end Victauri.Test
