import Mathlib.Data.List.Enum
import Victauri.Plugin.Filmstrip

/-!
# Where the pixels of a filmstrip come from

Every row of every frame fits, rows of different cells are apart, and so a pixel of the sheet is that
of the one frame that has it, or background.
-/

namespace Victauri.Plugin.Filmstrip

open Victauri.Core Victauri.Library

/-! ## Sizes -/

theorem sheetSide_eq_some {count cell gap side : Nat}
    (h : sheetSide count cell gap = some side) : side = count * cell + (count + 1) * gap := by
  obtain ⟨cells, hcells, h⟩ := Option.bind_eq_some_iff.mp h
  obtain ⟨next, hnext, h⟩ := Option.bind_eq_some_iff.mp h
  obtain ⟨gaps, hgaps, h⟩ := Option.bind_eq_some_iff.mp h
  obtain ⟨-, rfl⟩ := checkedMul_eq_some.mp hcells
  obtain ⟨-, rfl⟩ := checkedAdd_eq_some.mp hnext
  obtain ⟨-, rfl⟩ := checkedMul_eq_some.mp hgaps
  exact (checkedAdd_eq_some.mp h).2

theorem tryU32_eq_some {n m : Nat} (h : tryU32 n = some m) : m = n := by
  rw [tryU32] at h
  split_ifs at h
  exact (Option.some.inj h).symm

/-- What a sheet that is built measures. -/
theorem checkSheet_ok {cellW cellH n cols gap w h total : Nat}
    (hsize : checkSheet cellW cellH n cols gap = .ok (w, h, total)) :
    n ≠ 0 ∧ w = clampCols cols n * cellW + (clampCols cols n + 1) * gap ∧
      h = divCeil n (clampCols cols n) * cellH + (divCeil n (clampCols cols n) + 1) * gap ∧
      total = w * h * 4 := by
  rw [checkSheet] at hsize
  cases hsheet : sheetSize cellW cellH n cols gap with
  | none =>
    rw [hsheet] at hsize
    cases hsize
  | some size =>
    rw [hsheet] at hsize
    dsimp only at hsize
    split_ifs at hsize
    cases hsize
    rw [sheetSize] at hsheet
    split_ifs at hsheet with hnone
    obtain ⟨outW, hw, hsheet⟩ := Option.bind_eq_some_iff.mp hsheet
    obtain ⟨outH, hh, hsheet⟩ := Option.bind_eq_some_iff.mp hsheet
    obtain ⟨pixels, hpixels, hsheet⟩ := Option.bind_eq_some_iff.mp hsheet
    obtain ⟨bytes, hbytes, hsheet⟩ := Option.bind_eq_some_iff.mp hsheet
    obtain ⟨w', hw', hsheet⟩ := Option.bind_eq_some_iff.mp hsheet
    obtain ⟨h', hh', hsheet⟩ := Option.bind_eq_some_iff.mp hsheet
    cases hsheet
    obtain rfl := tryU32_eq_some hw'
    obtain rfl := tryU32_eq_some hh'
    obtain ⟨-, rfl⟩ := checkedMul_eq_some.mp hpixels
    exact ⟨hnone, sheetSide_eq_some hw, sheetSide_eq_some hh, (checkedMul_eq_some.mp hbytes).2⟩

theorem clampCols_pos {cols n : Nat} (h : n ≠ 0) : 0 < clampCols cols n := by
  rw [clampCols]
  omega

theorem div_lt_divCeil {i n d : Nat} (hi : i < n) (hd : 0 < d) : i / d < divCeil n d := by
  have hn := Nat.div_add_mod n d
  rw [divCeil]
  split_ifs with hpart
  · exact Nat.lt_succ_of_le (Nat.div_le_div_right (Nat.le_of_lt hi))
  · rw [Nat.div_lt_iff_lt_mul hd, Nat.mul_comm]
    omega

/-! ## The grid -/

/-- A grid whose rows are enough for `n` frames, on a sheet that is as large as it. -/
structure Grid.Sized (g : Grid) (n outH : Nat) : Prop where
  cols_pos : 0 < g.cols
  outW_eq : g.outW = g.cols * g.cellW + (g.cols + 1) * g.gap
  outH_eq : ∃ rows, outH = rows * g.cellH + (rows + 1) * g.gap ∧ ∀ i < n, i / g.cols < rows

/-- The pixel is in the cell of frame `i`. -/
def Grid.InCell (g : Grid) (i x y : Nat) : Prop :=
  (g.x0 i ≤ x ∧ x < g.x0 i + g.cellW) ∧ g.y0 i ≤ y ∧ y < g.y0 i + g.cellH

/-- The place behind a cell is on the sheet. -/
theorem cell_end_le {place count cell gap : Nat} (h : place < count) :
    gap + place * (cell + gap) + cell ≤ count * cell + (count + 1) * gap := by
  have hmul := Nat.mul_le_mul_right (cell + gap) (Nat.succ_le_of_lt h)
  rw [Nat.succ_mul] at hmul
  calc gap + place * (cell + gap) + cell
      ≤ place * (cell + gap) + (cell + gap) := by omega
    _ ≤ count * (cell + gap) := hmul
    _ = count * cell + count * gap := Nat.mul_add _ _ _
    _ ≤ count * cell + (count + 1) * gap := by
        rw [Nat.succ_mul]
        omega

/-- Where a cell is tells its number in the row or column. -/
theorem cell_place {place cell gap x : Nat} (hlow : gap + place * (cell + gap) ≤ x)
    (hhigh : x < gap + place * (cell + gap) + cell) : (x - gap) / (cell + gap) = place := by
  rw [Nat.div_eq_iff (by omega)]
  omega

namespace Grid

theorem x0_add_le {g : Grid} {n outH : Nat} (h : g.Sized n outH) (i : Nat) :
    g.x0 i + g.cellW ≤ g.outW := by
  rw [h.outW_eq]
  exact cell_end_le (Nat.mod_lt i h.cols_pos)

theorem y0_add_le {g : Grid} {n outH : Nat} (h : g.Sized n outH) {i : Nat} (hi : i < n) :
    g.y0 i + g.cellH ≤ outH := by
  obtain ⟨rows, rfl, hrows⟩ := h.outH_eq
  exact cell_end_le (hrows i hi)

/-- No pixel is in two cells. -/
theorem inCell_unique {g : Grid} {i j x y : Nat} (hi : g.InCell i x y) (hj : g.InCell j x y) :
    i = j := by
  obtain ⟨⟨hxi, hxi'⟩, hyi, hyi'⟩ := hi
  obtain ⟨⟨hxj, hxj'⟩, hyj, hyj'⟩ := hj
  have hcol : i % g.cols = j % g.cols := (cell_place hxi hxi').symm.trans (cell_place hxj hxj')
  have hrow : i / g.cols = j / g.cols := (cell_place hyi hyi').symm.trans (cell_place hyj hyj')
  calc i = g.cols * (i / g.cols) + i % g.cols := (Nat.div_add_mod i g.cols).symm
    _ = g.cols * (j / g.cols) + j % g.cols := by rw [hcol, hrow]
    _ = j := Nat.div_add_mod j g.cols

end Grid

/-! ## Rows -/

/-- A byte of a row, told by its pixel. -/
theorem mem_row {width x y len k : Nat} (hfit : x + len ≤ width) :
    y * (width * 4) + x * 4 ≤ k ∧ k < y * (width * 4) + x * 4 + len * 4 ↔
      k / 4 / width = y ∧ x ≤ k / 4 % width ∧ k / 4 % width < x + len := by
  have hpixel : y * (width * 4) + x * 4 ≤ k ∧ k < y * (width * 4) + x * 4 + len * 4 ↔
      y * width + x ≤ k / 4 ∧ k / 4 < y * width + x + len := by
    rw [← Nat.mul_assoc]
    omega
  rw [hpixel]
  generalize k / 4 = p
  have hp := Nat.div_add_mod p width
  rw [Nat.mul_comm] at hp
  constructor
  · rintro ⟨hlow, hhigh⟩
    have hdiv : p / width = y := by
      rw [Nat.div_eq_iff (by omega)]
      omega
    rw [hdiv] at hp
    exact ⟨hdiv, by omega, by omega⟩
  · rintro ⟨rfl, hlow, hhigh⟩
    omega

/-- A row of a frame is in the frame's buffer. -/
theorem Frame.row_le (frame : Frame) {y : Nat} (hy : y < frame.h) :
    y * (frame.w * 4) + frame.w * 4 ≤ frame.rgba.length := by
  have hmul := Nat.mul_le_mul_right (frame.w * 4) (Nat.succ_le_of_lt hy)
  rw [Nat.succ_mul] at hmul
  rw [frame.length_rgba, Nat.mul_comm frame.w frame.h, Nat.mul_assoc]
  exact hmul

namespace Grid

/-- A frame that fits in the cells of a grid, and its number. -/
structure Fits (g : Grid) (n outH : Nat) (frame : Frame) (i : Nat) : Prop where
  sized : g.Sized n outH
  w_le : frame.w ≤ g.cellW
  h_le : frame.h ≤ g.cellH
  lt : i < n

theorem length_rowWrite (g : Grid) (frame : Frame) (i : Nat) {y : Nat} (hy : y < frame.h) :
    (g.rowWrite frame i y).data.length = frame.w * 4 := by
  have hrow := frame.row_le hy
  simp only [rowWrite, List.length_take, List.length_drop]
  omega

theorem covers_rowWrite {g : Grid} {n outH : Nat} {frame : Frame} {i : Nat}
    (h : g.Fits n outH frame i) {y : Nat} (hy : y < frame.h) (k : Nat) :
    (g.rowWrite frame i y).Covers k ↔ k / 4 / g.outW = g.y0 i + y ∧
      g.x0 i ≤ k / 4 % g.outW ∧ k / 4 % g.outW < g.x0 i + frame.w := by
  have hright := x0_add_le h.sized i
  have hw := h.w_le
  rw [BufferWrites.Write.Covers, BufferWrites.Write.stop, length_rowWrite g frame i hy]
  exact mem_row (by omega)

/-- Every row is on the sheet. -/
theorem stop_rowWrite_le {g : Grid} {n outH : Nat} {frame : Frame} {i : Nat}
    (h : g.Fits n outH frame i) {y : Nat} (hy : y < frame.h) :
    (g.rowWrite frame i y).stop ≤ g.outW * outH * 4 := by
  have hright := x0_add_le h.sized i
  have hlower := y0_add_le h.sized h.lt
  have hw := h.w_le
  have hh := h.h_le
  have hrows : (g.y0 i + y + 1) * g.outW ≤ outH * g.outW := Nat.mul_le_mul_right _ (by omega)
  rw [Nat.add_mul, Nat.one_mul] at hrows
  rw [BufferWrites.Write.stop, length_rowWrite g frame i hy]
  change (g.y0 i + y) * (g.outW * 4) + g.x0 i * 4 + frame.w * 4 ≤ _
  rw [← Nat.mul_assoc, Nat.mul_comm g.outW outH]
  omega

/-- The guard on the copy of a row never fails. -/
theorem rowFits_eq_true {g : Grid} {n outH : Nat} {frame : Frame} {i : Nat}
    (h : g.Fits n outH frame i) {y : Nat} (hy : y < frame.h) :
    g.rowFits (g.outW * outH * 4) frame i y = true := by
  have hstop := stop_rowWrite_le h hy
  rw [BufferWrites.Write.stop, length_rowWrite g frame i hy] at hstop
  rw [rowFits, decide_eq_true_eq]
  exact ⟨hstop, frame.row_le hy⟩

/-- The rows of a frame, in the order in which they are copied. -/
def frameWrites (g : Grid) (numbered : Frame × Nat) : List (BufferWrites.Write UInt8) :=
  (List.range numbered.1.h).map (g.rowWrite numbered.1 numbered.2)

theorem copyFrame_eq {g : Grid} {n outH : Nat} {frame : Frame} {i : Nat}
    (h : g.Fits n outH frame i) {out : List UInt8} (hout : out.length = g.outW * outH * 4) :
    g.copyFrame out (frame, i) = BufferWrites.applyAll (g.frameWrites (frame, i)) out := by
  have hrow : ∀ y ∈ List.range frame.h, y < frame.h := fun y hy => List.mem_range.mp hy
  rw [copyFrame, frameWrites, ← List.flatMap_singleton' (List.map _ _), List.flatMap_map]
  refine BufferWrites.foldl_eq_applyAll ?_ ?_ hout
  · intro y hy w hw
    obtain rfl := List.mem_singleton.mp hw
    exact stop_rowWrite_le h (hrow y hy)
  · intro out' hout' y hy
    rw [copyRow, hout', rowFits_eq_true h (hrow y hy), if_pos rfl]
    rfl

end Grid

/-! ## The writes of a sheet -/

namespace Grid

/-- What a row covers is in the frame's cell. -/
theorem inCell_of_covers {g : Grid} {n outH : Nat} {frame : Frame} {i : Nat}
    (h : g.Fits n outH frame i) {y k : Nat} (hy : y < frame.h)
    (hk : (g.rowWrite frame i y).Covers k) : g.InCell i (k / 4 % g.outW) (k / 4 / g.outW) := by
  obtain ⟨hrow, hlow, hhigh⟩ := (covers_rowWrite h hy k).mp hk
  have hw := h.w_le
  have hh := h.h_le
  refine ⟨⟨hlow, ?_⟩, ?_, ?_⟩
  · omega
  · rw [hrow]
    exact Nat.le_add_right _ _
  · rw [hrow]
    omega

/-- No byte is written twice. -/
theorem writes_apart {g : Grid} {n outH : Nat} {frames : List Frame}
    (h : ∀ numbered ∈ frames.zipIdx, g.Fits n outH numbered.1 numbered.2) (k : Nat) :
    (frames.zipIdx.flatMap g.frameWrites).Pairwise fun w w' => ¬(w.Covers k ∧ w'.Covers k) := by
  rw [List.pairwise_flatMap]
  constructor
  · intro numbered hmem
    rw [frameWrites, List.pairwise_map]
    refine List.Pairwise.imp_of_mem ?_ List.pairwise_lt_range
    rintro y y' hy hy' hlt ⟨hk, hk'⟩
    have hrow := ((covers_rowWrite (h numbered hmem) (List.mem_range.mp hy) k).mp hk).1
    have hrow' := ((covers_rowWrite (h numbered hmem) (List.mem_range.mp hy') k).mp hk').1
    omega
  · have hnumbers : frames.zipIdx.Pairwise fun a b => a.2 < b.2 := by
      rw [← List.pairwise_map (R := (· < ·)), List.zipIdx_map_snd]
      exact List.pairwise_lt_range'
    refine List.Pairwise.imp_of_mem ?_ hnumbers
    rintro numbered numbered' hmem hmem' hlt w hw w' hw' ⟨hk, hk'⟩
    obtain ⟨y, hy, rfl⟩ := List.mem_map.mp hw
    obtain ⟨y', hy', rfl⟩ := List.mem_map.mp hw'
    have hcell := inCell_of_covers (h numbered hmem) (List.mem_range.mp hy) hk
    have hcell' := inCell_of_covers (h numbered' hmem') (List.mem_range.mp hy') hk'
    exact absurd (inCell_unique hcell hcell') (Nat.ne_of_lt hlt)

theorem stop_writes_le {g : Grid} {n outH : Nat} {frames : List Frame}
    (h : ∀ numbered ∈ frames.zipIdx, g.Fits n outH numbered.1 numbered.2) :
    ∀ numbered ∈ frames.zipIdx, ∀ w ∈ g.frameWrites numbered, w.stop ≤ g.outW * outH * 4 := by
  intro numbered hmem w hw
  obtain ⟨y, hy, rfl⟩ := List.mem_map.mp hw
  exact stop_rowWrite_le (h numbered hmem) (List.mem_range.mp hy)

/-- The loop over the frames writes every row of every frame. -/
theorem foldl_copyFrame {g : Grid} {n outH : Nat} {frames : List Frame}
    (h : ∀ numbered ∈ frames.zipIdx, g.Fits n outH numbered.1 numbered.2) {out : List UInt8}
    (hout : out.length = g.outW * outH * 4) :
    frames.zipIdx.foldl g.copyFrame out =
      BufferWrites.applyAll (frames.zipIdx.flatMap g.frameWrites) out := by
  refine BufferWrites.foldl_eq_applyAll (stop_writes_le h) ?_ hout
  intro out' hout' numbered hmem
  exact copyFrame_eq (h numbered hmem) hout'

end Grid

/-! ## Pixels -/

/-- A pixel of a buffer of rows of `w` pixels. -/
def pixel (rgba : List UInt8) (w x y : Nat) : List UInt8 := (rgba.drop ((y * w + x) * 4)).take 4

theorem pixel_congr {rgba rgba' : List UInt8} {w x y w' x' y' : Nat}
    (h : ∀ c < 4, rgba[(y * w + x) * 4 + c]? = rgba'[(y' * w' + x') * 4 + c]?) :
    pixel rgba w x y = pixel rgba' w' x' y' := by
  apply List.ext_getElem?
  intro c
  rw [pixel, pixel, List.getElem?_take, List.getElem?_take, List.getElem?_drop,
    List.getElem?_drop]
  split_ifs with hc
  · exact h c hc
  · rfl

theorem fillChunks_succ (bg : Vector UInt8 4) (pixels : Nat) :
    fillChunks bg (List.replicate ((pixels + 1) * 4) 0) =
      bg.toList ++ fillChunks bg (List.replicate (pixels * 4) 0) := by
  rw [Nat.succ_mul]
  rfl

theorem length_fillChunks (bg : Vector UInt8 4) (pixels : Nat) :
    (fillChunks bg (List.replicate (pixels * 4) 0)).length = pixels * 4 := by
  induction pixels with
  | zero => rfl
  | succ pixels ih =>
    rw [fillChunks_succ, List.length_append, ih, Vector.length_toList]
    omega

theorem pixel_fillChunks (bg : Vector UInt8 4) {pixels w x y : Nat} (h : y * w + x < pixels) :
    pixel (fillChunks bg (List.replicate (pixels * 4) 0)) w x y = bg.toList := by
  rw [pixel]
  generalize y * w + x = p at h
  have hlength : bg.toList.length = 4 := Vector.length_toList
  induction pixels generalizing p with
  | zero => omega
  | succ pixels ih =>
    rw [fillChunks_succ]
    cases p with
    | zero => exact List.take_left' hlength
    | succ p =>
      rw [Nat.succ_mul, Nat.add_comm, ← List.drop_drop, List.drop_left' hlength]
      exact ih p (Nat.lt_of_succ_lt_succ h)

/-- What a sheet shows. -/
structure Shows (g : Grid) (frames : List Frame) (bg : Vector UInt8 4) (out : List UInt8)
    (outH : Nat) : Prop where
  length : out.length = g.outW * outH * 4
  /-- A frame is in its cell, and the cell on the sheet. -/
  inside : ∀ i frame, frames[i]? = some frame → frame.w ≤ g.cellW ∧ frame.h ≤ g.cellH ∧
    g.x0 i + g.cellW ≤ g.outW ∧ g.y0 i + g.cellH ≤ outH
  frame : ∀ i frame, frames[i]? = some frame → ∀ x < frame.w, ∀ y < frame.h,
    pixel out g.outW (g.x0 i + x) (g.y0 i + y) = pixel frame.rgba frame.w x y
  apart : ∀ i j x y, g.InCell i x y → g.InCell j x y → i = j
  background : ∀ x < g.outW, ∀ y < outH,
    (∀ i frame, frames[i]? = some frame →
      ¬((g.x0 i ≤ x ∧ x < g.x0 i + frame.w) ∧ g.y0 i ≤ y ∧ y < g.y0 i + frame.h)) →
    pixel out g.outW x y = bg.toList
  /-- The guard on the copy of a row holds. -/
  guarded : ∀ i frame, frames[i]? = some frame → ∀ y < frame.h,
    g.rowFits out.length frame i y = true

section Sheet

variable {g : Grid} {frames : List Frame} {outH : Nat}

/-- A pixel of a row, in the buffer of its frame. -/
theorem getElem?_rowWrite (g : Grid) (frame : Frame) (i : Nat) {x y c : Nat} (hx : x < frame.w)
    (hc : c < 4) :
    (g.rowWrite frame i y).data[x * 4 + c]? = frame.rgba[(y * frame.w + x) * 4 + c]? := by
  have hlt : x * 4 + c < frame.w * 4 := by omega
  change ((frame.rgba.drop (y * (frame.w * 4))).take (frame.w * 4))[x * 4 + c]? = _
  rw [List.getElem?_take_of_lt hlt, List.getElem?_drop, ← Nat.mul_assoc]
  congr 1
  omega

/-- The pixel and its bytes. -/
theorem div_pixel {width x y c : Nat} (hx : x < width) (hc : c < 4) :
    ((y * width + x) * 4 + c) / 4 / width = y ∧ ((y * width + x) * 4 + c) / 4 % width = x := by
  have hpixel : ((y * width + x) * 4 + c) / 4 = y * width + x := by omega
  rw [hpixel, Nat.mul_comm y width]
  constructor
  · rw [Nat.mul_add_div (Nat.zero_lt_of_lt hx), Nat.div_eq_of_lt hx, Nat.add_zero]
  · rw [Nat.mul_add_mod, Nat.mod_eq_of_lt hx]

theorem shows_foldl (h : ∀ numbered ∈ frames.zipIdx, g.Fits frames.length outH numbered.1 numbered.2)
    (bg : Vector UInt8 4) :
    Shows g frames bg
      (frames.zipIdx.foldl g.copyFrame
        (fillChunks bg (List.replicate (g.outW * outH * 4) 0))) outH := by
  have hfits : ∀ {i : Nat} {frame : Frame}, frames[i]? = some frame →
      g.Fits frames.length outH frame i :=
    fun hat => h _ (List.mk_mem_zipIdx_iff_getElem?.mpr hat)
  have hlength := length_fillChunks bg (g.outW * outH)
  have hstop : ∀ w ∈ frames.zipIdx.flatMap g.frameWrites,
      w.stop ≤ (fillChunks bg (List.replicate (g.outW * outH * 4) 0)).length := by
    rw [hlength]
    exact List.forall_mem_flatMap.mpr (Grid.stop_writes_le h)
  rw [Grid.foldl_copyFrame h hlength]
  have hout := (BufferWrites.length_applyAll hstop).trans hlength
  refine ⟨hout, ?_, ?_, ?_, ?_, ?_⟩
  · intro i frame hat
    have hframe := hfits hat
    exact ⟨hframe.w_le, hframe.h_le, Grid.x0_add_le hframe.sized i,
      Grid.y0_add_le hframe.sized hframe.lt⟩
  · intro i frame hat x hx y hy
    have hframe := hfits hat
    have hright := Grid.x0_add_le hframe.sized i
    have hw := hframe.w_le
    apply pixel_congr
    intro c hc
    obtain ⟨hrow, hcol⟩ := div_pixel (y := g.y0 i + y) (show g.x0 i + x < g.outW by omega) hc
    have hmem : g.rowWrite frame i y ∈ frames.zipIdx.flatMap g.frameWrites := by
      apply List.mem_flatMap.mpr
      exact ⟨(frame, i), List.mk_mem_zipIdx_iff_getElem?.mpr hat,
        List.mem_map_of_mem (List.mem_range.mpr hy)⟩
    have hcovers : (g.rowWrite frame i y).Covers
        (((g.y0 i + y) * g.outW + (g.x0 i + x)) * 4 + c) := by
      rw [Grid.covers_rowWrite hframe hy, hrow, hcol]
      omega
    rw [BufferWrites.getElem?_applyAll_of_covers hstop (Grid.writes_apart h _) hmem hcovers,
      ← getElem?_rowWrite g frame i hx hc]
    congr 1
    change _ - ((g.y0 i + y) * (g.outW * 4) + g.x0 i * 4) = _
    rw [← Nat.mul_assoc]
    omega
  · intro i j x y hi hj
    exact Grid.inCell_unique hi hj
  · intro x hx y hy hnone
    have hpixel : y * g.outW + x < g.outW * outH := by
      have hmul := Nat.mul_le_mul_right g.outW (Nat.succ_le_of_lt hy)
      rw [Nat.succ_mul, Nat.mul_comm outH] at hmul
      omega
    rw [← pixel_fillChunks bg hpixel]
    apply pixel_congr
    intro c hc
    apply BufferWrites.getElem?_applyAll_of_not_covers hstop
    intro w hw hcovers
    obtain ⟨⟨frame, i⟩, hnumbered, hrow⟩ := List.mem_flatMap.mp hw
    obtain ⟨row, hrange, rfl⟩ := List.mem_map.mp hrow
    have hat := List.mk_mem_zipIdx_iff_getElem?.mp hnumbered
    obtain ⟨hdiv, hmod⟩ := div_pixel (y := y) hx hc
    have hplace := (Grid.covers_rowWrite (hfits hat) (List.mem_range.mp hrange) _).mp hcovers
    rw [hdiv, hmod] at hplace
    have hlt : row < frame.h := List.mem_range.mp hrange
    apply hnone i frame hat
    omega
  · intro i frame hat y hy
    rw [hout]
    exact Grid.rowFits_eq_true (hfits hat) hy

end Sheet

/-- The widest and the tallest of the frames. -/
def maxSide (sides : List Nat) : Nat := sides.max?.getD 0

def gridOf (frames : List Frame) (cols gap outW : Nat) : Grid :=
  { cols := clampCols cols frames.length
    cellW := maxSide (frames.map Frame.w)
    cellH := maxSide (frames.map Frame.h)
    gap := gap
    outW := outW }

theorem max?_eq {frames : List Frame} (hne : frames ≠ []) (side : Frame → Nat) :
    (frames.map side).max? = some (maxSide (frames.map side)) := by
  have hsides : frames.map side ≠ [] := by
    rw [ne_eq, List.map_eq_nil_iff]
    exact hne
  obtain ⟨m, hm⟩ := Option.isSome_iff_exists.mp (List.isSome_max?_of_ne_nil hsides)
  rw [maxSide, hm]
  rfl

theorem le_maxSide {frames : List Frame} {frame : Frame} (h : frame ∈ frames)
    (side : Frame → Nat) : side frame ≤ maxSide (frames.map side) :=
  List.le_max?_getD_of_mem (List.mem_map_of_mem h)

/-- Every list of frames whose sheet is within the limit is composed, each frame into its cell. -/
theorem compose_shows {frames : List Frame} (hne : frames ≠ []) {cols gap w h total : Nat}
    (hsize : checkSheet (maxSide (frames.map Frame.w)) (maxSide (frames.map Frame.h))
      frames.length cols gap = .ok (w, h, total)) (bg : Vector UInt8 4) :
    ∃ out, compose frames cols gap bg = .ok (out, w, h) ∧
      Shows (gridOf frames cols gap w) frames bg out h := by
  obtain ⟨hnone, hw, hh, htotal⟩ := checkSheet_ok hsize
  have hsized : (gridOf frames cols gap w).Sized frames.length h := by
    refine ⟨clampCols_pos hnone, hw, _, hh, ?_⟩
    intro i hi
    exact div_lt_divCeil hi (clampCols_pos hnone)
  have hfits : ∀ numbered ∈ frames.zipIdx,
      (gridOf frames cols gap w).Fits frames.length h numbered.1 numbered.2 := by
    intro numbered hmem
    have hat := List.mem_zipIdx_iff_getElem?.mp hmem
    have hframe := List.mem_of_getElem? hat
    obtain ⟨hlt, -⟩ := List.getElem?_eq_some_iff.mp hat
    exact ⟨hsized, le_maxSide hframe Frame.w, le_maxSide hframe Frame.h, hlt⟩
  refine ⟨_, ?_, shows_foldl hfits bg⟩
  rw [compose, max?_eq hne Frame.w, max?_eq hne Frame.h]
  change (checkSheet _ _ _ _ _).bind _ = _
  rw [hsize, htotal]
  rfl

/-- A frame of one red pixel. -/
def redPixel : Frame where
  rgba := [255, 0, 0, 255]
  w := 1
  h := 1
  length_rgba := rfl
  w_pos := by decide
  h_pos := by decide
  w_lt := by decide
  h_lt := by decide

/-- Two frames below each other. -/
theorem compose_shows_of_two :
    ∃ out, compose [redPixel, redPixel] 1 1 #v[0, 0, 0, 255] = .ok (out, 3, 5) ∧
      Shows (gridOf [redPixel, redPixel] 1 1 3) [redPixel, redPixel] #v[0, 0, 0, 255] out 5 :=
  compose_shows (List.cons_ne_nil _ _) rfl #v[0, 0, 0, 255]

end Victauri.Plugin.Filmstrip
