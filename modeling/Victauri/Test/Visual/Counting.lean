import Mathlib
import Victauri.Test.Visual

/-!
# What a comparison counts

The pixels of two images of one size as natural numbers, and when `compare_in` counts them.
-/

namespace Victauri.Test

/-! ## Pixels as natural numbers -/

/-- The rectangle of a mask, which may reach past the image. -/
def MaskRegion.Covers (m : MaskRegion) (px py : Nat) : Prop :=
  m.x.toNat ≤ px ∧ px < m.x.toNat + m.width.toNat ∧
    m.y.toNat ≤ py ∧ py < m.y.toNat + m.height.toNat

instance (m : MaskRegion) (px py : Nat) : Decidable (m.Covers px py) := by
  unfold MaskRegion.Covers
  infer_instance

def Masked (masks : List MaskRegion) (width i : Nat) : Prop :=
  ∃ m ∈ masks, m.Covers (i % width) (i / width)

instance (masks : List MaskRegion) (width i : Nat) : Decidable (Masked masks width i) := by
  unfold Masked
  infer_instance

namespace DecodedImage

def pixels (image : DecodedImage) : Nat := image.width.toNat * image.height.toNat

def channel (image : DecodedImage) (i c : Nat) : Nat := (image.rgba.getD (i * 4 + c) 0).toNat

/-- Some channel of the pixel differs by more than the tolerance. -/
def Differs (current baseline : DecodedImage) (tolerance i : Nat) : Prop :=
  ∃ c < 4, tolerance < ((current.channel i c : Int) - baseline.channel i c).natAbs

instance (current baseline : DecodedImage) (tolerance i : Nat) :
    Decidable (Differs current baseline tolerance i) := by
  unfold Differs
  infer_instance

theorem differs_comm (current baseline : DecodedImage) (tolerance i : Nat) :
    Differs current baseline tolerance i ↔ Differs baseline current tolerance i := by
  have hswap : ∀ a b : Nat, ((a : Int) - b).natAbs = ((b : Int) - a).natAbs := by
    intro a b
    omega
  unfold Differs
  simp only [hswap (current.channel i _)]

/-- The pixels that are compared and differ. -/
def differing (current baseline : DecodedImage) (tolerance : Nat) (masks : List MaskRegion)
    (is : List Nat) : List Nat :=
  is.filter fun i =>
    decide (¬ Masked masks current.width.toNat i ∧ Differs current baseline tolerance i)

/-- How many pixels lie in a mask. -/
def maskedPixels (image : DecodedImage) (masks : List MaskRegion) (is : List Nat) : Nat :=
  is.countP fun i => decide (Masked masks image.width.toNat i)

end DecodedImage

open DecodedImage

/-! ## The masks -/

theorem toNat_saturatingAdd32 (a b : UInt32) :
    (saturatingAdd32 a b).toNat = min (a.toNat + b.toNat) (2 ^ 32 - 1) := by
  unfold saturatingAdd32
  by_cases h : a.toNat + b.toNat < 2 ^ 32
  · rw [if_pos h, UInt32.toNat_add, Nat.mod_eq_of_lt h]
    omega
  · rw [if_neg h, UInt32.toNat_ofNat']
    omega

/-- A coordinate below the largest `u32` does not see the addition saturate. -/
theorem contains_iff (m : MaskRegion) {px py : UInt32} (hx : px.toNat < 2 ^ 32 - 1)
    (hy : py.toNat < 2 ^ 32 - 1) :
    m.contains px py = true ↔ m.Covers px.toNat py.toNat := by
  have hright := toNat_saturatingAdd32 m.x m.width
  have hbottom := toNat_saturatingAdd32 m.y m.height
  simp only [MaskRegion.contains, MaskRegion.Covers, Bool.and_eq_true, decide_eq_true_eq,
    UInt32.le_iff_toNat_le, UInt32.lt_iff_toNat_lt]
  omega

theorem isMasked_iff (masks : List MaskRegion) {width height : UInt32} {i : Nat}
    (hi : i < width.toNat * height.toNat) (h32 : i < 2 ^ 32) :
    isMasked masks width i = true ↔ Masked masks width.toNat i := by
  have hwidth : 0 < width.toNat := by
    rcases Nat.eq_zero_or_pos width.toNat with h | h
    · rw [h, Nat.zero_mul] at hi
      omega
    · exact h
  have hcast : (UInt32.ofNat i).toNat = i := by
    rw [UInt32.toNat_ofNat']
    exact Nat.mod_eq_of_lt h32
  have hcolumn : (UInt32.ofNat i % width).toNat = i % width.toNat := by
    rw [UInt32.toNat_mod, hcast]
  have hrow : (UInt32.ofNat i / width).toNat = i / width.toNat := by
    rw [UInt32.toNat_div, hcast]
  have hx : i % width.toNat < 2 ^ 32 - 1 := by
    have := Nat.mod_lt i hwidth
    have := width.toNat_lt
    omega
  have hy : i / width.toNat < 2 ^ 32 - 1 := by
    have := Nat.div_lt_of_lt_mul hi
    have := height.toNat_lt
    omega
  have hany : (masks.any fun m =>
      m.contains (UInt32.ofNat i % width) (UInt32.ofNat i / width)) = true ↔
      Masked masks width.toNat i := by
    rw [List.any_eq_true]
    apply exists_congr
    intro m
    rw [contains_iff m (by rw [hcolumn]; exact hx) (by rw [hrow]; exact hy), hcolumn, hrow]
  unfold isMasked
  rw [Bool.and_eq_true, hany]
  constructor
  · exact And.right
  · intro h
    refine ⟨?_, h⟩
    obtain ⟨m, hm, -⟩ := h
    cases masks with
    | nil => exact absurd hm List.not_mem_nil
    | cons m' masks => rfl

/-! ## The channels -/

theorem toNat_absDiff (a b : UInt8) :
    (absDiff a b).toNat = ((a.toNat : Int) - b.toNat).natAbs := by
  unfold absDiff
  by_cases h : a < b
  · rw [if_pos h, UInt8.toNat_sub_of_le _ _ (UInt8.le_of_lt h)]
    rw [UInt8.lt_iff_toNat_lt] at h
    omega
  · rw [UInt8.not_lt] at h
    rw [if_neg (UInt8.not_lt.mpr h), UInt8.toNat_sub_of_le _ _ h]
    rw [UInt8.le_iff_toNat_le] at h
    omega

theorem channelsDiffer_iff (current baseline : DecodedImage) (tolerance : UInt8) (i : Nat)
    (hc : i * 4 + 3 < current.rgba.size) (hb : i * 4 + 3 < baseline.rgba.size) :
    channelsDiffer current.rgba baseline.rgba tolerance (i * 4) hc hb = true ↔
      Differs current baseline tolerance.toNat i := by
  have hvalue : ∀ (rgba : Array UInt8) (n : Nat) (h : n < rgba.size), rgba[n] = rgba.getD n 0 := by
    intro rgba n h
    rw [Array.getD_eq_getD_getElem?, Array.getElem?_eq_getElem h, Option.getD_some]
  have hchannel : ∀ c, tolerance.toNat <
      ((current.channel i c : Int) - baseline.channel i c).natAbs ↔
        tolerance < absDiff (current.rgba.getD (i * 4 + c) 0) (baseline.rgba.getD (i * 4 + c) 0) := by
    intro c
    rw [UInt8.lt_iff_toNat_lt, toNat_absDiff]
    rfl
  unfold Differs
  simp only [channelsDiffer, Bool.or_eq_true, decide_eq_true_eq, hvalue, hchannel]
  constructor
  · rintro (((h | h) | h) | h)
    · exact ⟨0, by omega, h⟩
    · exact ⟨1, by omega, h⟩
    · exact ⟨2, by omega, h⟩
    · exact ⟨3, by omega, h⟩
  · rintro ⟨c, hlt, h⟩
    match c, hlt, h with
    | 0, _, h => exact Or.inl (Or.inl (Or.inl h))
    | 1, _, h => exact Or.inl (Or.inl (Or.inr h))
    | 2, _, h => exact Or.inl (Or.inr h)
    | 3, _, h => exact Or.inr h

/-! ## The loop -/

theorem computeDiffLoop_eq {current baseline : DecodedImage} (tolerance : UInt8)
    (masks : List MaskRegion) (hwidth : current.width = baseline.width)
    (hheight : current.height = baseline.height) (left i : Nat) (diff : List Nat) (masked : Nat)
    (hle : i + left ≤ current.pixels) (h32 : i + left ≤ 2 ^ 32) :
    computeDiffLoop current baseline tolerance masks left i diff masked =
      (diff ++ differing current baseline tolerance.toNat masks (List.range' i left),
        masked + maskedPixels current masks (List.range' i left)) := by
  induction left generalizing i diff masked with
  | zero => simp [computeDiffLoop, differing, maskedPixels]
  | succ left ih =>
    have hlt : i < current.pixels := by omega
    have hc : i * 4 + 3 < current.rgba.size := by
      rw [current.size_eq]
      unfold pixels at hlt
      omega
    have hb : i * 4 + 3 < baseline.rgba.size := by
      rw [baseline.size_eq, ← hwidth, ← hheight]
      unfold pixels at hlt
      omega
    have hmask := @isMasked_iff masks current.width _ _ hlt (by omega)
    have hdiffer := channelsDiffer_iff current baseline tolerance i hc hb
    unfold computeDiffLoop
    simp only [List.range'_succ]
    rw [dif_pos ⟨hc, hb⟩]
    by_cases hm : Masked masks current.width.toNat i
    · rw [if_pos (hmask.mpr hm), ih (i + 1) diff (masked + 1) (by omega) (by omega)]
      simp [differing, maskedPixels, hm]
      omega
    · rw [if_neg (fun h => hm (hmask.mp h))]
      by_cases hd : Differs current baseline tolerance.toNat i
      · rw [if_pos (hdiffer.mpr hd), ih (i + 1) (diff ++ [i]) masked (by omega) (by omega)]
        simp [differing, maskedPixels, hm, hd]
      · rw [if_neg (fun h => hd (hdiffer.mp h)), ih (i + 1) diff masked (by omega) (by omega)]
        simp [differing, maskedPixels, hm, hd]

/-- The product that `compute_diff` and `compare_in` take, where it does not panic. -/
theorem mul32_eq_some {overflowChecks : Bool} {a b c : UInt32}
    (h : mul32 overflowChecks a b = some c) : c.toNat = a.toNat * b.toNat % 2 ^ 32 := by
  unfold mul32 at h
  split at h
  · exact absurd h.symm (Option.some_ne_none c)
  · rw [← Option.some.inj h, UInt32.toNat_mul]

theorem mul32_of_lt {overflowChecks : Bool} {a b : UInt32} (h : a.toNat * b.toNat < 2 ^ 32) :
    mul32 overflowChecks a b = some (a * b) := by
  have : decide (2 ^ 32 ≤ a.toNat * b.toNat) = false := decide_eq_false (by omega)
  unfold mul32
  rw [this, Bool.and_false]
  rfl

/-- However many pixels the product leaves, the first of them are counted right. -/
theorem count_eq {overflowChecks : Bool} {current baseline : DecodedImage}
    (options : VisualOptions) (hwidth : current.width = baseline.width)
    (hheight : current.height = baseline.height) {n : UInt32}
    (hn : mul32 overflowChecks current.width current.height = some n) :
    count overflowChecks current baseline options =
      some
        { diff := differing current baseline options.channelTolerance.toNat options.maskRegions
            (List.range n.toNat)
          masked := maskedPixels current options.maskRegions (List.range n.toNat)
          totalPixels :=
            n.toNat - maskedPixels current options.maskRegions (List.range n.toNat) } := by
  have hle : n.toNat ≤ current.pixels := by
    rw [mul32_eq_some hn]
    exact Nat.mod_le _ _
  have hloop := computeDiffLoop_eq options.channelTolerance options.maskRegions hwidth hheight
    n.toNat 0 [] 0 (by omega) (by have := n.toNat_lt; omega)
  unfold count computeDiff
  rw [hn, Option.map_some, hloop, List.nil_append, Nat.zero_add, ← List.range_eq_range']
  rfl

theorem maskedPixels_le (image : DecodedImage) (masks : List MaskRegion) (is : List Nat) :
    maskedPixels image masks is ≤ is.length :=
  List.countP_le_length

/-- The images are equally large once the comparison is reached. -/
theorem prepare_sameSize {p : Platform} {name screenshotBase64 : String} {options : VisualOptions}
    {ci : Bool} {current baseline : DecodedImage}
    (h : prepare p name screenshotBase64 options ci = .ok (.inr (current, baseline))) :
    current.width = baseline.width ∧ current.height = baseline.height := by
  have hload : ∀ path bytes,
      loadImages p path bytes = .ok (current, baseline) →
        current.width = baseline.width ∧ current.height = baseline.height := by
    intro path bytes h
    simp only [loadImages, bind, Except.bind] at h
    repeat' split at h
    all_goals try cases h
    rename_i hsame
    push Not at hsame
    exact hsame
  simp only [prepare, bind, Except.bind, pure, Except.pure] at h
  repeat' split at h
  all_goals try cases h
  rename_i hpair
  exact hload _ _ hpair

/-! ## The comparison -/

/-- The images are counted as numbers say, and the match is decided on those counts. -/
structure CountsRight (overflowChecks : Bool) (p : Platform) (name screenshotBase64 : String)
    (options : VisualOptions) (ci : Bool) (current baseline : DecodedImage) (c : Counts) :
    Prop where
  counted : count overflowChecks current baseline options = some c
  diff : ∀ i, i ∈ c.diff ↔
    i < current.width.toNat * current.height.toNat ∧
      (∀ m ∈ options.maskRegions,
        ¬ m.Covers (i % current.width.toNat) (i / current.width.toNat)) ∧
      Differs current baseline options.channelTolerance.toNat i
  once : c.diff.Nodup
  masked : c.masked = (List.range (current.width.toNat * current.height.toNat)).countP fun i =>
    decide (∃ m ∈ options.maskRegions,
      m.Covers (i % current.width.toNat) (i / current.width.toNat))
  total : c.totalPixels + c.masked = current.width.toNat * current.height.toNat
  swapped : (count overflowChecks baseline current options).map Counts.diff = some c.diff
  decision : ∃ result, compareIn overflowChecks p name screenshotBase64 options ci = some result ∧
    ∀ path, saveDiffImage p name options current c.diff = .ok path →
      if 100 - options.thresholdPercent ≤ matchPercentage c.diff.length c.totalPixels then
        result = .ok
          { matchPercentage := matchPercentage c.diff.length c.totalPixels
            diffPixelCount := c.diff.length
            totalPixels := c.totalPixels
            maskedPixels := c.masked
            diffImagePath := path
            baselineCreated := false }
      else ∃ message, result = .error (.visualRegression message)

theorem decideMatch_of_saved {p : Platform} {name : String} {options : VisualOptions}
    {current : DecodedImage} {c : Counts} {path : Option String}
    (h : saveDiffImage p name options current c.diff = .ok path) :
    if 100 - options.thresholdPercent ≤ matchPercentage c.diff.length c.totalPixels then
      decideMatch p name options current c = .ok
        { matchPercentage := matchPercentage c.diff.length c.totalPixels
          diffPixelCount := c.diff.length
          totalPixels := c.totalPixels
          maskedPixels := c.masked
          diffImagePath := path
          baselineCreated := false }
    else
      ∃ message, decideMatch p name options current c = .error (.visualRegression message) := by
  unfold decideMatch VisualDiff.isMatch
  rw [h]
  by_cases hmatch :
      100 - options.thresholdPercent ≤ matchPercentage c.diff.length c.totalPixels
  · rw [if_pos hmatch]
    simp [bind, Except.bind, hmatch]
  · rw [if_neg hmatch]
    simp [bind, Except.bind, hmatch]

section
variable {overflowChecks : Bool} {p : Platform} {name screenshotBase64 : String}
  {options : VisualOptions} {ci : Bool} {current baseline : DecodedImage}

theorem compareIn_of_count {c : Counts}
    (h : prepare p name screenshotBase64 options ci = .ok (.inr (current, baseline)))
    (hcount : count overflowChecks current baseline options = some c) :
    compareIn overflowChecks p name screenshotBase64 options ci =
      some (decideMatch p name options current c) := by
  unfold compareIn
  rw [h]
  change (count overflowChecks current baseline options).map _ = _
  rw [hcount, Option.map_some]

/-- A product that does not fit a `u32` cannot be counted right. -/
theorem lt_of_countsRight {c : Counts} (hwidth : current.width = baseline.width)
    (hheight : current.height = baseline.height)
    (h : CountsRight overflowChecks p name screenshotBase64 options ci current baseline c) :
    current.width.toNat * current.height.toNat < 2 ^ 32 := by
  cases hn : mul32 overflowChecks current.width current.height with
  | none =>
    have hcounted := h.counted
    unfold count computeDiff at hcounted
    rw [hn] at hcounted
    cases hcounted
  | some n =>
    have hcounted := h.counted
    rw [count_eq options hwidth hheight hn] at hcounted
    have htotal := h.total
    rw [← Option.some.inj hcounted] at htotal
    have hmasked : maskedPixels current options.maskRegions (List.range n.toNat) ≤ n.toNat := by
      have := maskedPixels_le current options.maskRegions (List.range n.toNat)
      rwa [List.length_range] at this
    have hn32 := n.toNat_lt
    rw [← htotal, Nat.sub_add_cancel hmasked]
    exact hn32

/-- The comparison counts right exactly for the images whose pixels fit a `u32`. -/
theorem compareIn_right_iff
    (h : prepare p name screenshotBase64 options ci = .ok (.inr (current, baseline))) :
    (∃ c, CountsRight overflowChecks p name screenshotBase64 options ci current baseline c) ↔
      current.width.toNat * current.height.toNat < 2 ^ 32 := by
  obtain ⟨hwidth, hheight⟩ := prepare_sameSize h
  constructor
  · intro hright
    obtain ⟨c, hc⟩ := hright
    exact lt_of_countsRight hwidth hheight hc
  · intro hlt
    have hn := @mul32_of_lt overflowChecks _ _ hlt
    have hpixels : (current.width * current.height).toNat = current.pixels := by
      rw [mul32_eq_some hn]
      exact Nat.mod_eq_of_lt hlt
    have hcount := count_eq options hwidth hheight hn
    rw [hpixels] at hcount
    have hswapped : (count overflowChecks baseline current options).map Counts.diff =
        some (differing current baseline options.channelTolerance.toNat options.maskRegions
          (List.range current.pixels)) := by
      rw [hwidth, hheight] at hn
      rw [count_eq options hwidth.symm hheight.symm hn, ← hwidth, ← hheight, hpixels,
        Option.map_some]
      unfold differing
      simp only [hwidth, differs_comm baseline current]
    refine ⟨_, ⟨hcount, ?_, ?_, rfl, ?_, hswapped, ?_⟩⟩
    · intro i
      simp only [differing, List.mem_filter, List.mem_range, decide_eq_true_eq, Masked, pixels,
        not_exists, not_and]
    · exact List.nodup_range.filter _
    · have hmasked := maskedPixels_le current options.maskRegions (List.range current.pixels)
      rw [List.length_range] at hmasked
      exact Nat.sub_add_cancel hmasked
    · refine ⟨_, compareIn_of_count h hcount, ?_⟩
      intro path hpath
      exact decideMatch_of_saved hpath

end

/-! ## Images of one colour -/

/-- A grey image. -/
def grey (width height : UInt32) (v : UInt8) : DecodedImage :=
  { width
    height
    rgba := (Array.replicate (width.toNat * height.toNat) #[v, v, v, 255]).flatten
    size_eq := by
      rw [Array.size_flatten, Array.map_replicate, Array.sum_replicate_nat]
      exact Nat.mul_comm _ _ }

/-- A platform with one screenshot and one baseline. -/
def twoImages (screenshotBytes baselineBytes : ByteArray) (current baseline : DecodedImage) :
    Platform :=
  { os := "linux"
    join := fun dir name => dir ++ "/" ++ name
    debug := fun text => "\"" ++ text ++ "\""
    fixed2 := fun x => x.toString
    decodeBase64 := fun _ => .ok screenshotBytes
    decodePng := fun bytes =>
      if bytes = screenshotBytes then .ok current
      else if bytes = baselineBytes then .ok baseline
      else .error (.other "PNG decode error: Invalid PNG signature.")
    createDirAll := fun _ => .ok ()
    pathExists := fun _ => true
    read := fun _ => .ok baselineBytes
    write := fun _ _ => .ok ()
    writePng := fun _ _ _ _ => .ok () }

theorem prepare_twoImages {screenshotBytes baselineBytes : ByteArray}
    {current baseline : DecodedImage} (hne : baselineBytes ≠ screenshotBytes)
    (hwidth : current.width = baseline.width) (hheight : current.height = baseline.height)
    (screenshotBase64 : String) (ci : Bool) :
    prepare (twoImages screenshotBytes baselineBytes current baseline) "page" screenshotBase64
      .default ci = .ok (.inr (current, baseline)) := by
  have hload : ∀ path, loadImages (twoImages screenshotBytes baselineBytes current baseline) path
      screenshotBytes = .ok (current, baseline) := by
    intro path
    simp [loadImages, twoImages, bind, Except.bind, hne, hwidth, hheight]
  have hname : ∀ p, checkBaselineName p "page" = .ok () := by
    intro p
    have hplain : (!"page".isEmpty && "page" != ".." &&
        !"page".toList.any (fun c => c = '/' || c = '\\' || c = ':') &&
        "page".toList.head? != some '/') = true := by decide
    unfold checkBaselineName
    rw [hplain]
    rfl
  unfold prepare
  rw [hname]
  change Except.bind (loadImages _ _ screenshotBytes) _ = _
  rw [hload]
  rfl

/-- The bytes of a grey PNG of one pixel; `tail` holds the end of its compressed data. -/
def pngBytes (tail : List UInt8) : ByteArray :=
  ⟨([137, 80, 78, 71, 13, 10, 26, 10, 0, 0, 0, 13, 73, 72, 68, 82, 0, 0, 0, 1, 0, 0, 0, 1, 8, 0, 0,
    0, 0, 58, 126, 155, 85, 0, 0, 0, 10, 73, 68, 65, 84, 120, 218, 99] ++ tail ++
    [0, 0, 0, 0, 73, 69, 78, 68, 174, 66, 96, 130]).toArray⟩

def blackPng : ByteArray := pngBytes [96, 0, 0, 0, 2, 0, 1, 229, 39, 222, 252]

def blackPngBase64 : String :=
  "iVBORw0KGgoAAAANSUhEUgAAAAEAAAABCAAAAAA6fptVAAAACklEQVR42mNgAAAAAgAB5Sfe/AAAAABJ" ++
    "RU5ErkJggg=="

def whitePng : ByteArray := pngBytes [248, 15, 0, 1, 1, 1, 0, 28, 176, 140, 153]

theorem whitePng_ne_blackPng : whitePng ≠ blackPng := by decide

theorem compareIn_right_iff_onePixel :
    (∃ c, CountsRight true (twoImages blackPng whitePng (grey 1 1 0) (grey 1 1 255)) "page"
      blackPngBase64 .default false (grey 1 1 0) (grey 1 1 255) c) ↔
      (grey 1 1 0).width.toNat * (grey 1 1 0).height.toNat < 2 ^ 32 :=
  compareIn_right_iff (@prepare_twoImages blackPng whitePng (grey 1 1 0) (grey 1 1 255)
    whitePng_ne_blackPng rfl rfl blackPngBase64 false)

section
variable {overflowChecks : Bool} {p : Platform} {width height : UInt32}

theorem not_countsRight_grey (v v' : UInt8) (hlarge : ¬ width.toNat * height.toNat < 2 ^ 32) :
    ¬ ∃ c, CountsRight overflowChecks p "page" "" .default false (grey width height v)
      (grey width height v') c := by
  intro h
  obtain ⟨c, hc⟩ := h
  have hsize : (grey width height v).width = (grey width height v').width ∧
      (grey width height v).height = (grey width height v').height := ⟨rfl, rfl⟩
  exact hlarge (lt_of_countsRight hsize.1 hsize.2 hc)

/-- Where the product wraps to zero, no pixel is looked at. -/
theorem count_grey (v v' : UInt8) (h : mul32 overflowChecks width height = some 0) :
    count overflowChecks (grey width height v) (grey width height v') .default =
      some { diff := [], masked := 0, totalPixels := 0 } := by
  have hcount := @count_eq overflowChecks (grey width height v) (grey width height v') .default
    rfl rfl 0 h
  rw [hcount]
  rfl

theorem compareIn_grey_panics (v v' : UInt8) (h : mul32 overflowChecks width height = none)
    (hprepare : prepare p "page" "" .default false =
      .ok (.inr (grey width height v, grey width height v'))) :
    compareIn overflowChecks p "page" "" .default false = none := by
  have hcount : count overflowChecks (grey width height v) (grey width height v') .default =
      none := by
    have hdiff : computeDiff overflowChecks (grey width height v) (grey width height v') 2 [] =
        none := by
      unfold computeDiff
      change Option.map _ (mul32 overflowChecks width height) = none
      rw [h, Option.map_none]
    unfold count
    change Option.bind (computeDiff overflowChecks (grey width height v) (grey width height v') 2
      []) _ = none
    rw [hdiff, Option.bind_none]
  unfold compareIn
  rw [hprepare]
  change Option.map _ (count overflowChecks _ _ _) = none
  rw [hcount, Option.map_none]

end

/-- A black screenshot of `65536 * 65536` pixels against a white baseline. -/
theorem compareIn_wraps :
    let p := twoImages ⟨#[0]⟩ ⟨#[1]⟩ (grey 65536 65536 0) (grey 65536 65536 255)
    prepare p "page" "" .default false =
        .ok (.inr (grey 65536 65536 0, grey 65536 65536 255)) ∧
      count false (grey 65536 65536 0) (grey 65536 65536 255) .default =
        some { diff := [], masked := 0, totalPixels := 0 } ∧
      compareIn true p "page" "" .default false = none ∧
      ¬ (∃ c, CountsRight false p "page" "" .default false (grey 65536 65536 0)
        (grey 65536 65536 255) c) ∧
      ¬ (∃ c, CountsRight true p "page" "" .default false (grey 65536 65536 0)
        (grey 65536 65536 255) c) := by
  have hprepare := @prepare_twoImages ⟨#[0]⟩ ⟨#[1]⟩ (grey 65536 65536 0) (grey 65536 65536 255)
    (by decide) rfl rfl "" false
  have hlarge : ¬ (65536 : UInt32).toNat * (65536 : UInt32).toNat < 2 ^ 32 := by decide
  have hzero : mul32 false 65536 65536 = some 0 := by decide
  have hnone : mul32 true 65536 65536 = none := by decide
  exact ⟨hprepare, count_grey 0 255 hzero, compareIn_grey_panics 0 255 hnone hprepare,
    not_countsRight_grey 0 255 hlarge, not_countsRight_grey 0 255 hlarge⟩

end Victauri.Test
