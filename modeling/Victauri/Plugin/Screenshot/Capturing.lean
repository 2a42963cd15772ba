import Victauri.Plugin.Screenshot.Encoding

/-!
# From the frame to the file

Put back under its alpha, the picture of a capture is what the compositor had inside the crop, byte
for byte; a file that is written is never that of a blank frame.
-/

namespace Victauri.Plugin.Screenshot

/-! ## Alpha -/

/-- A channel under its alpha, to the nearest. -/
def premultiply (channel alpha : UInt8) : UInt8 :=
  UInt8.ofNat ((channel.toNat * alpha.toNat + 127) / 255)

/-- RGBA to the bytes of the compositor. -/
def composite : List UInt8 → List UInt8
  | r :: g :: b :: a :: rest =>
      premultiply b a :: premultiply g a :: premultiply r a :: a :: composite rest
  | rest => rest

/-- No channel exceeds its alpha. -/
def Premultiplied : List UInt8 → Prop
  | b :: g :: r :: a :: rest =>
      b.toNat ≤ a.toNat ∧ g.toNat ≤ a.toNat ∧ r.toNat ≤ a.toNat ∧ Premultiplied rest
  | _ => True

/-- Of two numbers within half a step the nearest multiple gives back the number. -/
theorem round_trip {p a : Nat} (hp : p ≤ a) (ha : 0 < a) (ha' : a < 255) :
    min ((p * 255 + a / 2) / a) 255 < 256 ∧
      (min ((p * 255 + a / 2) / a) 255 * a + 127) / 255 = p := by
  have hle : (p * 255 + a / 2) / a ≤ 255 := by
    apply Nat.le_of_lt_succ
    rw [Nat.div_lt_iff_lt_mul ha]
    have hbound : p * 255 ≤ a * 255 := Nat.mul_le_mul_right 255 hp
    omega
  rw [Nat.min_eq_left hle]
  refine ⟨by omega, ?_⟩
  have hlow := Nat.div_mul_le_self (p * 255 + a / 2) a
  have hhigh : p * 255 + a / 2 < (p * 255 + a / 2) / a * a + a := by
    have hlt := Nat.lt_div_mul_add (a := p * 255 + a / 2) ha
    omega
  generalize (p * 255 + a / 2) / a * a = product at hlow hhigh
  omega

theorem premultiply_unpremultiply {p a : UInt8} (hp : p.toNat ≤ a.toNat) (ha : a > 0 ∧ a < 255) :
    premultiply (unpremultiply p a) a = p := by
  obtain ⟨hpos, hlt⟩ := ha
  have htrip := round_trip hp (UInt8.lt_iff_toNat_lt.mp hpos) (UInt8.lt_iff_toNat_lt.mp hlt)
  apply UInt8.toNat_inj.mp
  rw [premultiply, unpremultiply, UInt8.toNat_ofNat', UInt8.toNat_ofNat', Nat.mod_eq_of_lt htrip.1,
    htrip.2]
  exact Nat.mod_eq_of_lt (UInt8.toNat_lt p)

/-- At both ends of the alpha the channels stay as they are. -/
theorem premultiply_self {p a : UInt8} (hp : p.toNat ≤ a.toNat) (ha : ¬(a > 0 ∧ a < 255)) :
    premultiply p a = p := by
  have hends : a.toNat = 0 ∨ a.toNat = 255 := by
    have hmax := UInt8.toNat_lt a
    simp only [gt_iff_lt, UInt8.lt_iff_toNat_lt, show (0 : UInt8).toNat = 0 from rfl,
      show (255 : UInt8).toNat = 255 from rfl] at ha
    omega
  apply UInt8.toNat_inj.mp
  rw [premultiply, UInt8.toNat_ofNat']
  have hmax := UInt8.toNat_lt p
  rcases hends with hzero | hfull
  · rw [hzero] at hp ⊢
    omega
  · rw [hfull]
    omega

theorem composite_convertPixel {b g r a : UInt8} (hb : b.toNat ≤ a.toNat) (hg : g.toNat ≤ a.toNat)
    (hr : r.toNat ≤ a.toNat) (rest : List UInt8) :
    composite (convertPixel b g r a ++ rest) = b :: g :: r :: a :: composite rest := by
  unfold convertPixel
  by_cases ha : a > 0 ∧ a < 255
  · rw [if_pos ha]
    simp only [List.cons_append, List.nil_append, composite, premultiply_unpremultiply hb ha,
      premultiply_unpremultiply hg ha, premultiply_unpremultiply hr ha]
  · rw [if_neg ha]
    simp only [List.cons_append, List.nil_append, composite, premultiply_self hb ha,
      premultiply_self hg ha, premultiply_self hr ha]

theorem length_convertPixel (b g r a : UInt8) : (convertPixel b g r a).length = 4 := by
  unfold convertPixel
  by_cases ha : a > 0 ∧ a < 255
  · rw [if_pos ha]
    rfl
  · rw [if_neg ha]
    rfl

/-! ## Rows -/

theorem exists_pixel {src : List UInt8} {n : Nat} (hlength : src.length = (n + 1) * 4) :
    ∃ b g r a rest, src = b :: g :: r :: a :: rest ∧ rest.length = n * 4 := by
  rcases src with _ | ⟨b, _ | ⟨g, _ | ⟨r, _ | ⟨a, rest⟩⟩⟩⟩
  case cons.cons.cons.cons =>
    refine ⟨b, g, r, a, rest, rfl, ?_⟩
    simp only [List.length_cons] at hlength
    omega
  all_goals
    simp only [List.length_cons, List.length_nil] at hlength
    omega

theorem length_convertRow {src : List UInt8} {n : Nat} (hlength : src.length = n * 4) :
    (convertRow src).length = n * 4 := by
  induction n generalizing src with
  | zero =>
    rw [List.length_eq_zero_iff.mp (hlength.trans (Nat.zero_mul 4))]
    rfl
  | succ n ih =>
    obtain ⟨b, g, r, a, rest, rfl, hrest⟩ := exists_pixel hlength
    rw [convertRow, List.length_append, length_convertPixel, ih hrest]
    omega

theorem composite_convertRow {src : List UInt8} {n : Nat} (hlength : src.length = n * 4)
    (hsrc : Premultiplied src) (rest : List UInt8) :
    composite (convertRow src ++ rest) = src ++ composite rest := by
  induction n generalizing src with
  | zero =>
    rw [List.length_eq_zero_iff.mp (hlength.trans (Nat.zero_mul 4))]
    rfl
  | succ n ih =>
    obtain ⟨b, g, r, a, tail, rfl, htail⟩ := exists_pixel hlength
    rw [convertRow, List.append_assoc, composite_convertPixel hsrc.1 hsrc.2.1 hsrc.2.2.1,
      ih htail hsrc.2.2.2]
    rfl

/-- What a row of the frame has inside the crop. -/
def cropRow (data : List UInt8) (rowPitch x w row : Nat) : List UInt8 :=
  (data.drop (row * rowPitch + x * 4)).take (w * 4)

def cropRows (data : List UInt8) (rowPitch x w : Nat) : Nat → Nat → List UInt8
  | 0, _ => []
  | count + 1, row => cropRow data rowPitch x w row ++ cropRows data rowPitch x w count (row + 1)

section

variable {data : List UInt8} {rowPitch x w : Nat}

theorem rowBytes_eq {row : Nat} (hdata : data.length < 2 ^ 64)
    (hin : row * rowPitch + x * 4 + w * 4 ≤ data.length) :
    rowBytes data rowPitch x w row = .ok (cropRow data rowPitch x w row) := by
  have hstop : (row * rowPitch + x * 4 + w * 4) % 2 ^ 64 = row * rowPitch + x * 4 + w * 4 :=
    Nat.mod_eq_of_lt (by omega)
  unfold rowBytes
  rw [checked, if_pos (by omega), Option.bind_some, checked, if_pos (by omega)]
  dsimp only
  rw [hstop, if_pos ⟨by omega, hin⟩, Nat.add_sub_cancel_left]
  rfl

theorem convertRows_eq (hdata : data.length < 2 ^ 64) {count row : Nat}
    (hin : ∀ k, k < count → (row + k) * rowPitch + x * 4 + w * 4 ≤ data.length) :
    ∃ out, convertRows data rowPitch x w count row = .ok out ∧ out.length = count * (w * 4) ∧
      ((∀ k, k < count → Premultiplied (cropRow data rowPitch x w (row + k))) →
        composite out = cropRows data rowPitch x w count row) := by
  induction count generalizing row with
  | zero => exact ⟨[], rfl, (Nat.zero_mul _).symm, fun _ => rfl⟩
  | succ count ih =>
    have hfirst := hin 0 (Nat.succ_pos count)
    rw [Nat.add_zero] at hfirst
    have hlength : (cropRow data rowPitch x w row).length = w * 4 := by
      rw [cropRow, List.length_take, List.length_drop]
      omega
    have hnext (k : Nat) : row + 1 + k = row + (k + 1) := by omega
    obtain ⟨out, hout, hsize, hcomposite⟩ := @ih (row + 1) fun k hk => by
      rw [hnext]
      exact hin (k + 1) (Nat.succ_lt_succ hk)
    refine ⟨convertRow (cropRow data rowPitch x w row) ++ out, ?_, ?_, fun hpremultiplied => ?_⟩
    · rw [convertRows, rowBytes_eq hdata hfirst, hout]
      rfl
    · rw [List.length_append, length_convertRow hlength, hsize, Nat.succ_mul, Nat.add_comm]
    · have hrow := hpremultiplied 0 (Nat.succ_pos count)
      rw [Nat.add_zero] at hrow
      rw [composite_convertRow hlength hrow, cropRows, hcomposite]
      intro k hk
      rw [hnext]
      exact hpremultiplied (k + 1) (Nat.succ_lt_succ hk)

end

/-! ## The frame -/

structure Crop.Inside (crop : Crop) (m : Mapped) : Prop where
  area : crop.w ≠ 0 ∧ crop.h ≠ 0
  origin : crop.x < m.width ∧ crop.y < m.height

/-- Width and height of the crop where it does not leave the frame. -/
def Crop.columns (crop : Crop) (m : Mapped) : Nat :=
  min crop.w.toNat (m.width.toNat - crop.x.toNat)

def Crop.rows (crop : Crop) (m : Mapped) : Nat :=
  min crop.h.toNat (m.height.toNat - crop.y.toNat)

/-- The compositor's bytes inside the crop. -/
def Mapped.cropped (m : Mapped) (crop : Crop) : List UInt8 :=
  cropRows m.data m.rowPitch crop.x.toNat (crop.columns m) (crop.rows m) crop.y.toNat

/-- What the system says of a mapped frame: a row fits in its pitch, and no channel inside the crop
exceeds its alpha. -/
structure Mapped.Composited (m : Mapped) (crop : Crop) : Prop where
  pitch : m.width.toNat * 4 ≤ m.rowPitch
  alpha : ∀ k, k < crop.rows m →
    Premultiplied (cropRow m.data m.rowPitch crop.x.toNat (crop.columns m) (crop.y.toNat + k))

section

variable {m : Mapped} {crop : Crop}

theorem Crop.Inside.columns_pos (h : crop.Inside m) : 0 < crop.columns m := by
  have hw : 0 < crop.w.toNat := by
    rw [Nat.pos_iff_ne_zero]
    exact fun hzero => h.area.1 (UInt32.toNat_inj.mp hzero)
  have hx := UInt32.lt_iff_toNat_lt.mp h.origin.1
  unfold Crop.columns
  omega

theorem Crop.Inside.rows_pos (h : crop.Inside m) : 0 < crop.rows m := by
  have hh : 0 < crop.h.toNat := by
    rw [Nat.pos_iff_ne_zero]
    exact fun hzero => h.area.2 (UInt32.toNat_inj.mp hzero)
  have hy := UInt32.lt_iff_toNat_lt.mp h.origin.2
  unfold Crop.rows
  omega

/-- A row inside the crop is inside the data. -/
theorem row_fits (hpitch : m.width.toNat * 4 ≤ m.rowPitch) (hx : crop.x < m.width) {k : Nat}
    (hk : k < crop.rows m) :
    (crop.y.toNat + k) * m.rowPitch + crop.x.toNat * 4 + crop.columns m * 4 ≤ m.data.length := by
  have hcolumns : crop.x.toNat + crop.columns m ≤ m.width.toNat := by
    have hx := UInt32.lt_iff_toNat_lt.mp hx
    unfold Crop.columns
    omega
  have hrow : crop.y.toNat + k + 1 ≤ m.height.toNat := by
    unfold Crop.rows at hk
    omega
  have hend : (crop.y.toNat + k + 1) * m.rowPitch ≤ m.rowPitch * m.height.toNat := by
    rw [Nat.mul_comm m.rowPitch]
    exact Nat.mul_le_mul_right _ hrow
  rw [Nat.succ_mul] at hend
  rw [m.size]
  omega

/-- The conversion succeeds for every crop that starts inside the frame. -/
theorem convertBgraFrame_eq (hinside : crop.Inside m) (hpitch : m.width.toNat * 4 ≤ m.rowPitch) :
    ∃ frame, convertBgraFrame m.data m.rowPitch m.width m.height crop = .ok frame ∧
      frame.width.toNat = crop.columns m ∧ frame.height.toNat = crop.rows m ∧
      frame.rgba.length = 4 * (frame.width.toNat * frame.height.toNat) ∧
      (m.Composited crop → composite frame.rgba = m.cropped crop) := by
  have hdata : m.data.length < 2 ^ 64 := m.size ▸ m.fits
  obtain ⟨out, hout, hsize, hcomposite⟩ := @convertRows_eq m.data m.rowPitch crop.x.toNat
    (crop.columns m) hdata (crop.rows m) crop.y.toNat fun k hk =>
      row_fits hpitch hinside.origin.1 hk
  have hcolumns : crop.columns m < 2 ^ 32 := by
    have hw := UInt32.toNat_lt crop.w
    unfold Crop.columns
    omega
  have hrows : crop.rows m < 2 ^ 32 := by
    have hh := UInt32.toNat_lt crop.h
    unfold Crop.rows
    omega
  have harea : crop.columns m * 4 * crop.rows m < 2 ^ 64 := by
    have hcolumns : crop.columns m * 4 ≤ m.rowPitch := by
      unfold Crop.columns
      omega
    have hrows : crop.rows m ≤ m.height.toNat := by
      unfold Crop.rows
      omega
    exact Nat.lt_of_le_of_lt (Nat.mul_le_mul hcolumns hrows) m.fits
  have hwidth : (UInt32.ofNat (crop.columns m)).toNat = crop.columns m := by
    rw [UInt32.toNat_ofNat']
    exact Nat.mod_eq_of_lt hcolumns
  have hheight : (UInt32.ofNat (crop.rows m)).toNat = crop.rows m := by
    rw [UInt32.toNat_ofNat']
    exact Nat.mod_eq_of_lt hrows
  refine ⟨⟨out, UInt32.ofNat (crop.columns m), UInt32.ofNat (crop.rows m)⟩, ?_, hwidth, hheight,
    ?_, fun hcomposited => hcomposite hcomposited.alpha⟩
  · have hpos := hinside.rows_pos
    have hrow : crop.columns m * 4 < 2 ^ 64 :=
      Nat.lt_of_le_of_lt (Nat.le_mul_of_pos_right _ hpos) harea
    unfold convertBgraFrame
    rw [if_neg (not_or.mpr hinside.area), if_neg]
    · dsimp only
      rw [← Crop.columns, ← Crop.rows, checked, if_pos hrow, Option.bind_some, checked,
        if_pos harea]
      dsimp only
      rw [hout]
      rfl
    · rw [not_or, ge_iff_le, ge_iff_le, UInt32.not_le, UInt32.not_le]
      exact hinside.origin
  · rw [hsize, hwidth, hheight]
    ac_rfl

/-- A crop that does not start inside the frame, or is empty, is refused. -/
theorem inside_of_convert {frame : Frame}
    (h : convertBgraFrame m.data m.rowPitch m.width m.height crop = .ok frame) :
    crop.Inside m := by
  unfold convertBgraFrame at h
  by_cases harea : crop.w = 0 ∨ crop.h = 0
  · rw [if_pos harea] at h
    cases h
  · rw [if_neg harea] at h
    by_cases horigin : crop.x ≥ m.width ∨ crop.y ≥ m.height
    · rw [if_pos horigin] at h
      cases h
    · rw [not_or, ge_iff_le, ge_iff_le, UInt32.not_le, UInt32.not_le] at horigin
      exact ⟨not_or.mp harea, horigin⟩

end

/-! ## The copy -/

theorem swapChannels_swapChannels (bytes : List UInt8) :
    swapChannels (swapChannels bytes) = bytes := by
  induction bytes using swapChannels.induct with
  | case1 b g r a rest ih => rw [swapChannels, swapChannels, ih]
  | case2 rest hshort => rw [swapChannels.eq_2 rest hshort, swapChannels.eq_2 rest hshort]

theorem length_swapChannels (bytes : List UInt8) :
    (swapChannels bytes).length = bytes.length := by
  induction bytes using swapChannels.induct with
  | case1 b g r a rest ih => simp only [swapChannels, List.length_cons, ih]
  | case2 rest hshort => rw [swapChannels.eq_2 rest hshort]

theorem captureWindowGdiRaw_ok {hint : String} {copy : Except Failure Copied} {frame : Frame}
    (h : captureWindowGdiRaw hint copy = .ok frame) :
    ∃ copied, copy = .ok copied ∧ blankFrameReason frame.rgba = none ∧
      frame = ⟨swapChannels copied.pixels, copied.width, copied.height⟩ := by
  unfold captureWindowGdiRaw at h
  cases copy with
  | error e => cases h
  | ok copied =>
    dsimp only [bind, Except.bind] at h
    cases hreason : blankFrameReason (swapChannels copied.pixels) with
    | some reason =>
      rw [hreason] at h
      cases h
    | none =>
      rw [hreason] at h
      cases h
      exact ⟨copied, rfl, hreason, rfl⟩

/-! ## The capture -/

/-- The compositor gave no picture, or a blank one. -/
def Failed (mapped : Except Failure (Mapped × Crop)) : Prop :=
  ∀ m crop frame, mapped = .ok (m, crop) →
    convertBgraFrame m.data m.rowPitch m.width m.height crop = .ok frame →
      blankFrameReason frame.rgba ≠ none

/-- Where a picture comes from: it is the compositor's inside the crop, or where that failed GDI's
copy. -/
def Source (mapped : Except Failure (Mapped × Crop)) (copy : Except Failure Copied)
    (image : Png.Image) : Prop :=
  (∃ m crop, mapped = .ok (m, crop) ∧ image.width = crop.columns m ∧ image.height = crop.rows m ∧
      composite image.rgba = m.cropped crop) ∨
    Failed mapped ∧ ∃ copied, copy = .ok copied ∧ image.width = copied.width.toNat ∧
      image.height = copied.height.toNat ∧ swapChannels image.rgba = copied.pixels

theorem captureWindowRaw_ok {mapped : Except Failure (Mapped × Crop)} {hint : String}
    {copy : Except Failure Copied} {frame : Frame}
    (hcomposited : ∀ m crop, mapped = .ok (m, crop) → m.Composited crop)
    (h : captureWindowRaw mapped hint copy = .ok frame) :
    0 < frame.width.toNat ∧ 0 < frame.height.toNat ∧
      frame.rgba.length = 4 * (frame.width.toNat * frame.height.toNat) ∧
      blankFrameReason frame.rgba = none ∧
      Source mapped copy ⟨frame.width.toNat, frame.height.toNat, frame.rgba⟩ := by
  have hcopied (hfailed : Failed mapped) (h : captureWindowGdiRaw hint copy = .ok frame) :
      0 < frame.width.toNat ∧ 0 < frame.height.toNat ∧
        frame.rgba.length = 4 * (frame.width.toNat * frame.height.toNat) ∧
        blankFrameReason frame.rgba = none ∧
        Source mapped copy ⟨frame.width.toNat, frame.height.toNat, frame.rgba⟩ := by
    obtain ⟨copied, hcopy, hblank, rfl⟩ := captureWindowGdiRaw_ok h
    refine ⟨copied.area.1, copied.area.2, ?_, hblank,
      Or.inr ⟨hfailed, copied, hcopy, rfl, rfl, ?_⟩⟩
    · rw [length_swapChannels]
      exact copied.size
    · exact swapChannels_swapChannels copied.pixels
  unfold captureWindowRaw at h
  dsimp only at h
  cases mapped with
  | error e =>
    dsimp only [Except.bind] at h
    -- the fallback only adds to the text of an error
    have hgdi : captureWindowGdiRaw hint copy = .ok frame := by
      split at h
      · next heq => exact heq.trans h
      · cases h
    exact hcopied (fun m crop frame hmapped => by cases hmapped) hgdi
  | ok pair =>
    obtain ⟨m, crop⟩ := pair
    dsimp only [Except.bind] at h
    cases hconvert : convertBgraFrame m.data m.rowPitch m.width m.height crop with
    | error e =>
      rw [hconvert] at h
      dsimp only at h
      have hgdi : captureWindowGdiRaw hint copy = .ok frame := by
        split at h
        · next heq => exact heq.trans h
        · cases h
      refine hcopied (fun m' crop' frame hmapped hframe => ?_) hgdi
      cases hmapped
      rw [hconvert] at hframe
      cases hframe
    | ok converted =>
      rw [hconvert] at h
      dsimp only at h
      cases hblank : blankFrameReason converted.rgba with
      | some reason =>
        rw [hblank, Option.isNone_some, if_neg Bool.false_ne_true] at h
        have hgdi : captureWindowGdiRaw hint copy = .ok frame := by
          split at h
          · next heq => exact heq.trans h
          · cases h
        refine hcopied (fun m' crop' frame hmapped hframe => ?_) hgdi
        cases hmapped
        rw [hconvert] at hframe
        cases hframe
        rw [hblank]
        exact Option.some_ne_none reason
      | none =>
        rw [hblank] at h
        cases h
        have hwhole := hcomposited m crop rfl
        have hinside := inside_of_convert hconvert
        obtain ⟨frame', hframe, hwidth, hheight, hsize, hcomposite⟩ :=
          convertBgraFrame_eq hinside hwhole.pitch
        rw [hconvert] at hframe
        cases hframe
        refine ⟨?_, ?_, hsize, hblank,
          Or.inl ⟨m, crop, rfl, hwidth, hheight, hcomposite hwhole⟩⟩
        · rw [hwidth]
          exact hinside.columns_pos
        · rw [hheight]
          exact hinside.rows_pos

/-- The brown pixel as it is mapped, with four bytes more in its row. -/
def brownMapped : Mapped where
  data := [50, 100, 200, 255, 238, 238, 238, 238]
  rowPitch := 8
  width := 1
  height := 1
  size := rfl
  fits := by decide

theorem brownMapped_composited (m : Mapped) (crop : Crop)
    (h : (Except.ok (brownMapped, ⟨0, 0, 1, 1⟩) : Except Failure (Mapped × Crop)) =
      .ok (m, crop)) : m.Composited crop := by
  cases h
  refine ⟨by decide, fun k hk => ?_⟩
  have hzero : k = 0 := Nat.lt_one_iff.mp hk
  rw [hzero]
  exact ⟨by decide, by decide, by decide, trivial⟩

end Victauri.Plugin.Screenshot
