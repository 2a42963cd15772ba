import Mathlib.Data.List.Basic
import Victauri.Library.Png
import Victauri.Plugin.Screenshot

/-!
# What `encode_png` writes

The bytes are those of a PNG file, which a reader gives back as the picture that went in; no change
of a few bytes together in a chunk goes unnoticed.
-/

namespace Victauri.Plugin.Screenshot

/-! ## The check -/

theorem toBitVec_crcStep (crc : UInt32) :
    (crcStep crc).toBitVec = Crc.shift Png.polynomial crc.toBitVec := by
  have hlow : (crc &&& 1 ≠ 0) ↔ crc.toBitVec.getLsbD 0 = true := by
    rw [ne_eq, ← UInt32.toBitVec_inj, UInt32.toBitVec_and]
    change ¬crc.toBitVec &&& 1#32 = 0#32 ↔ _
    rw [BitVec.and_one_eq_setWidth_ofBool_getLsbD]
    cases crc.toBitVec.getLsbD 0 <;> decide
  unfold crcStep Crc.shift
  by_cases h : crc.toBitVec.getLsbD 0 = true
  · rw [if_pos (hlow.mpr h), if_pos h]
    rfl
  · rw [if_neg fun h' => h (hlow.mp h'), if_neg h]
    rfl

theorem toBitVec_pngCrc32 (data : List UInt8) : (pngCrc32 data).toBitVec = Png.crc32 data := by
  have hfeed (crc : UInt32) (byte : UInt8) :
      (Nat.iterate crcStep 8 (crc ^^^ byte.toUInt32)).toBitVec =
        Crc.feed Png.polynomial crc.toBitVec byte := by
    have hsteps : ∀ n (c : UInt32), (Nat.iterate crcStep n c).toBitVec =
        Crc.shifts Png.polynomial n c.toBitVec := by
      intro n
      induction n with
      | zero => exact fun c => rfl
      | succ n ih =>
        intro c
        rw [Function.iterate_succ_apply, ih, toBitVec_crcStep]
        rfl
    rw [hsteps]
    rfl
  have hfold (data : List UInt8) (crc : UInt32) :
      (data.foldl (fun crc byte => Nat.iterate crcStep 8 (crc ^^^ byte.toUInt32)) crc).toBitVec =
        Crc.remainder Png.polynomial crc.toBitVec data := by
    induction data generalizing crc with
    | nil => rfl
    | cons byte data ih => rw [List.foldl_cons, ih, hfeed]; rfl
  unfold pngCrc32 Png.crc32
  rw [UInt32.toBitVec_xor, hfold]
  rfl

theorem toBeBytes_eq (n : UInt32) : toBeBytes n = Png.fourBytes n.toNat := by
  have hbyte (k : UInt32) (hk : k.toNat < 32) :
      (n >>> k).toUInt8 = UInt8.ofNat (n.toNat / 2 ^ k.toNat) := by
    apply UInt8.toNat_inj.mp
    rw [UInt32.toNat_toUInt8, UInt32.toNat_shiftRight, UInt8.toNat_ofNat', Nat.mod_eq_of_lt hk,
      Nat.shiftRight_eq_div_pow]
  unfold toBeBytes Png.fourBytes
  rw [hbyte 24 (by decide), hbyte 16 (by decide), hbyte 8 (by decide)]
  congr 4

/-! ## The chunks -/

theorem writePngChunk_eq (out : List UInt8) (chunk : Png.Chunk) (h : chunk.data.length < 2 ^ 32) :
    writePngChunk out chunk.type chunk.data = .ok (out ++ chunk.bytes) := by
  have hlength : (UInt32.ofNat chunk.data.length).toNat = chunk.data.length := by
    rw [UInt32.toNat_ofNat']
    exact Nat.mod_eq_of_lt h
  have hcheck : (pngCrc32 (chunk.type ++ chunk.data)).toNat =
      (Png.crc32 (chunk.type ++ chunk.data)).toNat := by
    rw [← toBitVec_pngCrc32]
    rfl
  rw [writePngChunk, if_pos h, toBeBytes_eq, toBeBytes_eq, hlength, hcheck, Png.Chunk.bytes]
  simp only [List.append_assoc]

theorem length_chunks {size count : Nat} {bytes : List UInt8} (h : size * count ≤ bytes.length) :
    ∀ row ∈ chunks size count bytes, row.length = size := by
  induction count generalizing bytes with
  | zero => exact List.forall_mem_nil _
  | succ count ih =>
    rw [Nat.mul_succ] at h
    rw [chunks, List.forall_mem_cons]
    refine ⟨List.length_take_of_le (by omega), ih ?_⟩
    rw [List.length_drop]
    omega

theorem flatten_chunks (size count : Nat) (bytes : List UInt8) :
    (chunks size count bytes).flatten = bytes.take (size * count) := by
  induction count generalizing bytes with
  | zero => rfl
  | succ count ih =>
    rw [chunks, List.flatten_cons, ih, Nat.mul_succ, Nat.add_comm, List.take_add]

theorem length_chunks_eq (size count : Nat) (bytes : List UInt8) :
    (chunks size count bytes).length = count := by
  induction count generalizing bytes with
  | zero => rfl
  | succ count ih => rw [chunks, List.length_cons, ih]

/-! ## The file -/

def headerChunk (width height : UInt32) : Png.Chunk :=
  ⟨Png.typeHeader, toBeBytes width ++ toBeBytes height ++
    [pngBitDepth, pngColorTypeRgba, 0, 0, 0]⟩

/-- The rows, each after the kind of its filter, which is none. -/
def rawRows (width : UInt32) (rgba : List UInt8) : List UInt8 :=
  (chunksExact (width.toNat * 4) rgba).flatMap fun row => 0 :: row

theorem headerChunk_inner (width height : UInt32) : (headerChunk width height).Inner where
  type := rfl
  data := by
    change 13 < 2 ^ 32
    decide
  inner := by
    change Png.typeHeader ≠ Png.typeEnd
    decide

/-- A picture of some width is written whole, unless it is too large or not compressed. -/
theorem encodePng_eq {deflateCompress : List UInt8 → Except Failure (List UInt8)}
    {width height : UInt32} {rgba compressed : List UInt8} (hwidth : 0 < width.toNat)
    (hcompressed : deflateCompress (rawRows width rgba) = .ok compressed)
    (hsize : compressed.length < 2 ^ 32) :
    encodePng deflateCompress width height rgba =
      .ok (Png.fileSignature ++ (Png.fileBytes [headerChunk width height,
        ⟨Png.typeData, compressed⟩] ++ (Png.Chunk.mk Png.typeEnd []).bytes)) := by
  have hheader := writePngChunk_eq pngSignature (headerChunk width height)
    (headerChunk_inner width height).data
  have hdata := writePngChunk_eq (pngSignature ++ (headerChunk width height).bytes)
    ⟨Png.typeData, compressed⟩ hsize
  have hend := writePngChunk_eq (pngSignature ++ (headerChunk width height).bytes ++
    (Png.Chunk.mk Png.typeData compressed).bytes) ⟨Png.typeEnd, []⟩ (by decide)
  unfold rawRows at hcompressed
  unfold encodePng
  dsimp only [headerChunk, Png.typeHeader, Png.typeData, Png.typeEnd] at hheader hdata hend ⊢
  rw [hheader]
  dsimp only [bind, Except.bind]
  rw [if_neg (by omega)]
  rw [hcompressed]
  dsimp only
  rw [hdata]
  dsimp only
  rw [hend]
  simp only [Png.fileBytes, List.flatMap_cons, List.flatMap_nil, List.append_nil, pngSignature,
    Png.fileSignature, List.append_assoc]

theorem encodePng_ok {deflateCompress : List UInt8 → Except Failure (List UInt8)}
    {width height : UInt32} {rgba png : List UInt8}
    (h : encodePng deflateCompress width height rgba = .ok png) :
    0 < width.toNat ∧ ∃ compressed, deflateCompress (rawRows width rgba) = .ok compressed ∧
      compressed.length < 2 ^ 32 := by
  have hheader := writePngChunk_eq pngSignature (headerChunk width height)
    (headerChunk_inner width height).data
  unfold encodePng at h
  dsimp only [headerChunk, Png.typeHeader] at hheader h
  rw [hheader] at h
  dsimp only [bind, Except.bind] at h
  by_cases hwidth : width.toNat * 4 = 0
  · rw [if_pos hwidth] at h
    cases h
  rw [if_neg hwidth] at h
  refine ⟨by omega, ?_⟩
  unfold rawRows
  cases hcompressed : deflateCompress _ with
  | error e =>
    rw [hcompressed] at h
    cases h
  | ok compressed =>
    rw [hcompressed] at h
    dsimp only at h
    refine ⟨compressed, rfl, ?_⟩
    by_contra hsize
    rw [writePngChunk, if_neg hsize] at h
    cases h

/-- The rows of a picture of the size that was given. -/
theorem chunksExact_rows {width height : Nat} {rgba : List UInt8} (hwidth : 0 < width)
    (hsize : rgba.length = 4 * (width * height)) :
    (chunksExact (width * 4) rgba).length = height ∧
      (∀ row ∈ chunksExact (width * 4) rgba, row.length = 4 * width) ∧
        (chunksExact (width * 4) rgba).flatten = rgba := by
  have hcount : rgba.length / (width * 4) = height := by
    rw [hsize, ← Nat.mul_assoc, Nat.mul_comm 4 width]
    exact Nat.mul_div_cancel_left height (by omega)
  have hall : width * 4 * height = rgba.length := by
    rw [hsize, ← Nat.mul_assoc, Nat.mul_comm 4 width]
  unfold chunksExact
  rw [hcount]
  refine ⟨length_chunks_eq _ _ _, fun row hrow => ?_, ?_⟩
  · rw [Nat.mul_comm 4]
    exact length_chunks (by omega) row hrow
  · rw [flatten_chunks, hall, List.take_length]

/-! ## Reading it back -/

section

variable {deflateCompress : List UInt8 → Except Failure (List UInt8)}
  {inflate : List UInt8 → Option (List UInt8)} {width height : UInt32} {rgba png : List UInt8}

theorem readHeader_headerChunk (hwidth : 0 < width.toNat) (hheight : 0 < height.toNat) :
    Png.readHeader (headerChunk width height) = .ok (width.toNat, height.toNat) := by
  have hdata : (headerChunk width height).data = Png.fourBytes width.toNat ++
      (Png.fourBytes height.toNat ++ [8, 6, 0, 0, 0]) := by
    rw [headerChunk, toBeBytes_eq, toBeBytes_eq, List.append_assoc]
    rfl
  unfold Png.readHeader
  rw [hdata, List.take_left' (Png.length_fourBytes _), List.drop_left' (Png.length_fourBytes _),
    List.take_left' (Png.length_fourBytes _), Png.number_fourBytes (UInt32.toNat_lt width),
    Png.number_fourBytes (UInt32.toNat_lt height), if_neg, if_neg (by omega), if_neg]
  · exact not_not_intro rfl
  · rw [not_or]
    exact ⟨not_not_intro rfl, not_not_intro rfl⟩

/-- What is decompressed is what was compressed. -/
def Inflates (deflateCompress : List UInt8 → Except Failure (List UInt8))
    (inflate : List UInt8 → Option (List UInt8)) : Prop :=
  ∀ raw compressed, deflateCompress raw = .ok compressed → inflate compressed = some raw

theorem read_encodePng (hinflate : Inflates deflateCompress inflate) (hheight : 0 < height.toNat)
    (hsize : rgba.length = 4 * (width.toNat * height.toNat))
    (h : encodePng deflateCompress width height rgba = .ok png) :
    Png.read inflate png = .ok ⟨width.toNat, height.toNat, rgba⟩ := by
  obtain ⟨hwidth, compressed, hcompressed, hfits⟩ := encodePng_ok h
  rw [encodePng_eq hwidth hcompressed hfits] at h
  obtain ⟨hcount, hrows, hflatten⟩ := chunksExact_rows hwidth hsize
  have hinner : ∀ chunk ∈ [headerChunk width height, ⟨Png.typeData, compressed⟩],
      chunk.Inner := by
    rw [List.forall_mem_cons, List.forall_mem_singleton]
    have hinner : Png.typeData ≠ Png.typeEnd := by decide
    exact ⟨headerChunk_inner width height, rfl, hfits, hinner⟩
  have hunfilter : Png.unfilter (4 * width.toNat) height.toNat [] (rawRows width rgba) =
      .ok rgba := by
    have hplain := Png.unfilter_plain hrows []
    rwa [hcount, hflatten] at hplain
  rw [← Except.ok.inj h]
  unfold Png.read
  rw [List.take_left' Png.length_fileSignature, if_neg (by simp),
    List.drop_left' Png.length_fileSignature, Png.readChunks_file hinner]
  · dsimp only
    rw [readHeader_headerChunk hwidth hheight]
    dsimp only
    have hdata : (([⟨Png.typeData, compressed⟩] : List Png.Chunk).filter
        fun chunk => chunk.type = Png.typeData).flatMap Png.Chunk.data = compressed :=
      List.append_nil compressed
    rw [if_neg (by simp), hdata, hinflate _ _ hcompressed]
    dsimp only
    rw [hunfilter]
  · have hfuel := @Png.length_le_fileBytes [headerChunk width height, ⟨Png.typeData, compressed⟩]
    rw [List.length_append, List.length_append, Png.length_fileSignature]
    omega

/-- A picture is written as long as it can be compressed into one chunk, and is read back. -/
theorem encodePng_exact (hinflate : Inflates deflateCompress inflate) (hwidth : 0 < width.toNat)
    (hheight : 0 < height.toNat) (hsize : rgba.length = 4 * (width.toNat * height.toNat)) :
    match deflateCompress (rawRows width rgba) with
    | .error e => encodePng deflateCompress width height rgba = .error e
    | .ok compressed =>
        if compressed.length < 2 ^ 32 then
          ∃ png, encodePng deflateCompress width height rgba = .ok png ∧
            Png.read inflate png = .ok ⟨width.toNat, height.toNat, rgba⟩
        else
          encodePng deflateCompress width height rgba =
            .error (.failed s!"PNG chunk too large: {compressed.length} bytes") := by
  have hheader := writePngChunk_eq pngSignature (headerChunk width height)
    (headerChunk_inner width height).data
  cases hcompressed : deflateCompress (rawRows width rgba) with
  | error e =>
    unfold rawRows at hcompressed
    unfold encodePng
    dsimp only [headerChunk, Png.typeHeader] at hheader ⊢
    rw [hheader]
    dsimp only [bind, Except.bind]
    rw [if_neg (by omega), hcompressed]
  | ok compressed =>
    dsimp only
    by_cases hfits : compressed.length < 2 ^ 32
    · rw [if_pos hfits]
      have hpng := @encodePng_eq _ width height _ _ hwidth hcompressed hfits
      exact ⟨_, hpng, read_encodePng hinflate hheight hsize hpng⟩
    · rw [if_neg hfits]
      unfold rawRows at hcompressed
      unfold encodePng
      dsimp only [headerChunk, Png.typeHeader] at hheader ⊢
      rw [hheader]
      dsimp only [bind, Except.bind]
      rw [if_neg (by omega), hcompressed]
      dsimp only
      rw [writePngChunk, if_neg hfits]

/-- One brown pixel after the kind of its filter, and what it is compressed to. -/
def brownRaw : List UInt8 := [0, 200, 100, 50, 255]

def brownCompressed : List UInt8 := [120, 1, 99, 56, 145, 98, 244, 31, 0, 5, 180, 2, 94]

/-- The compression where it is known. -/
def brownCompress (raw : List UInt8) : Except Failure (List UInt8) :=
  if raw = brownRaw then .ok brownCompressed else .error (.failed "zlib write failed")

def brownInflate (compressed : List UInt8) : Option (List UInt8) :=
  if compressed = brownCompressed then some brownRaw else none

theorem brown_inflates : Inflates brownCompress brownInflate := by
  intro raw compressed h
  unfold brownCompress at h
  by_cases hraw : raw = brownRaw
  · rw [if_pos hraw] at h
    rw [← Except.ok.inj h, hraw]
    rfl
  · rw [if_neg hraw] at h
    cases h

theorem encodePng_exact_brown :
    ∃ png, encodePng brownCompress 1 1 [200, 100, 50, 255] = .ok png ∧
      Png.read brownInflate png = .ok ⟨1, 1, [200, 100, 50, 255]⟩ :=
  @encodePng_exact brownCompress brownInflate 1 1 [200, 100, 50, 255] brown_inflates
    (by decide) (by decide) rfl

/-- Whoever reads the file notices when up to four bytes together of a chunk's type and data are
not those that were written, or its check is not. -/
theorem encodePng_damaged (h : encodePng deflateCompress width height rgba = .ok png) :
    ∃ chunks : List Png.Chunk, png = Png.fileSignature ++ Png.fileBytes chunks ∧
      ∀ front chunk back, chunks = front ++ chunk :: back → ∀ body check,
        chunk.Damaged body check →
          ∀ inflate, Png.read inflate (Png.fileSignature ++ (Png.fileBytes front ++
            (Png.fourBytes chunk.data.length ++ body ++ check ++ Png.fileBytes back))) =
              .error .checksum := by
  obtain ⟨hwidth, compressed, hcompressed, hfits⟩ := encodePng_ok h
  rw [encodePng_eq hwidth hcompressed hfits] at h
  have hdata : (Png.Chunk.mk Png.typeData compressed).Inner := by
    have hinner : Png.typeData ≠ Png.typeEnd := by decide
    exact ⟨rfl, hfits, hinner⟩
  refine ⟨[headerChunk width height, ⟨Png.typeData, compressed⟩, ⟨Png.typeEnd, []⟩], ?_, ?_⟩
  · rw [← Except.ok.inj h]
    simp only [Png.fileBytes, List.flatMap_cons, List.flatMap_nil, List.append_nil,
      List.append_assoc]
  · intro front chunk back hsplit body check hdamaged inflate
    -- the chunk is one of the three, and those before it are not the last one
    cases front with
    | nil =>
      cases hsplit
      exact Png.read_damaged inflate (List.forall_mem_nil _) _ rfl
        (headerChunk_inner width height).data hdamaged
    | cons first front =>
      cases front with
      | nil =>
        cases hsplit
        exact Png.read_damaged inflate
          (List.forall_mem_singleton.mpr (headerChunk_inner width height)) _ rfl hfits hdamaged
      | cons second front =>
        cases front with
        | nil =>
          cases hsplit
          refine Png.read_damaged inflate ?_ _ rfl (Nat.two_pow_pos 32) hdamaged
          rw [List.forall_mem_cons, List.forall_mem_singleton]
          exact ⟨headerChunk_inner width height, hdata⟩
        | cons third front =>
          have hlength := congrArg List.length hsplit
          simp only [List.length_cons, List.length_nil, List.length_append] at hlength
          omega

/-- The file of the brown pixel. -/
def brownPng : List UInt8 :=
  [137, 80, 78, 71, 13, 10, 26, 10, 0, 0, 0, 13, 73, 72, 68, 82, 0, 0, 0, 1, 0, 0, 0, 1, 8, 6, 0,
    0, 0, 31, 21, 196, 137, 0, 0, 0, 13, 73, 68, 65, 84, 120, 1, 99, 56, 145, 98, 244, 31, 0, 5,
    180, 2, 94, 237, 74, 120, 57, 0, 0, 0, 0, 73, 69, 78, 68, 174, 66, 96, 130]

theorem encodePng_damaged_brown :
    ∃ chunks : List Png.Chunk, brownPng = Png.fileSignature ++ Png.fileBytes chunks ∧
      ∀ front chunk back, chunks = front ++ chunk :: back → ∀ body check,
        chunk.Damaged body check →
          ∀ inflate, Png.read inflate (Png.fileSignature ++ (Png.fileBytes front ++
            (Png.fourBytes chunk.data.length ++ body ++ check ++ Png.fileBytes back))) =
              .error .checksum :=
  @encodePng_damaged brownCompress 1 1 [200, 100, 50, 255] brownPng (by decide +kernel)

end

end Victauri.Plugin.Screenshot
