import Mathlib.Algebra.Group.Nat.Defs
import Victauri.Library.Crc

/-!
# PNG files

A reader of pictures with eight bits each of red, green, blue and alpha: signature, chunks with
their checks, header, compressed data, the five filters of a row.  The decompression is a
parameter.
-/

namespace Png

/-! ## Numbers -/

/-- The four bytes of a number, the highest first. -/
def fourBytes (n : Nat) : List UInt8 :=
  [UInt8.ofNat (n / 2 ^ 24), UInt8.ofNat (n / 2 ^ 16), UInt8.ofNat (n / 2 ^ 8), UInt8.ofNat n]

def number (bytes : List UInt8) : Nat := bytes.foldl (fun n b => 256 * n + b.toNat) 0

theorem length_fourBytes (n : Nat) : (fourBytes n).length = 4 := rfl

theorem number_fourBytes {n : Nat} (hn : n < 2 ^ 32) : number (fourBytes n) = n := by
  simp only [number, fourBytes, List.foldl_cons, List.foldl_nil, UInt8.toNat_ofNat']
  omega

/-! ## Chunks -/

inductive Error where
  | signature
  | truncated
  | checksum
  | trailing
  | header
  | unsupported
  | compression
  | filter
  | size
  deriving DecidableEq

structure Chunk where
  type : List UInt8
  data : List UInt8
  deriving DecidableEq

/-- The reflected polynomial of the check. -/
def polynomial : BitVec 32 := 0xEDB88320#32

def crc32 (bytes : List UInt8) : BitVec 32 :=
  Crc.remainder polynomial (BitVec.allOnes 32) bytes ^^^ BitVec.allOnes 32

/-- The first chunk and what follows it. -/
def readChunk (bytes : List UInt8) : Except Error (Chunk × List UInt8) :=
  let length := number (bytes.take 4)
  let body := (bytes.drop 4).take (4 + length)
  let check := (bytes.drop (8 + length)).take 4
  if bytes.length < 12 + length then .error .truncated
  else if check ≠ fourBytes (crc32 body).toNat then .error .checksum
  else .ok (⟨body.take 4, body.drop 4⟩, bytes.drop (12 + length))

def typeHeader : List UInt8 := [73, 72, 68, 82]

def typeData : List UInt8 := [73, 68, 65, 84]

def typeEnd : List UInt8 := [73, 69, 78, 68]

/-- The chunks before the last one. -/
def readChunks : Nat → List UInt8 → Except Error (List Chunk)
  | 0, _ => .error .truncated
  | fuel + 1, bytes =>
      match readChunk bytes with
      | .error e => .error e
      | .ok (chunk, rest) =>
          if chunk.type = typeEnd then
            if rest.isEmpty then .ok [] else .error .trailing
          else
            match readChunks fuel rest with
            | .error e => .error e
            | .ok chunks => .ok (chunk :: chunks)

/-! ## Rows -/

def paeth (a b c : Nat) : Nat :=
  let p : Int := a + b - c
  let pa := (p - a).natAbs
  let pb := (p - b).natAbs
  let pc := (p - c).natAbs
  if pa ≤ pb ∧ pa ≤ pc then a else if pb ≤ pc then b else c

/-- What a filter adds to a byte, from those on its left, above it, and above that on its left. -/
def predictor (kind : UInt8) : Option (Nat → Nat → Nat → Nat) :=
  match kind.toNat with
  | 0 => some fun _ _ _ => 0
  | 1 => some fun a _ _ => a
  | 2 => some fun _ b _ => b
  | 3 => some fun a b _ => (a + b) / 2
  | 4 => some paeth
  | _ => none

def unfilterRow (predict : Nat → Nat → Nat → Nat) (above : List UInt8) :
    List UInt8 → List UInt8 → List UInt8
  | done, [] => done
  | done, byte :: rest =>
      let i := done.length
      let left := if 4 ≤ i then (done.getD (i - 4) 0).toNat else 0
      let aboveLeft := if 4 ≤ i then (above.getD (i - 4) 0).toNat else 0
      let byte := byte + UInt8.ofNat (predict left (above.getD i 0).toNat aboveLeft)
      unfilterRow predict above (done ++ [byte]) rest

/-- The rows, each after the kind of its filter. -/
def unfilter (rowLength : Nat) : Nat → List UInt8 → List UInt8 → Except Error (List UInt8)
  | 0, _, bytes => if bytes.isEmpty then .ok [] else .error .size
  | _ + 1, _, [] => .error .size
  | rows + 1, above, kind :: bytes =>
      if bytes.length < rowLength then .error .size
      else
        match predictor kind with
        | none => .error .filter
        | some predict =>
            let row := unfilterRow predict above [] (bytes.take rowLength)
            match unfilter rowLength rows row (bytes.drop rowLength) with
            | .error e => .error e
            | .ok rest => .ok (row ++ rest)

/-! ## Files -/

structure Image where
  width : Nat
  height : Nat
  rgba : List UInt8
  deriving DecidableEq

def fileSignature : List UInt8 := [137, 80, 78, 71, 13, 10, 26, 10]

theorem length_fileSignature : fileSignature.length = 8 := rfl

/-- A reader may pass over a chunk whose type starts with a small letter. -/
def Chunk.ancillary (chunk : Chunk) : Bool := 97 ≤ (chunk.type.headD 0).toNat

/-- Width and height of eight-bit RGBA pictures that are not interlaced. -/
def readHeader (chunk : Chunk) : Except Error (Nat × Nat) :=
  if chunk.type ≠ typeHeader ∨ chunk.data.length ≠ 13 then .error .header
  else if number (chunk.data.take 4) = 0 ∨ number ((chunk.data.drop 4).take 4) = 0 then
    .error .header
  else if chunk.data.drop 8 ≠ [8, 6, 0, 0, 0] then .error .unsupported
  else .ok (number (chunk.data.take 4), number ((chunk.data.drop 4).take 4))

def read (inflate : List UInt8 → Option (List UInt8)) (bytes : List UInt8) : Except Error Image :=
  if bytes.take 8 ≠ fileSignature then .error .signature
  else
    match readChunks bytes.length (bytes.drop 8) with
    | .error e => .error e
    | .ok [] => .error .header
    | .ok (header :: chunks) =>
        match readHeader header with
        | .error e => .error e
        | .ok (width, height) =>
            if chunks.any fun chunk => chunk.type ≠ typeData ∧ !chunk.ancillary then
              .error .unsupported
            else
              let data := (chunks.filter fun chunk => chunk.type = typeData).flatMap Chunk.data
              match inflate data with
              | none => .error .compression
              | some raw =>
                  match unfilter (4 * width) height [] raw with
                  | .error e => .error e
                  | .ok rgba => .ok ⟨width, height, rgba⟩

/-! ## Reading what was written -/

theorem fourBytes_injective {m n : Nat} (hm : m < 2 ^ 32) (hn : n < 2 ^ 32)
    (h : fourBytes m = fourBytes n) : m = n := by
  rw [← number_fourBytes hm, ← number_fourBytes hn, h]

def Chunk.bytes (chunk : Chunk) : List UInt8 :=
  fourBytes chunk.data.length ++ (chunk.type ++ chunk.data) ++
    fourBytes (crc32 (chunk.type ++ chunk.data)).toNat

/-- A chunk by its length is read as far as its check says it is whole. -/
theorem readChunk_framed {n : Nat} {body check : List UInt8} (rest : List UInt8) (hn : n < 2 ^ 32)
    (hbody : body.length = 4 + n) (hcheck : check.length = 4) :
    readChunk (fourBytes n ++ body ++ check ++ rest) =
      if check ≠ fourBytes (crc32 body).toNat then .error .checksum
      else .ok (⟨body.take 4, body.drop 4⟩, rest) := by
  have hlength : (fourBytes n ++ body ++ check ++ rest).take 4 = fourBytes n := by
    rw [List.append_assoc, List.append_assoc]
    exact List.take_left' (length_fourBytes n)
  have hbodies : ((fourBytes n ++ body ++ check ++ rest).drop 4).take (4 + n) = body := by
    rw [List.append_assoc, List.append_assoc, List.drop_left' (length_fourBytes n)]
    exact List.take_left' hbody
  have hfront : (fourBytes n ++ body).length = 8 + n := by
    rw [List.length_append, length_fourBytes, hbody]
    omega
  have hchecks : ((fourBytes n ++ body ++ check ++ rest).drop (8 + n)).take 4 = check := by
    rw [List.append_assoc (fourBytes n ++ body), List.drop_left' hfront]
    exact List.take_left' hcheck
  have hrest : (fourBytes n ++ body ++ check ++ rest).drop (12 + n) = rest := by
    apply List.drop_left'
    rw [List.length_append, hfront, hcheck]
    omega
  unfold readChunk
  dsimp only
  rw [hlength, number_fourBytes hn, hbodies, hchecks, hrest, if_neg]
  simp only [List.length_append, length_fourBytes, hbody, hcheck]
  omega

theorem readChunk_bytes {chunk : Chunk} (rest : List UInt8) (htype : chunk.type.length = 4)
    (hdata : chunk.data.length < 2 ^ 32) :
    readChunk (chunk.bytes ++ rest) = .ok (chunk, rest) := by
  have hbody : (chunk.type ++ chunk.data).length = 4 + chunk.data.length := by
    rw [List.length_append, htype]
  rw [Chunk.bytes, readChunk_framed rest hdata hbody (length_fourBytes _), if_neg (by simp),
    List.take_left' htype, List.drop_left' htype]

/-! ## Altered chunks -/

/-- As many bytes, different only within four of them that stand together. -/
def Altered (bytes bytes' : List UInt8) : Prop :=
  ∃ front part part' back, bytes = front ++ part ++ back ∧ bytes' = front ++ part' ++ back ∧
    part.length = part'.length ∧ part.length ≤ 4 ∧ part ≠ part'

theorem Altered.length_eq {bytes bytes' : List UInt8} (h : Altered bytes bytes') :
    bytes'.length = bytes.length := by
  obtain ⟨front, part, part', back, rfl, rfl, hlength, _⟩ := h
  simp only [List.length_append, hlength]

theorem crc32_altered {bytes bytes' : List UInt8} (h : Altered bytes bytes') :
    crc32 bytes ≠ crc32 bytes' := by
  obtain ⟨front, part, part', back, rfl, rfl, hlength, hfit, hne⟩ := h
  unfold crc32
  rw [ne_eq, BitVec.xor_left_inj]
  exact Crc.remainder_ne rfl _ front back hlength (by omega) hne

/-- The chunk's type and data are not what was written, or its check is not. -/
def Chunk.Damaged (chunk : Chunk) (body check : List UInt8) : Prop :=
  Altered (chunk.type ++ chunk.data) body ∧
      check = fourBytes (crc32 (chunk.type ++ chunk.data)).toNat ∨
    body = chunk.type ++ chunk.data ∧ check.length = 4 ∧
      check ≠ fourBytes (crc32 (chunk.type ++ chunk.data)).toNat

theorem readChunk_damaged {chunk : Chunk} {body check : List UInt8} (rest : List UInt8)
    (htype : chunk.type.length = 4) (hdata : chunk.data.length < 2 ^ 32)
    (h : chunk.Damaged body check) :
    readChunk (fourBytes chunk.data.length ++ body ++ check ++ rest) = .error .checksum := by
  have hwritten : (chunk.type ++ chunk.data).length = 4 + chunk.data.length := by
    rw [List.length_append, htype]
  rcases h with ⟨haltered, rfl⟩ | ⟨rfl, hlength, hne⟩
  · have hbody : body.length = 4 + chunk.data.length := haltered.length_eq.trans hwritten
    rw [readChunk_framed rest hdata hbody (length_fourBytes _), if_pos]
    intro hsame
    have hnat := fourBytes_injective (BitVec.isLt _) (BitVec.isLt _) hsame
    exact crc32_altered haltered (BitVec.eq_of_toNat_eq hnat)
  · rw [readChunk_framed rest hdata hwritten hlength, if_pos hne]

/-! ## Files of several chunks -/

def fileBytes (chunks : List Chunk) : List UInt8 := chunks.flatMap Chunk.bytes

/-- A chunk that can stand before the last one. -/
structure Chunk.Inner (chunk : Chunk) : Prop where
  type : chunk.type.length = 4
  data : chunk.data.length < 2 ^ 32
  inner : chunk.type ≠ typeEnd

theorem readChunks_append {chunks : List Chunk} (hchunks : ∀ chunk ∈ chunks, chunk.Inner)
    (fuel : Nat) (rest : List UInt8) :
    readChunks (chunks.length + fuel) (fileBytes chunks ++ rest) =
      match readChunks fuel rest with
      | .error e => .error e
      | .ok last => .ok (chunks ++ last) := by
  induction chunks with
  | nil =>
    rw [List.length_nil, Nat.zero_add, show fileBytes [] ++ rest = rest from rfl]
    cases readChunks fuel rest <;> rfl
  | cons chunk chunks ih =>
    rw [List.forall_mem_cons] at hchunks
    have hfuel : (chunk :: chunks).length + fuel = (chunks.length + fuel) + 1 := by
      rw [List.length_cons]
      omega
    rw [hfuel, fileBytes, List.flatMap_cons, List.append_assoc, readChunks,
      readChunk_bytes _ hchunks.1.type hchunks.1.data]
    dsimp only
    rw [if_neg hchunks.1.inner, ← fileBytes, ih hchunks.2]
    cases readChunks fuel rest <;> rfl

theorem length_le_fileBytes {chunks : List Chunk} : chunks.length ≤ (fileBytes chunks).length := by
  induction chunks with
  | nil => exact Nat.le_refl 0
  | cons chunk chunks ih =>
    have hchunk : 1 ≤ chunk.bytes.length := by
      simp only [Chunk.bytes, List.length_append, length_fourBytes]
      omega
    rw [fileBytes, List.flatMap_cons, List.length_append, ← fileBytes, List.length_cons]
    omega

/-- Whatever the chunks before it, a damaged one is noticed. -/
theorem read_damaged (inflate : List UInt8 → Option (List UInt8)) {front : List Chunk}
    (hfront : ∀ chunk ∈ front, chunk.Inner) {chunk : Chunk} {body check : List UInt8}
    (rest : List UInt8) (htype : chunk.type.length = 4) (hdata : chunk.data.length < 2 ^ 32)
    (h : chunk.Damaged body check) :
    read inflate (fileSignature ++ (fileBytes front ++
        (fourBytes chunk.data.length ++ body ++ check ++ rest))) = .error .checksum := by
  have hfuel : ∃ fuel, (fileSignature ++ (fileBytes front ++
      (fourBytes chunk.data.length ++ body ++ check ++ rest))).length =
      front.length + (fuel + 1) := by
    have hle := @length_le_fileBytes front
    refine ⟨(fileBytes front).length - front.length + (11 + body.length + check.length +
      rest.length), ?_⟩
    simp only [List.length_append, length_fourBytes, length_fileSignature]
    omega
  obtain ⟨fuel, hfuel⟩ := hfuel
  unfold read
  rw [List.take_left' length_fileSignature, if_neg (by simp),
    List.drop_left' length_fileSignature, hfuel,
    readChunks_append hfront, readChunks, readChunk_damaged rest htype hdata h]

theorem readChunks_file {chunks : List Chunk} (hchunks : ∀ chunk ∈ chunks, chunk.Inner) {fuel : Nat}
    (hfuel : chunks.length < fuel) :
    readChunks fuel (fileBytes chunks ++ (Chunk.mk typeEnd []).bytes) = .ok chunks := by
  obtain ⟨more, rfl⟩ := Nat.exists_eq_add_of_lt hfuel
  have hend : readChunks (more + 1) (Chunk.mk typeEnd []).bytes = .ok [] := by
    rw [readChunks, ← List.append_nil (Chunk.mk typeEnd []).bytes,
      @readChunk_bytes ⟨typeEnd, []⟩ [] rfl (by decide)]
    rfl
  rw [Nat.add_assoc, readChunks_append hchunks, hend]
  exact congrArg Except.ok (List.append_nil chunks)

/-! ## Rows that are not filtered -/

theorem unfilterRow_plain (above done row : List UInt8) :
    unfilterRow (fun _ _ _ => 0) above done row = done ++ row := by
  induction row generalizing done with
  | nil => exact (List.append_nil done).symm
  | cons byte rest ih =>
    rw [unfilterRow, ih, List.append_assoc]
    simp

theorem unfilter_plain {rowLength : Nat} {rows : List (List UInt8)}
    (hrows : ∀ row ∈ rows, row.length = rowLength) (above : List UInt8) :
    unfilter rowLength rows.length above (rows.flatMap fun row => 0 :: row) =
      .ok rows.flatten := by
  induction rows generalizing above with
  | nil => rfl
  | cons row rows ih =>
    rw [List.forall_mem_cons] at hrows
    rw [List.flatMap_cons, List.length_cons, List.cons_append, unfilter, if_neg]
    · rw [show predictor 0 = some fun _ _ _ => 0 from rfl, List.take_left' hrows.1,
        List.drop_left' hrows.1]
      dsimp only
      rw [unfilterRow_plain, ih hrows.2]
      rfl
    · rw [List.length_append, hrows.1]
      omega

end Png
