import Xtrx.Flash.Write

/-!
# The `flash_write` command (`litepcie_util.c`)

- **Functions**: `flash_program` and `flash_write`. The file is padded with zeros to whole sectors;
  the offset is taken as it is. A failed write ends the process, so a run with a result is one that
  reports success.
- **Slots** (`slot`): the address at which a byte of the image is written. A chunk that does not end
  in the page of its address wraps around, so the bytes past the end of the page are written before
  the address of the chunk. The verification reads the addresses in sequence.
- **`flashWrite_frame_iff`**: a success leaves the image in its range and nothing else changed, if
  and only if no success is possible (`CanVerify`) or the write is harmless (`Harmless`): the erase
  takes only ones before the offset, and wrapped bytes do not clear bits.
-/

namespace Xtrx
namespace Flash
namespace Util

open Nor Conc

/-- The file, padded with zeros. -/
def image (file : List Byte) : Nat → Byte := fun j => file.getD j 0

/-- `size` in `flash_program`. -/
def imageSize (size1 : Nat) : Nat :=
  (size1 + litepcieFlashGetEraseBlockSize - 1) / litepcieFlashGetEraseBlockSize *
    litepcieFlashGetEraseBlockSize

/-- `flash_program`; with errors the process ends. -/
def flashProgram (base : Nat) (buf1 : List Byte) : Fueled Board Unit := do
  -- get flash sector size and pad size to it
  let size := imageSize buf1.length
  -- program flash
  let errors ← litepcieFlashWrite (image buf1) base size
  if errors ≠ 0 then
    Fueled.abort
  else
    return ()

/-- `flash_write`: `fread` of the whole file as one item returns 1 if the file has a byte. -/
def flashWrite (file : List Byte) (offset : Nat) : Fueled Board Unit := do
  if file.length = 0 then
    return ()
  else
    flashProgram offset file

/-! ## Slots -/

section

variable {cs : ChipSelect} {offset : Nat}

/-- Byte `j` of the image is written at its own address: that is in the page of its chunk. -/
def InPage (cs : ChipSelect) (offset j : Nat) : Prop :=
  (offset + j) / pageSize = (offset + j / cs.programSize * cs.programSize) / pageSize

instance (cs : ChipSelect) (offset j : Nat) : Decidable (InPage cs offset j) :=
  inferInstanceAs (Decidable (_ = _))

/-- Where byte `j` of the image is written. -/
def slot (cs : ChipSelect) (offset j : Nat) : Nat :=
  if InPage cs offset j then offset + j else offset + j - pageSize

theorem div_add_mod_chunk (cs : ChipSelect) (offset j : Nat) :
    offset + j / cs.programSize * cs.programSize + j % cs.programSize = offset + j := by
  have := Nat.div_add_mod' j cs.programSize
  omega

/-- A chunk of one byte does not wrap around. -/
theorem inPage_hardware {read h} (offset j : Nat) : InPage (.hardware read h) offset j := by
  unfold InPage
  simp [ChipSelect.programSize]

theorem inPage_software (offset j : Nat) :
    InPage .software offset j ↔ (offset + j) / 256 = (offset + j / 256 * 256) / 256 := Iff.rfl

theorem inPage_iff_touches (cs : ChipSelect) (offset j : Nat) :
    InPage cs offset j ↔ Touches (offset + j / cs.programSize * cs.programSize) cs.programSize
      (offset + j / cs.programSize * cs.programSize + j % cs.programSize) := by
  have hlt := Nat.mod_lt j cs.chunkSize.pos
  constructor
  · intro h
    refine touches_add hlt ?_
    rw [div_add_mod_chunk]
    exact h
  · intro h
    have := h.1
    rwa [div_add_mod_chunk] at this

/-- The chunk of byte `j` writes it at its slot. -/
theorem touches_slot (cs : ChipSelect) (offset j : Nat) :
    Touches (offset + j / cs.programSize * cs.programSize) cs.programSize (slot cs offset j) ∧
      pageIndex (offset + j / cs.programSize * cs.programSize) (slot cs offset j) =
        j % cs.programSize := by
  unfold slot
  by_cases h : InPage cs offset j
  · have ht := (inPage_iff_touches cs offset j).mp h
    have hi := pageIndex_add ht.1
    rw [div_add_mod_chunk] at ht hi
    rw [if_pos h]
    exact ⟨ht, hi⟩
  · rw [if_neg h]
    cases cs with
    | hardware read hr => exact absurd (inPage_hardware offset j) h
    | software =>
      rw [inPage_software] at h
      unfold Touches pageIndex
      simp only [ChipSelect.programSize, pageSize]
      omega

/-- Every address that a chunk writes is the slot of one of its bytes. -/
theorem slot_of_touches {c' x : Nat}
    (h : Touches (offset + c' * cs.programSize) cs.programSize x) :
    ∃ j, j / cs.programSize = c' ∧ slot cs offset j = x := by
  cases cs with
  | hardware read hr =>
    have hx : x = offset + c' * 1 := touches_one.mp h
    refine ⟨c', Nat.div_one c', ?_⟩
    rw [slot, if_pos (inPage_hardware offset c'), hx, Nat.mul_one]
  | software =>
    have hx : x / pageSize = (offset + c' * 256) / pageSize := touches_page.mp h
    unfold pageSize at hx
    by_cases hlt : x < offset + c' * 256
    · have hn : ¬ InPage .software offset (x + 256 - offset) := by
        rw [inPage_software]
        omega
      refine ⟨x + 256 - offset, ?_, ?_⟩
      · show (x + 256 - offset) / 256 = c'
        omega
      · rw [slot, if_neg hn, pageSize]
        omega
    · have hp : InPage .software offset (x - offset) := by
        rw [inPage_software]
        omega
      refine ⟨x - offset, ?_, ?_⟩
      · show (x - offset) / 256 = c'
        omega
      · rw [slot, if_pos hp]
        omega

theorem slot_of_not_inPage {j : Nat} (h : ¬ InPage cs offset j) :
    slot cs offset j + pageSize = offset + j := by
  cases cs with
  | hardware read hr => exact absurd (inPage_hardware offset j) h
  | software =>
    rw [slot, if_neg h]
    rw [inPage_software] at h
    unfold pageSize
    omega

/-- Only a byte of the first page has its slot before the offset, and no slot is after its byte. -/
theorem slot_bounds (cs : ChipSelect) (offset j : Nat) :
    slot cs offset j ≤ offset + j ∧
      offset / sectorSize * sectorSize ≤ slot cs offset j ∧
      (slot cs offset j < offset ↔ ¬ InPage cs offset j ∧ j < pageSize) := by
  unfold slot
  by_cases h : InPage cs offset j
  · rw [if_pos h]
    have : offset / sectorSize * sectorSize ≤ offset := Nat.div_mul_le_self ..
    exact ⟨le_rfl, by omega, by omega, fun hn => absurd h hn.1⟩
  · rw [if_neg h]
    cases cs with
    | hardware read hr => exact absurd (inPage_hardware offset j) h
    | software =>
      have hp := h
      rw [inPage_software] at hp
      unfold sectorSize pageSize
      exact ⟨by omega, by omega, fun _ => ⟨h, by omega⟩, fun _ => by omega⟩

theorem inPage_add_page (cs : ChipSelect) (offset j : Nat) :
    InPage cs offset (j + pageSize) ↔ InPage cs offset j := by
  cases cs with
  | hardware read hr => exact ⟨fun _ => inPage_hardware offset j, fun _ => inPage_hardware offset _⟩
  | software =>
    rw [inPage_software, inPage_software, pageSize]
    omega

/-- A byte that is not written at its own address has the byte of the next chunk there. -/
theorem slot_next {j : Nat} (h : ¬ InPage cs offset j) :
    slot cs offset (j + pageSize) = offset + j := by
  have := slot_of_not_inPage (mt (inPage_add_page cs offset j).mp h)
  omega

/-- No two bytes have the same slot. -/
theorem slot_injective (cs : ChipSelect) (offset : Nat) : Function.Injective (slot cs offset) := by
  have hne : ∀ {j j'}, InPage cs offset j → ¬ InPage cs offset j' →
      slot cs offset j ≠ slot cs offset j' := by
    intro j j' hj hj' he
    have hs := slot_of_not_inPage hj'
    rw [← he, slot, if_pos hj] at hs
    obtain rfl : j' = j + pageSize := by omega
    exact hj' ((inPage_add_page cs offset j).mpr hj)
  intro j j' he
  by_cases hj : InPage cs offset j
  · by_cases hj' : InPage cs offset j'
    · rw [slot, slot, if_pos hj, if_pos hj'] at he
      omega
    · exact absurd he (hne hj hj')
  · by_cases hj' : InPage cs offset j'
    · exact absurd he.symm (hne hj' hj)
    · have hs := slot_of_not_inPage hj
      have hs' := slot_of_not_inPage hj'
      omega

/-! ## What a programmed image leaves -/

section

variable {masks : Nat → Mem} {limit k chunks size : Nat} {buf m m' : Mem}

/-- The byte at the slot of byte `j`. -/
theorem flashes_slot (h : Flashes masks cs.programSize limit offset buf chunks 0 m k m')
    (hsize : size = chunks * cs.programSize) {j : Nat} (hj : j < size) :
    ∃ u, m' (slot cs offset j) = m (slot cs offset j) &&& (buf j ||| u) ∧
      ∀ w, (∀ k, masks k (slot cs offset j) = w) → u = w := by
  have hc : j / cs.programSize < chunks := by
    rw [Nat.div_lt_iff_lt_mul cs.chunkSize.pos, ← hsize]
    exact hj
  obtain ⟨ht, hi⟩ := touches_slot cs offset j
  obtain ⟨u, hu, hw⟩ := h.touched cs.chunkSize hc ht
  refine ⟨u, ?_, hw⟩
  rw [hu, Nat.add_zero, hi, Nat.zero_add, Nat.div_add_mod']

/-- An address that is no slot keeps its byte. -/
theorem flashes_kept (h : Flashes masks cs.programSize limit offset buf chunks 0 m k m')
    (hsize : size = chunks * cs.programSize) {x : Nat}
    (hx : ∀ j, j < size → slot cs offset j ≠ x) : m' x = m x := by
  refine h.untouched fun c' hc' ht => ?_
  obtain ⟨j, rfl, hslot⟩ := slot_of_touches ht
  refine hx j ?_ hslot
  rwa [Nat.div_lt_iff_lt_mul cs.chunkSize.pos, ← hsize] at hc'

/-- What the verification of byte `j` says. -/
theorem flashes_verified (h : Flashes masks cs.programSize limit offset buf chunks 0 m k m')
    (hsize : size = chunks * cs.programSize) {j : Nat} (hj : j < size) :
    (if InPage cs offset j then m' else m) (offset + j) = buf j := by
  have hc : j / cs.programSize < chunks := by
    rw [Nat.div_lt_iff_lt_mul cs.chunkSize.pos, ← hsize]
    exact hj
  have hv := h.verified cs.chunkSize hc (Nat.mod_lt j cs.chunkSize.pos)
  simp only [Nat.add_zero, Nat.zero_add, Nat.div_add_mod'] at hv
  by_cases hin : InPage cs offset j
  · rw [if_pos ((inPage_iff_touches cs offset j).mp hin), div_add_mod_chunk] at hv
    rw [if_pos hin]
    exact hv
  · rw [if_neg (mt (inPage_iff_touches cs offset j).mpr hin), div_add_mod_chunk] at hv
    rw [if_neg hin]
    exact hv

end

/-! ## The conditions -/

/-- The contents that the image is programmed into. -/
def erased (mem : Mem) (file : List Byte) (offset : Nat) : Mem :=
  eraseFrom offset (imageSize file.length / sectorSize) mem

/-- Every byte of the image can be read back: the erased contents have the bits that it sets or,
where the byte is not written at its own address, the byte itself. -/
def CanVerify (cs : ChipSelect) (mem : Mem) (file : List Byte) (offset : Nat) : Prop :=
  ∀ j, j < imageSize file.length →
    if InPage cs offset j then
      erased mem file offset (offset + j) &&& image file j = image file j
    else erased mem file offset (offset + j) = image file j

/-- The byte that belongs at the slot of a byte that is not written at its own address. -/
def meant (file : List Byte) (j : Nat) : Byte :=
  if j < pageSize then 0xff else image file (j - pageSize)

/-- The write is harmless: in the sector of the offset the bytes before it are ones, and a byte that
is not written at its own address clears no bit of the one that belongs at its slot. -/
structure Harmless (cs : ChipSelect) (mem : Mem) (file : List Byte) (offset : Nat) : Prop where
  before : ∀ x, offset / sectorSize * sectorSize ≤ x → x < offset → mem x = 0xff
  wrapped : ∀ j, j < imageSize file.length → ¬ InPage cs offset j →
    meant file j &&& image file j = meant file j

/-- The range has the image, the rest is as before. -/
def WritesImage (file : List Byte) (offset : Nat) (mem mem' : Mem) : Prop :=
  (∀ j, j < imageSize file.length → mem' (offset + j) = image file j) ∧
    ∀ x, x < offset ∨ offset + imageSize file.length ≤ x → mem' x = mem x

variable {mem : Mem} {file : List Byte}

theorem imageSize_sectors (size1 : Nat) : imageSize size1 = imageSize size1 / sectorSize * sectorSize := by
  unfold imageSize litepcieFlashGetEraseBlockSize sectorSize
  omega

/-- The erased addresses. -/
theorem erased_apply (mem : Mem) (file : List Byte) (offset x : Nat) :
    erased mem file offset x =
      if offset / sectorSize * sectorSize ≤ x ∧
        x < offset / sectorSize * sectorSize + imageSize file.length then 0xff else mem x := by
  have hsec := imageSize_sectors file.length
  rw [erased, eraseFrom_apply]
  refine if_congr ?_ rfl rfl
  unfold sectorSize at *
  omega

/-- The bytes of the sector before the offset are erased. -/
theorem erased_before (hne : file ≠ []) {x : Nat} (hx : offset / sectorSize * sectorSize ≤ x)
    (hlt : x < offset) : erased mem file offset x = 0xff := by
  have hpos : 0 < file.length := List.length_pos_iff.mpr hne
  rw [erased_apply]
  refine if_pos ⟨hx, ?_⟩
  unfold imageSize litepcieFlashGetEraseBlockSize sectorSize
  omega

/-! ## The command -/

/-- A success is one of the programmer. -/
theorem flashWrite_flashes {b b' : Board} (hb : IdleBoard cs mem b) (hne : file ≠ [])
    (hfit : offset + imageSize file.length ≤ 2 ^ 24)
    (hy : Fueled.Yields (flashWrite file offset) b () b') :
    Flashes b.port.chip.masks cs.programSize (flashRetries + 1) offset (image file)
      (imageSize file.length / cs.programSize) 0 (erased mem file offset)
      (b.port.chip.ops + imageSize file.length / sectorSize) b'.port.chip.mem := by
  have hsec := imageSize_sectors file.length
  obtain ⟨ret, b₁, hw, hout⟩ := litepcieFlashWrite_spec hb hsec (chunks_of_sectors cs hsec) hfit
    (image file)
  unfold flashWrite at hy
  rw [if_neg (mt List.length_eq_zero_iff.mp hne)] at hy
  have hrest := hw.of_bind hy
  rcases hout with ⟨rfl, hfl⟩ | ⟨rfl, -⟩
  · obtain ⟨-, rfl⟩ := hrest.unique (Fueled.Yields.pure () b₁)
    exact hfl
  · exact absurd hrest Fueled.not_yields_abort

/-- Where the programmer gets to the end the command reports success. -/
theorem flashWrite_succeeds {b : Board} (hb : IdleBoard cs mem b) (hne : file ≠ [])
    (hfit : offset + imageSize file.length ≤ 2 ^ 24) {mem' : Mem}
    (hfl : Flashes b.port.chip.masks cs.programSize (flashRetries + 1) offset (image file)
      (imageSize file.length / cs.programSize) 0 (erased mem file offset)
      (b.port.chip.ops + imageSize file.length / sectorSize) mem') :
    ∃ b', Fueled.Yields (flashWrite file offset) b () b' := by
  have hsec := imageSize_sectors file.length
  obtain ⟨ret, b₁, hw, hout⟩ := litepcieFlashWrite_spec hb hsec (chunks_of_sectors cs hsec) hfit
    (image file)
  rcases hout with ⟨rfl, -⟩ | ⟨-, hno⟩
  · refine ⟨b₁, ?_⟩
    unfold flashWrite
    rw [if_neg (mt List.length_eq_zero_iff.mp hne)]
    exact hw.bind (Fueled.Yields.pure () b₁)
  · exact absurd hfl (hno mem')

/-- Bits that a byte does not clear stay, whatever is left of the others. -/
theorem and_or_of_and {v d : Byte} (h : v &&& d = v) (u : Byte) : v &&& (d ||| u) = v := by
  rw [BitVec.and_or_distrib_left, h]
  ext i hi
  simpa using fun hv _ => hv

/-- A success that is harmless writes the image and nothing else. -/
theorem writesImage_of_harmless {masks : Nat → Mem} {k : Nat} {mem' : Mem} (hne : file ≠ [])
    (hh : Harmless cs mem file offset)
    (h : Flashes masks cs.programSize (flashRetries + 1) offset (image file)
      (imageSize file.length / cs.programSize) 0 (erased mem file offset) k mem') :
    WritesImage file offset mem mem' := by
  have hsize := chunks_of_sectors cs (imageSize_sectors file.length)
  constructor
  · intro j hj
    have hv := flashes_verified h hsize hj
    by_cases hin : InPage cs offset j
    · rwa [if_pos hin] at hv
    · -- the byte that is read is in the next page; the next chunk writes there
      rw [if_neg hin] at hv
      have hslot := slot_next hin
      by_cases hlast : j + pageSize < imageSize file.length
      · obtain ⟨u, hu, -⟩ := flashes_slot h hsize hlast
        have hw := hh.wrapped (j + pageSize) hlast
          (mt (inPage_add_page cs offset j).mp hin)
        rw [meant, if_neg (by omega), Nat.add_sub_cancel] at hw
        rwa [hslot, hv, and_or_of_and hw] at hu
      · rw [flashes_kept h hsize, hv]
        intro j' hj' hs
        obtain rfl := slot_injective cs offset (hs.trans hslot.symm)
        exact hlast hj'
  · intro x hx
    by_cases hs : ∃ j, j < imageSize file.length ∧ slot cs offset j = x
    · obtain ⟨j, hj, rfl⟩ := hs
      obtain ⟨hle, hsec, hlt⟩ := slot_bounds cs offset j
      have hx : slot cs offset j < offset := by omega
      obtain ⟨hin, hj'⟩ := hlt.mp hx
      obtain ⟨u, hu, -⟩ := flashes_slot h hsize hj
      have hw := hh.wrapped j hj hin
      rw [meant, if_pos hj'] at hw
      rw [hu, erased_before hne hsec hx, and_or_of_and hw, hh.before _ hsec hx]
    · rw [flashes_kept h hsize fun j hj he => hs ⟨j, hj, he⟩, erased_apply]
      split
      · rename_i he
        have : offset / sectorSize * sectorSize ≤ offset := Nat.div_mul_le_self ..
        exact (hh.before x he.1 (by omega)).symm
      · rfl

/-- Only an image that can be verified is ever reported as written. -/
theorem canVerify_of_flashes {masks : Nat → Mem} {k : Nat} {mem' : Mem}
    (h : Flashes masks cs.programSize (flashRetries + 1) offset (image file)
      (imageSize file.length / cs.programSize) 0 (erased mem file offset) k mem') :
    CanVerify cs mem file offset := by
  have hsize := chunks_of_sectors cs (imageSize_sectors file.length)
  intro j hj
  have hv := flashes_verified h hsize hj
  by_cases hin : InPage cs offset j
  · obtain ⟨u, hu, -⟩ := flashes_slot h hsize hj
    rw [slot, if_pos hin] at hu
    rw [if_pos hin] at hv ⊢
    rw [hv] at hu
    generalize erased mem file offset (offset + j) = e at hu ⊢
    conv_lhs => rw [hu]
    rw [← BitVec.and_assoc, BitVec.and_self]
    exact hu.symm
  · rw [if_neg hin] at hv ⊢
    exact hv

/-- A board whose programs leave the bits of `left`. -/
def leavingBoard (cs : ChipSelect) (mem left : Mem) : Board :=
  { perfectBoard cs mem with port := ⟨⟨mem, false, 0, 0, fun _ => ⟨3, false, left⟩⟩, none⟩ }

/-- An image that can be verified is written with success, if no bits are left from the offset
on. -/
theorem flashWrite_leavingBoard (left : Mem) (hne : file ≠ [])
    (hfit : offset + imageSize file.length ≤ 2 ^ 24) (hcan : CanVerify cs mem file offset)
    (hleft : ∀ x, offset ≤ x → left x = 0) :
    ∃ b', Fueled.Yields (flashWrite file offset) (leavingBoard cs mem left) () b' ∧
      Flashes (fun _ => left) cs.programSize (flashRetries + 1) offset (image file)
        (imageSize file.length / cs.programSize) 0 (erased mem file offset)
        (imageSize file.length / sectorSize) b'.port.chip.mem := by
  have hsize := chunks_of_sectors cs (imageSize_sectors file.length)
  have hidle : IdleBoard cs mem (leavingBoard cs mem left) := ⟨rfl, rfl, rfl, rfl⟩
  obtain ⟨m', hm'⟩ : ∃ m', Flashes (fun _ => left) cs.programSize (flashRetries + 1) offset
      (image file) (imageSize file.length / cs.programSize) 0 (erased mem file offset)
      (0 + imageSize file.length / sectorSize) m' :=
    flashes_of_possible cs.chunkSize (Nat.succ_pos _) (fun _ x hx => hleft x hx) fun c' j hc' hj => by
      have hdiv : (c' * cs.programSize + j) / cs.programSize = c' := by
        rw [Nat.mul_comm, Nat.mul_add_div cs.chunkSize.pos, Nat.div_eq_of_lt hj, Nat.add_zero]
      have hmod : (c' * cs.programSize + j) % cs.programSize = j := by
        rw [Nat.mul_comm, Nat.mul_add_mod, Nat.mod_eq_of_lt hj]
      have hlt : c' * cs.programSize + j < imageSize file.length := by
        have := Nat.mul_le_mul_right cs.programSize hc'
        rw [Nat.succ_mul] at this
        omega
      have h := hcan _ hlt
      have hiff := inPage_iff_touches cs offset (c' * cs.programSize + j)
      rw [hdiv, hmod] at hiff
      simp only [Nat.add_zero, Nat.zero_add]
      rw [← Nat.add_assoc] at h
      by_cases hin : InPage cs offset (c' * cs.programSize + j)
      · rw [if_pos hin] at h
        rw [if_pos (hiff.mp hin)]
        exact h
      · rw [if_neg hin] at h
        rw [if_neg (mt hiff.mpr hin)]
        exact h
  obtain ⟨b', hy⟩ := flashWrite_succeeds hidle hne hfit hm'
  have hfl := flashWrite_flashes hidle hne hfit hy
  refine ⟨b', hy, ?_⟩
  rw [← Nat.zero_add (imageSize file.length / sectorSize)]
  exact hfl

/-- If every success writes the image and nothing else, and one is possible, the write is harmless:
seen with a flash that leaves the bytes before the offset, then with one that leaves nothing. -/
theorem harmless_of_writesImage (hne : file ≠ []) (hfit : offset + imageSize file.length ≤ 2 ^ 24)
    (hcan : CanVerify cs mem file offset)
    (hall : ∀ b b', IdleBoard cs mem b → Fueled.Yields (flashWrite file offset) b () b' →
      WritesImage file offset mem b'.port.chip.mem) :
    Harmless cs mem file offset := by
  have hsize := chunks_of_sectors cs (imageSize_sectors file.length)
  have hbefore : ∀ x, offset / sectorSize * sectorSize ≤ x → x < offset → mem x = 0xff := by
    intro x hx hlt
    obtain ⟨b', hy, hfl⟩ := flashWrite_leavingBoard (fun x => if x < offset then 0xff else 0)
      hne hfit hcan fun x hx => if_neg (by omega)
    have hframe := (hall _ b' ⟨rfl, rfl, rfl, rfl⟩ hy).2 x (.inl hlt)
    rw [← hframe]
    by_cases hs : ∃ j, j < imageSize file.length ∧ slot cs offset j = x
    · obtain ⟨j, hj, rfl⟩ := hs
      obtain ⟨u, hu, hw⟩ := flashes_slot hfl hsize hj
      obtain rfl := hw 0xff fun _ => if_pos hlt
      have hones : image file j ||| (0xff : Byte) = 0xff := BitVec.or_allOnes
      rw [hu, erased_before hne hx hlt, hones]
      rfl
    · rw [flashes_kept hfl hsize fun j hj he => hs ⟨j, hj, he⟩, erased_before hne hx hlt]
  refine ⟨hbefore, fun j hj hin => ?_⟩
  obtain ⟨b', hy, hfl⟩ := flashWrite_leavingBoard (fun _ => 0) hne hfit hcan fun _ _ => rfl
  obtain ⟨hrange, hframe⟩ := hall _ b' ⟨rfl, rfl, rfl, rfl⟩ hy
  obtain ⟨u, hu, hw⟩ := flashes_slot hfl hsize hj
  obtain rfl := hw 0 fun _ => rfl
  rw [BitVec.ofNat_eq_ofNat, BitVec.or_zero] at hu
  obtain ⟨-, hsec, hlt⟩ := slot_bounds cs offset j
  unfold meant
  by_cases hj' : j < pageSize
  · have hx := hlt.mpr ⟨hin, hj'⟩
    rw [hframe _ (.inl hx), hbefore _ hsec hx, erased_before hne hsec hx] at hu
    rw [if_pos hj']
    exact hu.symm
  · obtain ⟨i, rfl⟩ : ∃ i, j = i + pageSize := ⟨j - pageSize, by omega⟩
    have hin' := mt (inPage_add_page cs offset i).mpr hin
    have hi : i < imageSize file.length := by omega
    have hv := hcan i hi
    rw [if_neg hin'] at hv
    rw [slot_next hin', hrange i hi, hv] at hu
    rw [if_neg hj', Nat.add_sub_cancel]
    exact hu.symm

/-- A write of a file that fits leaves the padded file in its range and everything else as it was
whenever it reports success, if and only if it can report no success or is harmless. -/
theorem flashWrite_frame_iff (cs : ChipSelect) (mem : Mem) (file : List Byte) (offset : Nat)
    (hne : file ≠ []) (hfit : offset + imageSize file.length ≤ 2 ^ 24) :
    (∀ b b', IdleBoard cs mem b → Fueled.Yields (flashWrite file offset) b () b' →
      (∀ j, j < imageSize file.length → b'.port.chip.mem (offset + j) = file.getD j 0) ∧
        ∀ x, x < offset ∨ offset + imageSize file.length ≤ x → b'.port.chip.mem x = mem x) ↔
      (CanVerify cs mem file offset → Harmless cs mem file offset) := by
  constructor
  · intro hall hcan
    exact harmless_of_writesImage hne hfit hcan hall
  · intro h b b' hb hy
    have hfl := flashWrite_flashes hb hne hfit hy
    exact writesImage_of_harmless hne (h (canVerify_of_flashes hfl)) hfl

/-- From a sector's first byte on every write is harmless. -/
theorem harmless_of_aligned (cs : ChipSelect) (mem : Mem) (file : List Byte)
    (h : offset % sectorSize = 0) : Harmless cs mem file offset := by
  refine ⟨fun x hx hlt => ?_, fun j _ hin => ?_⟩
  · unfold sectorSize at *
    omega
  · refine absurd ((inPage_iff_touches cs offset j).mpr ?_) hin
    exact touches_of_aligned cs h (Nat.mod_lt j cs.chunkSize.pos)

theorem flashWrite_frame_iff_first :
    Harmless .software (fun _ => 0) [1] 0 ∧
      ∀ b b', IdleBoard .software (fun _ => 0) b → Fueled.Yields (flashWrite [1] 0) b () b' →
        (∀ j, j < imageSize [(1 : Byte)].length → b'.port.chip.mem (0 + j) = [(1 : Byte)].getD j 0) ∧
          ∀ x, x < 0 ∨ 0 + imageSize [(1 : Byte)].length ≤ x → b'.port.chip.mem x = 0 :=
  have haligned := harmless_of_aligned .software (fun _ => 0) [1] rfl
  ⟨haligned, (flashWrite_frame_iff .software (fun _ => 0) [1] 0 (by decide) (by decide)).mpr
    fun _ => haligned⟩

/-- One zero byte to the second page of a flash full of zeros: the command reports success and the
first page is ones. -/
theorem flashWrite_erases_before :
    ∃ b', Fueled.Yields (flashWrite [0] 256) (perfectBoard .software fun _ => 0) () b' ∧
      ¬ ((∀ j, j < imageSize [(0 : Byte)].length → b'.port.chip.mem (256 + j) = [(0 : Byte)].getD j 0) ∧
        ∀ x, x < 256 ∨ 256 + imageSize [(0 : Byte)].length ≤ x → b'.port.chip.mem x = 0) := by
  have hzero : ∀ j, image [0] j = 0 := by
    intro j
    cases j <;> rfl
  have hin : ∀ j, InPage .software 256 j := by
    intro j
    rw [inPage_software]
    omega
  have hcan : CanVerify .software (fun _ => 0) [0] 256 := by
    intro j hj
    rw [if_pos (hin j), hzero]
    exact BitVec.and_zero
  obtain ⟨b', hy, hfl⟩ := flashWrite_leavingBoard (fun _ => 0) (by decide) (by decide) hcan
    fun _ _ => rfl
  refine ⟨b', hy, fun ⟨_, hframe⟩ => ?_⟩
  have hkept : b'.port.chip.mem 0 = 0xff := by
    rw [flashes_kept hfl (chunks_of_sectors .software (imageSize_sectors _)) fun j _ he => ?_]
    · exact erased_before (by decide) (by decide) (by decide)
    · rw [slot, if_pos (hin j)] at he
      omega
  have h0 := hframe 0 (.inl (by decide))
  rw [hkept] at h0
  cases h0

end

end Util
end Flash
end Xtrx
