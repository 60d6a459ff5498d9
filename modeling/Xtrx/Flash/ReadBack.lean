import Xtrx.Flash.Util

/-!
# The `flash_read` command, and what it reads after `flash_write`

- **Function**: `flash_read` of `litepcie_util.c`, as the bytes that it puts into the file. It reads
  byte by byte, each one with a command of its own; the chip takes 24 bits of the address.
- **`flashRead_spec`**: it reads the contents and leaves the board idle with the same contents.
- **`readBack_iff`**: after every reported success of `flash_write` the file reads back, if and only
  if no success is possible or no wrapped byte clears a bit of the file (`Unwrapped`). Bytes before
  the offset do not matter here, unlike for `Harmless`.
- **`restored`**: whole sectors that are read from one board and written to another with success are
  the same there, and the rest of that flash is as before.
-/

namespace Xtrx
namespace Flash

open Nor Conc

section

variable {cs : ChipSelect} {c : Chip} {base size : Nat}

/-- One byte; the upper bits of the address are not sent. -/
theorem does_litepcieFlashRead (addr : BitVec 32) (hw : c.wip = 0) :
    Does cs (litepcieFlashRead addr) c (c.mem (addr.toNat % 2 ^ 24)) c := by
  have hbytes : spiBytes flashRead (addr <<< 8) 5 = flashRead :: (addrBytes addr ++ [0]) := by
    have h := spiBytes_addr_byte flashRead addr 0
    rwa [show (0 : Byte).setWidth 32 = 0#32 from rfl, BitVec.or_zero] at h
  obtain ⟨hout, hchip⟩ := Chip.transaction_read hw (addrBytes addr) rfl [0]
  rw [addrOf_addrBytes, ← hbytes] at hout
  rw [← hbytes] at hchip
  let outs := (c.transaction (spiBytes flashRead (addr <<< 8) 5)).1
  have houts : outs = outs.take 4 ++ [c.mem (addr.toNat % 2 ^ 24)] := by
    conv => lhs; rw [← List.take_append_drop 4 outs]
    rw [hout]
    simp
  have h : Does cs _ c _ _ :=
    does_query (k := 5) (by omega) (by omega) flashRead (addr <<< 8) (outs.take 4) houts
  rwa [hchip] at h

/-- A loop of functions that leave the chip as it is. -/
theorem does_mapM {α β : Type} {f : α → Fueled Board β} {g : α → β} (is : List α)
    (h : ∀ i ∈ is, Does cs (f i) c (g i) c) : Does cs (is.mapM f) c (is.map g) c := by
  induction is with
  | nil => exact Does.pure _ _
  | cons i is ih =>
    have hrest := ih fun j hj => h j (List.mem_cons_of_mem i hj)
    rw [List.mapM_cons]
    exact (h i List.mem_cons_self).bind (hrest.bind (Does.pure _ _))

/-- `litepcie_flash_write` ends with no operation in progress, whatever it returns. -/
theorem litepcieFlashWrite_idle (hw : c.wip = 0) (hsec : size = size / sectorSize * sectorSize)
    (hfit : base + size ≤ 2 ^ 24) (buf : Nat → Byte) :
    ∃ ret c', Does cs (litepcieFlashWrite buf base size) c ret c' ∧ c'.wip = 0 := by
  obtain ⟨wel₁, herase⟩ : ∃ wel₁, DoesLoop cs (eraseTurn base size) 0 { c with wel := true } ()
      ⟨eraseFrom base (size / sectorSize) c.mem, wel₁, 0, c.ops + size / sectorSize, c.outcome⟩ :=
    eraseLoop_spec (size / sectorSize) (by omega) hfit hw
  obtain ⟨ret, m', wel₂, ops', -, hwrite⟩ := writeLoop_spec cs buf (size / cs.programSize) 0 (i := 0)
    (c := ⟨eraseFrom base (size / sectorSize) c.mem, false, 0, c.ops + size / sectorSize, c.outcome⟩)
    (k := c.ops + size / sectorSize) (by rw [Nat.zero_add, ← chunks_of_sectors cs hsec]) hfit
    (by omega) (fun _ => rfl) rfl rfl rfl (fun t h0 ht => by omega)
  refine ⟨ret, ⟨m', wel₂, 0, ops', c.outcome⟩, ?_, rfl⟩
  unfold litepcieFlashWrite
  refine Does.bind does_litepcieFlashGetFlashProgramSize ?_
  refine does_flashReadId fun _ => ?_
  refine Does.bind (does_flashWriteEnable hw) ?_
  refine Does.bind herase.does ?_
  refine Does.bind does_flashWriteDisable ?_
  exact hwrite.does

end

namespace Util

section

variable {cs : ChipSelect} {mem : Mem} {b b' : Board} {file : List Byte} {offset size : Nat}

/-- `flash_read`: the bytes of the file. -/
def flashRead (size offset : Nat) : Fueled Board (List Byte) :=
  -- read flash and write to destination file
  (List.range size).mapM fun i => litepcieFlashRead (BitVec.ofNat 32 (offset + i))

/-- `flash_read` reads the contents, around the end of the flash, and changes nothing. -/
theorem flashRead_spec (hb : IdleBoard cs mem b) (size offset : Nat) :
    ∃ b', Fueled.Yields (flashRead size offset) b
        ((List.range size).map fun i => mem ((offset + i) % 2 ^ 24)) b' ∧ IdleBoard cs mem b' := by
  obtain ⟨⟨c, rx⟩, csN, miso, select⟩ := b
  obtain ⟨hs, hd, hw, rfl⟩ := hb
  obtain rfl : rx = none := hd
  have hbyte : ∀ i, Does cs (litepcieFlashRead (BitVec.ofNat 32 (offset + i))) c
      (c.mem ((offset + i) % 2 ^ 24)) c := by
    intro i
    have h : Does cs _ c _ c := does_litepcieFlashRead (BitVec.ofNat 32 (offset + i)) hw
    rwa [BitVec.toNat_ofNat, Nat.mod_mod_of_dvd _ (by decide)] at h
  obtain ⟨b', hy, hs', hp'⟩ := does_mapM (List.range size) (fun i _ => hbyte i)
    ⟨⟨c, none⟩, csN, miso, select⟩ hs rfl
  refine ⟨b', hy, hs', ?_, ?_, ?_⟩
  · rw [hp']
  · rw [hp']
    exact hw
  · rw [hp']

/-- What it reads of a range that does not go around the end. -/
theorem flashRead_yields (hb : IdleBoard cs mem b) (hfit : offset + size ≤ 2 ^ 24) :
    ∃ b', Fueled.Yields (flashRead size offset) b ((List.range size).map fun i => mem (offset + i)) b' ∧
      IdleBoard cs mem b' := by
  obtain ⟨b', hy, hb'⟩ := flashRead_spec hb size offset
  refine ⟨b', ?_, hb'⟩
  have hmap : ((List.range size).map fun i => mem (offset + i)) =
      (List.range size).map fun i => mem ((offset + i) % 2 ^ 24) := by
    refine List.map_congr_left fun i hi => ?_
    have := List.mem_range.mp hi
    rw [Nat.mod_eq_of_lt (by omega)]
  rwa [hmap]

/-- The file is what `flash_read` reads exactly if its bytes are at the offset. -/
theorem flashRead_iff (hb : IdleBoard cs mem b) (hfit : offset + file.length ≤ 2 ^ 24) :
    (∃ b', Fueled.Yields (flashRead file.length offset) b file b') ↔
      ∀ j, j < file.length → mem (offset + j) = image file j := by
  have himage : file = (List.range file.length).map (image file) := by
    refine List.ext_getElem (by simp) fun j hj _ => ?_
    simp [image, hj]
  obtain ⟨b₁, hy, -⟩ := flashRead_yields hb hfit
  constructor
  · rintro ⟨b', hread⟩ j hj
    have hlist := (hread.unique hy).1
    rw [himage, List.length_map, List.length_range, List.map_inj_left] at hlist
    exact (hlist j (List.mem_range.mpr hj)).symm
  · intro h
    refine ⟨b₁, ?_⟩
    have hlist : ((List.range file.length).map fun i => mem (offset + i)) = file := by
      conv_rhs => rw [himage]
      exact List.map_congr_left fun j hj => h j (List.mem_range.mp hj)
    rwa [hlist] at hy

/-! ## After `flash_write` -/

/-- After a success the board is idle. -/
theorem flashWrite_idle (hb : IdleBoard cs mem b) (hne : file ≠ [])
    (hfit : offset + imageSize file.length ≤ 2 ^ 24)
    (hy : Fueled.Yields (flashWrite file offset) b () b') :
    IdleBoard cs b'.port.chip.mem b' := by
  obtain ⟨⟨c, rx⟩, csN, miso, select⟩ := b
  obtain ⟨hs, hd, hw, -⟩ := hb
  obtain rfl : rx = none := hd
  obtain ⟨ret, c', hdoes, hw'⟩ := @litepcieFlashWrite_idle cs c _ _ hw
    (imageSize_sectors file.length) hfit (image file)
  obtain ⟨b₁, hwrite, hs₁, hp₁⟩ := hdoes _ hs rfl
  unfold flashWrite at hy
  rw [if_neg (mt List.length_eq_zero_iff.mp hne)] at hy
  have hrest := hwrite.of_bind hy
  by_cases hret : ret ≠ 0
  · rw [if_pos hret] at hrest
    exact absurd hrest Fueled.not_yields_abort
  · rw [if_neg hret] at hrest
    obtain ⟨-, rfl⟩ := hrest.unique (Fueled.Yields.pure () b₁)
    exact ⟨hs₁, by rw [hp₁], by rw [hp₁]; exact hw', rfl⟩

/-- No byte that is written a page too early clears a bit of the file there. -/
def Unwrapped (cs : ChipSelect) (file : List Byte) (offset : Nat) : Prop :=
  ∀ j, j < file.length → j + pageSize < imageSize file.length → ¬ InPage cs offset j →
    image file j &&& image file (j + pageSize) = image file j

theorem length_le_imageSize (n : Nat) : n ≤ imageSize n := by
  unfold imageSize litepcieFlashGetEraseBlockSize sectorSize
  omega

/-- The byte of the file at its address after a success: the next chunk may have written over it. -/
theorem flashes_read {masks : Nat → Mem} {k : Nat} {m' : Mem}
    (h : Flashes masks cs.programSize (flashRetries + 1) offset (image file)
      (imageSize file.length / cs.programSize) 0 (erased mem file offset) k m') {j : Nat}
    (hj : j < imageSize file.length) :
    if InPage cs offset j ∨ imageSize file.length ≤ j + pageSize then m' (offset + j) = image file j
    else ∃ u, m' (offset + j) = image file j &&& (image file (j + pageSize) ||| u) ∧
      ∀ w, (∀ k, masks k (offset + j) = w) → u = w := by
  have hsize := chunks_of_sectors cs (imageSize_sectors file.length)
  have hv := flashes_verified h hsize hj
  by_cases hin : InPage cs offset j
  · rw [if_pos (.inl hin)]
    rwa [if_pos hin] at hv
  · rw [if_neg hin] at hv
    have hslot := slot_next hin
    by_cases hlast : imageSize file.length ≤ j + pageSize
    · rw [if_pos (.inr hlast), flashes_kept h hsize, hv]
      intro j' hj' hs
      obtain rfl := slot_injective cs offset (hs.trans hslot.symm)
      omega
    · rw [if_neg (not_or.mpr ⟨hin, hlast⟩)]
      obtain ⟨u, hu, hw⟩ := flashes_slot h hsize (Nat.lt_of_not_le hlast)
      rw [hslot] at hu hw
      rw [hv] at hu
      exact ⟨u, hu, hw⟩

/-- Every reported success of `flash_write` is followed by a `flash_read` that reads the file, if and
only if no success can be reported or no wrapped byte clears a bit of the file. -/
theorem readBack_iff (cs : ChipSelect) (mem : Mem) (file : List Byte) (offset : Nat) (hne : file ≠ [])
    (hfit : offset + imageSize file.length ≤ 2 ^ 24) :
    (∀ b b', IdleBoard cs mem b → Fueled.Yields (flashWrite file offset) b () b' →
      ∃ b'', Fueled.Yields (flashRead file.length offset) b' file b'') ↔
      (CanVerify cs mem file offset → Unwrapped cs file offset) := by
  have hlen := length_le_imageSize file.length
  constructor
  · intro hall hcan j hj hnext hin
    -- a flash that leaves no bit shows what the wrapped byte does
    obtain ⟨b', hy, hfl⟩ := flashWrite_leavingBoard (fun _ => 0) hne hfit hcan fun _ _ => rfl
    have hidle : IdleBoard cs mem (leavingBoard cs mem fun _ => 0) := ⟨rfl, rfl, rfl, rfl⟩
    have hread := (flashRead_iff (flashWrite_idle hidle hne hfit hy) (by omega)).mp
      (hall _ b' hidle hy) j hj
    have hbyte := flashes_read hfl (Nat.lt_of_lt_of_le hj hlen)
    rw [if_neg (not_or.mpr ⟨hin, by omega⟩)] at hbyte
    obtain ⟨u, hu, hw⟩ := hbyte
    obtain rfl := hw 0 fun _ => rfl
    rw [hread, BitVec.ofNat_eq_ofNat, BitVec.or_zero] at hu
    exact hu.symm
  · intro hun b b' hb hy
    have hfl := flashWrite_flashes hb hne hfit hy
    have hfile := hun (canVerify_of_flashes hfl)
    refine (flashRead_iff (flashWrite_idle hb hne hfit hy) (by omega)).mpr fun j hj => ?_
    have hbyte := flashes_read hfl (Nat.lt_of_lt_of_le hj hlen)
    by_cases hkept : InPage cs offset j ∨ imageSize file.length ≤ j + pageSize
    · rwa [if_pos hkept] at hbyte
    · rw [if_neg hkept] at hbyte
      obtain ⟨hin, hnext⟩ := not_or.mp hkept
      obtain ⟨u, hu, -⟩ := hbyte
      rw [hu, and_or_of_and (hfile j hj (Nat.lt_of_not_le hnext) hin)]

theorem inPage_of_aligned (cs : ChipSelect) (h : offset % pageSize = 0) (j : Nat) :
    InPage cs offset j := by
  cases cs with
  | hardware read hr => exact inPage_hardware offset j
  | software =>
    rw [inPage_software]
    unfold pageSize at h
    omega

/-- From a page's first byte on nothing is wrapped. -/
theorem unwrapped_of_aligned (cs : ChipSelect) (file : List Byte) (h : offset % pageSize = 0) :
    Unwrapped cs file offset := fun j _ _ hin => absurd (inPage_of_aligned cs h j) hin

/-- A byte at a page that is no sector's first one. -/
theorem readBack_iff_page :
    Unwrapped .software [1] 256 ∧
      ∀ b b', IdleBoard .software (fun _ => 0) b → Fueled.Yields (flashWrite [1] 256) b () b' →
        ∃ b'', Fueled.Yields (flashRead [(1 : Byte)].length 256) b' [1] b'' :=
  have hpage := unwrapped_of_aligned .software [1] rfl
  ⟨hpage, (readBack_iff .software (fun _ => 0) [1] 256 (by decide) (by decide)).mpr fun _ => hpage⟩

/-! ## From one board to another -/

/-- From a sector's first byte on every file can be verified. -/
theorem canVerify_of_aligned (cs : ChipSelect) (mem : Mem) (file : List Byte)
    (h : offset % sectorSize = 0) : CanVerify cs mem file offset := by
  intro j hj
  have hpage : offset % pageSize = 0 := by
    unfold sectorSize at h
    unfold pageSize
    omega
  have hin : offset / sectorSize * sectorSize ≤ offset + j ∧
      offset + j < offset / sectorSize * sectorSize + imageSize file.length := by
    unfold sectorSize at *
    omega
  rw [if_pos (inPage_of_aligned cs hpage j), erased_apply, if_pos hin]
  exact BitVec.allOnes_and

/-- Whole sectors that are read from one board and written to another with success are the same
there, and the rest of its flash is as before. -/
theorem restored {cs' : ChipSelect} {mem' : Mem} {dump : List Byte} {b₁ b₂ b₂' : Board}
    (hb : IdleBoard cs mem b) (hsize : size % sectorSize = 0) (hpos : 0 < size)
    (hoffset : offset % sectorSize = 0) (hfit : offset + size ≤ 2 ^ 24)
    (hread : Fueled.Yields (flashRead size offset) b dump b₁) (hb₂ : IdleBoard cs' mem' b₂)
    (hwrite : Fueled.Yields (flashWrite dump offset) b₂ () b₂') (x : Nat) :
    b₂'.port.chip.mem x = if offset ≤ x ∧ x < offset + size then mem x else mem' x := by
  obtain ⟨b₃, hy, -⟩ := flashRead_yields hb hfit
  obtain rfl := (hread.unique hy).1
  have hlen : ((List.range size).map fun i => mem (offset + i)).length = size := by simp
  have hwhole : imageSize size = size := by
    unfold imageSize litepcieFlashGetEraseBlockSize
    unfold sectorSize at *
    omega
  have hne : ((List.range size).map fun i => mem (offset + i)) ≠ [] := by
    rw [← List.length_pos_iff, hlen]
    exact hpos
  have hwrites := writesImage_of_harmless hne (harmless_of_aligned cs' mem' _ hoffset)
    (flashWrite_flashes hb₂ hne (by rwa [hlen, hwhole]) hwrite)
  unfold WritesImage at hwrites
  rw [hlen, hwhole] at hwrites
  obtain ⟨hrange, hrest⟩ := hwrites
  by_cases hx : offset ≤ x ∧ x < offset + size
  · have hbyte := hrange (x - offset) (by omega)
    rw [Nat.add_sub_cancel' hx.1] at hbyte
    have himage : image ((List.range size).map fun i => mem (offset + i)) (x - offset) = mem x := by
      have hlt : x - offset < size := by omega
      simp [image, hlt, Nat.add_sub_cancel' hx.1]
    rw [if_pos hx, hbyte, himage]
  · rw [if_neg hx]
    exact hrest x (by omega)

/-- One sector, to a board with other contents. -/
theorem restored_sector :
    ∃ dump b₁ b₂',
      Fueled.Yields (flashRead sectorSize 0) (perfectBoard .software fun x => BitVec.ofNat 8 x) dump b₁ ∧
      Fueled.Yields (flashWrite dump 0) (leavingBoard .software (fun _ => 0) fun _ => 0) () b₂' ∧
      b₂'.port.chip.mem 300 = 44 := by
  have hidle : IdleBoard .software (fun x => BitVec.ofNat 8 x)
      (perfectBoard .software fun x => BitVec.ofNat 8 x) := ⟨rfl, rfl, rfl, rfl⟩
  obtain ⟨b₁, hread, -⟩ := flashRead_yields hidle (show 0 + sectorSize ≤ 2 ^ 24 by decide)
  have hlen : ((List.range sectorSize).map fun i => BitVec.ofNat 8 (0 + i)).length = sectorSize := by
    simp
  have hne : ((List.range sectorSize).map fun i => BitVec.ofNat 8 (0 + i)) ≠ [] := by
    rw [← List.length_pos_iff, hlen]
    decide
  obtain ⟨b₂', hwrite, -⟩ := flashWrite_leavingBoard (fun _ => 0) hne
    (show 0 + imageSize (List.length _) ≤ 2 ^ 24 by rw [hlen]; decide)
    (canVerify_of_aligned .software (fun _ => 0) _ rfl) fun _ _ => rfl
  exact ⟨_, b₁, b₂', hread, hwrite, restored hidle (by decide) (by decide) (by decide) (by decide)
    hread ⟨rfl, rfl, rfl, rfl⟩ hwrite 300⟩

end

end Util
end Flash
end Xtrx
