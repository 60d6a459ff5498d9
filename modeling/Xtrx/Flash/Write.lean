import Xtrx.Flash.Library

/-!
# `litepcie_flash_write`

The function erases sector by sector and writes chunk by chunk, with a verification of each chunk
and at most `FLASH_RETRIES + 1` attempts for it.

- **`litepcieFlashWrite_spec`**: it always ends, and it does what the programmer `Nor.Flashes` of the
  library does to the erased contents, for any base: it returns 0 with the contents that this
  programmer leaves, or 1 if there is a chunk that it cannot verify. The measure of the write loop is
  the number of chunks that are left, then the number of attempts that are left.
- **`litepcieFlashWrite_correct`**: with a base at a sector, the range is the buffer after a return
  of 0, and the rest is as before.
-/

namespace Xtrx
namespace Flash

open Nor Conc

/-- `flash_program_size` as `litepcie_flash_get_flash_program_size` detects it. -/
def ChipSelect.programSize : ChipSelect → Nat
  | .software => 256
  | .hardware .. => 1

theorem ChipSelect.chunkSize (cs : ChipSelect) : ChunkSize cs.programSize := by
  cases cs
  · exact .inr rfl
  · exact .inl rfl

/-- The masks of the operations of a chip. -/
def Chip.masks (c : Chip) (k : Nat) : Mem := (c.outcome k).unprogrammed

section

variable {cs : ChipSelect} {base size i : Nat} {c : Chip} {b : Board}

theorem toNat_base_add (hi : i < size) (hfit : base + size ≤ 2 ^ 24) :
    (BitVec.ofNat 32 (base + i)).toNat = base + i := by
  rw [BitVec.toNat_ofNat]
  omega

/-! ## Erase -/

/-- One sector. -/
theorem does_eraseTurn (hi : i < size) (hfit : base + size ≤ 2 ^ 24) (hw : c.wip = 0) :
    Does cs (eraseTurn base size i) c (.inl (i + sectorSize))
      { c.start (erase (base + i) c.mem) with wip := 0 } := by
  have haddr := toNat_base_add hi hfit
  have hlt : (BitVec.ofNat 32 (base + i)).toNat < 2 ^ 24 := by omega
  have herase : Does cs _ { c with wel := true } _ _ := does_flashEraseSector hlt hw rfl
  rw [haddr] at herase
  unfold eraseTurn
  rw [if_pos hi]
  exact (does_flashWriteEnable hw).bind (herase.bind (does_waitReady.bind (Does.pure _ _)))

/-- The erase loop, with `q` sectors left. -/
theorem eraseLoop_spec (q : Nat) (hq : i + q * sectorSize = size) (hfit : base + size ≤ 2 ^ 24)
    (hw : c.wip = 0) :
    ∃ wel, DoesLoop cs (eraseTurn base size) i c ()
      ⟨eraseFrom (base + i) q c.mem, wel, 0, c.ops + q, c.outcome⟩ := by
  induction q generalizing i c with
  | zero =>
    obtain ⟨mem, wel, wip, ops, outcome⟩ := c
    obtain rfl : wip = 0 := hw
    refine ⟨wel, .stop ?_⟩
    unfold eraseTurn
    rw [if_neg (by omega)]
    exact Does.pure _ _
  | succ q ih =>
    have hturn : Does cs _ c _ _ := does_eraseTurn (i := i) (by unfold sectorSize at hq; omega) hfit hw
    obtain ⟨wel, hloop⟩ := ih (i := i + sectorSize)
      (c := { c.start (erase (base + i) c.mem) with wip := 0 }) (by unfold sectorSize at *; omega) rfl
    refine ⟨wel, .again hturn ?_⟩
    have hops : c.ops + 1 + q = c.ops + (q + 1) := by omega
    rw [eraseFrom, Nat.add_assoc, ← hops]
    exact hloop

/-! ## Write -/

variable {buf : Nat → Byte} {q : Nat}

/-- What is read back is compared with the buffer. -/
theorem verifies_iff {a n : Nat} (data m : Mem) (ha : a + n ≤ 2 ^ 24) :
    (List.range n).map data = ((List.range n).map fun j => m ((a + j) % 2 ^ 24)) ↔
      Verifies a n data m := by
  rw [List.map_inj_left]
  constructor
  · intro h j hj
    have := h j (List.mem_range.mpr hj)
    rw [Nat.mod_eq_of_lt (by omega)] at this
    exact this.symm
  · intro h j hj
    have hj := List.mem_range.mp hj
    rw [Nat.mod_eq_of_lt (by omega)]
    exact (h j hj).symm

/-- One attempt for the chunk at `i`. -/
theorem does_writeTurn (cs : ChipSelect) (buf : Nat → Byte) (retries : Nat) (hi : i + cs.programSize ≤ size)
    (hfit : base + size ≤ 2 ^ 24) :
    ∃ wel, Does cs (writeTurn cs.programSize buf base size (i, retries)) c
      (if Verifies (base + i) cs.programSize (fun j => buf (i + j))
          (program (base + i) cs.programSize (fun j => buf (i + j)) (c.masks c.ops) c.mem) then
        .inl (i + cs.programSize, 0)
      else if retries + 1 > flashRetries then .inr 1 else .inl (i, retries + 1))
      ⟨program (base + i) cs.programSize (fun j => buf (i + j)) (c.masks c.ops) c.mem, wel, 0,
        c.ops + 1, c.outcome⟩ := by
  have hpos := cs.chunkSize.pos
  have hi' : i < size := by omega
  have haddr := toNat_base_add hi' hfit
  have hlt : (BitVec.ofNat 32 (base + i)).toNat < 2 ^ 24 := by omega
  have hn : cs.programSize = 1 ∨ cs = .software ∧ 0 < cs.programSize := by
    cases cs
    · exact .inr ⟨rfl, hpos⟩
    · exact .inl rfl
  have hwrite := does_flashWriteBuffer (c := { c with wip := 0, wel := true }) hn hlt rfl rfl
    (fun j => buf (i + j))
  rw [haddr] at hwrite
  -- the chip after the program, with the operation over
  let c₁ := c.start (program (base + i) cs.programSize (fun j => buf (i + j)) (c.masks c.ops) c.mem)
  have hread : Does cs _ { c₁ with wip := 0, wel := if c₁.wip = 0 then false else c₁.wel } _ _ :=
    does_litepcieFlashReadBuffer (hn.imp_right And.left) hlt rfl
  rw [haddr] at hread
  refine ⟨if c₁.wip = 0 then false else c₁.wel, ?_⟩
  unfold writeTurn
  dsimp only
  rw [if_pos hi']
  refine Does.bind does_waitReady ?_
  refine Does.bind (does_flashWriteEnable rfl) ?_
  refine Does.bind hwrite ?_
  refine Does.bind does_flashWriteDisable ?_
  refine Does.bind does_waitReady ?_
  refine Does.bind hread ?_
  have hver := verifies_iff (a := base + i) (n := cs.programSize) (fun j => buf (i + j)) c₁.mem
    (by omega)
  have hmem : c₁.mem =
      program (base + i) cs.programSize (fun j => buf (i + j)) (c.masks c.ops) c.mem := rfl
  rw [← hmem]
  by_cases hv : Verifies (base + i) cs.programSize (fun j => buf (i + j)) c₁.mem
  · simp only [ne_eq, hver.mpr hv, not_true_eq_false, if_false, hv, if_true]
    exact Does.pure _ _
  · have hne : (List.range cs.programSize).map (fun j => buf (i + j)) ≠
        (List.range cs.programSize).map fun j => c₁.mem ((base + i + j) % 2 ^ 24) :=
      fun he => hv (hver.mp he)
    simp only [if_pos hne, if_neg hv]
    by_cases hr : retries + 1 > flashRetries
    · rw [if_pos hr, if_pos hr]
      exact Does.pure _ _
    · rw [if_neg hr, if_neg hr]
      exact Does.pure _ _

/-- The end of the write loop against the programmer: 0 and its contents, or 1 if it cannot get to
the end from the contents `m`, with operation `k` as the next one. -/
def Outcomes (cs : ChipSelect) (base : Nat) (buf : Nat → Byte) (masks : Nat → Mem) (q i : Nat) (m : Mem)
    (k : Nat) (ret : Int) (m' : Mem) : Prop :=
  (ret = 0 ∧ Flashes masks cs.programSize (flashRetries + 1) base buf q i m k m') ∨
    (ret = 1 ∧ ∀ m'', ¬ Flashes masks cs.programSize (flashRetries + 1) base buf q i m k m'')

/-- The write loop, with `q` chunks left, the first of them with `retries` failed attempts since the
contents `m`. The induction is on the chunks left, then on the attempts left. -/
theorem writeLoop_spec (cs : ChipSelect) (buf : Nat → Byte) (q retries : Nat)
    (hq : i + q * cs.programSize = size)
    (hfit : base + size ≤ 2 ^ 24) (hr : retries ≤ flashRetries) (hr0 : q = 0 → retries = 0) (hw : c.wip = 0) {m : Mem} {k : Nat}
    (hm : c.mem = attempts c.masks (base + i) cs.programSize (fun j => buf (i + j)) retries m k)
    (hk : c.ops = k + retries)
    (hfail : ∀ t, 0 < t → t ≤ retries → ¬ Verifies (base + i) cs.programSize (fun j => buf (i + j))
      (attempts c.masks (base + i) cs.programSize (fun j => buf (i + j)) t m k)) :
    ∃ ret m' wel ops, Outcomes cs base buf c.masks q i m k ret m' ∧
      DoesLoop cs (writeTurn cs.programSize buf base size) (i, retries) c ret
        ⟨m', wel, 0, ops, c.outcome⟩ := by
  induction q generalizing i retries c m k with
  | zero =>
    obtain rfl := hr0 rfl
    obtain ⟨mem, wel, wip, ops, outcome⟩ := c
    obtain rfl : wip = 0 := hw
    obtain rfl : mem = m := hm
    refine ⟨0, mem, wel, ops, .inl ⟨rfl, .done i mem k⟩, .stop ?_⟩
    unfold writeTurn
    dsimp only
    rw [if_neg (by omega)]
    exact Does.pure _ _
  | succ q ihq =>
    have hsucc : (q + 1) * cs.programSize = cs.programSize + q * cs.programSize := by
      rw [Nat.succ_mul, Nat.add_comm]
    generalize hd : flashRetries - retries = d
    induction d using Nat.strongRecOn generalizing retries c with
    | ind d ihd =>
      obtain ⟨wel, hturn⟩ := does_writeTurn cs (c := c) (i := i) buf retries (by omega) hfit
      have hm₁ : program (base + i) cs.programSize (fun j => buf (i + j)) (c.masks c.ops) c.mem =
          attempts c.masks (base + i) cs.programSize (fun j => buf (i + j)) (retries + 1) m k := by
        rw [attempts_succ, hm, hk]
      rw [hm₁] at hturn
      by_cases hv : Verifies (base + i) cs.programSize (fun j => buf (i + j))
          (attempts c.masks (base + i) cs.programSize (fun j => buf (i + j)) (retries + 1) m k)
      · -- the chunk is done
        have hfirst : FirstVerified c.masks (base + i) cs.programSize (fun j => buf (i + j)) m k
            (retries + 1) := ⟨by omega, hv, fun t h0 ht => hfail t h0 (by omega)⟩
        rw [if_pos hv] at hturn
        obtain ⟨ret, m', wel', ops, hout, hloop⟩ := ihq 0 (i := i + cs.programSize)
          (c := ⟨attempts c.masks (base + i) cs.programSize (fun j => buf (i + j))
            (retries + 1) m k, wel, 0, c.ops + 1, c.outcome⟩)
          (k := k + (retries + 1)) (by omega) (by omega) (fun _ => rfl) rfl rfl
          (by rw [hk, Nat.add_assoc]; rfl) (fun t h0 ht => by omega)
        refine ⟨ret, m', wel', ops, ?_, .again hturn hloop⟩
        rcases hout with ⟨h0, hfl⟩ | ⟨h1, hno⟩
        · exact .inl ⟨h0, .chunk hfirst (by omega) hfl⟩
        · refine .inr ⟨h1, fun m'' hfl => ?_⟩
          cases hfl with
          | chunk hfirst' ht' hfl' =>
            obtain rfl := hfirst'.unique hfirst
            exact hno m'' hfl'
      · rw [if_neg hv] at hturn
        have hfail' : ∀ t, 0 < t → t ≤ retries + 1 →
            ¬ Verifies (base + i) cs.programSize (fun j => buf (i + j))
              (attempts c.masks (base + i) cs.programSize (fun j => buf (i + j)) t m k) := by
          intro t h0 ht
          rcases Nat.lt_or_eq_of_le ht with hlt | rfl
          · exact hfail t h0 (by omega)
          · exact hv
        by_cases hlast : retries + 1 > flashRetries
        · -- no attempt is left
          rw [if_pos hlast] at hturn
          refine ⟨1, _, wel, _, .inr ⟨rfl, fun m'' hfl => ?_⟩, .stop hturn⟩
          cases hfl with
          | chunk hfirst ht _ => exact hfail' _ hfirst.pos (by omega) hfirst.verified
        · rw [if_neg hlast] at hturn
          obtain ⟨ret, m', wel', ops, hout, hloop⟩ :=
            ihd (flashRetries - (retries + 1)) (by omega)
              (c := ⟨attempts c.masks (base + i) cs.programSize (fun j => buf (i + j)) (retries + 1) m k,
                wel, 0, c.ops + 1, c.outcome⟩) (retries + 1) (by omega) (fun h => by omega) rfl rfl
              (by rw [hk, Nat.add_assoc]) hfail' rfl
          exact ⟨ret, m', wel', ops, hout, .again hturn hloop⟩

/-! ## The function -/

/-- A board whose chip is deselected and ready, with the contents `mem`. -/
structure IdleBoard (cs : ChipSelect) (mem : Mem) (b : Board) : Prop where
  select : b.select = cs
  deselected : b.port.rx = none
  ready : b.port.chip.wip = 0
  mem : b.port.chip.mem = mem

/-- `litepcie_flash_write` ends, for any base, with what the programmer does to the erased
contents. -/
theorem litepcieFlashWrite_spec {mem : Mem} (hb : IdleBoard cs mem b) {sectors chunks : Nat}
    (hsec : size = sectors * sectorSize) (hchk : size = chunks * cs.programSize)
    (hfit : base + size ≤ 2 ^ 24) (buf : Nat → Byte) :
    ∃ ret b', Fueled.Yields (litepcieFlashWrite buf base size) b ret b' ∧
      Outcomes cs base buf b.port.chip.masks chunks 0 (eraseFrom base sectors mem)
        (b.port.chip.ops + sectors) ret b'.port.chip.mem := by
  obtain ⟨⟨⟨mem', wel, wip, ops, outcome⟩, rx⟩, csN, miso, select⟩ := b
  obtain ⟨hs, hd, hw, hm⟩ := hb
  obtain rfl : rx = none := hd
  obtain rfl : wip = 0 := hw
  obtain rfl : mem' = mem := hm
  obtain rfl : select = cs := hs
  obtain ⟨wel₁, herase⟩ : ∃ wel₁, DoesLoop select (eraseTurn base size) 0 ⟨mem', true, 0, ops, outcome⟩
      () ⟨eraseFrom base sectors mem', wel₁, 0, ops + sectors, outcome⟩ :=
    eraseLoop_spec sectors (by omega) hfit rfl
  obtain ⟨ret, m', wel₂, ops', hout, hwrite⟩ := writeLoop_spec select buf chunks 0 (i := 0)
    (c := ⟨eraseFrom base sectors mem', false, 0, ops + sectors, outcome⟩) (k := ops + sectors)
    (by rw [hchk, Nat.zero_add]) hfit (by omega) (fun _ => rfl) rfl rfl rfl (fun t h0 ht => by omega)
  have hall : Does select (litepcieFlashWrite buf base size) ⟨mem', wel, 0, ops, outcome⟩ ret
      ⟨m', wel₂, 0, ops', outcome⟩ := by
    unfold litepcieFlashWrite
    refine Does.bind does_litepcieFlashGetFlashProgramSize ?_
    refine does_flashReadId fun _ => ?_
    refine Does.bind (does_flashWriteEnable rfl) ?_
    refine Does.bind herase.does ?_
    refine Does.bind does_flashWriteDisable ?_
    exact hwrite.does
  obtain ⟨b', hy, hs', hp'⟩ := hall ⟨⟨⟨mem', wel, 0, ops, outcome⟩, none⟩, csN, miso, select⟩ rfl rfl
  refine ⟨ret, b', hy, ?_⟩
  rw [hp']
  exact hout

/-- The program size divides the sectors. -/
theorem chunks_of_sectors (cs : ChipSelect) {sectors : Nat} (hsec : size = sectors * sectorSize) :
    size = size / cs.programSize * cs.programSize := by
  have hdvd : cs.programSize ∣ size := by
    rw [hsec]
    refine Dvd.dvd.mul_left ?_ sectors
    cases cs with
    | software => exact ⟨256, rfl⟩
    | hardware => exact ⟨sectorSize, (Nat.one_mul sectorSize).symm⟩
  exact (Nat.div_mul_cancel hdvd).symm

/-- A chunk at an aligned base lies in one page. -/
theorem touches_of_aligned (cs : ChipSelect) {c' j : Nat} (hbase : base % sectorSize = 0)
    (hj : j < cs.programSize) :
    Touches (base + c' * cs.programSize) cs.programSize (base + c' * cs.programSize + j) := by
  refine touches_add hj ?_
  unfold sectorSize at hbase
  unfold pageSize
  cases cs with
  | software => simp only [ChipSelect.programSize] at *; omega
  | hardware => simp only [ChipSelect.programSize] at *; omega

/-- What a touched address has to do with its chunk, at an aligned base. -/
theorem touches_aligned_range (cs : ChipSelect) {chunks c' x : Nat} (hbase : base % sectorSize = 0)
    (hc : c' < chunks) (hx : Touches (base + c' * cs.programSize) cs.programSize x) :
    base ≤ x ∧ x < base + chunks * cs.programSize := by
  unfold sectorSize at hbase
  cases cs with
  | software =>
    have hx : Touches (base + c' * pageSize) pageSize x := hx
    rw [touches_page] at hx
    unfold pageSize at hx
    simp only [ChipSelect.programSize]
    omega
  | hardware =>
    have hx : Touches (base + c' * 1) 1 x := hx
    rw [touches_one] at hx
    simp only [ChipSelect.programSize]
    omega

/-- `litepcie_flash_write` of whole sectors ends; it returns 0 exactly if every chunk verifies within
17 attempts, and then the range is the buffer and the rest of the flash is as it was. -/
theorem litepcieFlashWrite_correct {mem : Mem} (hb : IdleBoard cs mem b) (buf : Nat → Byte)
    (hbase : base % sectorSize = 0) (hsize : size % sectorSize = 0) (hfit : base + size ≤ 2 ^ 24) :
    ∃ ret b', Fueled.Yields (litepcieFlashWrite buf base size) b ret b' ∧
      (ret = 0 ↔ EveryChunkVerifies b.port.chip.masks cs.programSize 17 base buf
        (size / cs.programSize) (fun x => if base ≤ x ∧ x < base + size then 0xff else mem x)
        (b.port.chip.ops + size / sectorSize)) ∧
      (ret = 0 → (∀ j, j < size → b'.port.chip.mem (base + j) = buf j) ∧
        ∀ x, x < base ∨ base + size ≤ x → b'.port.chip.mem x = mem x) := by
  have hsec : size = size / sectorSize * sectorSize := by
    unfold sectorSize at *
    omega
  have hchk := chunks_of_sectors cs hsec
  obtain ⟨ret, b', hy, hout⟩ := litepcieFlashWrite_spec hb hsec hchk hfit buf
  have herased : eraseFrom base (size / sectorSize) mem =
      fun x => if base ≤ x ∧ x < base + size then 0xff else mem x := by
    funext x
    rw [eraseFrom_apply]
    refine if_congr ?_ rfl rfl
    unfold sectorSize at *
    omega
  rw [herased] at hout
  refine ⟨ret, b', hy, ?_, ?_⟩
  · rcases hout with ⟨h0, hfl⟩ | ⟨h1, hno⟩
    · exact ⟨fun _ => ⟨_, hfl⟩, fun _ => h0⟩
    · refine ⟨fun h0 => ?_, fun ⟨m', hfl⟩ => absurd hfl (hno m')⟩
      rw [h0] at h1
      cases h1
  · rintro rfl
    rcases hout with ⟨-, hfl⟩ | ⟨h1, -⟩
    · have hpos := cs.chunkSize.pos
      constructor
      · intro j hj
        have hdiv : j / cs.programSize * cs.programSize + j % cs.programSize = j := by
          rw [Nat.mul_comm]
          exact Nat.div_add_mod j _
        have hver := hfl.verified cs.chunkSize
          ((Nat.div_lt_iff_lt_mul hpos).mpr (hchk ▸ hj)) (Nat.mod_lt j hpos)
        rw [Nat.add_zero, if_pos (touches_of_aligned cs hbase (Nat.mod_lt j hpos))] at hver
        rwa [Nat.zero_add, Nat.add_assoc, hdiv] at hver
      · intro x hx
        rw [hfl.untouched fun c' hc' ht => ?_, if_neg (by omega)]
        have hr := touches_aligned_range cs hbase hc' ht
        rw [← hchk] at hr
        omega
    · cases h1

/-- A board with an empty flash that programs every byte at once. -/
def perfectBoard (cs : ChipSelect) (mem : Mem) : Board where
  port := ⟨⟨mem, false, 0, 0, fun _ => ⟨3, false, fun _ => 0⟩⟩, none⟩
  csN := 1
  miso := 0
  select := cs

/-- A write of the second sector returns 0, and its bytes are there. -/
theorem litepcieFlashWrite_correct_sector :
    ∃ b', Fueled.Yields (litepcieFlashWrite (fun j => BitVec.ofNat 8 j) sectorSize sectorSize)
        (perfectBoard .software fun _ => 0) 0 b' ∧
      (∀ j, j < sectorSize → b'.port.chip.mem (sectorSize + j) = BitVec.ofNat 8 j) ∧
      ∀ x, x < sectorSize ∨ sectorSize + sectorSize ≤ x → b'.port.chip.mem x = 0 := by
  have hidle : IdleBoard .software (fun _ => 0) (perfectBoard .software fun _ => 0) :=
    ⟨rfl, rfl, rfl, rfl⟩
  obtain ⟨ret, b', hy, hret, hok⟩ := litepcieFlashWrite_correct hidle (fun j => BitVec.ofNat 8 j)
    (show sectorSize % sectorSize = 0 by decide) (show sectorSize % sectorSize = 0 by decide) (by decide)
  -- each chunk is programmed over erased bytes, and the chip leaves no bit
  have hzero : ret = 0 := by
    refine hret.mpr (flashes_of_possible (ChipSelect.chunkSize .software) (by decide)
      (fun _ _ _ => rfl) fun c' j hc hj => ?_)
    have hin : c' * ChipSelect.programSize .software + j < sectorSize := by
      simp only [ChipSelect.programSize, sectorSize] at hc hj ⊢
      omega
    rw [if_pos (touches_of_aligned .software (by decide) hj), if_pos (by omega)]
    exact BitVec.allOnes_and
  subst hzero
  exact ⟨b', hy, hok rfl⟩

end

end Flash
end Xtrx
