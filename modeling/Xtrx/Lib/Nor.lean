import Mathlib.Data.BitVec

/-!
# NOR flash memory

The memory of a serial NOR flash: an erase sets a sector to ones, a page program takes bits of one
page from one to zero. A program operation may leave bits as they are (the mask `unprogrammed`).

* `erase`, `program`: what the operations do to the contents. The bytes of a program wrap around at
  the end of their page (`pageIndex`), `Touches` is the set of addresses that they reach.
* `attempts`: the same program operation several times, each with its own mask. All of them together
  are one with the bits left that every one of them left (`attempts_eq`).
* `Flashes`: a programmer that writes a buffer chunk by chunk, reads every chunk back, and takes at
  most `limit` attempts for it. `Flashes.untouched`, `Flashes.touched` and `Flashes.verified` say
  what it leaves in the memory; `flashes_of_possible` when it can get to the end.
-/

namespace Nor

abbrev Mem := Nat → BitVec 8

abbrev pageSize : Nat := 256

abbrev sectorSize : Nat := 65536

/-- The sector of `a` becomes ones. -/
def erase (a : Nat) (m : Mem) : Mem := fun x =>
  if x / sectorSize = a / sectorSize then 0xff#8 else m x

/-- The position of the address `x` among the bytes of a program at `a`, in the order of the page's
wrap. -/
def pageIndex (a x : Nat) : Nat := (x + pageSize - a % pageSize) % pageSize

/-- A program of `n` bytes at `a` reaches the address `x`. -/
def Touches (a n x : Nat) : Prop := x / pageSize = a / pageSize ∧ pageIndex a x < n

instance (a n x : Nat) : Decidable (Touches a n x) := inferInstanceAs (Decidable (_ ∧ _))

/-- Program the `n` bytes `data` at `a`; the bits of `unprogrammed` stay as they are. -/
def program (a n : Nat) (data unprogrammed m : Mem) : Mem := fun x =>
  if Touches a n x then m x &&& (data (pageIndex a x) ||| unprogrammed x) else m x

/-! ## Erase -/

/-- Erase the sectors of `base`, `base + sectorSize` and so on. -/
def eraseFrom (base : Nat) : Nat → Mem → Mem
  | 0, m => m
  | c + 1, m => eraseFrom (base + sectorSize) c (erase base m)

theorem eraseFrom_apply (base c : Nat) (m : Mem) (x : Nat) :
    eraseFrom base c m x =
      if base / sectorSize ≤ x / sectorSize ∧ x / sectorSize < base / sectorSize + c then 0xff#8
      else m x := by
  induction c generalizing base m with
  | zero =>
    rw [if_neg (by omega)]
    rfl
  | succ c ih =>
    have hd : (base + sectorSize) / sectorSize = base / sectorSize + 1 := by
      unfold sectorSize
      omega
    rw [eraseFrom, ih, hd, erase]
    by_cases hx : x / sectorSize = base / sectorSize
    · rw [if_neg (by omega), if_pos hx, if_pos (by omega)]
    · rw [if_neg hx]
      by_cases hr : base / sectorSize + 1 ≤ x / sectorSize ∧ x / sectorSize < base / sectorSize + 1 + c
      · rw [if_pos hr, if_pos (by omega)]
      · rw [if_neg hr, if_neg (by omega)]

/-! ## Addresses -/

theorem pageIndex_add {a j : Nat} (h : (a + j) / pageSize = a / pageSize) : pageIndex a (a + j) = j := by
  unfold pageIndex
  unfold pageSize at *
  omega

/-- In its own page a chunk starts at its address. -/
theorem touches_add {a n j : Nat} (hj : j < n) (h : (a + j) / pageSize = a / pageSize) :
    Touches a n (a + j) := by
  refine ⟨h, ?_⟩
  rw [pageIndex_add h]
  exact hj

theorem touches_one {a x : Nat} : Touches a 1 x ↔ x = a := by
  unfold Touches pageIndex pageSize
  omega

theorem touches_page {a x : Nat} : Touches a pageSize x ↔ x / pageSize = a / pageSize := by
  unfold Touches pageIndex pageSize
  omega

/-- A chunk is one byte or a page. -/
def ChunkSize (n : Nat) : Prop := n = 1 ∨ n = pageSize

theorem ChunkSize.pos {n : Nat} (h : ChunkSize n) : 0 < n := by
  rcases h with rfl | rfl <;> decide

/-- A chunk does not touch the bytes at and after its successors. -/
theorem not_touches_of_later {n : Nat} (hn : ChunkSize n) {a c x : Nat} (hc : 0 < c)
    (hx : a + c * n ≤ x) : ¬ Touches a n x := by
  rcases hn with rfl | rfl
  · rw [touches_one]
    omega
  · rw [touches_page]
    unfold pageSize at *
    omega

/-- No address is touched by two chunks. -/
theorem not_touches_of_touches {n : Nat} (hn : ChunkSize n) {a c x : Nat} (hc : 0 < c)
    (hx : Touches (a + c * n) n x) : ¬ Touches a n x := by
  rcases hn with rfl | rfl
  · rw [touches_one] at *
    omega
  · rw [touches_page] at *
    unfold pageSize at *
    omega

/-! ## Repeated programs -/

/-- The contents after `t` programs of one chunk; the first is operation number `k`. -/
def attempts (masks : Nat → Mem) (a n : Nat) (data : Mem) : Nat → Mem → Nat → Mem
  | 0, m, _ => m
  | t + 1, m, k => attempts masks a n data t (program a n data (masks k) m) (k + 1)

/-- The bits that none of the operations `k`, …, `k + t - 1` programs. -/
def leftBy (masks : Nat → Mem) : Nat → Nat → Mem
  | 0, _ => fun _ => 0xff#8
  | t + 1, k => fun x => masks k x &&& leftBy masks t (k + 1) x

theorem program_untouched {a n x : Nat} (h : ¬ Touches a n x) (data u m : Mem) :
    program a n data u m x = m x := if_neg h

/-- Only the bytes that it sends matter to a program. -/
theorem program_congr {a n : Nat} {data data' : Mem} (h : ∀ k, k < n → data k = data' k)
    (u m : Mem) : program a n data u m = program a n data' u m := by
  funext x
  unfold program
  split
  · rename_i hx
    rw [h _ hx.2]
  · rfl

theorem attempts_untouched (masks : Nat → Mem) {a n x : Nat} (h : ¬ Touches a n x) (data : Mem)
    (t : Nat) (m : Mem) (k : Nat) : attempts masks a n data t m k x = m x := by
  induction t generalizing m k with
  | zero => rfl
  | succ t ih => rw [attempts, ih, program_untouched h]

theorem attempts_succ (masks : Nat → Mem) (a n : Nat) (data : Mem) (t : Nat) (m : Mem) (k : Nat) :
    attempts masks a n data (t + 1) m k =
      program a n data (masks (k + t)) (attempts masks a n data t m k) := by
  induction t generalizing m k with
  | zero => rfl
  | succ t ih =>
    rw [attempts, ih, attempts, Nat.succ_add_eq_add_succ]

/-- Several programs of a chunk are one, with the bits unprogrammed that all of them left. -/
theorem attempts_eq (masks : Nat → Mem) {a n x : Nat} (h : Touches a n x) (data : Mem)
    (t : Nat) (m : Mem) (k : Nat) :
    attempts masks a n data t m k x = m x &&& (data (pageIndex a x) ||| leftBy masks t k x) := by
  induction t generalizing m k with
  | zero =>
    have hff : data (pageIndex a x) ||| (0xff#8 : BitVec 8) = 0xff#8 := BitVec.or_allOnes
    simp only [attempts, leftBy, hff]
    exact BitVec.and_allOnes.symm
  | succ t ih =>
    rw [attempts, ih, program, if_pos h, leftBy]
    ext b hb
    simp only [BitVec.getElem_and, BitVec.getElem_or]
    cases (m x)[b] <;> cases (data (pageIndex a x))[b] <;> simp

theorem leftBy_const {masks : Nat → Mem} {x : Nat} {w : BitVec 8} (h : ∀ k, masks k x = w)
    {t : Nat} (ht : 0 < t) (k : Nat) : leftBy masks t k x = w := by
  induction t generalizing k with
  | zero => omega
  | succ t ih =>
    show masks k x &&& leftBy masks t (k + 1) x = w
    rw [h]
    rcases Nat.eq_zero_or_pos t with rfl | ht
    · exact BitVec.and_allOnes
    · rw [ih ht, BitVec.and_self]

/-! ## Programming with verification -/

/-- The `n` bytes at `a` are `data`. -/
def Verifies (a n : Nat) (data m : Mem) : Prop := ∀ j, j < n → m (a + j) = data j

instance (a n : Nat) (data m : Mem) : Decidable (Verifies a n data m) :=
  inferInstanceAs (Decidable (∀ j, j < n → _))

/-- The chunk reads back as written after `t` attempts, and after none of the earlier ones. -/
structure FirstVerified (masks : Nat → Mem) (a n : Nat) (data m : Mem) (k t : Nat) : Prop where
  pos : 0 < t
  verified : Verifies a n data (attempts masks a n data t m k)
  first : ∀ t', 0 < t' → t' < t → ¬ Verifies a n data (attempts masks a n data t' m k)

theorem FirstVerified.unique {masks : Nat → Mem} {a n : Nat} {data m : Mem} {k t t' : Nat}
    (h : FirstVerified masks a n data m k t) (h' : FirstVerified masks a n data m k t') : t = t' := by
  rcases Nat.lt_trichotomy t t' with hlt | he | hlt
  · exact absurd h.verified (h'.first t h.pos hlt)
  · exact he
  · exact absurd h'.verified (h.first t' h'.pos hlt)

/-- From the contents `m` the chunks from position `i` of `buf` on, `c` of them, are written one
after the other at `base + i`, `base + i + n` and so on, each of them verified within `limit`
attempts; the last argument is the contents after that. -/
inductive Flashes (masks : Nat → Mem) (n limit base : Nat) (buf : Mem) :
    Nat → Nat → Mem → Nat → Mem → Prop
  | done (i : Nat) (m : Mem) (k : Nat) : Flashes masks n limit base buf 0 i m k m
  | chunk {c i k t : Nat} {m m' : Mem} :
      FirstVerified masks (base + i) n (fun j => buf (i + j)) m k t → t ≤ limit →
      Flashes masks n limit base buf c (i + n)
        (attempts masks (base + i) n (fun j => buf (i + j)) t m k) (k + t) m' →
      Flashes masks n limit base buf (c + 1) i m k m'

/-- The programmer gets to the end: every one of the `c` chunks verifies within `limit` attempts. -/
def EveryChunkVerifies (masks : Nat → Mem) (n limit base : Nat) (buf : Mem) (c : Nat) (m : Mem)
    (k : Nat) : Prop :=
  ∃ m', Flashes masks n limit base buf c 0 m k m'

section

variable {masks : Nat → Mem} {n limit base : Nat} {buf m m' : Mem} {c i k : Nat}

/-- The address of the chunk `c'` after position `i`, seen from the next chunk. -/
theorem chunk_succ (base i n c' : Nat) : base + (i + n) + c' * n = base + i + (c' + 1) * n := by
  rw [Nat.succ_mul]
  omega

/-- Addresses that no chunk touches keep their byte. -/
theorem Flashes.untouched (h : Flashes masks n limit base buf c i m k m') {x : Nat}
    (hx : ∀ c', c' < c → ¬ Touches (base + i + c' * n) n x) : m' x = m x := by
  induction h with
  | done => rfl
  | @chunk c i k t m m' hv ht h ih =>
    have h0 : ¬ Touches (base + i) n x := by simpa using hx 0 (by omega)
    rw [ih, attempts_untouched masks h0]
    intro c' hc'
    rw [chunk_succ]
    exact hx (c' + 1) (by omega)

/-- Of the bits of a touched byte, the ones of the buffer stay; a bit that every program leaves
stays too. -/
theorem Flashes.touched (hn : ChunkSize n) (h : Flashes masks n limit base buf c i m k m')
    {c' x : Nat} (hc' : c' < c) (hx : Touches (base + i + c' * n) n x) :
    ∃ u, m' x = m x &&& (buf (i + c' * n + pageIndex (base + i + c' * n) x) ||| u) ∧
      ∀ w, (∀ k, masks k x = w) → u = w := by
  induction h generalizing c' with
  | done => omega
  | @chunk c i k t m m' hv ht h ih =>
    cases c' with
    | zero =>
      have hx : Touches (base + i) n x := by simpa using hx
      have hlater : m' x = attempts masks (base + i) n (fun j => buf (i + j)) t m k x := by
        refine h.untouched fun c'' _ ht' => ?_
        rw [chunk_succ] at ht'
        exact not_touches_of_touches hn (by omega) ht' hx
      refine ⟨leftBy masks t k x, ?_, fun w hw => leftBy_const hw hv.pos k⟩
      rw [hlater, attempts_eq masks hx]
      simp
    | succ c' =>
      have hne : ¬ Touches (base + i) n x := not_touches_of_touches hn (by omega) hx
      rw [← chunk_succ] at hx
      obtain ⟨u, hu, hw⟩ := ih (by omega) hx
      refine ⟨u, ?_, hw⟩
      have hidx : i + n + c' * n = i + (c' + 1) * n := by
        rw [Nat.succ_mul]
        omega
      rw [hu, attempts_untouched masks hne, chunk_succ, hidx]

/-- What a chunk's verification says: its bytes in its own page are there at the end, and its bytes
in the next page were there from the start. -/
theorem Flashes.verified (hn : ChunkSize n) (h : Flashes masks n limit base buf c i m k m')
    {c' j : Nat} (hc' : c' < c) (hj : j < n) :
    (if Touches (base + i + c' * n) n (base + i + c' * n + j) then m' else m)
      (base + i + c' * n + j) = buf (i + c' * n + j) := by
  induction h generalizing c' with
  | done => omega
  | @chunk c i k t m m' hv ht h ih =>
    cases c' with
    | zero =>
      have hver := hv.verified j hj
      simp only [Nat.zero_mul, Nat.add_zero]
      by_cases hx : Touches (base + i) n (base + i + j)
      · rw [if_pos hx]
        have hlater : m' (base + i + j) =
            attempts masks (base + i) n (fun j => buf (i + j)) t m k (base + i + j) := by
          refine h.untouched fun c'' _ ht' => ?_
          rw [chunk_succ] at ht'
          exact not_touches_of_touches hn (by omega) ht' hx
        rw [hlater]
        exact hver
      · rw [if_neg hx]
        rwa [attempts_untouched masks hx] at hver
    | succ c' =>
      have hidx : i + n + c' * n = i + (c' + 1) * n := by
        rw [Nat.succ_mul]
        omega
      have hv' := @ih c' (by omega)
      rw [chunk_succ, hidx] at hv'
      have hne : ¬ Touches (base + i) n (base + i + (c' + 1) * n + j) :=
        not_touches_of_later hn (Nat.succ_pos c') (Nat.le_add_right ..)
      split
      · rename_i hx
        rwa [if_pos hx] at hv'
      · rename_i hx
        rwa [if_neg hx, attempts_untouched masks hne] at hv'

/-- The programmer gets to the end at the first attempt for each chunk, if no program leaves bits
that are read back, and every byte that is read back can be or is the buffer's. -/
theorem flashes_of_possible (hn : ChunkSize n) (hl : 0 < limit) (hm : ∀ k x, base + i ≤ x → masks k x = 0)
    (h : ∀ c' j, c' < c → j < n →
      if Touches (base + i + c' * n) n (base + i + c' * n + j) then
        m (base + i + c' * n + j) &&& buf (i + c' * n + j) = buf (i + c' * n + j)
      else m (base + i + c' * n + j) = buf (i + c' * n + j)) :
    ∃ m', Flashes masks n limit base buf c i m k m' := by
  induction c generalizing i m k with
  | zero => exact ⟨m, .done i m k⟩
  | succ c ih =>
    have hv : FirstVerified masks (base + i) n (fun j => buf (i + j)) m k 1 := by
      refine ⟨by omega, fun j hj => ?_, fun t' h0 h1 => by omega⟩
      have h0 := h 0 j (by omega) hj
      simp only [Nat.zero_mul, Nat.add_zero] at h0
      split at h0
      · rename_i hx
        rw [attempts_eq masks hx, pageIndex_add hx.1, leftBy_const (w := 0) (x := base + i + j)]
        · simpa using h0
        · exact fun k => hm k _ (Nat.le_add_right ..)
        · exact Nat.one_pos
      · rename_i hx
        rw [attempts_untouched masks hx]
        exact h0
    obtain ⟨m', hm'⟩ := ih (i := i + n) (k := k + 1)
      (m := attempts masks (base + i) n (fun j => buf (i + j)) 1 m k)
      (fun k x hx => hm k x (by omega)) fun c' j hc' hj => by
        have hidx : i + n + c' * n = i + (c' + 1) * n := by
          rw [Nat.succ_mul]
          omega
        have hne : ¬ Touches (base + i) n (base + i + (c' + 1) * n + j) :=
          not_touches_of_later hn (Nat.succ_pos c') (Nat.le_add_right ..)
        rw [chunk_succ, hidx, attempts_untouched masks hne]
        exact h (c' + 1) j (by omega) hj
    exact ⟨m', .chunk hv hl hm'⟩

end

end Nor
