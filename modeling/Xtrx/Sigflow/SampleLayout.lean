import Xtrx.Sigflow.SoapyIo

/-!
# The samples of a matrix through the loopback

`soapy_write!` copies a matrix into a buffer, the FPGA sends its 32-bit words back with the upper four
bits of each half cleared, and `soapy_read!` copies them into a matrix and extends the signs.

- **`wrap12`**: a component as 12 bits with sign.
- **`toInt_signExtend12`**, **`mask_word`**: one component; the two components of a word.
- **`soapyWrite_body`**, **`soapyRead_buff`**: what a call copies, whatever the driver answers.
- **`sample_round_trip`**: the matrix that is read, for every MTU.
-/

namespace Xtrx
namespace Sigflow

open Conc Kernel User Soapy

variable {n m : Nat} {T : Type} {rows cols : Nat}

/-- The 12-bit value with sign that is equal modulo 4096. -/
def wrap12 (x : Int) : Int := (x + 2048) % 4096 - 2048

theorem wrap12_eq {x : Int} (h : -2048 ≤ x) (h' : x ≤ 2047) : wrap12 x = x := by
  unfold wrap12
  omega

/-- `TX-RX Loopback with 12-bit masking` of a 32-bit word. -/
def loopbackMask : BitVec 32 := 0x0fff0fff

/-! ## Components -/

theorem toNat_mask12 (x : BitVec 16) : (x &&& 0x0fff).toNat = x.toNat % 2 ^ 12 := by
  rw [BitVec.toNat_and, show (0x0fff : BitVec 16).toNat = 2 ^ 12 - 1 by rfl,
    Nat.and_two_pow_sub_one_eq_mod]

/-- Sign extension after the mask. -/
theorem toInt_signExtend12 (x : BitVec 16) :
    (signExtend12 (x &&& 0x0fff)).toInt = wrap12 x.toInt := by
  have hmask := toNat_mask12 x
  have hlt : x.toNat % 2 ^ 12 < 2 ^ 12 := Nat.mod_lt _ (by decide)
  have hint : (x &&& 0x0fff).toInt = (x.toNat % 2 ^ 12 : Nat) := by
    rw [BitVec.toInt_eq_toNat_of_lt (by omega), hmask]
  have hx : wrap12 x.toInt = ((x.toNat : Int) + 2048) % 4096 - 2048 := by
    rw [BitVec.toInt_eq_toNat_cond, wrap12]
    split <;> omega
  rw [hx]
  unfold signExtend12
  split
  · rename_i hge
    rw [hint] at hge
    rw [BitVec.toInt_sub, hint, show (1 <<< 12 : BitVec 16).toInt = 4096 by rfl]
    rw [Int.bmod_eq_of_le (by omega) (by omega)]
    omega
  · rename_i hge
    rw [hint] at hge ⊢
    omega

/-- The mask acts on both components. -/
theorem mask_word (z : ComplexInt16) :
    ofWord (word z &&& loopbackMask) = (z.1 &&& 0x0fff, z.2 &&& 0x0fff) := by
  have hlow : (word z).extractLsb' 0 16 = z.1 := BitVec.extractLsb'_append_eq_right
  have hhigh : (word z).extractLsb' 16 16 = z.2 := BitVec.extractLsb'_append_eq_left
  rw [ofWord, BitVec.extractLsb'_and, BitVec.extractLsb'_and, hlow, hhigh]
  rfl

/-! ## Calls -/

namespace ColMajor

variable {x : ColMajor T rows cols}

theorem getElem?_unsafeCopy (i : Fin rows) (c : Fin cols) :
    (x.permutedims.unsafeCopy (cols * rows))[(finProdFinEquiv (i, c)).val]? =
      some (some (x.get i c)) := by
  have hlt : (finProdFinEquiv (i, c)).val < cols * rows :=
    Nat.lt_of_lt_of_eq (finProdFinEquiv (i, c)).isLt (Nat.mul_comm rows cols)
  rw [unsafeCopy, List.getElem?_map, List.getElem?_range hlt, Option.map_some,
    dif_pos (finProdFinEquiv (i, c)).isLt]
  exact congrArg (fun y => some (some y)) (x.get_permutedims i c)

theorem ext_get {y : ColMajor T rows cols} (h : ∀ i c, x.get i c = y.get i c) : x = y := by
  obtain ⟨x⟩ := x
  obtain ⟨y⟩ := y
  congr 1
  funext k
  obtain ⟨⟨c, i⟩, rfl⟩ := finProdFinEquiv.surjective k
  exact h i c

theorem copyto_self (dest src : ColMajor T rows cols) : dest.copyto src = some src := by
  rw [copyto, if_pos (Nat.le_refl _)]
  congr 2
  funext k
  exact dif_pos k.isLt

end ColMajor

/-- The `try` block sees the return value of `acquireWriteBuffer`. -/
theorem soapyWrite_body (s : SoapyStream) (args : WriteArgs T) (x : SoapyLiteXXTRX) :
    Proc.Returns (fun r _ => r.body = writeBody s args.buff r.err)
      (soapyWrite s args : Dev n (WriteDone T)) x := by
  refine Proc.Returns.bind (Proc.Returns.of_forall (fun a x₁ => ?_) _ _)
  refine Proc.Returns.bind (Proc.Returns.of_forall (fun _ x₂ => ?_) _ _)
  exact Proc.Returns.pure rfl

/-- What a call copies out of the mapping. -/
def Copied (s : SoapyStream) (args : ReadArgs rows cols) (r : ReadDone rows cols) : Prop :=
  ∃ addr mem buff, r.source = some (addr, mem) ∧
    args.buff.copyto (unsafeWrap mem addr s.nchannels s.mtu).permutedims = some buff ∧
    r.buff = if args.autoSignExtend then signExtend buff else buff

theorem soapyRead_buff (s : SoapyStream) (args : ReadArgs rows cols) (x : SoapyLiteXXTRX) :
    Proc.Returns (fun r _ => r.ret = .ok true → Copied s args r)
      (soapyRead s args : Dev n (ReadDone rows cols)) x := by
  refine Proc.Returns.bind (Proc.Returns.of_forall (fun a x₁ => ?_) _ _)
  dsimp only
  split
  · exact Proc.Returns.pure (by nofun)
  · split
    · exact Proc.Returns.pure (by nofun)
    · split
      · exact Proc.Returns.pure (by nofun)
      · refine Proc.Returns.bind (Proc.Returns.sys fun mem => ?_)
        split
        · exact Proc.Returns.pure (by nofun)
        · rename_i buff hbuff
          refine Proc.Returns.bind (Proc.Returns.of_forall (fun _ x₂ => ?_) _ _)
          exact Proc.Returns.pure fun _ => ⟨_, mem, buff, rfl, hbuff, rfl⟩

theorem get_signExtend (x : ColMajor ComplexInt16 rows cols) (i : Fin rows) (c : Fin cols) :
    (signExtend x).get i c = (signExtend12 (x.get i c).1, signExtend12 (x.get i c).2) := rfl

theorem get_unsafeWrap (mem : Nat → BitVec 8) (addr : Nat) (c : Fin rows) (i : Fin cols) :
    (unsafeWrap mem addr rows cols).get c i =
      ofWord (wordAt mem (addr + 4 * (finProdFinEquiv (i, c)).val)) := rfl

/-! ## The round trip -/

/-- The words of a buffer are back, in the mapping `mem` from the address `addr` on. -/
def ComesBack (words : List (Option ComplexInt16)) (addr : Nat) (mem : Nat → BitVec 8) : Prop :=
  ∀ (j : Nat) z, words[j]? = some (some z) → wordAt mem (addr + 4 * j) = word z &&& loopbackMask

/-- What `soapy_write!` has copied to a buffer. -/
theorem writeBody_words {s : SoapyStream} {buff : ColMajor T rows cols} {err : Int}
    {words : List (Option T)} (h : writeBody s buff err = .ok (some words)) :
    words = buff.permutedims.unsafeCopy (s.nchannels * s.mtu) := by
  unfold writeBody at h
  split at h
  · cases h
  · split at h
    · cases h
    · cases h
      rfl

/-- The words of a matrix that come back are the matrix, with masked components. -/
theorem ComesBack.unsafeWrap {X : ColMajor ComplexInt16 m cols} {addr : Nat} {mem : Nat → BitVec 8}
    (h : ComesBack (X.permutedims.unsafeCopy (cols * m)) addr mem) (i : Fin m) (c : Fin cols) :
    (unsafeWrap mem addr cols m).permutedims.get i c =
      ((X.get i c).1 &&& 0x0fff, (X.get i c).2 &&& 0x0fff) := by
  rw [ColMajor.get_permutedims, get_unsafeWrap, h _ _ (ColMajor.getElem?_unsafeCopy i c), mask_word]

/-- A matrix of one buffer, written and read with two channels. -/
theorem sample_round_trip (fd fd' : Nat) (X : ColMajor ComplexInt16 m 2) (timeoutUs : Int)
    (u : Unassigned) (args : ReadArgs m 2) (hauto : args.autoSignExtend = true)
    (x x' y y' : SoapyLiteXXTRX) (k k' l l' : Driver n) (es fs : List (Ev (Irq n) Choice))
    (w : WriteDone ComplexInt16) (r : ReadDone m 2) (words : List (Option ComplexInt16))
    (addr : Nat) (mem : Nat → BitVec 8)
    (hw : (kernelWorld n fd).exec (soapyWrite ⟨m, 2⟩ ⟨m, 2, X, timeoutUs, u⟩ x) es k =
      some ((.ok w, x'), k'))
    (hsent : w.body = .ok (some words))
    (hr : (kernelWorld n fd').exec (soapyRead ⟨m, 2⟩ args y) fs l = some ((.ok r, y'), l'))
    (hret : r.ret = .ok true) (hsource : r.source = some (addr, mem))
    (hback : ComesBack words addr mem) :
    (∀ i c, (r.buff.get i c).1.toInt = wrap12 (X.get i c).1.toInt ∧
        (r.buff.get i c).2.toInt = wrap12 (X.get i c).2.toInt) ∧
      ((∀ i c, (-2048 ≤ (X.get i c).1.toInt ∧ (X.get i c).1.toInt ≤ 2047) ∧
          -2048 ≤ (X.get i c).2.toInt ∧ (X.get i c).2.toInt ≤ 2047) →
        r.buff = X) := by
  have hwords : words = X.permutedims.unsafeCopy (2 * m) :=
    writeBody_words (s := ⟨m, 2⟩) ((World.exec_returns (soapyWrite_body _ _ x) hw w rfl).symm.trans
      hsent)
  obtain ⟨addr', mem', buff, hsource', hcopy, hbuff⟩ :=
    World.exec_returns (soapyRead_buff _ args y) hr r rfl hret
  cases hsource.symm.trans hsource'
  subst hwords
  rw [ColMajor.copyto_self] at hcopy
  cases hcopy
  rw [hauto, if_pos rfl] at hbuff
  have hget : ∀ i c, r.buff.get i c =
      (signExtend12 ((X.get i c).1 &&& 0x0fff), signExtend12 ((X.get i c).2 &&& 0x0fff)) := by
    intro i c
    rw [hbuff, get_signExtend, hback.unsafeWrap]
  have hint : ∀ i c, (r.buff.get i c).1.toInt = wrap12 (X.get i c).1.toInt ∧
      (r.buff.get i c).2.toInt = wrap12 (X.get i c).2.toInt := by
    intro i c
    rw [hget]
    exact ⟨toInt_signExtend12 _, toInt_signExtend12 _⟩
  refine ⟨hint, fun hrange => ColMajor.ext_get fun i c => ?_⟩
  obtain ⟨⟨hre, hre'⟩, him, him'⟩ := hrange i c
  obtain ⟨h1, h2⟩ := hint i c
  rw [wrap12_eq hre hre'] at h1
  rw [wrap12_eq him him'] at h2
  exact Prod.ext (BitVec.eq_of_toInt_eq h1) (BitVec.eq_of_toInt_eq h2)

/-- Two samples of two channels; one component needs more than 12 bits. -/
def twoSamples : ColMajor ComplexInt16 2 2 := ⟨![(1, 2), (-3, 4), (2047, -2048), (3000, -1)]⟩

/-- The elements of `twoSamples`, interleaved. -/
def twoInterleaved : List ComplexInt16 := [(1, 2), (2047, -2048), (-3, 4), (3000, -1)]

/-- The memory that holds their words after the loopback. -/
def loopedBack (a : Nat) : BitVec 8 :=
  (word (twoInterleaved.getD (a / 4) (0, 0)) &&& loopbackMask).extractLsb' (8 * (a % 4)) 8

theorem comesBack_of_map {zs : List ComplexInt16} {addr : Nat} {mem : Nat → BitVec 8}
    (h : ((List.range zs.length).map fun j => wordAt mem (addr + 4 * j)) =
      zs.map fun z => word z &&& loopbackMask) : ComesBack (zs.map some) addr mem := by
  intro j z hz
  rw [List.getElem?_map] at hz
  obtain ⟨z', hz', he⟩ := Option.map_eq_some_iff.mp hz
  cases he
  have hlt : j < zs.length := (List.getElem?_eq_some_iff.mp hz').1
  have hj := congrArg (fun ws => ws[j]?) h
  rw [List.getElem?_map, List.getElem?_map, hz', List.getElem?_range hlt] at hj
  exact Option.some.inj hj

/-- The result of a call, seen through `f`. -/
def resultOf {α β : Type} (f : α → Option β)
    (r : Option ((Except Halt α × SoapyLiteXXTRX) × Driver 1)) : Option β :=
  r.bind fun z => z.1.1.toOption.bind f

theorem resultOf_eq_some {α β : Type} {f : α → Option β} {b : β}
    {r : Option ((Except Halt α × SoapyLiteXXTRX) × Driver 1)} (h : resultOf f r = some b) :
    ∃ a x k, r = some ((.ok a, x), k) ∧ f a = some b := by
  obtain ⟨⟨⟨e | a, x⟩, k⟩, hr, hf⟩ := Option.bind_eq_some_iff.mp h
  · cases hf
  · exact ⟨a, x, k, hr, hf⟩

theorem eq_ok_of_toOption {ε α : Type} {e : Except ε α} {a : α} (h : e.toOption = some a) :
    e = .ok a := by
  cases e with
  | error e => cases h
  | ok b =>
    cases h
    rfl

/-- Two samples are written, come back and are read; 3000 becomes -1096. -/
theorem sample_round_trip_two :
    ∃ w r, (∃ x' k', (kernelWorld 1 3).exec
        (soapyWrite ⟨2, 2⟩ ⟨2, 2, twoSamples, 0, ⟨0, -1⟩⟩ (newStarted .reader))
        [.thr .ready, .thr .ready] (oneStarted .reader) = some ((.ok w, x'), k')) ∧
      (∃ y' l', (kernelWorld 1 3).exec
        (soapyRead ⟨2, 2⟩ ⟨twoSamples, 0, true, ⟨0, -1⟩⟩ (newStarted .writer))
        [.env ⟨0, .writer, 1⟩, .thr .ready, .thr (.bytes loopedBack), .thr .ready]
        (oneStarted .writer) = some ((.ok r, y'), l')) ∧
      ∀ i c, (r.buff.get i c).1.toInt = wrap12 (twoSamples.get i c).1.toInt ∧
        (r.buff.get i c).2.toInt = wrap12 (twoSamples.get i c).2.toInt := by
  obtain ⟨w, x', k', hw, hsent⟩ := resultOf_eq_some
    (f := fun w : WriteDone ComplexInt16 => w.body.toOption) (b := some (twoInterleaved.map some))
    (r := (kernelWorld 1 3).exec
      (soapyWrite ⟨2, 2⟩ ⟨2, 2, twoSamples, 0, ⟨0, -1⟩⟩ (newStarted .reader))
      [.thr .ready, .thr .ready] (oneStarted .reader)) (by decide +kernel)
  obtain ⟨r, y', l', hr, hread⟩ := resultOf_eq_some
    (f := fun r : ReadDone 2 2 => r.ret.toOption.bind fun ok => r.source.map fun s =>
      (ok, s.1, (List.range 4).map fun j => wordAt s.2 (s.1 + 4 * j)))
    (b := (true, 0, twoInterleaved.map fun z => word z &&& loopbackMask))
    (r := (kernelWorld 1 3).exec
      (soapyRead ⟨2, 2⟩ ⟨twoSamples, 0, true, ⟨0, -1⟩⟩ (newStarted .writer))
      [.env ⟨0, .writer, 1⟩, .thr .ready, .thr (.bytes loopedBack), .thr .ready]
      (oneStarted .writer)) (by decide +kernel)
  obtain ⟨ok, hret, hsource⟩ := Option.bind_eq_some_iff.mp hread
  obtain ⟨⟨addr, mem⟩, hs, he⟩ := Option.map_eq_some_iff.mp hsource
  injection he with hok he
  injection he with haddr hwords
  change addr = 0 at haddr
  subst hok haddr
  refine ⟨w, r, ⟨x', k', hw⟩, ⟨y', l', hr⟩, ?_⟩
  exact (sample_round_trip 3 3 twoSamples 0 ⟨0, -1⟩ ⟨twoSamples, 0, true, ⟨0, -1⟩⟩ rfl _ x' _ y' _
    k' _ l' _ _ w r _ 0 mem hw (eq_ok_of_toOption hsent) hr (eq_ok_of_toOption hret) hs
    (comesBack_of_map hwords)).1

end Sigflow
end Xtrx
